import WeaveFlow.State.Snapshot

/-!
# Records as JSON objects

A Go struct is marshalled as an object with one field for each of its own, in which a field with
`omitempty` and its zero value is left out.  Decoding gives a field that is not there, or `null`,
its zero value, and may refuse unknown fields.

The fields of a record are given as a list of optional values by name (`Assoc.present` drops
those that are left out).  `get_normal_present` reads a field of the object that was marshalled
and decoded again, so that the round trip of a record is one lemma for each kind of field.
-/

namespace WeaveFlow

open Assoc Raw

/-! ## Fields -/

/-- A text field with `omitempty`. -/
def textEntry (s : String) : Option Raw := if s = "" then none else some (Raw.string s)

/-- A value of type `any` with `omitempty`. -/
def valueEntry : Raw → Option Raw
  | .leaf .null => none
  | v => some v

/-- A text field of a decoded object. -/
def textField : Option Raw → Option String
  | none => some ""
  | some (.leaf .null) => some ""
  | some (.leaf (.string s)) => some s
  | some _ => none

/-- An integer field of a decoded object. -/
def intField : Option Raw → Option Int
  | none => some 0
  | some (.leaf .null) => some 0
  | some (.leaf (.int n)) => some n
  | some _ => none

/-- A boolean field of a decoded object. -/
def boolField : Option Raw → Option Bool
  | none => some false
  | some (.leaf .null) => some false
  | some (.leaf (.bool b)) => some b
  | some _ => none

/-- `DisallowUnknownFields`. -/
def knownFields (names : List String) (kids : Object) : Bool :=
  kids.all fun e => decide (e.1 ∈ names)

/-! ## Objects with optional fields -/

theorem sorted_of_keys (names : List String) (hn : entries.map Prod.fst = names)
    (hs : names.Pairwise (· < ·)) : Assoc.Sorted entries := by
  subst hn
  exact List.pairwise_map.mp hs

/-- The marshalled object has the normal forms of the fields that are there. -/
theorem jsonNormal_present (entries : List (String × Option Raw)) :
    jsonNormal (.node (present entries)) =
      .node (present (mapVals (Option.map jsonNormal) entries)) := by
  rw [jsonNormal_node, mapVals_present]

theorem valid_present (hs : Assoc.Sorted entries)
    (h : ∀ e ∈ entries, ∀ v, e.2 = some v → Raw.Valid v) :
    Raw.Valid (.node (present entries)) := by
  refine (valid_hereditary _).mpr ⟨sorted_present hs, fun e he => ?_⟩
  exact h _ (mem_present.mp he) e.2 rfl

/-- A field of a marshalled object. -/
theorem get_normal_present (hs : Assoc.Sorted entries) (name : String) :
    Assoc.get name (present (mapVals (Option.map jsonNormal) entries)) =
      ((Assoc.get name entries).join).map jsonNormal := by
  rw [get_present (hs.mapVals _), get_mapVals]
  cases Assoc.get name entries with
  | none => rfl
  | some o => cases o <;> rfl

theorem knownFields_present {names : List String} (h : ∀ e ∈ entries, e.1 ∈ names) :
    knownFields names (present (mapVals (Option.map jsonNormal) entries)) = true := by
  refine List.all_eq_true.mpr fun e he => decide_eq_true ?_
  obtain ⟨o, ho, -⟩ := mem_mapVals (mem_present.mp he)
  exact h _ ho

theorem textField_textEntry (s : String) : textField ((textEntry s).map jsonNormal) = some s := by
  rw [textEntry]
  split
  next h => rw [h]; rfl
  · rfl

theorem textField_some (s : String) :
    textField (Option.map jsonNormal (some (Raw.string s))) = some s := rfl

theorem valueEntry_getD (v : Raw) :
    ((valueEntry v).map jsonNormal).getD Raw.null = v.jsonNormal := by
  unfold valueEntry
  split
  · rfl
  · rfl

end WeaveFlow
