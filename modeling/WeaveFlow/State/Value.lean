import WeaveFlow.Lib.Base64
import WeaveFlow.Lib.DeepMerge

/-!
# State values

State holds Go values.  A `map[string]any` is a node of a `MapTree`, everything else
is a leaf: scalars, slices with their element type, and values of other Go types
(structs, typed maps, arrays, other number types), which the state code treats as
opaque and which are given by their type name and by the JSON they marshal to.  An
integer leaf is an `int`, `uint64` or `*big.Int` by its size, as decoding makes it.

`jsonNormal` is what marshalling a value and decoding it again gives: a `[]byte` becomes its
base64 text and other slices become `[]any`, integral floats become integers and opaque values
become their JSON.  An integral float is written with all its digits, as it is below `2 ^ 53`;
from there on Go writes the shortest digits that give the float back, and the model the exact
value.  Two
values are JSON-equal when their normal forms are equal.  `jsonText` stands for the
marshalled text, which `jsonEqual` compares: there an integral float from `10 ^ 21` on
has an exponent.  A normal form can have an
object where the value has an opaque leaf.  `canon` keeps the two apart: it only
normalises the labels, so that the operations of the state, which never look into a
leaf, commute with it.
-/

namespace WeaveFlow

open Bool MapTree

/-- The dynamic types that the state code tells apart. -/
inductive GoType where
  | any
  | bool
  | int
  | float64
  | string
  | object
  | slice (elem : GoType)
  | named (name : String)
  deriving DecidableEq, Repr

/-- The text that `%T` prints. -/
def GoType.text : GoType → String
  | any => "interface {}"
  | bool => "bool"
  | int => "int"
  | float64 => "float64"
  | string => "string"
  | object => "map[string]interface {}"
  | slice elem => "[]" ++ elem.text
  | named name => name

/-- The values that are not a `map[string]any`. -/
inductive Leaf where
  | null
  | bool (b : Bool)
  | int (n : Int)
  | float64 (q : Rat)
  | string (s : String)
  | slice (elem : GoType) (items : List (MapTree String Leaf))
  | nilSlice (elem : GoType)
  | opaqueValue (typeName : String) (json : MapTree String Leaf)

/-- A Go value, with no invariant. -/
abbrev Raw := MapTree String Leaf

/-- The entries of a `map[string]any`. -/
abbrev Object := List (String × Raw)

/-- The type of the items of a `[]byte`. -/
abbrev GoType.byte : GoType := .named "uint8"

namespace Raw

/-- The value `nil`. -/
abbrev null : Raw := .leaf .null
/-- An integer, of type `int` when it fits. -/
abbrev int (n : Int) : Raw := .leaf (.int n)
/-- A `string`. -/
abbrev string (s : String) : Raw := .leaf (.string s)
/-- A slice with its element type. -/
abbrev slice (elem : GoType) (items : List Raw) : Raw := .leaf (.slice elem items)

/-! ## Dynamic types -/

/-- The type `normalizeInteger` gives an integer. -/
def integerType (n : Int) : GoType :=
  if -2 ^ 63 ≤ n ∧ n < 2 ^ 63 then .int
  else if 0 ≤ n ∧ n < 2 ^ 64 then .named "uint64"
  else .named "*big.Int"

/-- `reflect.TypeOf`: no type for `nil`. -/
def typeOf : Raw → Option GoType
  | .node _ => some .object
  | .leaf .null => none
  | .leaf (.bool _) => some .bool
  | .leaf (.int n) => some (integerType n)
  | .leaf (.float64 _) => some .float64
  | .leaf (.string _) => some .string
  | .leaf (.slice elem _) => some (.slice elem)
  | .leaf (.nilSlice elem) => some (.slice elem)
  | .leaf (.opaqueValue name _) => some (.named name)

/-- The text that `%T` prints for a value. -/
def typeText (v : Raw) : String :=
  match typeOf v with
  | none => "<nil>"
  | some t => t.text

/-- Element type and items of a value of slice kind. -/
def sliceView : Raw → Option (GoType × List Raw)
  | .leaf (.slice elem items) => some (elem, items)
  | .leaf (.nilSlice elem) => some (elem, [])
  | _ => none

/-- A value of this type can be stored in a variable of the element type. -/
def assignableTo (t elem : GoType) : Bool := elem = .any || t = elem

def asMap : Raw → Option Object
  | .node kids => some kids
  | .leaf _ => none

/-! ## Bytes -/

/-- The JSON of a byte. -/
def isByte : Raw → Bool
  | .leaf (.int n) => 0 ≤ n ∧ n < 256
  | _ => false

/-- The byte that a value of that type holds. -/
def byteOf : Raw → UInt8
  | .leaf (.opaqueValue _ (.leaf (.int n))) => .ofNat n.toNat
  | _ => 0

/-- The text that a `[]byte` is marshalled to. -/
def bytesText (items : List Raw) : String :=
  String.ofList (Base64.encodePadded (items.map byteOf))

/-! ## Well-formed values -/

mutual

/-- Maps have ascending keys, the items of a typed slice have its element type, and bytes are
bytes. -/
def wf : Raw → Bool
  | .leaf a => wfLeaf a
  | .node kids => decide (Assoc.Sorted kids) && wfKids kids

/-- `wf` for a leaf. -/
def wfLeaf : Leaf → Bool
  | .null => true
  | .bool _ => true
  | .int _ => true
  | .float64 _ => true
  | .string _ => true
  | .slice elem items => wfItems elem items
  | .nilSlice _ => true
  | .opaqueValue name json => wf json && (name != "uint8" || isByte json)

/-- `wf` for the items of a slice. -/
def wfItems (elem : GoType) : List Raw → Bool
  | [] => true
  | v :: rest => (elem = .any || typeOf v = some elem) && wf v && wfItems elem rest

/-- `wf` for the values of a map. -/
def wfKids : Object → Bool
  | [] => true
  | (_, v) :: rest => wf v && wfKids rest

end

/-- The invariant of a Go value as a proposition. -/
def Valid (v : Raw) : Prop := wf v = true

instance (v : Raw) : Decidable (Valid v) := inferInstanceAs (Decidable (_ = true))

theorem valid_opaqueValue (hn : name ≠ "uint8") (h : Valid json) :
    Valid (.leaf (.opaqueValue name json)) := by
  rw [Valid, wf, wfLeaf, and_eq_true]
  exact ⟨h, by simp [hn]⟩

theorem wfKids_iff (kids : Object) : wfKids kids = true ↔ ∀ e ∈ kids, Valid e.2 := by
  induction kids with
  | nil => simp [wfKids]
  | cons e kids ih =>
    simp [wfKids, Valid, ih]

theorem valid_hereditary : Hereditary Valid := by
  intro kids
  rw [Valid, wf, and_eq_true, decide_eq_true_eq, wfKids_iff]

/-- The maps of a valid value are well-formed trees. -/
theorem Valid.tree (h : Valid v) : MapTree.WF v := by
  induction v using MapTree.inductionOn with
  | leaf a => trivial
  | node kids ih =>
    obtain ⟨hs, hk⟩ := (valid_hereditary kids).mp h
    exact (wf_hereditary kids).mpr ⟨hs, fun e he => ih e he (hk e he)⟩

/-! ## JSON -/

mutual

/-- Marshal and decode again. -/
def jsonNormal : Raw → Raw
  | .leaf a => jsonLeaf a
  | .node kids => .node (jsonKids kids)

/-- `jsonNormal` for a leaf. -/
def jsonLeaf : Leaf → Raw
  | .null => .leaf .null
  | .bool b => .leaf (.bool b)
  | .int n => .leaf (.int n)
  | .float64 q => if q.den = 1 then .leaf (.int q.num) else .leaf (.float64 q)
  | .string s => .leaf (.string s)
  | .slice elem items =>
    if elem = .byte then .leaf (.string (bytesText items))
    else .leaf (.slice .any (jsonItems items))
  | .nilSlice _ => .leaf .null
  | .opaqueValue _ json => jsonNormal json

/-- `jsonNormal` for the items of a slice. -/
def jsonItems : List Raw → List Raw
  | [] => []
  | v :: rest => jsonNormal v :: jsonItems rest

/-- `jsonNormal` for the values of a map. -/
def jsonKids : Object → Object
  | [] => []
  | (k, v) :: rest => (k, jsonNormal v) :: jsonKids rest

end

/-- The values marshal to the same JSON. -/
def JSONEq (v w : Raw) : Prop := jsonNormal v = jsonNormal w

theorem jsonKids_eq : jsonKids kids = Assoc.mapVals jsonNormal kids := by
  induction kids with
  | nil => rfl
  | cons e kids ih =>
    rw [jsonKids, ih]
    rfl

theorem jsonNormal_node : jsonNormal (.node kids) = .node (Assoc.mapVals jsonNormal kids) := by
  rw [jsonNormal, jsonKids_eq]

theorem jsonNormal_leaf : jsonNormal (.leaf a) = jsonLeaf a := by rw [jsonNormal]

theorem jsonNormal_slice (he : elem ≠ .byte) :
    jsonNormal (slice elem items) = slice .any (jsonItems items) := by
  rw [jsonNormal_leaf, jsonLeaf, if_neg he]

theorem jsonNormal_bytes : jsonNormal (slice .byte items) = string (bytesText items) := by
  rw [jsonNormal_leaf, jsonLeaf, if_pos rfl]

theorem jsonItems_eq : jsonItems items = items.map jsonNormal := by
  induction items with
  | nil => rfl
  | cons v items ih => rw [jsonItems, ih]; rfl

mutual

/-- A normal form is its own normal form. -/
theorem jsonNormal_idem : ∀ v : Raw, jsonNormal (jsonNormal v) = jsonNormal v
  | .leaf a => by
    rw [jsonNormal_leaf]
    exact jsonLeaf_idem a
  | .node kids => by
    rw [jsonNormal, jsonNormal, jsonKids_idem kids]

theorem jsonLeaf_idem : ∀ a : Leaf, jsonNormal (jsonLeaf a) = jsonLeaf a
  | .null => rfl
  | .bool _ => rfl
  | .int _ => rfl
  | .float64 q => by
    by_cases hq : q.den = 1
    · simp [jsonLeaf, hq, jsonNormal]
    · simp [jsonLeaf, hq, jsonNormal]
  | .string _ => rfl
  | .slice elem items => by
    rw [jsonLeaf]
    split
    · rfl
    · rw [jsonNormal_slice (by decide), jsonItems_idem items]
  | .nilSlice _ => rfl
  | .opaqueValue _ json => by
    rw [jsonLeaf]
    exact jsonNormal_idem json

theorem jsonItems_idem : ∀ items : List Raw, jsonItems (jsonItems items) = jsonItems items
  | [] => rfl
  | v :: rest => by rw [jsonItems, jsonItems, jsonNormal_idem v, jsonItems_idem rest]

theorem jsonKids_idem : ∀ kids : Object, jsonKids (jsonKids kids) = jsonKids kids
  | [] => rfl
  | (k, v) :: rest => by rw [jsonKids, jsonKids, jsonNormal_idem v, jsonKids_idem rest]

end

mutual

/-- Normalising keeps the invariant. -/
theorem valid_jsonNormal : ∀ {v : Raw}, Valid v → Valid (jsonNormal v)
  | .leaf a, h => by
    rw [jsonNormal_leaf]
    exact valid_jsonLeaf (by rwa [Valid, wf] at h)
  | .node kids, h => by
    obtain ⟨hs, _⟩ := (valid_hereditary kids).mp h
    have hk : wfKids kids = true := by
      rw [Valid, wf, and_eq_true] at h
      exact h.2
    rw [Valid, jsonNormal, wf, and_eq_true, decide_eq_true_eq]
    refine ⟨?_, valid_jsonKids hk⟩
    rw [jsonKids_eq]
    exact hs.mapVals _

theorem valid_jsonLeaf : ∀ {a : Leaf}, wfLeaf a = true → Valid (jsonLeaf a)
  | .null, _ => rfl
  | .bool _, _ => rfl
  | .int _, _ => rfl
  | .float64 q, _ => by
    by_cases hq : q.den = 1
    · simp [jsonLeaf, hq, Valid, wf, wfLeaf]
    · simp [jsonLeaf, hq, Valid, wf, wfLeaf]
  | .string _, _ => rfl
  | .slice elem items, h => by
    rw [jsonLeaf]
    split
    · rfl
    · exact valid_jsonItems h
  | .nilSlice _, _ => rfl
  | .opaqueValue _ json, h => by
    rw [wfLeaf, and_eq_true] at h
    exact valid_jsonNormal h.1

theorem valid_jsonItems : ∀ {elem : GoType} {items : List Raw}, wfItems elem items = true →
      wfItems .any (jsonItems items) = true
  | _, [], _ => rfl
  | elem, v :: rest, h => by
    rw [wfItems, and_eq_true, and_eq_true] at h
    rw [jsonItems, wfItems, and_eq_true, and_eq_true]
    exact ⟨⟨by simp, valid_jsonNormal h.1.2⟩, valid_jsonItems h.2⟩

theorem valid_jsonKids : ∀ {kids : Object}, wfKids kids = true → wfKids (jsonKids kids) = true
  | [], _ => rfl
  | (k, v) :: rest, h => by
    rw [wfKids, and_eq_true] at h
    rw [jsonKids, wfKids, and_eq_true]
    exact ⟨valid_jsonNormal h.1, valid_jsonKids h.2⟩

end

mutual

/-- The marshalled text, token by token. -/
def jsonText : Raw → Raw
  | .leaf a => jsonTextLeaf a
  | .node kids => .node (jsonTextKids kids)

/-- `jsonText` for a leaf. -/
def jsonTextLeaf : Leaf → Raw
  | .null => .leaf .null
  | .bool b => .leaf (.bool b)
  | .int n => .leaf (.int n)
  | .float64 q =>
    if q.den = 1 ∧ q.num.natAbs < 10 ^ 21 then .leaf (.int q.num) else .leaf (.float64 q)
  | .string s => .leaf (.string s)
  | .slice elem items =>
    if elem = .byte then .leaf (.string (bytesText items))
    else .leaf (.slice .any (jsonTextItems items))
  | .nilSlice _ => .leaf .null
  | .opaqueValue _ json => jsonText json

/-- `jsonText` for the items of a slice. -/
def jsonTextItems : List Raw → List Raw
  | [] => []
  | v :: rest => jsonText v :: jsonTextItems rest

/-- `jsonText` for the values of a map. -/
def jsonTextKids : Object → Object
  | [] => []
  | (k, v) :: rest => (k, jsonText v) :: jsonTextKids rest

end

mutual

/-- The text decides the normal form. -/
theorem jsonNormal_jsonText : ∀ v : Raw, jsonNormal (jsonText v) = jsonNormal v
  | .leaf a => by
    rw [jsonText, jsonNormal_leaf]
    exact jsonNormal_jsonTextLeaf a
  | .node kids => by
    rw [jsonText, jsonNormal, jsonNormal, jsonKids_jsonTextKids kids]

theorem jsonNormal_jsonTextLeaf : ∀ a : Leaf, jsonNormal (jsonTextLeaf a) = jsonLeaf a
  | .null => rfl
  | .bool _ => rfl
  | .int _ => rfl
  | .float64 q => by
    by_cases hq : q.den = 1 ∧ q.num.natAbs < 10 ^ 21
    · rw [jsonTextLeaf, if_pos hq, jsonLeaf, if_pos hq.1]
      rfl
    · rw [jsonTextLeaf, if_neg hq, jsonNormal_leaf]
  | .string _ => rfl
  | .slice elem items => by
    rw [jsonTextLeaf, jsonLeaf]
    split
    · rfl
    · rw [jsonNormal_slice (by decide), jsonItems_jsonTextItems items]
  | .nilSlice _ => rfl
  | .opaqueValue _ json => by
    rw [jsonTextLeaf, jsonLeaf]
    exact jsonNormal_jsonText json

theorem jsonItems_jsonTextItems :
    ∀ items : List Raw, jsonItems (jsonTextItems items) = jsonItems items
  | [] => rfl
  | v :: rest => by
    rw [jsonTextItems, jsonItems, jsonItems, jsonNormal_jsonText v, jsonItems_jsonTextItems rest]

theorem jsonKids_jsonTextKids : ∀ kids : Object, jsonKids (jsonTextKids kids) = jsonKids kids
  | [] => rfl
  | (k, v) :: rest => by
    rw [jsonTextKids, jsonKids, jsonKids, jsonNormal_jsonText v, jsonKids_jsonTextKids rest]

end

/-- Below no leaf, the normal form holds the normal forms of the values. -/
theorem lookAt_jsonNormal {p : List String} {o : Option Raw} (hb : blockedAt p o = false) :
    lookAt p (o.map jsonNormal) = (lookAt p o).map jsonNormal := by
  induction p generalizing o with
  | nil => rfl
  | cons k p ih =>
    match o with
    | none => rfl
    | some (.leaf a) => cases hb
    | some (.node kids) =>
      rw [Option.map_some, jsonNormal_node, lookAt_cons_node, lookAt_cons_node, Assoc.get_mapVals]
      exact ih hb

theorem jsonNormal_lookAt {p : List String} {t v : Raw} (h : lookAt p (some t) = some v) :
    lookAt p (some t.jsonNormal) = some v.jsonNormal := by
  have hb : blockedAt p (some t) = false := by
    cases hb : blockedAt p (some t) with
    | false => rfl
    | true => simp [lookAt_of_blocked hb] at h
  have hr := lookAt_jsonNormal hb
  rw [h] at hr
  exact hr

/-! ## Normal labels -/

/-- Normalise the labels and keep the maps. -/
def canon (v : Raw) : MapTree String Raw := MapTree.map jsonLeaf v

/-- Put the normal labels back in place. -/
def glue (t : MapTree String Raw) : Raw :=
  match t with
  | .leaf v => v
  | .node kids => .node (glueKids kids)
where
  /-- `glue` for the values of a map. -/
  glueKids : List (String × MapTree String Raw) → Object
    | [] => []
    | (k, t) :: rest => (k, glue t) :: glueKids rest

theorem glue_canon : glue (canon v) = jsonNormal v := by
  induction v using MapTree.inductionOn with
  | leaf a => rw [canon, map_leaf, glue, jsonNormal_leaf]
  | node kids ih =>
    rw [canon, MapTree.map, glue, jsonNormal]
    congr 1
    induction kids with
    | nil => rfl
    | cons e kids ihk =>
      obtain ⟨k, v⟩ := e
      have hv := ih (k, v) List.mem_cons_self
      rw [canon] at hv
      rw [MapTree.mapKids, glue.glueKids, jsonKids, hv,
        ihk fun e he => ih e (List.mem_cons_of_mem _ he)]

/-- Values with the same normal labels are JSON-equal. -/
theorem JSONEq.of_canon (h : canon v = canon w) : JSONEq v w := by
  rw [JSONEq, ← glue_canon, ← glue_canon, h]

/-! ## Equality -/

mutual

/-- Equality of values. -/
def beq : Raw → Raw → Bool
  | .leaf a, .leaf b => beqLeaf a b
  | .node m, .node n => beqKids m n
  | .leaf _, .node _ => false
  | .node _, .leaf _ => false

/-- Equality of leaves. -/
def beqLeaf : Leaf → Leaf → Bool
  | .null, b => match b with
    | .null => true
    | _ => false
  | .bool x, b => match b with
    | .bool y => x == y
    | _ => false
  | .int x, b => match b with
    | .int y => x == y
    | _ => false
  | .float64 x, b => match b with
    | .float64 y => x == y
    | _ => false
  | .string x, b => match b with
    | .string y => x == y
    | _ => false
  | .slice e xs, b => match b with
    | .slice f ys => e == f && beqItems xs ys
    | _ => false
  | .nilSlice e, b => match b with
    | .nilSlice f => e == f
    | _ => false
  | .opaqueValue s x, b => match b with
    | .opaqueValue t y => s == t && beq x y
    | _ => false

def beqItems : List Raw → List Raw → Bool
  | [], [] => true
  | v :: vs, w :: ws => beq v w && beqItems vs ws
  | [], _ :: _ => false
  | _ :: _, [] => false

/-- Equality of maps. -/
def beqKids : Object → Object → Bool
  | [], [] => true
  | (j, v) :: vs, (k, w) :: ws => j == k && beq v w && beqKids vs ws
  | [], _ :: _ => false
  | _ :: _, [] => false

end

mutual

theorem beq_iff : ∀ v w : Raw, beq v w = true ↔ v = w
  | .leaf a, .leaf b => by rw [beq, beqLeaf_iff a b, MapTree.leaf.injEq]
  | .node m, .node n => by rw [beq, beqKids_iff m n, MapTree.node.injEq]
  | .leaf _, .node _ => by simp [beq]
  | .node _, .leaf _ => by simp [beq]

theorem beqLeaf_iff : ∀ a b : Leaf, beqLeaf a b = true ↔ a = b
  | .null, b | .bool _, b | .int _, b | .float64 _, b | .string _, b =>
    by cases b <;> simp [beqLeaf]
  | .slice _ xs, b => by cases b <;> simp [beqLeaf, beqItems_iff xs]
  | .nilSlice _, b => by cases b <;> simp [beqLeaf]
  | .opaqueValue _ x, b => by cases b <;> simp [beqLeaf, beq_iff x]

theorem beqItems_iff : ∀ xs ys : List Raw, beqItems xs ys = true ↔ xs = ys
  | [], [] => by simp [beqItems]
  | v :: vs, w :: ws => by simp [beqItems, beq_iff v w, beqItems_iff vs ws]
  | [], _ :: _ | _ :: _, [] => by simp [beqItems]

theorem beqKids_iff : ∀ m n : Object, beqKids m n = true ↔ m = n
  | [], [] => by simp [beqKids]
  | (j, v) :: vs, (k, w) :: ws => by simp [beqKids, beq_iff v w, beqKids_iff vs ws]
  | [], _ :: _ | _ :: _, [] => by simp [beqKids]

end

instance : DecidableEq Raw := fun v w => decidable_of_iff _ (beq_iff v w)

instance (v w : Raw) : Decidable (JSONEq v w) := inferInstanceAs (Decidable (_ = _))

def jsonEqual (v w : Raw) : Bool := decide (jsonText v = jsonText w)

theorem JSONEq.of_jsonEqual (h : jsonEqual v w = true) : JSONEq v w := by
  rw [jsonEqual, decide_eq_true_eq] at h
  rw [JSONEq, ← jsonNormal_jsonText v, h, jsonNormal_jsonText w]

end Raw

end WeaveFlow
