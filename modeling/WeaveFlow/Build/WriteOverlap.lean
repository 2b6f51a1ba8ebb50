import WeaveFlow.State.ParallelMerge

/-!
# Overlapping writes of two contracts

`overlappingWritePath` compares the write fields of two contracts pair by pair and returns at the
first pair whose paths overlap.  Its verdict is the verdict on that pair
(`overlappingWritePath_eq`), so that it speaks for all pairs only where no compatible pair comes
before an incompatible one.
-/

namespace WeaveFlow

open Option List

def writeFields (contract : Contract) : List FieldAccess :=
  contract.fields.filter fun field => isWriteMode field.mode

def effectiveAnalysisMerge (strategy : MergeStrategy) : MergeStrategy :=
  if strategy = .default then .replace else strategy

/-- The field is at the path or below it, as texts. -/
def writesWithin (field parent : FieldAccess) : Bool :=
  field.path.string = parent.path.string ||
    hasPrefixText field.path.string (parent.path.string ++ ".")

/-- One of the paths is the other or a dotted ancestor of it. -/
def writesOverlap (left right : FieldAccess) : Bool :=
  writesWithin left right || writesWithin right left

/-- Two writes that a merge may combine: of one path, both appended or both merged. -/
def writesCompatible (left right : FieldAccess) : Bool :=
  left.path.string = right.path.string &&
    (effectiveAnalysisMerge left.merge = effectiveAnalysisMerge right.merge &&
      (effectiveAnalysisMerge left.merge = .append || effectiveAnalysisMerge left.merge = .merge))

/-- The body of the two loops of `overlappingWritePath`: what it returns at a pair of fields. -/
def overlapOfFields (left right : FieldAccess) : Option (String × Bool) :=
  let leftPath := left.path.string
  let rightPath := right.path.string
  if leftPath = rightPath then
    let leftMerge := effectiveAnalysisMerge left.merge
    let rightMerge := effectiveAnalysisMerge right.merge
    some (leftPath, leftMerge = rightMerge && (leftMerge = .append || leftMerge = .merge))
  else if hasPrefixText leftPath (rightPath ++ ".") then some (rightPath, false)
  else if hasPrefixText rightPath (leftPath ++ ".") then some (leftPath, false)
  else none

/-- `overlappingWritePath`: the path, whether the writes are compatible, and whether there is an
overlap. -/
def overlappingWritePath (left right : Contract) : String × Bool × Bool :=
  if left.wildcardWrite || right.wildcardWrite then ("*", false, true)
  else
    match (writeFields left).findSome? fun leftField =>
        (writeFields right).findSome? fun rightField => overlapOfFields leftField rightField with
    | some (path, compatible) => (path, compatible, true)
    | none => ("", false, false)

/-- All pairs of write fields that overlap, in the order of the loops. -/
def overlappingPairs (left right : Contract) : List (FieldAccess × FieldAccess) :=
  (writeFields left ×ˢ writeFields right).filter fun pair => writesOverlap pair.1 pair.2

theorem mem_overlappingPairs : (l, r) ∈ overlappingPairs left right ↔
      (l ∈ writeFields left ∧ r ∈ writeFields right) ∧ writesOverlap l r = true := by
  rw [overlappingPairs, mem_filter]
  exact and_congr_left' mem_product

/-- The body of the loops returns at the overlapping pairs, with the verdict on the pair. -/
theorem overlapOfFields_snd (left right : FieldAccess) : (overlapOfFields left right).map Prod.snd =
      if writesOverlap left right then some (writesCompatible left right) else none := by
  by_cases heq : left.path.string = right.path.string
  · simp [overlapOfFields, writesOverlap, writesWithin, writesCompatible, heq]
  · have hne := Ne.symm heq
    simp only [overlapOfFields, writesOverlap, writesWithin, writesCompatible, heq, hne, if_false,
      decide_false, Bool.false_or, Bool.false_and]
    cases hasPrefixText left.path.string (right.path.string ++ ".") <;>
      cases hasPrefixText right.path.string (left.path.string ++ ".") <;> rfl

/-- A nested search is a search through the pairs. -/
theorem findSome?_product {α β γ : Type} (f : α → β → Option γ) (l : List α) (m : List β) :
    (l.findSome? fun a => m.findSome? (f a)) = (l ×ˢ m).findSome? fun p => f p.1 p.2 := by
  induction l with
  | nil => rfl
  | cons a l ih =>
    rw [product_cons, findSome?_append, findSome?_map, ← ih, findSome?_cons]
    cases h : m.findSome? (f a) <;> simp [h, Function.comp_def]

/-- The verdict of a search that returns at the elements with a property is the verdict on the
first of them. -/
theorem findSome?_map_snd {α γ : Type} {f : α → Option (γ × Bool)} {p v : α → Bool}
    (hf : ∀ a, (f a).map Prod.snd = if p a then some (v a) else none) (l : List α) :
    (l.findSome? f).map Prod.snd = (l.filter p).head?.map v := by
  induction l with
  | nil => rfl
  | cons a l ih =>
    have ha := hf a
    cases hp : p a with
    | false =>
      rw [hp, if_neg Bool.false_ne_true, map_eq_none_iff] at ha
      rw [findSome?_cons, ha, filter_cons_of_neg (by rw [hp]; exact Bool.false_ne_true)]
      exact ih
    | true =>
      rw [hp, if_pos rfl] at ha
      obtain ⟨b, hb, hv⟩ := map_eq_some_iff.mp ha
      rw [findSome?_cons, hb, filter_cons_of_pos hp, List.head?_cons, map_some, map_some, hv]

/-- Without wildcards the verdict is the verdict on the first overlapping pair. -/
theorem overlappingWritePath_eq {left right : Contract} (hl : left.wildcardWrite = false)
    (hr : right.wildcardWrite = false) :
    (overlappingWritePath left right).2 =
      match (overlappingPairs left right).head? with
      | none => (false, false)
      | some pair => (writesCompatible pair.1 pair.2, true) := by
  have hv := findSome?_map_snd (fun pair => overlapOfFields_snd pair.1 pair.2)
    (writeFields left ×ˢ writeFields right)
  rw [← findSome?_product overlapOfFields, ← overlappingPairs] at hv
  rw [overlappingWritePath, hl, hr, Bool.or_self, if_neg Bool.false_ne_true]
  cases hf : (writeFields left).findSome? fun leftField =>
      (writeFields right).findSome? fun rightField => overlapOfFields leftField rightField with
  | none =>
    rw [hf, map_none, eq_comm, map_eq_none_iff] at hv
    rw [hv]
  | some found =>
    rw [hf, map_some, eq_comm, map_eq_some_iff] at hv
    obtain ⟨pair, hp, hs⟩ := hv
    rw [hp]
    exact congrArg (·, true) hs.symm

/-- No overlap, or a compatible one, speaks for every pair of write fields exactly when the first
overlapping pair is incompatible or all overlapping pairs are compatible. -/
theorem overlap_verdict_complete_iff (left right : Contract) (hleft : left.wildcardWrite = false)
    (hright : right.wildcardWrite = false) :
    ((overlappingWritePath left right).2.2 = false ∨ (overlappingWritePath left right).2.1 = true →
      ∀ l ∈ writeFields left, ∀ r ∈ writeFields right, writesOverlap l r = true →
        writesCompatible l r = true) ↔
    ((∃ pair, (overlappingPairs left right).head? = some pair ∧
        writesCompatible pair.1 pair.2 = false) ∨
      ∀ pair ∈ overlappingPairs left right, writesCompatible pair.1 pair.2 = true) := by
  have ha : (∀ l ∈ writeFields left, ∀ r ∈ writeFields right, writesOverlap l r = true →
      writesCompatible l r = true) ↔
      ∀ pair ∈ overlappingPairs left right, writesCompatible pair.1 pair.2 = true :=
    ⟨fun h pair hp =>
      have ⟨⟨hl, hr⟩, ho⟩ := mem_overlappingPairs.mp hp
      h pair.1 hl pair.2 hr ho,
      fun h l hl r hr ho => h (l, r) (mem_overlappingPairs.mpr ⟨⟨hl, hr⟩, ho⟩)⟩
  rw [ha, overlappingWritePath_eq hleft hright]
  cases hpa : overlappingPairs left right with
  | nil => simp
  | cons pair rest => cases hc : writesCompatible pair.1 pair.2 <;> simp [hc]

def appendThenReplace : Contract where
  fields := [⟨⟨"shared", ["log"], rfl⟩, .write, false, .append, "", []⟩,
    ⟨⟨"shared", ["answer"], by decide⟩, .write, false, .default, "", []⟩]
  wildcardRead := false
  wildcardWrite := false

/-- The appended field is found first, and the replaced one is not looked at. -/
theorem replaced_field_not_reported :
    overlappingWritePath appendThenReplace appendThenReplace = ("shared.log", true, true) ∧
      ∃ field ∈ writeFields appendThenReplace, writesOverlap field field = true ∧
        effectiveAnalysisMerge field.merge = .replace ∧ writesCompatible field field = false := by
  decide

theorem replaced_fields_reported :
    overlappingWritePath { appendThenReplace with fields := appendThenReplace.fields.reverse }
        appendThenReplace = ("shared.answer", false, true) ∧
    ((overlappingWritePath { appendThenReplace with fields := appendThenReplace.fields.reverse }
        appendThenReplace).2.2 = false ∨
      (overlappingWritePath { appendThenReplace with fields := appendThenReplace.fields.reverse }
        appendThenReplace).2.1 = true →
      ∀ l ∈ writeFields { appendThenReplace with fields := appendThenReplace.fields.reverse },
        ∀ r ∈ writeFields appendThenReplace, writesOverlap l r = true →
          writesCompatible l r = true) :=
  ⟨by decide, (overlap_verdict_complete_iff _ _ rfl rfl).mpr (.inl ⟨_, rfl, by decide⟩)⟩

end WeaveFlow
