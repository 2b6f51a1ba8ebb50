import WeaveFlow.State.Patch

/-!
# The numeric reducers

`SumReducer` and `MaxReducer` fold the contributions to a path into one number.  Both read
null as zero, but `MaxReducer` also takes a current null for no value at all: a null after a
negative number replaces it, and a negative number after a null does so too.  So the order of
such contributions matters (`numeric_reducers_order`).

The addition of `float64` values is given.
-/

namespace WeaveFlow

open List

inductive NumericValue where
  | integer (n : Int)
  | floating (q : Rat)

def parseNumericValue : Raw → Option NumericValue
  | .leaf .null => some (.integer 0)
  | .leaf (.int n) => some (.integer n)
  | .leaf (.float64 q) => some (.floating q)
  | _ => none

/-- `numericRational`. -/
def NumericValue.rational : NumericValue → Rat
  | integer n => n
  | floating q => q

/-- `compareNumericValues` is not negative. -/
def NumericValue.atLeast : NumericValue → NumericValue → Bool
  | integer m, integer n => n ≤ m
  | left, right => right.rational ≤ left.rational

/-- `SumReducer.Reduce`. -/
def sumReduce (addFloat : NumericValue → NumericValue → Rat) (current incoming : Raw) :
    Except String Raw :=
  match parseNumericValue current, parseNumericValue incoming with
  | none, _ => .error ("current value " ++ current.typeText ++ " is not numeric")
  | some _, none => .error ("incoming value " ++ incoming.typeText ++ " is not numeric")
  | some (.integer m), some (.integer n) => .ok (Raw.int (m + n))
  | some left, some right => .ok (.leaf (.float64 (addFloat left right)))

/-- `MaxReducer.Reduce`. -/
def maxReduce (current incoming : Raw) : Except String Raw :=
  match current with
  | .leaf .null => .ok incoming
  | current =>
    match parseNumericValue current, parseNumericValue incoming with
    | some left, some right => .ok (if left.atLeast right then current else incoming)
    | _, _ => .error "max reducer requires numeric values"

def sumReducer (addFloat : NumericValue → NumericValue → Rat) : Reducer where
  reduce := sumReduce addFloat
  valid current incoming v _ _ h := by
    rw [sumReduce] at h
    split at h <;> cases h <;> rfl

def maxReducer : Reducer where
  reduce := maxReduce
  valid current incoming v hcurrent hincoming h := by
    unfold maxReduce at h
    split at h
    · cases h
      exact hincoming
    · split at h
      · cases h
        split
        · exact hcurrent
        · exact hincoming
      · cases h

/-! ## Integers and null -/

/-- A null or an integer as a value. -/
def contribution : Option Int → Raw
  | none => Raw.null
  | some n => Raw.int n

/-- `Reduce` over a list of contributions, from a current value. -/
def Reducer.fold (r : Reducer) (current : Option Int) (l : List (Option Int)) : Except String Raw :=
  (l.map contribution).foldlM r.reduce (contribution current)

theorem fold_sumReducer (hl : l ≠ []) : (sumReducer addFloat).fold c l =
    .ok (Raw.int (c.getD 0 + (l.map (·.getD 0)).sum)) := by
  have hs : ∀ c x, (sumReducer addFloat).reduce (contribution c) (contribution x) =
      .ok (contribution (some (c.getD 0 + x.getD 0))) := by
    intro c x
    cases c <;> cases x <;> rfl
  induction l generalizing c with
  | nil => exact absurd rfl hl
  | cons x l ih =>
    rw [Reducer.fold, map_cons, foldlM_cons, hs]
    cases l with
    | nil => simp [contribution]
    | cons y l =>
      refine (ih (cons_ne_nil y l)).trans ?_
      exact congrArg (fun n => Except.ok (Raw.int n)) (Int.add_assoc _ _ _)

/-- `MaxReducer` on nulls and integers. -/
def maxStep : Option Int → Option Int → Option Int
  | none, x => x
  | some a, none => if 0 ≤ a then some a else none
  | some a, some b => some (max a b)

theorem maxReduce_contribution (c x : Option Int) :
    maxReduce (contribution c) (contribution x) = .ok (contribution (maxStep c x)) := by
  match c, x with
  | none, x => rfl
  | some a, none =>
    simp only [contribution, maxReduce, parseNumericValue, NumericValue.atLeast, maxStep,
      decide_eq_true_eq]
    split <;> rfl
  | some a, some b =>
    simp only [contribution, maxReduce, parseNumericValue, NumericValue.atLeast, maxStep,
      decide_eq_true_eq]
    split
    next h => rw [max_eq_left h]
    next h => rw [max_eq_right (not_le.mp h).le]

theorem fold_maxReducer : maxReducer.fold c l = .ok (contribution (l.foldl maxStep c)) := by
  induction l generalizing c with
  | nil => rfl
  | cons x l ih =>
    rw [Reducer.fold, map_cons, foldlM_cons]
    have hs : maxReducer.reduce (contribution c) (contribution x) = _ := maxReduce_contribution c x
    rw [hs]
    exact ih

/-- The result is the current value or a contribution.  It is no less than any of them that is
not negative, and without nulls no less than any of them at all. -/
theorem foldl_maxStep_spec (c : Option Int) (l : List (Option Int)) :
    (∀ m, l.foldl maxStep c = some m → some m ∈ c :: l) ∧
      ∀ n, some n ∈ c :: l → (0 ≤ n ∨ none ∉ l) → ∃ m, l.foldl maxStep c = some m ∧ n ≤ m := by
  -- by induction from the right: the last contribution meets the result of the others
  induction l using reverseRecOn with
  | nil =>
    refine ⟨fun m h => ?_, fun n h _ => ?_⟩
    · rw [mem_singleton]
      exact h.symm
    · exact ⟨n, (mem_singleton.mp h).symm, le_refl n⟩
  | append_singleton l x ih =>
    obtain ⟨hm, hle⟩ := ih
    rw [foldl_append, foldl_cons, foldl_nil, ← cons_append]
    simp only [mem_append, mem_singleton]
    generalize l.foldl maxStep c = r at hm hle ⊢
    constructor
    · intro m h
      match r, x with
      | none, x => exact .inr h.symm
      | some a, none =>
        simp only [maxStep] at h
        split at h
        · exact .inl (hm m h)
        · cases h
      | some a, some b =>
        rcases max_choice a b with hma | hma <;> simp only [maxStep, hma] at h <;> cases h
        · exact .inl (hm _ rfl)
        · exact .inr rfl
    · rintro n (h | rfl) hn
      · obtain ⟨m, rfl, hnm⟩ := hle n h (hn.imp_right fun hno => fun hl => hno (.inl hl))
        match x with
        | none =>
          have hp : 0 ≤ m := (hn.resolve_right fun hno => hno (.inr rfl)).trans hnm
          exact ⟨m, if_pos hp, hnm⟩
        | some b => exact ⟨max m b, rfl, hnm.trans (le_max_left m b)⟩
      · match r with
        | none => exact ⟨n, rfl, le_refl n⟩
        | some a => exact ⟨max a n, rfl, le_max_right a n⟩

/-- A null and a negative number are contributed, and no number that is not negative. -/
def NullOverNegative (c : Option Int) (l : List (Option Int)) : Prop :=
  none ∈ l ∧ (∃ n, some n ∈ l) ∧ ∀ n, some n ∈ c :: l → n < 0

/-- Otherwise the largest number is the result. -/
theorem foldl_maxStep_greatest (h : ¬ NullOverNegative c l) (hn : some n ∈ l) :
    ∃ m, l.foldl maxStep c = some m ∧ some m ∈ c :: l ∧ ∀ k, some k ∈ c :: l → k ≤ m := by
  obtain ⟨hme, hle⟩ := foldl_maxStep_spec c l
  by_cases hno : none ∈ l
  · obtain ⟨k, hk, hp⟩ : ∃ k, some k ∈ c :: l ∧ 0 ≤ k := by
      by_contra hnt
      exact h ⟨hno, ⟨n, hn⟩, fun k hk => not_le.mp fun hp => hnt ⟨k, hk, hp⟩⟩
    obtain ⟨m, hm, hkm⟩ := hle k hk (.inl hp)
    refine ⟨m, hm, hme m hm, fun j hj => ?_⟩
    rcases le_or_gt 0 j with hj0 | hj0
    · obtain ⟨m', hm', hjm⟩ := hle j hj (.inl hj0)
      cases hm.symm.trans hm'
      exact hjm
    · exact (hj0.trans_le (hp.trans hkm)).le
  · obtain ⟨m, hm, -⟩ := hle n (mem_cons_of_mem c hn) (.inr hno)
    refine ⟨m, hm, hme m hm, fun j hj => ?_⟩
    obtain ⟨m', hm', hjm⟩ := hle j hj (.inr hno)
    cases hm.symm.trans hm'
    exact hjm

theorem foldl_maxStep_perm (h : ¬ NullOverNegative c l) (hp : Perm l' l) :
    l'.foldl maxStep c = l.foldl maxStep c := by
  by_cases hi : ∃ n, some n ∈ l
  · obtain ⟨n, hn⟩ := hi
    have hc := hp.cons c
    have h' : ¬ NullOverNegative c l' := by
      simp only [NullOverNegative, hp.mem_iff, hc.mem_iff]
      exact h
    obtain ⟨m, hm, hin, hma⟩ := foldl_maxStep_greatest h hn
    obtain ⟨m', hm', hi', hmx⟩ := foldl_maxStep_greatest h' (hp.mem_iff.mpr hn)
    rw [hm, hm', le_antisymm (hma m' (hc.mem_iff.mp hi')) (hmx m (hc.mem_iff.mpr hin))]
  · -- all contributions are null, so there is one order
    have hnu : ∀ x ∈ l, x = none := fun x hx => by
      cases x with
      | none => rfl
      | some n => exact absurd ⟨n, hx⟩ hi
    rw [eq_replicate_of_mem hnu] at hp ⊢
    rw [perm_replicate.mp hp]

theorem foldl_maxStep_null (h : NullOverNegative c l) :
    ∃ l₁ l₂, Perm l₁ l ∧ Perm l₂ l ∧ l₁.foldl maxStep c = none ∧ l₂.foldl maxStep c ≠ none := by
  obtain ⟨hno, ⟨n, hn⟩, hne⟩ := h
  refine ⟨l.erase none ++ [none], l.erase (some n) ++ [some n], ?_, ?_, ?_, ?_⟩
  · exact (perm_append_singleton _ _).trans (perm_cons_erase hno).symm
  · exact (perm_append_singleton _ _).trans (perm_cons_erase hn).symm
  · rw [foldl_append]
    cases hr : (l.erase none).foldl maxStep c with
    | none => rfl
    | some a =>
      have hm := (foldl_maxStep_spec c (l.erase none)).1 a hr
      have ha : a < 0 := hne a (mem_cons.mpr ((mem_cons.mp hm).imp_right mem_of_mem_erase))
      exact if_neg (not_le.mpr ha)
  · rw [foldl_append, foldl_cons, foldl_nil]
    cases (l.erase (some n)).foldl maxStep c <;> exact nofun

/-- From a current value that is null or an integer, over contributions that are nulls or
integers: the sum is exact and has the same value in every order, and the largest number has
exactly if there are no null and negative contributions without a number that is not negative.
Then it is the result. -/
theorem numeric_reducers_order (addFloat : NumericValue → NumericValue → Rat) (c : Option Int)
    (l : List (Option Int)) :
    ((∀ l', l'.Perm l → (sumReducer addFloat).fold c l' = (sumReducer addFloat).fold c l) ∧
      (l ≠ [] → (sumReducer addFloat).fold c l =
        .ok (Raw.int (c.getD 0 + (l.map (·.getD 0)).sum)))) ∧
    ((∀ l', l'.Perm l → maxReducer.fold c l' = maxReducer.fold c l) ↔ ¬ NullOverNegative c l) ∧
    (¬ NullOverNegative c l → (∃ n, some n ∈ l) → ∃ m, maxReducer.fold c l = .ok (Raw.int m) ∧
      some m ∈ c :: l ∧ ∀ k, some k ∈ c :: l → k ≤ m) := by
  refine ⟨⟨fun l' hp => ?_, fold_sumReducer⟩, ⟨fun hs hnu => ?_, fun h l' hp => ?_⟩, ?_⟩
  · by_cases hl : l = []
    · subst hl
      rw [hp.eq_nil]
    · have hl' : l' ≠ [] := fun hni => hl (by subst hni; exact hp.symm.eq_nil)
      rw [fold_sumReducer hl, fold_sumReducer hl', List.Perm.sum_eq (hp.map _)]
  · obtain ⟨l₁, l₂, hp₁, hp₂, hno, hso⟩ := foldl_maxStep_null hnu
    have heq := (hs l₁ hp₁).trans (hs l₂ hp₂).symm
    rw [fold_maxReducer, fold_maxReducer, hno] at heq
    cases hr : l₂.foldl maxStep c with
    | none => exact hso hr
    | some m => rw [hr] at heq; cases heq
  · rw [fold_maxReducer, fold_maxReducer, foldl_maxStep_perm h hp]
  · rintro h ⟨n, hn⟩
    obtain ⟨m, hm, hin, hma⟩ := foldl_maxStep_greatest h hn
    exact ⟨m, by rw [fold_maxReducer, hm]; rfl, hin, hma⟩

/-- Minus five and null: the result is the one that comes last. -/
theorem null_and_negative_order : maxReducer.fold none [none, some (-5)] = .ok (Raw.int (-5)) ∧
    maxReducer.fold none [some (-5), none] = .ok Raw.null := by
  rw [fold_maxReducer, fold_maxReducer]
  exact ⟨rfl, rfl⟩

end WeaveFlow
