import Mathlib

/-!
# Sorting with a comparison that decides a key

A stable sort with a comparison function is modelled by insertion sort.  When the
comparison decides a linear order of keys, the result is ascending in the keys, and it is
the only ascending arrangement if no two elements share a key (`sort_eq`).
-/

namespace KeySort

open List

variable {α K : Type} [LinearOrder K] {less : α → α → Bool} {key : α → K}

/-- The comparison decides the order of the keys. -/
def Compares (less : α → α → Bool) (key : α → K) : Prop := ∀ a b, less a b = true ↔ key a < key b

/-- The stable sort by a comparison. -/
def sort (less : α → α → Bool) (l : List α) : List α := l.insertionSort fun a b => less b a = false

theorem Compares.not_less (h : Compares less key) (a b : α) : less b a = false ↔ key a ≤ key b := by
  rw [← not_lt, ← h b a, Bool.not_eq_true]

theorem perm_sort (less : α → α → Bool) (l : List α) : (sort less l).Perm l :=
  perm_insertionSort _ l

theorem pairwise_sort (h : Compares less key) (l : List α) :
    (sort less l).Pairwise fun a b => key a ≤ key b := by
  have : Std.Total fun a b => less b a = false := ⟨fun a b => by
    rw [h.not_less, h.not_less]
    exact le_total _ _⟩
  have : IsTrans α fun a b => less b a = false := ⟨fun a b c hab hbc => by
    rw [h.not_less] at hab hbc ⊢
    exact hab.trans hbc⟩
  refine (pairwise_insertionSort (fun a b => less b a = false) l).imp fun {a b} hab => ?_
  exact (h.not_less a b).mp hab

/-- With distinct keys there is one ascending arrangement. -/
theorem sort_eq (h : Compares less key) (hp : l'.Perm l)
    (hs : l'.Pairwise fun a b => key a ≤ key b) (hi : ∀ a ∈ l, ∀ b ∈ l, key a = key b → a = b) :
    sort less l = l' := by
  refine List.Perm.eq_of_pairwise (fun a b ha hb hab hba => ?_) (pairwise_sort h l) hs
    ((perm_sort less l).trans hp.symm)
  exact hi a ((perm_sort less l).mem_iff.mp ha) b (hp.mem_iff.mp hb) (le_antisymm hab hba)

/-- Positions ascend. -/
theorem pairwise_zipIdx (l : List α) (n : Nat) : (l.zipIdx n).Pairwise fun x y => x.2 < y.2 := by
  induction l generalizing n with
  | nil => exact List.Pairwise.nil
  | cons a l ih =>
    rw [zipIdx_cons, pairwise_cons]
    refine ⟨fun x hx => ?_, ih (n + 1)⟩
    obtain ⟨hle, -⟩ := mem_zipIdx hx
    exact hle

/-- An arrangement of positioned elements repeats no position. -/
theorem pairwise_ne_of_perm_zipIdx {l : List α} {l' : List (α × Nat)} (h : l'.Perm l.zipIdx) :
    l'.Pairwise fun x y => x.2 ≠ y.2 :=
  (h.pairwise_iff fun hne => Ne.symm hne).mpr ((pairwise_zipIdx l 0).imp fun hlt => hlt.ne)

/-- Two listings of the same elements, under positions that do not repeat, differ by an
injective renaming of the positions. -/
theorem exists_reposition {l l' : List (α × Nat)} (hfs : l.map Prod.fst = l'.map Prod.fst)
    (h : l.Pairwise fun x y => x.2 ≠ y.2) (h' : l'.Pairwise fun x y => x.2 ≠ y.2) :
    ∃ f : Nat → Nat, l' = l.map (fun p => (p.1, f p.2)) ∧
      ∀ p ∈ l, ∀ q ∈ l, f p.2 = f q.2 → p.2 = q.2 := by
  induction l generalizing l' with
  | nil =>
    cases l' with
    | nil => exact ⟨id, rfl, fun p hp => absurd hp not_mem_nil⟩
    | cons p' l' => cases hfs
  | cons p l ih =>
    cases l' with
    | nil => cases hfs
    | cons p' l' =>
      obtain ⟨hl, h⟩ := pairwise_cons.mp h
      obtain ⟨hl', h'⟩ := pairwise_cons.mp h'
      obtain ⟨ha, hfs⟩ := List.cons.inj hfs
      obtain ⟨f, rfl, hi⟩ := ih hfs h h'
      -- the first position goes to the first one of the other listing
      have hf : ∀ q ∈ l, Function.update f p.2 p'.2 q.2 = f q.2 := fun q hq =>
        Function.update_of_ne (hl q hq).symm _ _
      have hne : ∀ q ∈ l, p'.2 ≠ f q.2 := fun q hq => hl' _ (mem_map_of_mem hq)
      refine ⟨Function.update f p.2 p'.2, ?_, fun q hq r hr he => ?_⟩
      · rw [map_cons, Function.update_self, ha]
        exact congrArg (p' :: ·) (map_congr_left fun q hq => by rw [hf q hq])
      · rcases mem_cons.mp hq with rfl | hql <;> rcases mem_cons.mp hr with rfl | hrl
        · rfl
        · rw [Function.update_self, hf r hrl] at he
          exact absurd he (hne r hrl)
        · rw [Function.update_self, hf q hql] at he
          exact absurd he.symm (hne q hql)
        · rw [hf q hql, hf r hrl] at he
          exact hi q hql r hrl he

end KeySort
