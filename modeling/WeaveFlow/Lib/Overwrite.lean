import Mathlib

/-!
# Overwriting a store

A list of writes is applied to a total store, the first write first.  The result
at a key is the last write to it, or the old value where there is none.  So a
list of writes absorbs every change made at its own keys beforehand
(`overwrite_congr`): this is what makes it safe to apply the list again after it
was applied in part.
-/

namespace Overwrite

open List

variable {κ β : Type}

/-- The two stores differ at the keys only. -/
def AgreeOff (keys : List κ) (m m' : κ → β) : Prop := ∀ k, k ∉ keys → m k = m' k

theorem AgreeOff.refl (keys : List κ) (m : κ → β) : AgreeOff keys m m := fun _ _ => rfl

variable {m : κ → β} {keys : List κ} {writes : List (κ × β)}

theorem AgreeOff.trans (h : AgreeOff keys m m') (h' : AgreeOff keys m' m'') : AgreeOff keys m m'' :=
  fun k hk => (h k hk).trans (h' k hk)

variable [DecidableEq κ]

/-- The store after the writes, the first write first. -/
def overwrite (writes : List (κ × β)) (m : κ → β) : κ → β :=
  writes.foldl (fun m w => Function.update m w.1 w.2) m

@[simp] theorem overwrite_nil : overwrite [] m = m := rfl

@[simp] theorem overwrite_cons (w : κ × β) (writes : List (κ × β)) (m : κ → β) :
    overwrite (w :: writes) m = overwrite writes (Function.update m w.1 w.2) := rfl

theorem overwrite_of_notMem (h : k ∉ writes.map Prod.fst) : overwrite writes m k = m k := by
  induction writes generalizing m with
  | nil => rfl
  | cons w writes ih =>
    simp only [map_cons, mem_cons, not_or] at h
    rw [overwrite_cons, ih h.2, Function.update_of_ne h.1]

theorem agreeOff_overwrite : AgreeOff (writes.map Prod.fst) (overwrite writes m) m :=
  fun _ h => overwrite_of_notMem h

/-- What stood at the written keys does not matter. -/
theorem overwrite_congr (h : AgreeOff (writes.map Prod.fst) m m') :
    overwrite writes m = overwrite writes m' := by
  induction writes generalizing m m' with
  | nil => exact funext fun k => h k not_mem_nil
  | cons w writes ih =>
    rw [overwrite_cons, overwrite_cons]
    refine ih fun k hk => ?_
    by_cases hkw : k = w.1
    · subst hkw; simp only [Function.update_self]
    · rw [Function.update_of_ne hkw, Function.update_of_ne hkw]
      exact h k (by simp [hkw, hk])

/-- Writing what is there changes nothing. -/
theorem overwrite_eq_self (h : ∀ w ∈ writes, m w.1 = w.2) : overwrite writes m = m := by
  induction writes with
  | nil => rfl
  | cons w writes ih =>
    have hw : Function.update m w.1 w.2 = m := by
      rw [← h w mem_cons_self, Function.update_eq_self]
    rw [overwrite_cons, hw]
    exact ih (forall_mem_cons.mp h).2

/-- With distinct keys, every write is found afterwards. -/
theorem overwrite_of_mem (hn : (writes.map Prod.fst).Nodup) (hw : w ∈ writes) (m : κ → β) :
    overwrite writes m w.1 = w.2 := by
  induction writes generalizing m with
  | nil => exact absurd hw not_mem_nil
  | cons v writes ih =>
    simp only [map_cons, nodup_cons] at hn
    obtain rfl | hw := mem_cons.mp hw
    · rw [overwrite_cons, overwrite_of_notMem hn.1, Function.update_self]
    · exact ih hn.2 hw _

/-- A change at one of the keys. -/
theorem agreeOff_update (hk : k ∈ keys) : AgreeOff keys (Function.update m k v) m := by
  intro j hj
  exact Function.update_of_ne (fun h : j = k => hj (h ▸ hk)) v m

end Overwrite
