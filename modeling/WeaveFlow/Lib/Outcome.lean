import Mathlib

/-!
# Outcomes of fallible computations

`of_bind` takes a successful sequence of fallible steps apart, `foldlM_induction` a
successful loop, and `toOption` forgets which error a failed one gave.  `checkDistinct` is a
loop of checks that also refuses repeated keys.
-/

namespace Outcome

open List

variable {ε α β : Type}

variable {x : Except ε α} {b : β} {xs : List α}

/-- A successful sequence of two steps. -/
theorem of_bind (h : (x >>= f) = .ok b) : ∃ a, x = .ok a ∧ f a = .ok b := by
  cases x with
  | error e => cases h
  | ok a => exact ⟨a, rfl, h⟩

theorem bind_eq_ok : (x >>= f) = .ok b ↔ ∃ a, x = .ok a ∧ f a = .ok b := by
  refine ⟨of_bind, ?_⟩
  rintro ⟨a, rfl, h⟩
  exact h

theorem map_eq_ok (h : x.map f = .ok b) : ∃ a, x = .ok a ∧ f a = b := by
  cases x with
  | error e => cases h
  | ok a => cases h; exact ⟨a, rfl, rfl⟩

theorem toOption_eq_some : x.toOption = some a ↔ x = .ok a := by
  cases x with
  | error e | ok b => simp [Except.toOption]

/-- Two results are equal exactly under `R`, if `R` says when one is missing with the other. -/
theorem eq_iff_of_none {x y : Option α} {P Q R : Prop} (hx : x = none ↔ P) (hy : y = none ↔ Q)
    (hP : P → (R ↔ Q)) (hQ : Q → (R ↔ P)) (h : ¬ P → ¬ Q → (x = y ↔ R)) : x = y ↔ R := by
  by_cases hp : P
  · rw [hP hp, ← hy, hx.mpr hp]
    exact eq_comm
  · by_cases hq : Q
    · rw [hQ hq, ← hx, hy.mpr hq]
    · exact h hp hq

/-- What every step of a fallible loop keeps holds at its end. -/
theorem foldlM_induction {f : β → α → Except ε β} {P : β → Prop}
    (hs : ∀ b x b', x ∈ xs → P b → f b x = .ok b' → P b') {r : β} (hb : P b)
    (h : xs.foldlM f b = .ok r) : P r := by
  induction xs generalizing b with
  | nil => cases h; exact hb
  | cons x xs ih =>
    rw [foldlM_cons, bind_eq_ok] at h
    obtain ⟨b', hx, hxs⟩ := h
    exact ih (fun b x b' hx => hs b x b' (mem_cons_of_mem _ hx)) (hs b x b' mem_cons_self hb hx) hxs

/-- What a step of a fallible loop establishes for its element, and the other steps
keep, holds of every element at the end. -/
theorem foldlM_forall_mem {f : β → α → Except ε β} {P : α → β → Prop}
    (hm : ∀ b x b', f b x = .ok b' → P x b')
    (hk : ∀ b x y b', P x b → f b y = .ok b' → P x b') {r : β} (h : xs.foldlM f b = .ok r) :
    ∀ x ∈ xs, P x r := by
  induction xs generalizing b with
  | nil => intro x hx; cases hx
  | cons y ys ih =>
    rw [foldlM_cons, bind_eq_ok] at h
    obtain ⟨b', hy, hys⟩ := h
    intro x hx
    rcases mem_cons.mp hx with rfl | hx
    · exact foldlM_induction (fun c z c' _ hP hz => hk c x z c' hP hz) (hm _ _ _ hy) hys
    · exact ih hys x hx

theorem mapError_eq_ok {ε' : Type} {f : ε → ε'} {a : α} : x.mapError f = .ok a ↔ x = .ok a := by
  cases x with
  | error e => constructor <;> intro h <;> cases h
  | ok b => exact ⟨fun h => by cases h; rfl, fun h => by cases h; rfl⟩

/-- A loop of checks passes if every check does. -/
theorem forM_eq_ok {f : α → Except ε Unit} {u : Unit} :
    xs.forM f = .ok u ↔ ∀ x ∈ xs, f x = .ok () := by
  induction xs with
  | nil =>
    constructor
    · intro _ x hx; cases hx
    · intro _; rfl
  | cons x xs ih =>
    rw [List.forM, bind_eq_ok, forall_mem_cons]
    constructor
    · rintro ⟨_, hx, hxs⟩
      exact ⟨hx, ih.mp hxs⟩
    · rintro ⟨hx, hxs⟩
      exact ⟨(), hx, ih.mpr hxs⟩

/-! ## Loops that refuse a key they have seen -/

section Distinct

variable {κ : Type} [DecidableEq κ] {key : α → κ} {before after : α → Except ε Unit}
  {duplicated : α → ε} {seen : List κ} {xs : List α}

/-- Check every element, and refuse one whose key was seen before: between the checks
`before` and `after`. -/
def checkDistinct (key : α → κ) (before : α → Except ε Unit) (duplicated : α → ε)
    (after : α → Except ε Unit) : List κ → List α → Except ε Unit
  | _, [] => .ok ()
  | seen, x :: xs => do
      before x
      if key x ∈ seen then .error (duplicated x)
      after x
      checkDistinct key before duplicated after (key x :: seen) xs

theorem checkDistinct_cons {x : α} :
    checkDistinct key before duplicated after seen (x :: xs) = .ok () ↔
      before x = .ok () ∧ key x ∉ seen ∧ after x = .ok () ∧
        checkDistinct key before duplicated after (key x :: seen) xs = .ok () := by
  rw [checkDistinct]
  by_cases hs : key x ∈ seen
  · simp [hs, bind_eq_ok]
  · rw [if_neg hs]
    constructor
    · intro h
      obtain ⟨_, hb, h⟩ := bind_eq_ok.mp h
      obtain ⟨_, ha, h⟩ := bind_eq_ok.mp h
      exact ⟨hb, hs, ha, h⟩
    · rintro ⟨hb, -, ha, h⟩
      exact bind_eq_ok.mpr ⟨(), hb, bind_eq_ok.mpr ⟨(), ha, h⟩⟩

/-- The checks pass, and the keys are distinct and new. -/
theorem checkDistinct_eq_ok : checkDistinct key before duplicated after seen xs = .ok () ↔
      (∀ x ∈ xs, before x = .ok () ∧ after x = .ok ()) ∧ (xs.map key).Nodup ∧
        ∀ x ∈ xs, key x ∉ seen := by
  induction xs generalizing seen with
  | nil => simp [checkDistinct]
  | cons x xs ih =>
    rw [checkDistinct_cons, ih, forall_mem_cons, forall_mem_cons, map_cons, nodup_cons]
    constructor
    · rintro ⟨hb, hn, ha, hc, hno, hs⟩
      refine ⟨⟨⟨hb, ha⟩, hc⟩, ⟨fun hm => ?_, hno⟩, hn, fun y hy hm => ?_⟩
      · obtain ⟨y, hy, hk⟩ := mem_map.mp hm
        exact hs y hy (hk ▸ mem_cons_self)
      · exact hs y hy (mem_cons_of_mem _ hm)
    · rintro ⟨⟨⟨hb, ha⟩, hc⟩, ⟨hne, hno⟩, hn, hs⟩
      refine ⟨hb, hn, ha, hc, hno, fun y hy hm => ?_⟩
      rcases mem_cons.mp hm with hk | hm
      · exact hne (mem_map.mpr ⟨y, hy, hk⟩)
      · exact hs y hy hm

/-- Elements that are checked alike. -/
theorem checkDistinct_map (hk : ∀ x, key (f x) = key x) (hb : ∀ x, before (f x) = before x)
    (hd : ∀ x, duplicated (f x) = duplicated x) (ha : ∀ x, after (f x) = after x) :
    checkDistinct key before duplicated after seen (xs.map f) =
      checkDistinct key before duplicated after seen xs := by
  induction xs generalizing seen with
  | nil => rfl
  | cons x xs ih =>
    rw [map_cons, checkDistinct, checkDistinct, hk, hb, hd, ha, ih]

end Distinct

end Outcome
