import Mathlib

/-!
# Partial steps that commute

A partial step function is folded over a list of inputs.  When the steps of any two inputs
commute on the states that satisfy an invariant, the fold does not depend on the order of
the list (`run_perm`).  Commutation lifts from single inputs to blocks (`Commutes.blocks`).
-/

namespace Steps

open List

variable {σ α β : Type} (P : σ → Prop) (step : σ → α → Option σ)

def run (s : σ) (l : List α) : Option σ := l.foldlM step s

/-- The step of the input keeps the invariant. -/
def Keeps (x : α) : Prop := ∀ s s', P s → step s x = some s' → P s'

/-- The steps of two inputs can be swapped. -/
def Commutes (x y : α) : Prop :=
  ∀ s, P s → (step s x).bind (fun s' => step s' y) = (step s y).bind fun s' => step s' x

variable {P step}

@[simp] theorem run_nil : run step s [] = some s := rfl

theorem run_cons (s : σ) (x : α) (l : List α) :
    run step s (x :: l) = (step s x).bind fun s' => run step s' l := by
  rfl

theorem run_append : run step s (l ++ l') = (run step s l).bind fun s' => run step s' l' := by
  rw [run, foldlM_append]
  rfl

theorem Commutes.symm (h : Commutes P step x y) : Commutes P step y x := fun s hs => (h s hs).symm

theorem keeps_run (hk : ∀ x ∈ l, Keeps P step x) (hs : P s) (h : run step s l = some s') :
    P s' := by
  induction l generalizing s with
  | nil => cases h; exact hs
  | cons x l ih =>
    obtain ⟨t, ht, h⟩ := Option.bind_eq_some_iff.mp h
    exact ih (forall_mem_cons.mp hk).2 (hk x mem_cons_self s t hs ht) h

/-- A run succeeds when every step succeeds on the states of an invariant it keeps. -/
theorem run_isSome (hst : ∀ x ∈ l, ∀ s, P s → ∃ s', step s x = some s' ∧ P s') (hs : P s) :
    (run step s l).isSome := by
  induction l generalizing s with
  | nil => rfl
  | cons x l ih =>
    obtain ⟨s', hs', hP⟩ := hst x mem_cons_self s hs
    rw [run_cons, hs', Option.bind_some]
    exact ih (forall_mem_cons.mp hst).2 hP

/-- Every input of a successful run makes a step somewhere. -/
theorem step_of_run (h : run step s l = some s') (hx : x ∈ l) : ∃ t, (step t x).isSome := by
  induction l generalizing s with
  | nil => cases hx
  | cons y l ih =>
    obtain ⟨t, ht, h⟩ := Option.bind_eq_some_iff.mp h
    rcases mem_cons.mp hx with rfl | hx
    · exact ⟨s, by rw [ht]; rfl⟩
    · exact ih h hx

/-- One input can be moved past a list whose inputs it commutes with. -/
theorem Commutes.past {x : α} {l : List α} (hc : ∀ y ∈ l, Commutes P step x y)
    (hk : ∀ y ∈ l, Keeps P step y) {s : σ} (hs : P s) :
    (step s x).bind (fun s' => run step s' l) = (run step s l).bind fun s' => step s' x := by
  induction l generalizing s with
  | nil => simp
  | cons y l ih =>
    have hy := hc y mem_cons_self s hs
    calc (step s x).bind (fun s' => run step s' (y :: l))
        = ((step s x).bind fun s' => step s' y).bind fun s' => run step s' l := by
          simp only [run_cons, Option.bind_assoc]
      _ = ((step s y).bind fun s' => step s' x).bind fun s' => run step s' l := by rw [hy]
      _ = (run step s (y :: l)).bind fun s' => step s' x := by
          rw [run_cons, Option.bind_assoc, Option.bind_assoc]
          cases hsy : step s y with
          | none => rfl
          | some t =>
            exact ih (forall_mem_cons.mp hc).2
              (forall_mem_cons.mp hk).2
              (hk y mem_cons_self s t hs hsy)

/-- Two lists can be swapped when their inputs commute. -/
theorem Commutes.lists (hc : ∀ x ∈ l, ∀ y ∈ l', Commutes P step x y) (hk : ∀ x ∈ l, Keeps P step x)
    (hk' : ∀ y ∈ l', Keeps P step y) (hs : P s) :
    (run step s l).bind (fun s' => run step s' l') =
      (run step s l').bind fun s' => run step s' l := by
  induction l generalizing s with
  | nil => simp
  | cons x l ih =>
    have hx := Commutes.past (hc x mem_cons_self) hk' hs
    calc (run step s (x :: l)).bind (fun s' => run step s' l')
        = (step s x).bind fun t => (run step t l).bind fun s' => run step s' l' := by
          rw [run_cons, Option.bind_assoc]
      _ = (step s x).bind fun t => (run step t l').bind fun s' => run step s' l := by
          cases hsx : step s x with
          | none => rfl
          | some t =>
            exact ih (forall_mem_cons.mp hc).2
              (forall_mem_cons.mp hk).2
              (hk x mem_cons_self s t hs hsx)
      _ = ((step s x).bind fun t => run step t l').bind fun s' => run step s' l := by
          rw [Option.bind_assoc]
      _ = ((run step s l').bind fun t => step t x).bind fun s' => run step s' l := by rw [hx]
      _ = (run step s l').bind fun s' => run step s' (x :: l) := by
          simp only [run_cons, Option.bind_assoc]

/-- The run of a list of blocks. -/
theorem run_flatMap (f : β → List α) (s : σ) (bs : List β) :
    run step s (bs.flatMap f) = run (fun s b => run step s (f b)) s bs := by
  induction bs generalizing s with
  | nil => rfl
  | cons b bs ih =>
    rw [flatMap_cons, run_append, run_cons]
    simp only [ih]

/-- Blocks commute when their inputs do. -/
theorem Commutes.blocks {f : β → List α} {b b' : β}
    (hc : ∀ x ∈ f b, ∀ y ∈ f b', Commutes P step x y)
    (hk : ∀ x ∈ f b, Keeps P step x) (hk' : ∀ y ∈ f b', Keeps P step y) :
    Commutes P (fun s b => run step s (f b)) b b' :=
  fun _ hs => Commutes.lists hc hk hk' hs

/-- The order of commuting inputs does not matter. -/
theorem run_perm (hp : l.Perm l') (hk : ∀ x ∈ l, Keeps P step x)
    (hc : ∀ x ∈ l, ∀ y ∈ l, Commutes P step x y) (hs : P s) : run step s l = run step s l' := by
  induction hp generalizing s with
  | nil => rfl
  | cons x _ ih =>
    rw [run_cons, run_cons]
    cases hsx : step s x with
    | none => rfl
    | some t =>
      exact ih (forall_mem_cons.mp hk).2
        (fun y hy z hz => hc y (mem_cons_of_mem _ hy) z (mem_cons_of_mem _ hz))
        (hk x mem_cons_self s t hs hsx)
  | swap x y l =>
    have hyx := hc y mem_cons_self x (mem_cons_of_mem _ mem_cons_self) s hs
    simp only [run_cons]
    rw [← Option.bind_assoc, hyx, Option.bind_assoc]
  | trans h₁ _ ih₁ ih₂ =>
    rw [ih₁ hk hc hs]
    exact ih₂ (fun x hx => hk x (h₁.mem_iff.mpr hx))
      (fun x hx y hy => hc x (h₁.mem_iff.mpr hx) y (h₁.mem_iff.mpr hy)) hs

/-- The order does not matter when any two inputs of the list commute. -/
theorem run_perm_of_pairwise (hp : l.Perm l') (hk : ∀ x ∈ l, Keeps P step x)
    (hc : l.Pairwise (Commutes P step)) (hs : P s) : run step s l = run step s l' := by
  have : Std.Symm (Commutes P step) := ⟨fun _ _ h => h.symm⟩
  exact run_perm hp hk (fun x hx y hy => hc.forall_of_forall (fun _ _ _ _ => rfl) hx hy) hs

end Steps
