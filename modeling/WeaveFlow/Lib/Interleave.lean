import Mathlib

/-!
# Programs of atomic steps

A program that shares its state with others is a tree of atomic steps.  A step
writes the state at one instant, and what the program does next depends on the
state it found.  Between two steps others may change the state.

`Proc.Sat` is the rely-guarantee reading of a program.  If every change by the
others is in the rely `R`, then every step of the program is in the guarantee `G`
and its result satisfies the postcondition.  The rules follow the shape of a
program, and `sat_pool` puts the programs of a pool together: each of them may
rely on what the others guarantee.
-/

/-- A program over a shared state. -/
inductive Proc (σ α : Type) where
  /-- The program has ended. -/
  | done (result : α)
  /-- An atomic step; the continuation sees the state before the write. -/
  | atomic (write : σ → σ) (next : σ → Proc σ α)

namespace Proc

variable {σ α β ε : Type}

/-! ## Sequencing -/

def bind : Proc σ α → (α → Proc σ β) → Proc σ β
  | done a, f => f a
  | atomic write next, f => atomic write fun s => bind (next s) f

instance : Monad (Proc σ) where
  pure := done
  bind := bind

/-- An operation on the shared state, as one atomic step. -/
def call (f : σ → α × σ) : Proc σ α := atomic (fun s => (f s).2) fun s => done (f s).1

/-- A program that may fail. -/
abbrev Fallible (ε σ α : Type) := ExceptT ε (Proc σ) α

/-- An operation that may fail and then changes nothing. -/
def attempt (f : σ → Except ε (α × σ)) : Fallible ε σ (Except ε α) :=
  ExceptT.lift (call fun s => match f s with
    | .ok (a, s') => (.ok a, s')
    | .error e => (.error e, s))

/-! ## Rely and guarantee -/

/-- A predicate that the changes of others keep. -/
def Stable (R : σ → σ → Prop) (P : σ → Prop) : Prop := ∀ s s', R s s' → P s → P s'

section

variable {R G : σ → σ → Prop}

/-- What others do in any number of changes. -/
abbrev Others (R : σ → σ → Prop) : σ → σ → Prop := Relation.ReflTransGen R

variable {s : σ} {Q : α → σ → Prop} {p : Proc σ α} {a : α}

theorem Stable.others (h : Stable R P) (hs : P s) (hr : Others R s s') : P s' := by
  induction hr with
  | refl => exact hs
  | tail _ hst ih => exact h _ _ hst ih

theorem Stable.and (h : Stable R P) (h' : Stable R P') : Stable R fun s => P s ∧ P' s :=
  fun s s' hr hs => ⟨h s s' hr hs.1, h' s s' hr hs.2⟩

/-- Every step of the program is in the guarantee and its result satisfies the
postcondition, whatever others do within the rely. -/
def Sat (R G : σ → σ → Prop) (Q : α → σ → Prop) : Proc σ α → σ → Prop
  | done a, s => ∀ s', Others R s s' → Q a s'
  | atomic write next, s =>
    ∀ s', Others R s s' → G s' (write s') ∧ Sat R G Q (next s') (write s')

theorem sat_done (hQ : Stable R (Q a)) (h : Q a s) :
    Sat R G Q (done a) s := fun _ hr => hQ.others h hr

/-- A program that has ended satisfies its postcondition. -/
theorem sat_result (h : Sat R G Q (done a) s) : Q a s := h s .refl

/-- The others may take a turn. -/
theorem sat_others (h : Sat R G Q p s) (hr : Others R s s') : Sat R G Q p s' := by
  cases p with
  | done a | atomic write next => exact fun s'' hr' => h s'' (hr.trans hr')

theorem sat_mono (hQ : ∀ a s, Q a s → Q' a s) (h : Sat R G Q p s) : Sat R G Q' p s := by
  induction p generalizing s with
  | done a => exact fun s' hr => hQ a s' (h s' hr)
  | atomic write next ih => exact fun s' hr => ⟨(h s' hr).1, ih s' (h s' hr).2⟩

theorem sat_bind {Q' : β → σ → Prop} {f : α → Proc σ β} (h : Sat R G Q p s)
    (hf : ∀ a s, Q a s → Sat R G Q' (f a) s) : Sat R G Q' (p.bind f) s := by
  induction p generalizing s with
  | done a => exact hf a s (h s .refl)
  | atomic write next ih => exact fun s' hr => ⟨(h s' hr).1, ih s' (h s' hr).2⟩

/-- An atomic operation, from a predicate that others keep. -/
theorem sat_call (hP : Stable R P) (hs : P s) (hf : ∀ s, P s → G s (f s).2 ∧ Q (f s).1 (f s).2)
    (hQ : ∀ a, Stable R (Q a)) : Sat R G Q (call f) s := by
  intro s' hr
  have hP' : P s' := hP.others hs hr
  exact ⟨(hf s' hP').1, sat_done (hQ _) (hf s' hP').2⟩

/-! ## Programs that may fail -/

/-- The postcondition of a program that says nothing about a failure but that the
state satisfies `E`. -/
def Either (Q : α → σ → Prop) (E : σ → Prop) : Except ε α → σ → Prop
  | .ok a, s => Q a s
  | .error _, s => E s

/-- The rely-guarantee reading of a program that may fail. -/
structure Meets (R G : σ → σ → Prop) (Q : α → σ → Prop) (E : σ → Prop) (p : Fallible ε σ α)
    (s : σ) : Prop where
  sat : Sat R G (Either Q E) p.run s

theorem meets_pure (hQ : Stable R (Q a)) (h : Q a s) :
    Meets R G Q E (pure a : Fallible ε σ α) s := by
  have hs : Stable R (Either (ε := ε) Q E (.ok a)) := hQ
  exact ⟨sat_done hs h⟩

theorem meets_throw (hE : Stable R E) (h : E s) : Meets R G Q E (throw e : Fallible ε σ α) s := by
  have hs : Stable R (Either (ε := ε) Q E (.error e)) := hE
  exact ⟨sat_done hs h⟩

theorem meets_mono {p : Fallible ε σ α} {Q₁ : α → σ → Prop} (hQ : ∀ a s, Q₁ a s → Q a s)
    (h : Meets R G Q₁ E p s) : Meets R G Q E p s := by
  refine ⟨sat_mono ?_ h.sat⟩
  intro r s hr
  cases r with
  | ok a => exact hQ a s hr
  | error e => exact hr

theorem meets_bind {p : Fallible ε σ α} {f : α → Fallible ε σ β} (hE : Stable R E)
    (h : Meets R G Q E p s) (hf : ∀ a s, Q a s → Meets R G Q' E (f a) s) :
    Meets R G Q' E (p >>= f) s := by
  refine ⟨sat_bind h.sat ?_⟩
  intro r s hr
  cases r with
  | ok a => exact (hf a s hr).sat
  | error e =>
    have hs : Stable R (Either (ε := ε) Q' E (.error e)) := hE
    exact sat_done hs hr

/-- An operation whose failure is a result. -/
theorem meets_attempt {f : σ → Except ε (α × σ)} {Q : Except ε α → σ → Prop} (hP : Stable R P)
    (hs : P s) (hok : ∀ s a s', P s → f s = .ok (a, s') → G s s' ∧ Q (.ok a) s')
    (he : ∀ s e, P s → f s = .error e → G s s ∧ Q (.error e) s)
    (hQ : ∀ r, Stable R (Q r)) : Meets R G Q E (attempt f) s := by
  refine ⟨sat_bind (Q := Q) (sat_call hP hs ?_ hQ) ?_⟩
  · intro s hs
    cases hf : f s with
    | ok r =>
      obtain ⟨a, s'⟩ := r
      exact hok s a s' hs hf
    | error e => exact he s e hs hf
  · intro r s hr
    have hst : Stable R (Either (ε := ε) Q E (.ok r)) := hQ r
    exact sat_done hst hr

end

/-! ## Pools -/

section

variable {ι : Type} [DecidableEq ι] {E : σ → σ → Prop}

/-- One step of a pool: a program takes a step, or the environment does. -/
inductive PoolStep (E : σ → σ → Prop) : (ι → Proc σ α) × σ → (ι → Proc σ α) × σ → Prop
  | own {pool : ι → Proc σ α} {s : σ} (i : ι) (write : σ → σ) (next : σ → Proc σ α) :
      pool i = atomic write next →
        PoolStep E (pool, s) (Function.update pool i (next s), write s)
  | environment {pool : ι → Proc σ α} {s s' : σ} : E s s' → PoolStep E (pool, s) (pool, s')

/-- An interleaving of the programs of a pool. -/
def PoolRuns (E : σ → σ → Prop) : (ι → Proc σ α) × σ → (ι → Proc σ α) × σ → Prop :=
  Relation.ReflTransGen (PoolStep E)

/-- Every program of the pool meets its specification from the state on. -/
def PoolSat (R G : ι → σ → σ → Prop) (Q : ι → α → σ → Prop) (c : (ι → Proc σ α) × σ) : Prop :=
  ∀ i, Sat (R i) (G i) (Q i) (c.1 i) c.2

variable {R G : ι → σ → σ → Prop} {Q : ι → α → σ → Prop} {c c' : (ι → Proc σ α) × σ}

section

variable (hE : ∀ i s s', E s s' → R i s s') (hG : ∀ i j s s', i ≠ j → G i s s' → R j s s')
  (h : PoolSat R G Q c)
include hE hG h

theorem poolSat_step (hs : PoolStep E c c') : PoolSat R G Q c' := by
  cases hs with
  | @own pool s i write next hi =>
    have hsa : Sat (R i) (G i) (Q i) (atomic write next) s := hi ▸ h i
    obtain ⟨hg, hn⟩ := hsa s .refl
    intro j
    by_cases hj : j = i
    · subst hj
      simpa using hn
    · have ho : Sat (R j) (G j) (Q j) (pool j) (write s) :=
        sat_others (h j) (.single (hG i j _ _ (Ne.symm hj) hg))
      simpa [Function.update_of_ne hj] using ho
  | environment he => exact fun j => sat_others (h j) (.single (hE j _ _ he))

/-- In every interleaving every program keeps to its specification. -/
theorem sat_pool (hr : PoolRuns E c c') : PoolSat R G Q c' := by
  induction hr with
  | refl => exact h
  | tail _ hs ih => exact poolSat_step hE hG ih hs

omit hE hG in
theorem poolStep_state (hs : PoolStep E c c') : E c.2 c'.2 ∨ ∃ i, G i c.2 c'.2 := by
  cases hs with
  | @own pool s i write next hi =>
    have hsa : Sat (R i) (G i) (Q i) (atomic write next) s := hi ▸ h i
    exact .inr ⟨i, (hsa s .refl).1⟩
  | environment he => exact .inl he

/-- What the environment and the guarantees keep holds in every state of a pool. -/
theorem pool_induction {P : σ → Prop} (he : ∀ s s', E s s' → P s → P s')
    (ho : ∀ i s s', G i s s' → P s → P s') (hP : P c.2) (hr : PoolRuns E c c') : P c'.2 := by
  induction hr with
  | refl => exact hP
  | tail hb hst ih =>
    rcases poolStep_state (sat_pool hE hG h hb) hst with hs | ⟨i, hs⟩
    · exact he _ _ hs ih
    · exact ho i _ _ hs ih

end

/-- A program alone, up to its end. -/
def eval : Proc σ α → σ → α × σ
  | done a, s => (a, s)
  | atomic write next, s => eval (next s) (write s)

/-- A program of a pool may run to its end before the others take a step. -/
theorem poolRuns_eval (pool : ι → Proc σ α) (i : ι) (s : σ) :
    PoolRuns E (pool, s) (Function.update pool i (done ((pool i).eval s).1), ((pool i).eval s).2) := by
  generalize hp : pool i = p
  induction p generalizing pool s with
  | done a =>
    have hs : Function.update pool i (done a) = pool := by
      rw [← hp]
      exact Function.update_eq_self i pool
    show PoolRuns E (pool, s) (Function.update pool i (done a), s)
    rw [hs]
    exact .refl
  | atomic write next ih =>
    have hr := ih s (Function.update pool i (next s)) (write s) (Function.update_self ..)
    rw [Function.update_idem] at hr
    exact .head (.own i write next hp) hr

end

-- The elaborator must not run a program to see what it satisfies.
attribute [irreducible] Sat

end Proc
