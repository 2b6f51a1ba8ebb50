import Mathlib

/-!
# Programs over a store that can fail or crash

A program over a store looks at the store and performs operations on it, one at
a time, and is told of each operation whether it reported success.  An operation
is atomic, but it may fail: it may report an error without taking effect, and it
may report an error after taking effect.

There are three readings of a program.  `run` follows a given sequence of
faults, `eval` is the run without faults, and `Reaches` holds of every store that
some run passes through, which is where a crash can leave it.  `Ends` holds of
the result and the store some run ends with.  `Along` says that every operation
of a run meets a condition on the operation and its fault.

Each reading of a sequence `p.bind f` is the reading of `p` followed by that of
`f` (`run_bind`, `eval_bind`, `reaches_bind`, `along_bind`).
-/

/-- What becomes of one operation: success, an error without effect, or an error
after the effect. -/
inductive Fault where
  | none
  | before
  | after
  deriving DecidableEq, Repr

/-- A program with operations `ω` over stores `σ` and results `α`. -/
inductive Prog (ω σ α : Type) where
  /-- The end. -/
  | done (result : α)
  /-- Look at the store. -/
  | look (next : σ → Prog ω σ α)
  /-- Perform an operation; the rest depends on whether it reported success. -/
  | act (op : ω) (next : Bool → Prog ω σ α)

namespace Prog

variable {ω σ α β : Type}

def bind : Prog ω σ α → (α → Prog ω σ β) → Prog ω σ β
  | done a, f => f a
  | look next, f => look fun s => (next s).bind f
  | act op next, f => act op fun ok => (next ok).bind f

instance : Monad (Prog ω σ) where
  pure := done
  bind := bind

@[simp] theorem bind_eq (f : α → Prog ω σ β) : (p >>= f) = p.bind f := rfl

@[simp] theorem bind_done (a : α) (f : α → Prog ω σ β) : (done a).bind f = f a := rfl

@[simp] theorem bind_look (next : σ → Prog ω σ α) (f : α → Prog ω σ β) :
    (look next).bind f = look fun s => (next s).bind f := rfl

@[simp] theorem bind_act (op : ω) (next : Bool → Prog ω σ α) (f : α → Prog ω σ β) :
    (act op next).bind f = act op fun ok => (next ok).bind f := rfl

section Readings

variable (apply : ω → σ → σ)

/-- The report of an operation and the store after it. -/
def outcome (op : ω) (s : σ) : Fault → Bool × σ
  | .none => (true, apply op s)
  | .before => (false, s)
  | .after => (false, apply op s)

/-- The run under a sequence of faults, from its `n`th one on: the result, the
number of faults used so far and the store. -/
def run (faults : Nat → Fault) : Prog ω σ α → Nat → σ → α × Nat × σ
  | done a, n, s => (a, n, s)
  | look next, n, s => run faults (next s) n s
  | act op next, n, s =>
    run faults (next (outcome apply op s (faults n)).1) (n + 1) (outcome apply op s (faults n)).2

/-- The run without faults: the result and the store. -/
def eval : Prog ω σ α → σ → α × σ
  | done a, s => (a, s)
  | look next, s => eval (next s) s
  | act op next, s => eval (next true) (apply op s)

/-- Some run from the first store passes through the second. -/
def Reaches : Prog ω σ α → σ → σ → Prop
  | done _, s, t => t = s
  | look next, s, t => Reaches (next s) s t
  | act op next, s, t =>
    t = s ∨ ∃ f, Reaches (next (outcome apply op s f).1) (outcome apply op s f).2 t

/-- Some run from the store ends with the result and the other store. -/
def Ends : Prog ω σ α → σ → α → σ → Prop
  | done a, s, b, t => b = a ∧ t = s
  | look next, s, b, t => Ends (next s) s b t
  | act op next, s, b, t =>
    ∃ f, Ends (next (outcome apply op s f).1) (outcome apply op s f).2 b t

/-- Every operation of the run meets the condition with its fault. -/
def Along (P : ω → Fault → Prop) (faults : Nat → Fault) : Prog ω σ α → Nat → σ → Prop
  | done _, _, _ => True
  | look next, n, s => Along P faults (next s) n s
  | act op next, n, s =>
    P op (faults n) ∧
      Along P faults (next (outcome apply op s (faults n)).1) (n + 1)
        (outcome apply op s (faults n)).2

instance decidableAlong (P : ω → Fault → Prop) [∀ op fault, Decidable (P op fault)]
    (faults : Nat → Fault) : (p : Prog ω σ α) → (n : Nat) → (s : σ) →
      Decidable (Along apply P faults p n s)
  | done _, _, _ => .isTrue trivial
  | look next, n, s => decidableAlong P faults (next s) n s
  | act op next, n, s =>
    @instDecidableAnd _ _ inferInstance
      (decidableAlong P faults (next (outcome apply op s (faults n)).1) (n + 1)
        (outcome apply op s (faults n)).2)

variable {apply}

@[simp] theorem outcome_none : outcome apply op s .none = (true, apply op s) := rfl

/-! ## Sequences -/

theorem run_bind (faults : Nat → Fault) (p : Prog ω σ α) (f : α → Prog ω σ β) (n : Nat) (s : σ) :
    run apply faults (p.bind f) n s =
      run apply faults (f (run apply faults p n s).1) (run apply faults p n s).2.1
        (run apply faults p n s).2.2 := by
  induction p generalizing n s with
  | done a => rfl
  | look next ih => exact ih s n s
  | act op next ih => exact ih _ _ _

theorem eval_bind (p : Prog ω σ α) (f : α → Prog ω σ β) (s : σ) :
    eval apply (p.bind f) s = eval apply (f (eval apply p s).1) (eval apply p s).2 := by
  induction p generalizing s with
  | done a => rfl
  | look next ih => exact ih s s
  | act op next ih => exact ih true _

variable {p : Prog ω σ α} {s t : σ} {P : ω → Fault → Prop} {f : α → Prog ω σ β}
  {faults : Nat → Fault} {n : Nat}

/-- A run of a sequence is stopped in its first part or in its second. -/
theorem reaches_bind (h : Reaches apply (p.bind f) s t) :
    Reaches apply p s t ∨ ∃ a s', Ends apply p s a s' ∧ Reaches apply (f a) s' t := by
  induction p generalizing s with
  | done a => exact .inr ⟨a, s, ⟨rfl, rfl⟩, h⟩
  | look next ih => exact ih s h
  | act op next ih =>
    obtain rfl | ⟨fault, h⟩ := h
    · exact .inl (.inl rfl)
    · obtain h | ⟨a, s', hp, hf⟩ := ih _ h
      · exact .inl (.inr ⟨fault, h⟩)
      · exact .inr ⟨a, s', ⟨fault, hp⟩, hf⟩

theorem along_bind : Along apply P faults (p.bind f) n s ↔ Along apply P faults p n s ∧
        Along apply P faults (f (run apply faults p n s).1) (run apply faults p n s).2.1
          (run apply faults p n s).2.2 := by
  induction p generalizing n s with
  | done a => exact ⟨fun h => ⟨trivial, h⟩, fun h => h.2⟩
  | look next ih => exact ih s
  | act op next ih =>
    constructor
    · rintro ⟨hop, h⟩
      exact ⟨⟨hop, ((ih _).mp h).1⟩, ((ih _).mp h).2⟩
    · rintro ⟨⟨hop, hp⟩, hf⟩
      exact ⟨hop, (ih _).mpr ⟨hp, hf⟩⟩

/-! ## How the readings are related -/

theorem ends_run (faults : Nat → Fault) (p : Prog ω σ α) (n : Nat) (s : σ) :
    Ends apply p s (run apply faults p n s).1 (run apply faults p n s).2.2 := by
  induction p generalizing n s with
  | done a => exact ⟨rfl, rfl⟩
  | look next ih => exact ih s n s
  | act op next ih => exact ⟨faults n, ih _ _ _⟩

theorem reaches_eval (h : eval apply p s = (a, t)) : Reaches apply p s t := by
  induction p generalizing s with
  | done b =>
    cases h
    rfl
  | look next ih => exact ih s h
  | act op next ih => exact .inr ⟨.none, ih true h⟩

theorem reaches_ends (h : Ends apply p s a t) : Reaches apply p s t := by
  induction p generalizing s with
  | done b => exact h.2
  | look next ih => exact ih s h
  | act op next ih =>
    obtain ⟨fault, h⟩ := h
    exact .inr ⟨fault, ih _ h⟩

theorem reaches_run : Reaches apply p s (run apply faults p n s).2.2 :=
  reaches_ends (ends_run faults p n s)

/-- A last part that only gives a result does not move the store. -/
theorem reaches_of_bind_done {f : α → β} (h : Reaches apply (p.bind fun a => done (f a)) s t) :
    Reaches apply p s t := by
  obtain h | ⟨a, s', hp, ht⟩ := reaches_bind h
  · exact h
  · have hs : t = s' := ht
    exact hs ▸ reaches_ends hp

/-- The last operation of a program takes effect or it does not. -/
theorem reaches_last {f : Bool → α} (h : Reaches apply (act op fun ok => done (f ok)) s t) :
    t = s ∨ t = apply op s := by
  obtain h | ⟨fault, h⟩ := h
  · exact .inl h
  · cases fault with
    | none | after => exact .inr h
    | before => exact .inl h

theorem reaches_self : Reaches apply p s s := by
  induction p with
  | done a => rfl
  | look next ih => exact ih s
  | act op next ih => exact .inl rfl

/-- Every operation the program can perform meets the condition. -/
def Uses (P : ω → Prop) : Prog ω σ α → Prop
  | done _ => True
  | look next => ∀ s, Uses P (next s)
  | act op next => P op ∧ ∀ ok, Uses P (next ok)

theorem uses_bind {P : ω → Prop} (hp : Uses P p) (hf : ∀ a, Uses P (f a)) : Uses P (p.bind f) := by
  induction p with
  | done a => exact hf a
  | look next ih => exact fun s => ih s (hp s)
  | act op next ih => exact ⟨hp.1, fun ok => ih ok (hp.2 ok)⟩

theorem uses_mono {P Q : ω → Prop} (hPQ : ∀ op, P op → Q op) (h : Uses P p) : Uses Q p := by
  induction p with
  | done a => trivial
  | look next ih => exact fun s => ih s (h s)
  | act op next ih => exact ⟨hPQ op h.1, fun ok => ih ok (h.2 ok)⟩

theorem along_mono (hPQ : ∀ op fault, P op fault → Q op fault) (h : Along apply P faults p n s) :
    Along apply Q faults p n s := by
  induction p generalizing n s with
  | done a => trivial
  | look next ih => exact ih s h
  | act op next ih => exact ⟨hPQ _ _ h.1, ih _ h.2⟩

/-- A condition that every operation of the program meets with every fault. -/
theorem along_of_uses (hp : Uses (fun op => ∀ fault, P op fault) p) (faults : Nat → Fault) (n : Nat)
    (s : σ) : Along apply P faults p n s := by
  induction p generalizing n s with
  | done a => trivial
  | look next ih => exact ih s (hp s) n s
  | act op next ih => exact ⟨hp.1 _, ih _ (hp.2 _) _ _⟩

/-- Every store a run passes through has a property that the first one has and
that the operations of the program keep. -/
theorem reaches_induction {P : ω → Prop} {Q : σ → Prop}
    (hst : ∀ op s, P op → Q s → Q (apply op s)) (hp : Uses P p) (hs : Q s)
    (h : Reaches apply p s t) : Q t := by
  induction p generalizing s with
  | done a => exact h ▸ hs
  | look next ih => exact ih s (hp s) hs h
  | act op next ih =>
    obtain rfl | ⟨fault, h⟩ := h
    · exact hs
    · refine ih _ (hp.2 _) ?_ h
      cases fault with
      | none => exact hst op s hp.1 hs
      | before => exact hs
      | after => exact hst op s hp.1 hs

/-! ## Results that only a run without faults gives

A program that reports an error whenever one of its operations does is *honest*:
when it reports success, it ran without faults. -/

/-- No run ends with a good result. -/
def Never (apply : ω → σ → σ) (good : α → Prop) (p : Prog ω σ α) : Prop :=
  ∀ s a t, Ends apply p s a t → ¬ good a

/-- Every run with a good result is the run without faults. -/
def Honest (apply : ω → σ → σ) (good : α → Prop) (p : Prog ω σ α) : Prop :=
  ∀ s a t, Ends apply p s a t → good a → eval apply p s = (a, t)

theorem ends_bind (h : Ends apply (p.bind f) s b t) :
    ∃ a s', Ends apply p s a s' ∧ Ends apply (f a) s' b t := by
  induction p generalizing s with
  | done a => exact ⟨a, s, ⟨rfl, rfl⟩, h⟩
  | look next ih => exact ih s h
  | act op next ih =>
    obtain ⟨fault, h⟩ := h
    obtain ⟨a, s', hp, hf⟩ := ih _ h
    exact ⟨a, s', ⟨fault, hp⟩, hf⟩

variable {good : α → Prop} {goodLater : β → Prop}

theorem never_done (h : ¬ good a) : Never apply good (done a : Prog ω σ α) := by
  rintro s b t ⟨rfl, rfl⟩
  exact h

theorem never_act (h : ∀ ok, Never apply good (next ok)) : Never apply good (act op next) := by
  rintro s a t ⟨fault, he⟩
  exact h _ _ _ _ he

/-- No operation that fails leaves a good result possible. -/
def Strict (apply : ω → σ → σ) (good : α → Prop) : Prog ω σ α → Prop
  | done _ => True
  | look next => ∀ s, Strict apply good (next s)
  | act _ next => Strict apply good (next true) ∧ Never apply good (next false)

/-- A sequence that ends with a bad result when its first part does. -/
theorem strict_bind (hp : Strict apply good p) (hf : ∀ a, good a → Strict apply goodLater (f a))
    (hba : ∀ a, ¬ good a → ∃ b, f a = done b ∧ ¬ goodLater b) :
    Strict apply goodLater (p.bind f) := by
  induction p with
  | done a =>
    by_cases ha : good a
    · exact hf a ha
    · obtain ⟨b, hb, -⟩ := hba a ha
      rw [bind_done, hb]
      trivial
  | look next ih => exact fun s => ih s (hp s)
  | act op next ih =>
    refine ⟨ih true hp.1, ?_⟩
    intro s b t he
    obtain ⟨a, s', hpa, hfa⟩ := ends_bind he
    obtain ⟨c, hc, hba⟩ := hba a (hp.2 s a s' hpa)
    rw [hc] at hfa
    exact hfa.1 ▸ hba

/-- A strict program is honest. -/
theorem honest_of_strict (h : Strict apply good p) : Honest apply good p := by
  induction p with
  | done a =>
    rintro s b t ⟨rfl, rfl⟩ -
    rfl
  | look next ih => exact fun s a t he hg => ih s (h s) s a t he hg
  | act op next ih =>
    rintro s a t ⟨fault, he⟩ hg
    cases fault with
    | none => exact ih true h.1 _ a t he hg
    | before | after => exact absurd hg (h.2 _ a t he)

/-- A sequence that is over unless its first part, which is strict, has a good result. -/
theorem reaches_bind_strict (hp : Strict apply good p) (h : Reaches apply (p.bind f) s t)
    (hf : ∀ a, good a ∨ ∃ b, f a = done b) :
    Reaches apply p s t ∨ ∃ a s', good a ∧ eval apply p s = (a, s') ∧ Reaches apply (f a) s' t := by
  obtain h | ⟨a, s', he, h⟩ := reaches_bind h
  · exact .inl h
  · obtain hg | ⟨b, hb⟩ := hf a
    · exact .inr ⟨a, s', hg, honest_of_strict hp _ _ _ he hg, h⟩
    · rw [hb] at h
      exact .inl (h ▸ reaches_ends he)

/-- A run of a strict program, which meets no fault if its result is good. -/
theorem run_cases (h : Strict apply good p) (faults : Nat → Fault) (n : Nat) (s : σ) :
    ∃ a n' t, run apply faults p n s = (a, n', t) ∧ Reaches apply p s t ∧
      (good a → eval apply p s = (a, t)) :=
  ⟨_, _, _, rfl, reaches_run, honest_of_strict h _ _ _ (ends_run faults p n s)⟩

/-- A run of a strict program with a good result met no fault. -/
theorem along_of_strict (h : Strict apply good p) (hg : good (run apply faults p n s).1) :
    Along apply (fun _ fault => fault = .none) faults p n s := by
  induction p generalizing n s with
  | done a => trivial
  | look next ih => exact ih s (h s) hg
  | act op next ih =>
    cases hf : faults n with
    | none =>
      simp only [run, Along, hf, outcome_none] at hg ⊢
      exact ⟨trivial, ih true h.1 hg⟩
    | before | after =>
      simp only [run, hf] at hg
      exact absurd hg (h.2 _ _ _ (ends_run faults _ _ _))

end Readings

end Prog
