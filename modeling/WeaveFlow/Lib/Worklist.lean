import Mathlib

/-!
# Worklist search

A breadth-first search that marks a target when it is first put into the queue.  With as much
fuel as there are targets it marks exactly what is reached from the start by one or more
steps (`mem_reached`).

The second search marks an item when it is taken from the queue, by a key, after looking at it
through a view that may drop it.  With enough fuel and keys that tell the items apart it finds
the items of its queue and with an item all that follow it (`explore_closed`).
-/

namespace Worklist

open List

variable {α : Type} [DecidableEq α] (next : α → List α)

/-- The targets that are not marked yet, each once, in their order. -/
def fresh : List α → List α → List α
  | _, [] => []
  | marked, t :: ts => if t ∈ marked then fresh marked ts else t :: fresh (t :: marked) ts

/-- The search loop: a queue and the marks so far. -/
def search : Nat → List α → List α → List α
  | 0, _, marked => marked
  | _ + 1, [], marked => marked
  | fuel + 1, q :: queue, marked =>
    let new := fresh marked (next q)
    search fuel (queue ++ new) (marked ++ new)

/-- What is reached from a start; the targets bound the number of rounds. -/
def reached (targets : List α) (start : α) : List α :=
  search next (targets.length + 1) [start] []

def Step (a b : α) : Prop := b ∈ next a

/-! ## The marks of one round -/

variable {marked targets : List α} {start x : α} {fuel : Nat}

theorem mem_fresh : x ∈ fresh marked ts ↔ x ∈ ts ∧ x ∉ marked := by
  induction ts generalizing marked with
  | nil => simp [fresh]
  | cons t ts ih =>
    rw [fresh]
    split
    next ht =>
      rw [ih, mem_cons]
      constructor
      · rintro ⟨hx, hm⟩
        exact ⟨.inr hx, hm⟩
      · rintro ⟨rfl | hx, hm⟩
        · exact absurd ht hm
        · exact ⟨hx, hm⟩
    next ht =>
      rw [mem_cons, ih, mem_cons, mem_cons]
      constructor
      · rintro (rfl | ⟨hx, hm⟩)
        · exact ⟨.inl rfl, ht⟩
        · exact ⟨.inr hx, fun h => hm (.inr h)⟩
      · rintro ⟨rfl | hx, hm⟩
        · exact .inl rfl
        · rcases eq_or_ne x t with rfl | hne
          · exact .inl rfl
          · exact .inr ⟨hx, fun h => h.elim hne hm⟩

theorem nodup_fresh (marked ts : List α) : (fresh marked ts).Nodup := by
  induction ts generalizing marked with
  | nil => exact nodup_nil
  | cons t ts ih =>
    rw [fresh]
    split
    · exact ih marked
    · refine nodup_cons.mpr ⟨fun h => ?_, ih (t :: marked)⟩
      exact (mem_fresh.mp h).2 mem_cons_self

/-! ## The loop -/

variable {next}

/-- What holds between two rounds of a search from `start` among `targets`. -/
structure Searching (next : α → List α) (targets : List α) (start : α) (fuel : Nat)
    (queue marked : List α) : Prop where
  sound : ∀ x ∈ marked, Relation.TransGen (Step next) start x
  queued : ∀ q ∈ queue, q = start ∨ q ∈ marked
  done : ∀ x, x = start ∨ x ∈ marked → x ∈ queue ∨ ∀ y ∈ next x, y ∈ marked
  nodup : marked.Nodup
  bounded : marked ⊆ targets
  enough : queue.length + targets.length ≤ fuel + marked.length

theorem Searching.round (ht : ∀ a, next a ⊆ targets)
    (h : Searching next targets start (fuel + 1) (q :: queue) marked) :
    Searching next targets start fuel (queue ++ fresh marked (next q))
      (marked ++ fresh marked (next q)) where
  sound := by
    intro x hx
    rcases mem_append.mp hx with hx | hx
    · exact h.sound x hx
    · have hs : Step next q x := (mem_fresh.mp hx).1
      rcases h.queued q mem_cons_self with rfl | hq
      · exact Relation.TransGen.single hs
      · exact (h.sound q hq).tail hs
  queued := by
    intro x hx
    rcases mem_append.mp hx with hx | hx
    · exact (h.queued x (mem_cons_of_mem _ hx)).imp_right (mem_append_left _)
    · exact .inr (mem_append_right _ hx)
  done := by
    intro x hx
    have hn : ∀ y ∈ next q, y ∈ marked ++ fresh marked (next q) := by
      intro y hy
      rw [mem_append, mem_fresh]
      exact (Decidable.em (y ∈ marked)).imp_right fun hm => ⟨hy, hm⟩
    have ho : x = start ∨ x ∈ marked → x ∈ queue ++ fresh marked (next q) ∨
        ∀ y ∈ next x, y ∈ marked ++ fresh marked (next q) := by
      intro hx
      rcases h.done x hx with hin | hin
      · rcases mem_cons.mp hin with rfl | hin
        · exact .inr hn
        · exact .inl (mem_append_left _ hin)
      · exact .inr fun y hy => mem_append_left _ (hin y hy)
    rcases hx with hx | hx
    · exact ho (.inl hx)
    · rcases mem_append.mp hx with hx | hx
      · exact ho (.inr hx)
      · exact .inl (mem_append_right _ hx)
  nodup := nodup_append.mpr ⟨h.nodup, nodup_fresh _ _, fun a ha b hb he =>
    (mem_fresh.mp hb).2 (he ▸ ha)⟩
  bounded := by
    intro x hx
    rcases mem_append.mp hx with hx | hx
    · exact h.bounded hx
    · exact ht q (mem_fresh.mp hx).1
  enough := by
    have := h.enough
    simp only [length_append, length_cons] at this ⊢
    omega

omit [DecidableEq α] in
/-- With an empty queue the marks are what is reached from the start. -/
theorem Searching.mem_marked (h : Searching next targets start fuel [] marked) :
    x ∈ marked ↔ Relation.TransGen (Step next) start x := by
  have hc : ∀ y, y = start ∨ y ∈ marked → ∀ z ∈ next y, z ∈ marked := fun y hy =>
    (h.done y hy).resolve_left not_mem_nil
  refine ⟨h.sound x, fun hx => ?_⟩
  induction hx with
  | single hs => exact hc start (.inl rfl) _ hs
  | tail _ hs ih => exact hc _ (.inr ih) _ hs

theorem Searching.mem_search (ht : ∀ a, next a ⊆ targets)
    (h : Searching next targets start fuel queue marked) :
    x ∈ search next fuel queue marked ↔ Relation.TransGen (Step next) start x := by
  induction fuel generalizing queue marked with
  | zero =>
    -- no fuel is left only when everything is marked and the queue has run dry
    have hl : marked.length ≤ targets.length := (h.nodup.subperm h.bounded).length_le
    have he : queue = [] := length_eq_zero_iff.mp (by have := h.enough; omega)
    subst he
    exact h.mem_marked
  | succ fuel ih =>
    cases queue with
    | nil => exact h.mem_marked
    | cons q queue => exact ih (h.round ht)

/-- The search finds exactly what is reached in one or more steps. -/
theorem mem_reached (ht : ∀ a, next a ⊆ targets) :
    x ∈ reached next targets start ↔ Relation.TransGen (Step next) start x := by
  have h : Searching next targets start (targets.length + 1) [start] [] := ⟨?_, ?_, ?_, ?_, ?_, ?_⟩
  · exact h.mem_search ht
  · intro x hx
    cases hx
  · intro q hq
    exact .inl (mem_singleton.mp hq)
  · rintro x (rfl | hx)
    · exact .inl (mem_singleton_self x)
    · cases hx
  · exact nodup_nil
  · exact nil_subset _
  · simp only [length_cons, length_nil]
    omega

/-! ## Marks on taking -/

section Explore

variable {γ β κ : Type} [DecidableEq β] [DecidableEq κ] (view : γ → Option β) (key : β → κ)
  (follow : β → List γ)

/-- The search loop: a queue and the keys of the items found so far. -/
def explore : Nat → List γ → List κ → List β
  | 0, _, _ => []
  | _ + 1, [], _ => []
  | fuel + 1, a :: queue, visited =>
    match view a with
    | none => explore fuel queue visited
    | some b =>
      if key b ∈ visited then explore fuel queue visited
      else b :: explore fuel (queue ++ follow b) (key b :: visited)

/-- The items that a search may meet, told apart by their keys, with bounds on how many follow
each. -/
structure Universe (items : Finset β) (bound : β → Nat) : Prop where
  distinct : ∀ b ∈ items, ∀ c ∈ items, key b = key c → b = c
  closed : ∀ b ∈ items, ∀ a ∈ follow b, ∀ c, view a = some c → c ∈ items
  bounded : ∀ b ∈ items, (follow b).length ≤ bound b

variable {view key follow}

/-- Taking a new item lowers what is left to be found. -/
theorem sum_unfound {items : Finset β} {f : β → Nat} {found : List β} {b : β}
    (hb : b ∈ items) (hn : b ∉ found) :
    f b + ∑ u ∈ items \ (b :: found).toFinset, f u = ∑ u ∈ items \ found.toFinset, f u := by
  rw [toFinset_cons, Finset.sdiff_insert]
  refine Finset.add_sum_erase _ _ (Finset.mem_sdiff.mpr ⟨hb, ?_⟩)
  rw [mem_toFinset]
  exact hn

/-- Everything in the queue and everything that follows a new item is found. -/
theorem explore_found {items : Finset β} {bound : β → Nat}
    (h : Universe view key follow items bound) {fuel : Nat} {queue : List γ} {found : List β}
    (hq : ∀ a ∈ queue, ∀ b, view a = some b → b ∈ items) (hf : ∀ b ∈ found, b ∈ items)
    (hfu : queue.length + ∑ u ∈ items \ found.toFinset, bound u ≤ fuel) :
    let new := explore view key follow fuel queue (found.map key)
    (∀ a ∈ queue, ∀ b, view a = some b → b ∈ found ∨ b ∈ new) ∧
      ∀ b ∈ new, ∀ a ∈ follow b, ∀ c, view a = some c → c ∈ found ∨ c ∈ new := by
  induction fuel generalizing queue found with
  | zero =>
    have hn : queue = [] := length_eq_zero_iff.mp (by omega)
    subst hn
    exact ⟨nofun, nofun⟩
  | succ fuel ih =>
    cases queue with
    | nil => exact ⟨nofun, nofun⟩
    | cons a queue =>
      rw [length_cons] at hfu
      have hr := (forall_mem_cons.mp hq).2
      cases hv : view a with
      | none =>
        obtain ⟨ihq, ihn⟩ := ih hr hf (by omega)
        simp only [explore, hv]
        refine ⟨fun x hx b hb => ?_, ihn⟩
        rcases mem_cons.mp hx with rfl | hx
        · simp [hv] at hb
        · exact ihq x hx b hb
      | some b =>
        have hb := hq a mem_cons_self b hv
        simp only [explore, hv]
        split
        next hm =>
          -- the key tells the item found before from all others
          obtain ⟨c, hc, hk⟩ := mem_map.mp hm
          have hcb := h.distinct c (hf c hc) b hb hk
          subst hcb
          obtain ⟨ihq, ihn⟩ := ih hr hf (by omega)
          refine ⟨fun x hx d hd => ?_, ihn⟩
          rcases mem_cons.mp hx with rfl | hx
          · rw [hv] at hd
            cases hd
            exact .inl hc
          · exact ihq x hx d hd
        next hm =>
          have hne : b ∉ found := fun hb => hm (mem_map_of_mem hb)
          have hs := sum_unfound (f := bound) hb hne
          have hl := h.bounded b hb
          have hqu : ∀ x ∈ queue ++ follow b, ∀ c, view x = some c → c ∈ items := by
            intro x hx
            rcases mem_append.mp hx with hx | hx
            · exact hr x hx
            · exact h.closed b hb x hx
          obtain ⟨ihq, ihn⟩ := ih hqu (forall_mem_cons.mpr ⟨hb, hf⟩) (by rw [length_append]; omega)
          have hor : ∀ c, (c ∈ b :: found ∨ c ∈ explore view key follow fuel
              (queue ++ follow b) (key b :: found.map key)) → c ∈ found ∨
                c ∈ b :: explore view key follow fuel (queue ++ follow b)
                  (key b :: found.map key) := by
            intro c hc
            simp only [mem_cons] at hc ⊢
            tauto
          refine ⟨fun x hx c hc => hor c ?_, fun c hc x hx d hd => hor d ?_⟩
          · rcases mem_cons.mp hx with rfl | hx
            · rw [hv] at hc
              cases hc
              exact .inl mem_cons_self
            · exact ihq x (mem_append_left _ hx) c hc
          · rcases mem_cons.mp hc with rfl | hc
            · exact ihq x (mem_append_right _ hx) d hd
            · exact ihn c hc x hx d hd

/-- With enough fuel the search finds what its queue shows, and with an item all that follow. -/
theorem explore_closed {items : Finset β} {bound : β → Nat}
    (h : Universe view key follow items bound) {fuel : Nat} {queue : List γ}
    (hqu : ∀ a ∈ queue, ∀ b, view a = some b → b ∈ items)
    (hf : queue.length + ∑ u ∈ items, bound u ≤ fuel) :
    (∀ a ∈ queue, ∀ b, view a = some b → b ∈ explore view key follow fuel queue []) ∧
      ∀ b ∈ explore view key follow fuel queue [], ∀ a ∈ follow b, ∀ c, view a = some c →
        c ∈ explore view key follow fuel queue [] := by
  have hno : ∀ b ∈ ([] : List β), b ∈ items := nofun
  have hl : queue.length + ∑ u ∈ items \ ([] : List β).toFinset, bound u ≤ fuel := by
    rw [toFinset_nil, Finset.sdiff_empty]
    exact hf
  obtain ⟨hq, hn⟩ := explore_found h hqu hno hl
  exact ⟨fun a ha b hb => (hq a ha b hb).resolve_left not_mem_nil,
    fun b hb a ha c hc => (hn b hb a ha c hc).resolve_left not_mem_nil⟩

end Explore

end Worklist
