import WeaveFlow.Lib.Assoc

/-!
# Tables of records

A table keeps records by a key that each record carries itself.  A record can
only be put under its own key, so the key of a stored record is never in doubt:
`key_of_get` holds for every table there is.
-/

/-- A finite map whose values lie under their own keys. -/
structure KeyedMap {κ β : Type} [LinearOrder κ] (key : β → κ) where
  /-- The values by key. -/
  table : SortedMap κ β
  /-- Every value lies under its own key. -/
  keyed : ∀ k v, table.get k = some v → key v = k

namespace KeyedMap

variable {κ β : Type} [LinearOrder κ] {key : β → κ}

def empty : KeyedMap key := ⟨.empty, fun _ _ h => by cases h⟩

instance : Inhabited (KeyedMap key) := ⟨empty⟩

/-- The record under a key. -/
def get (m : KeyedMap key) (k : κ) : Option β := m.table.get k

/-- The records, in the order of their keys. -/
def vals (m : KeyedMap key) : List β := m.table.vals

/-- Store a record under its key. -/
def put (m : KeyedMap key) (v : β) : KeyedMap key where
  table := m.table.put (key v) v
  keyed k w h := by
    rw [SortedMap.get_put] at h
    split at h
    next hk => cases h; exact hk.symm
    · exact m.keyed k w h

@[simp] theorem get_empty (k : κ) : (empty : KeyedMap key).get k = none := rfl

theorem key_of_get {m : KeyedMap key} {k : κ} {v : β} (h : m.get k = some v) : key v = k :=
  m.keyed k v h

theorem get_put (m : KeyedMap key) (v : β) (k : κ) :
    (m.put v).get k = if k = key v then some v else m.get k := m.table.get_put k (key v) v

theorem get_put_self (m : KeyedMap key) (v : β) : (m.put v).get (key v) = some v := by
  rw [get_put, if_pos rfl]

theorem get_put_ne (h : k ≠ key v) (m : KeyedMap key) : (m.put v).get k = m.get k := by
  rw [get_put, if_neg h]

theorem mem_vals {m : KeyedMap key} {v : β} : v ∈ m.vals ↔ m.get (key v) = some v := by
  rw [vals, SortedMap.mem_vals]
  constructor
  · rintro ⟨k, hk⟩
    have hke : key v = k := m.keyed k v hk
    rw [hke]
    exact hk
  · intro h
    exact ⟨key v, h⟩

/-! ## Final records -/

/-- The records that are final are still there, and look the same. -/
def Keeps {γ : Type} (final : γ → Bool) (view : β → γ) (m m' : KeyedMap key) : Prop :=
  ∀ k v, m.get k = some v → final (view v) = true → ∃ v', m'.get k = some v' ∧ view v' = view v

section

variable {γ : Type} {final : γ → Bool} {view : β → γ} {m m' m'' : KeyedMap key}

theorem Keeps.refl : m.Keeps final view m := fun _ v hv _ => ⟨v, hv, rfl⟩

theorem Keeps.trans (h : m.Keeps final view m') (h' : m'.Keeps final view m'') :
    m.Keeps final view m'' := by
  intro k v hv hf
  obtain ⟨v', hv', hvi⟩ := h k v hv hf
  obtain ⟨v'', hv'', hve⟩ := h' k v' hv' (hvi ▸ hf)
  exact ⟨v'', hv'', hve.trans hvi⟩

/-- A record is replaced that is not final. -/
theorem Keeps.put {v : β} (h : ∀ old, m.get (key v) = some old → final (view old) = false) :
    m.Keeps final view (m.put v) := by
  intro k old ho hf
  refine ⟨old, ?_, rfl⟩
  rw [get_put_ne ?_ m]
  · exact ho
  · rintro rfl
    simp [h old ho] at hf

end

end KeyedMap
