import Mathlib

/-!
# Finite maps as ascending association lists

A finite map is a list of pairs with strictly ascending keys, so that two maps
with the same lookups are the same list (`Assoc.ext`).  The operations are
defined on all lists, and the lookup equations `get_put`, `get_del` and
`get_place` hold for all lists.  Ascending keys are only needed where two maps
are compared, and every operation keeps them.

`SortedMap` bundles a list with its invariant, for maps that are not nested.
-/

namespace Assoc

open List

variable {κ β γ : Type} [LinearOrder κ]

/-! ## Operations -/

/-- The value stored under a key. -/
def get (k : κ) : List (κ × β) → Option β
  | [] => none
  | (j, v) :: m => if k = j then some v else get k m

/-- Store a value under a key, in key order, replacing the old one. -/
def put (k : κ) (v : β) : List (κ × β) → List (κ × β)
  | [] => [(k, v)]
  | (j, w) :: m =>
    if k < j then (k, v) :: (j, w) :: m
    else if k = j then (k, v) :: m
    else (j, w) :: put k v m

/-- Remove a key. -/
def del (k : κ) : List (κ × β) → List (κ × β)
  | [] => []
  | (j, w) :: m => if k = j then del k m else (j, w) :: del k m

/-- Store a value or remove the key. -/
def place (k : κ) : Option β → List (κ × β) → List (κ × β)
  | some v, m => put k v m
  | none, m => del k m

/-- Apply a function to every value. -/
def mapVals (f : β → γ) : List (κ × β) → List (κ × γ)
  | [] => []
  | (k, v) :: m => (k, f v) :: mapVals f m

/-- Keys are strictly ascending. -/
def Sorted (m : List (κ × β)) : Prop := m.Pairwise fun a b => a.1 < b.1

instance (m : List (κ × β)) : Decidable (Sorted m) :=
  inferInstanceAs (Decidable (m.Pairwise _))

/-! ## Lookups -/

@[simp] theorem get_nil : get k ([] : List (κ × β)) = none := rfl

theorem get_cons (j : κ) (v : β) (m : List (κ × β)) :
    get k ((j, v) :: m) = if k = j then some v else get k m := rfl

/-- Lookup after a store. -/
theorem get_put (k j : κ) (v : β) (m : List (κ × β)) :
    get k (put j v m) = if k = j then some v else get k m := by
  induction m with
  | nil => rfl
  | cons p m ih =>
    obtain ⟨i, w⟩ := p
    simp only [put]
    split
    · rfl
    · split
      next h =>
        subst h
        by_cases hk : k = j <;> simp [get_cons, hk]
      next hji =>
        simp only [get_cons, ih]
        by_cases hk : k = i
        · subst hk
          simp [Ne.symm hji]
        · simp [hk]

/-- Lookup after a removal. -/
theorem get_del (k j : κ) (m : List (κ × β)) :
    get k (del j m) = if k = j then none else get k m := by
  induction m with
  | nil => simp [del]
  | cons p m ih =>
    obtain ⟨i, w⟩ := p
    simp only [del]
    split
    next h =>
      subst h
      rw [ih, get_cons]
      by_cases hk : k = j <;> simp [hk]
    next hji =>
      simp only [get_cons, ih]
      by_cases hk : k = i
      · subst hk
        simp [Ne.symm hji]
      · simp [hk]

/-- Lookup after a store or a removal. -/
theorem get_place (j : κ) (r : Option β) (m : List (κ × β)) :
    get k (place j r m) = if k = j then r else get k m := by
  cases r with
  | none => exact get_del k j m
  | some v => exact get_put k j v m

theorem get_put_self (k : κ) (v : β) (m : List (κ × β)) : get k (put k v m) = some v := by
  rw [get_put, if_pos rfl]

variable {m : List (κ × β)} {k : κ} {v : β} {p : κ × β} {entries : List (κ × Option β)}

theorem get_put_ne {j : κ} (h : k ≠ j) (v : β) (m : List (κ × β)) :
    get k (put j v m) = get k m := by
  rw [get_put, if_neg h]

theorem length_put_of_get_none (h : get k m = none) : (put k v m).length = m.length + 1 := by
  induction m with
  | nil => rfl
  | cons p m ih =>
    rw [get_cons] at h
    split at h
    · cases h
    next hne =>
      simp only [put, if_neg hne]
      split
      · rfl
      · rw [length_cons, ih h, length_cons]

omit [LinearOrder κ] in
theorem mapVals_eq_map (f : β → γ) (m : List (κ × β)) :
    mapVals f m = m.map fun p => (p.1, f p.2) := by
  induction m with
  | nil => rfl
  | cons e m ih => exact congrArg ((e.1, f e.2) :: ·) ih

theorem get_mapVals (f : β → γ) (k : κ) (m : List (κ × β)) :
    get k (mapVals f m) = (get k m).map f := by
  induction m with
  | nil => rfl
  | cons p m ih =>
    obtain ⟨j, v⟩ := p
    simp only [mapVals, get_cons, ih]
    split <;> rfl

/-- A key that is found is found at an entry. -/
theorem mem_of_get (h : get k m = some v) : (k, v) ∈ m := by
  induction m with
  | nil => cases h
  | cons p m ih =>
    rw [get_cons] at h
    split at h
    next hk =>
      cases h
      subst hk
      exact mem_cons_self
    · exact mem_cons_of_mem _ (ih h)

theorem get_isSome_of_mem (h : (k, v) ∈ m) : (get k m).isSome := by
  induction m with
  | nil => cases h
  | cons p m ih =>
    rw [get_cons]
    split
    · rfl
    next hk =>
      cases mem_cons.mp h with
      | inl he => cases he; exact absurd rfl hk
      | inr hm => exact ih hm

/-! ## Ascending lists -/

theorem sorted_nil : Sorted ([] : List (κ × β)) := List.Pairwise.nil

theorem sorted_cons : Sorted ((k, v) :: m) ↔ (∀ p ∈ m, k < p.1) ∧ Sorted m := pairwise_cons

/-- Below the first key nothing is found. -/
theorem get_eq_none_of_lt (h : ∀ p ∈ m, k < p.1) : get k m = none := by
  induction m with
  | nil => rfl
  | cons p m ih =>
    obtain ⟨j, w⟩ := p
    have hj : k < j := h (j, w) mem_cons_self
    rw [get_cons, if_neg hj.ne]
    exact ih (forall_mem_cons.mp h).2

/-- In an ascending list the entries are the lookups. -/
theorem get_eq_some_iff (hm : Sorted m) : get k m = some v ↔ (k, v) ∈ m := by
  refine ⟨mem_of_get, fun h => ?_⟩
  induction m with
  | nil => cases h
  | cons p m ih =>
    obtain ⟨j, w⟩ := p
    obtain ⟨hlt, hs⟩ := sorted_cons.mp hm
    rw [get_cons]
    cases mem_cons.mp h with
    | inl he => cases he; rw [if_pos rfl]
    | inr hme =>
      have hjk : j < k := hlt (k, v) hme
      rw [if_neg hjk.ne']
      exact ih hs hme

/-- Two ascending lists with the same lookups are equal. -/
theorem ext {m' : List (κ × β)} (hm : Sorted m) (hm' : Sorted m') (h : ∀ k, get k m = get k m') :
    m = m' := by
  have hn : ∀ {l : List (κ × β)}, Sorted l → l.Nodup := fun hl =>
    hl.imp fun hlt he => hlt.ne (congrArg Prod.fst he)
  refine Perm.eq_of_pairwise (fun _ _ _ _ hab hba => absurd hab hba.asymm) hm hm' ?_
  refine (perm_ext_iff_of_nodup (hn hm) (hn hm')).mpr ?_
  rintro ⟨k, v⟩
  rw [← get_eq_some_iff hm, h, get_eq_some_iff hm']

/-- The keys of a store are the old keys and the new one. -/
theorem mem_put (h : p ∈ put k v m) : p = (k, v) ∨ p ∈ m := by
  induction m with
  | nil => exact .inl (mem_singleton.mp h)
  | cons q m ih =>
    simp only [put] at h
    split at h
    · exact mem_cons.mp h
    · split at h
      · exact (mem_cons.mp h).imp_right (mem_cons_of_mem _)
      · rcases mem_cons.mp h with rfl | hm
        · exact .inr mem_cons_self
        · exact (ih hm).imp_right (mem_cons_of_mem _)

theorem del_eq_filter (k : κ) (m : List (κ × β)) : del k m = m.filter (k ≠ ·.1) := by
  induction m with
  | nil => rfl
  | cons q m ih =>
    simp only [del, filter_cons, ih]
    split <;> simp_all

theorem mem_del (h : p ∈ del k m) : p ∈ m := by
  rw [del_eq_filter] at h
  exact (mem_filter.mp h).1

theorem mem_place {r : Option β} (h : p ∈ place k r m) :
    (∃ v, r = some v ∧ p = (k, v)) ∨ p ∈ m := by
  cases r with
  | none => exact .inr (mem_del h)
  | some v =>
    cases mem_put h with
    | inl he => exact .inl ⟨v, rfl, he⟩
    | inr hm => exact .inr hm

theorem Sorted.put (hm : Sorted m) (k : κ) (v : β) : Sorted (put k v m) := by
  induction m with
  | nil => exact pairwise_singleton _ _
  | cons p m ih =>
    obtain ⟨hlt, hs⟩ := sorted_cons.mp hm
    simp only [Assoc.put]
    split
    next hkj =>
      refine sorted_cons.mpr ⟨fun p hp => ?_, hm⟩
      cases mem_cons.mp hp with
      | inl he => exact he ▸ hkj
      | inr hp' => exact hkj.trans (hlt p hp')
    next hkj =>
      split
      next he =>
        subst he
        exact sorted_cons.mpr ⟨hlt, hs⟩
      next hne =>
        refine sorted_cons.mpr ⟨fun p hp => ?_, ih hs⟩
        cases mem_put hp with
        | inl he => exact he ▸ lt_of_le_of_ne (not_lt.mp hkj) (Ne.symm hne)
        | inr hp' => exact hlt p hp'

theorem Sorted.del (hm : Sorted m) (k : κ) : Sorted (del k m) := by
  rw [del_eq_filter]
  exact hm.sublist filter_sublist

theorem Sorted.place (hm : Sorted m) (k : κ) (r : Option β) : Sorted (place k r m) := by
  cases r with
  | none => exact hm.del k
  | some v => exact hm.put k v

omit [LinearOrder κ] in
theorem mem_mapVals {f : β → γ} {p : κ × γ} (h : p ∈ mapVals f m) :
    ∃ v, (p.1, v) ∈ m ∧ p.2 = f v := by
  rw [mapVals_eq_map, mem_map] at h
  obtain ⟨q, hq, rfl⟩ := h
  exact ⟨q.2, hq, rfl⟩

theorem Sorted.mapVals (hm : Sorted m) (f : β → γ) : Sorted (mapVals f m) := by
  rw [mapVals_eq_map]
  exact pairwise_map.mpr hm

/-! ## Optional entries -/

def present (entries : List (κ × Option β)) : List (κ × β) :=
  entries.filterMap fun e => e.2.map fun v => (e.1, v)

omit [LinearOrder κ] in
theorem mem_present : p ∈ present entries ↔ (p.1, some p.2) ∈ entries := by
  rw [present, mem_filterMap]
  constructor
  · rintro ⟨⟨k, o⟩, hm, ho⟩
    obtain ⟨v, hv, rfl⟩ := Option.map_eq_some_iff.mp ho
    obtain rfl : o = some v := hv
    exact hm
  · intro hm
    exact ⟨_, hm, rfl⟩

theorem sorted_present (h : Sorted entries) : Sorted (present entries) := by
  refine pairwise_filterMap.mpr (h.imp fun hlt p hp q hq => ?_)
  obtain ⟨v, -, rfl⟩ := Option.map_eq_some_iff.mp hp
  obtain ⟨w, -, rfl⟩ := Option.map_eq_some_iff.mp hq
  exact hlt

theorem get_present (h : Sorted entries) : get k (present entries) = (get k entries).join := by
  induction entries with
  | nil => rfl
  | cons e entries ih =>
    obtain ⟨j, o⟩ := e
    obtain ⟨hlt, hs⟩ := sorted_cons.mp h
    rw [get_cons]
    split
    next heq =>
      subst heq
      cases o with
      | none =>
        have hn : get k entries = none := get_eq_none_of_lt hlt
        have hr := ih hs
        rw [hn] at hr
        exact hr
      | some v => exact if_pos rfl
    next hne =>
      cases o with
      | none => exact ih hs
      | some v => exact (if_neg hne).trans (ih hs)

omit [LinearOrder κ] in
theorem mapVals_present (f : β → γ) (entries : List (κ × Option β)) :
    mapVals f (present entries) = present (mapVals (Option.map f) entries) := by
  induction entries with
  | nil => rfl
  | cons e entries ih =>
    obtain ⟨k, o⟩ := e
    cases o with
    | none => exact ih
    | some v => exact congrArg ((k, f v) :: ·) ih

/-! ## Composing stores -/

/-- Two updates of different keys commute. -/
theorem place_comm (hm : Sorted m) {j : κ} (hkj : k ≠ j) (r' : Option β) :
    place k r (place j r' m) = place j r' (place k r m) := by
  refine ext ((hm.place j r').place k r) ((hm.place k r).place j r') fun i => ?_
  rw [get_place, get_place, get_place, get_place]
  by_cases hik : i = k
  · subst hik
    rw [if_pos rfl, if_neg hkj, if_pos rfl]
  · rw [if_neg hik, if_neg hik]

/-- The last update of a key wins. -/
theorem place_place (hm : Sorted m) (r r' : Option β) : place k r (place k r' m) = place k r m := by
  refine ext ((hm.place k r').place k r) (hm.place k r) fun i => ?_
  rw [get_place, get_place, get_place]
  by_cases hik : i = k
  · rw [if_pos hik, if_pos hik]
  · rw [if_neg hik, if_neg hik, if_neg hik]

/-- Storing what is there changes nothing. -/
theorem place_get (hm : Sorted m) (k : κ) : place k (get k m) m = m := by
  refine ext (hm.place k _) hm fun i => ?_
  rw [get_place]
  by_cases hik : i = k
  · rw [if_pos hik, hik]
  · rw [if_neg hik]

theorem mapVals_put (f : β → γ) (k : κ) (v : β) (m : List (κ × β)) :
    mapVals f (put k v m) = put k (f v) (mapVals f m) := by
  induction m with
  | nil => rfl
  | cons p m ih =>
    simp only [put, mapVals]
    split
    · rfl
    · split
      · rfl
      · simp only [mapVals, ih]

theorem mapVals_del (f : β → γ) (k : κ) (m : List (κ × β)) :
    mapVals f (del k m) = del k (mapVals f m) := by
  induction m with
  | nil => rfl
  | cons p m ih =>
    simp only [del, mapVals]
    split
    · exact ih
    · simp only [mapVals, ih]

theorem mapVals_place (f : β → γ) (k : κ) (r : Option β) (m : List (κ × β)) :
    mapVals f (place k r m) = place k (r.map f) (mapVals f m) := by
  cases r with
  | none => exact mapVals_del f k m
  | some v => exact mapVals_put f k v m

end Assoc

/-! ## Bundled maps -/

/-- A finite map with its invariant. -/
structure SortedMap (κ β : Type) [LinearOrder κ] where
  /-- The entries, keys ascending. -/
  entries : List (κ × β)
  /-- The invariant. -/
  sorted : Assoc.Sorted entries

namespace SortedMap

variable {κ β : Type} [LinearOrder κ]

def empty : SortedMap κ β := ⟨[], Assoc.sorted_nil⟩

/-- The value stored under a key. -/
def get (m : SortedMap κ β) (k : κ) : Option β := Assoc.get k m.entries

/-- Store a value under a key. -/
def put (m : SortedMap κ β) (k : κ) (v : β) : SortedMap κ β :=
  ⟨Assoc.put k v m.entries, m.sorted.put k v⟩

/-- Remove a key. -/
def del (m : SortedMap κ β) (k : κ) : SortedMap κ β :=
  ⟨Assoc.del k m.entries, m.sorted.del k⟩

def keys (m : SortedMap κ β) : List κ := m.entries.map Prod.fst

/-- The values, in key order. -/
def vals (m : SortedMap κ β) : List β := m.entries.map Prod.snd

instance : Inhabited (SortedMap κ β) := ⟨empty⟩

@[simp] theorem get_empty (k : κ) : (empty : SortedMap κ β).get k = none := rfl

theorem get_put (m : SortedMap κ β) (k j : κ) (v : β) :
    (m.put j v).get k = if k = j then some v else m.get k := Assoc.get_put k j v m.entries

theorem get_del (m : SortedMap κ β) (k j : κ) :
    (m.del j).get k = if k = j then none else m.get k := Assoc.get_del k j m.entries

variable {m : SortedMap κ β} {k : κ}

@[ext] theorem ext {m' : SortedMap κ β} (h : ∀ k, m.get k = m'.get k) : m = m' := by
  obtain ⟨e, hs⟩ := m
  obtain ⟨e', hs'⟩ := m'
  have he : e = e' := Assoc.ext hs hs' h
  subst he
  rfl

theorem mem_keys : k ∈ m.keys ↔ ∃ v, m.get k = some v := by
  constructor
  · intro h
    obtain ⟨p, hp, rfl⟩ := List.mem_map.mp h
    exact ⟨p.2, (Assoc.get_eq_some_iff m.sorted).mpr hp⟩
  · rintro ⟨v, hv⟩
    exact List.mem_map.mpr ⟨(k, v), Assoc.mem_of_get hv, rfl⟩

theorem mem_vals {v : β} : v ∈ m.vals ↔ ∃ k, m.get k = some v := by
  constructor
  · intro h
    obtain ⟨p, hp, rfl⟩ := List.mem_map.mp h
    exact ⟨p.1, (Assoc.get_eq_some_iff m.sorted).mpr hp⟩
  · rintro ⟨k, hk⟩
    exact List.mem_map.mpr ⟨(k, v), Assoc.mem_of_get hk, rfl⟩

theorem length_keys_put (v : β) (h : m.get k = none) :
    (m.put k v).keys.length = m.keys.length + 1 := by
  rw [keys, keys, List.length_map, List.length_map]
  exact Assoc.length_put_of_get_none h

theorem put_put : (m.put k v).put k w = m.put k w := by
  ext1 j
  simp only [get_put]
  split <;> rfl

theorem del_put (h : m.get k = none) (v : β) : (m.put k v).del k = m := by
  ext1 j
  rw [get_del, get_put]
  split
  next hjk => rw [hjk, h]
  · rfl

theorem put_back (h : m.get k = some v) (w : β) : (m.put k w).put k v = m := by
  ext1 j
  rw [get_put, get_put]
  split
  next hjk => rw [hjk, h]
  · rfl

/-- Changes under the keys of some entries are taken back by putting the entries again. -/
theorem foldl_put_back {l : List (κ × β)} (hl : ∀ p ∈ l, m.get p.1 = some p.2) (f : β → β) :
    l.foldl (fun m p => m.put p.1 p.2) (l.foldl (fun m p => m.put p.1 (f p.2)) m) = m := by
  have hf := List.foldlRecOn (motive := fun m' => ∀ k, get m' k = get m k ∨ ∃ p ∈ l, p.1 = k) l
    (fun m p => put m p.1 (f p.2)) (fun k => .inl rfl) fun m' hm p hp k => by
      rw [get_put]
      split
      next hk => exact .inr ⟨p, hp, hk.symm⟩
      · exact hm k
  generalize l.foldl (fun m p => m.put p.1 (f p.2)) m = m' at hf
  induction l generalizing m' with
  | nil =>
    ext1 k
    exact (hf k).resolve_right (by simp)
  | cons p l ih =>
    refine ih (fun q hq => hl q (List.mem_cons_of_mem _ hq)) _ fun k => ?_
    rw [get_put]
    split
    next hk => exact .inl (hk ▸ (hl p List.mem_cons_self).symm)
    next hk =>
      obtain h | ⟨q, hq, rfl⟩ := hf k
      · exact .inl h
      · exact .inr ⟨q, (List.mem_cons.mp hq).resolve_left fun he => hk (congrArg _ he), rfl⟩

/-- The first key is removed from the front. -/
theorem entries_del_head {v : β} {rest : List (κ × β)} (h : m.entries = (k, v) :: rest) :
    (m.del k).entries = rest := by
  have hs := m.sorted
  rw [h, Assoc.sorted_cons] at hs
  show Assoc.del k m.entries = rest
  rw [h, Assoc.del, if_pos rfl, Assoc.del_eq_filter]
  exact List.filter_eq_self.mpr fun p hp => decide_eq_true (hs.1 p hp).ne

theorem keys_nodup : m.keys.Nodup := by
  refine List.Pairwise.map Prod.fst (fun a b h => ?_) m.sorted
  exact ne_of_lt h

end SortedMap
