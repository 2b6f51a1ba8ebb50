import WeaveFlow.Runtime.Records

/-!
# Event pages

`PaginateEventsNewestFirst` cuts the events of a run into pages, the newest event
first.  Its cursor is a position counted from the newest event, while new events
are appended at that very end.  `PagesRead` follows the cursors of any page
function from a first request on, with events appended between the requests.
The pages together always have as many events as the run has at the last request,
so they are the events of the first request exactly if nothing was appended.
-/

namespace WeaveFlow

open List

structure EventPage where
  items : List Event
  nextCursor : String

/-! ## Cursors -/

/-- A text of decimal digits as a number. -/
def decimal (digits : List Char) : Option Nat :=
  if digits ≠ [] ∧ digits.all Char.isDigit then some (Nat.ofDigitChars 10 digits 0) else none

/-- `strconv.Atoi`, for which a sign may stand before the digits. -/
def atoi (s : String) : Option Int :=
  match s.toList with
  | '-' :: digits => (decimal digits).map fun n => -n
  | '+' :: digits => (decimal digits).map Nat.cast
  | digits => (decimal digits).map Nat.cast

theorem atoi_toString (n : Nat) : atoi (toString n) = some (n : Int) := by
  have hd : ∀ c ∈ Nat.toDigits 10 n, c.isDigit = true := fun c hc =>
    Nat.isDigit_of_mem_toDigits (by decide) (by decide) hc
  have hn : decimal (Nat.toDigits 10 n) = some n := by
    rw [decimal, if_pos ⟨Nat.toDigits_ne_nil, all_eq_true.mpr hd⟩,
      Nat.ofDigitChars_toDigits (by decide) (by decide)]
  rw [atoi, Nat.toString_eq_ofList_toDigits, String.toList_ofList]
  -- A numeral does not begin with a sign.
  split
  next h => exact absurd (hd '-' (by simp [h])) (by decide)
  next h => exact absurd (hd '+' (by simp [h])) (by decide)
  · rw [hn, Option.map_some]

theorem toString_ne_empty (n : Nat) : toString n ≠ "" := by
  rw [Nat.toString_eq_ofList_toDigits]
  intro h
  exact Nat.toDigits_ne_nil (String.ofList_inj.mp h)

/-- The offset a cursor stands for among `size` positions; the empty cursor stands
for `start`. -/
def cursorOffset (start size : Nat) (cursor : String) : Except String Nat :=
  if cursor = "" then .ok start
  else match atoi cursor with
    | some offset =>
      if offset < 0 ∨ size < offset then .error ("invalid event cursor: " ++ quoted cursor)
      else .ok offset.toNat
    | none => .error ("invalid event cursor: " ++ quoted cursor)

theorem cursorOffset_toString (h : n ≤ size) :
    cursorOffset start size (toString n) = .ok n := by
  rw [cursorOffset, if_neg (toString_ne_empty n), atoi_toString]
  exact if_neg (by omega)

theorem cursorOffset_le (h : cursorOffset start size cursor = .ok offset) (hs : start ≤ size) :
    offset ≤ size := by
  unfold cursorOffset at h
  repeat' split at h
  all_goals cases h
  · exact hs
  · omega

/-! ## Pages of a list -/

def paginateEventsNewestFirst (limit : Nat) (events : List Event) (cursor : String) :
    Except String EventPage :=
  if limit = 0 then .error "event page limit must be positive"
  else if events.length = 0 then .ok ⟨[], ""⟩
  else do
    let start ← cursorOffset 0 events.length cursor
    let stop := min (start + limit) events.length
    .ok ⟨(events.reverse.take stop).drop start,
      if stop < events.length then toString stop else ""⟩

/-- The items read by following the cursors of `page` until one is empty.  Before
each further request the next batch of events is appended. -/
inductive PagesRead (page : List Event → String → Except String EventPage) :
    List Event → String → List (List Event) → List Event → Prop where
  | last : page events cursor = .ok ⟨items, ""⟩ → PagesRead page events cursor [] items
  | further : page events cursor = .ok ⟨items, nextCursor⟩ → nextCursor ≠ "" →
      PagesRead page (events ++ batch) nextCursor batches rest →
      PagesRead page events cursor (batch :: batches) (items ++ rest)

theorem paginateEventsNewestFirst_eq (hl : limit ≠ 0)
    (hs : cursorOffset 0 events.length cursor = .ok start) :
    paginateEventsNewestFirst limit events cursor =
      .ok ⟨(events.reverse.take (start + limit)).drop start,
        if start + limit < events.length then toString (start + limit) else ""⟩ := by
  have ht : events.reverse.take (min (start + limit) events.length) =
      events.reverse.take (start + limit) := by
    rw [← length_reverse, ← take_take, take_length]
  rw [paginateEventsNewestFirst, if_neg hl]
  split
  next hn => simp [length_eq_zero_iff.mp hn]
  · rw [hs]
    show Except.ok _ = _
    rw [ht]
    by_cases hlt : start + limit < events.length
    · rw [min_eq_left hlt.le]
    · rw [min_eq_right (not_lt.mp hlt), if_neg (lt_irrefl _), if_neg hlt]

/-- The pages read from a position on have together as many events as the run has
after that position at the last request, and are those events if none is appended. -/
theorem PagesRead.fromStart (hl : limit ≠ 0)
    (h : PagesRead (paginateEventsNewestFirst limit) events cursor batches items)
    (hs : cursorOffset 0 events.length cursor = .ok start) :
    items.length + start = events.length + batches.flatten.length ∧
      ((∀ batch ∈ batches, batch = []) → items = events.reverse.drop start) := by
  induction h generalizing start with
  | @last events _ _ hp =>
    have hle := cursorOffset_le hs (Nat.zero_le _)
    rw [paginateEventsNewestFirst_eq hl hs] at hp
    injection hp with hp
    injection hp with hi hc
    have hlt : ¬ start + limit < events.length := fun hlt =>
      toString_ne_empty _ ((if_pos hlt).symm.trans hc)
    rw [take_of_length_le (by simp; omega)] at hi
    subst hi
    exact ⟨by simp; omega, fun _ => rfl⟩
  | @further events _ _ _ batch _ _ hp hn _ ih =>
    rw [paginateEventsNewestFirst_eq hl hs] at hp
    injection hp with hp
    injection hp with hi hc
    have hlt : start + limit < events.length := by
      by_contra hlt
      exact hn (hc.symm.trans (if_neg hlt))
    rw [if_pos hlt] at hc
    subst hi hc
    obtain ⟨hlen, hrest⟩ := ih (cursorOffset_toString (by simp; omega))
    constructor
    · simp only [length_append, length_drop, length_take, length_reverse, flatten_cons] at hlen ⊢
      omega
    · intro hb
      obtain ⟨rfl, hq⟩ := forall_mem_cons.mp hb
      rw [hrest hq, append_nil, ← drop_append_of_le_length (by simp; omega), take_append_drop]

/-- Without appends the cursors lead through all pages. -/
theorem exists_pagesRead (hl : limit ≠ 0)
    (hs : cursorOffset 0 events.length cursor = .ok start) :
    ∃ n items, PagesRead (paginateEventsNewestFirst limit) events cursor (replicate n []) items := by
  induction hn : events.length - start using Nat.strong_induction_on generalizing start cursor with
  | _ left ih =>
    have hp := paginateEventsNewestFirst_eq hl hs
    by_cases hlt : start + limit < events.length
    · rw [if_pos hlt] at hp
      obtain ⟨n, rest, h⟩ := ih (events.length - (start + limit)) (by omega)
        (cursorOffset_toString hlt.le) rfl
      exact ⟨n + 1, _, .further hp (toString_ne_empty _) (by rwa [append_nil])⟩
    · rw [if_neg hlt] at hp
      exact ⟨0, _, .last hp⟩

/-- The pages give the events of the first request, newest first and each once,
exactly if nothing was appended between the requests. -/
theorem pages_exact_iff (hl : limit ≠ 0) :
    (∃ n, PagesRead (paginateEventsNewestFirst limit) events "" (replicate n []) events.reverse) ∧
    ∀ batches items, PagesRead (paginateEventsNewestFirst limit) events "" batches items →
      (items = events.reverse ↔ ∀ batch ∈ batches, batch = []) := by
  constructor
  · have hs : cursorOffset 0 events.length "" = .ok 0 := rfl
    obtain ⟨n, items, h⟩ := exists_pagesRead hl hs
    obtain rfl := (h.fromStart hl rfl).2 fun _ => eq_of_mem_replicate
    exact ⟨n, h⟩
  · intro batches items h
    obtain ⟨hlen, hquiet⟩ := h.fromStart hl rfl
    refine ⟨fun he => flatten_eq_nil_iff.mp (length_eq_zero_iff.mp ?_), hquiet⟩
    rw [he, length_reverse] at hlen
    omega

def eventOf (id : String) : Event := { id, runID := "run", type := .other "note" }

theorem quiet_pages_exact : ∃ n, PagesRead (paginateEventsNewestFirst 1)
    [eventOf "a", eventOf "b"] "" (replicate n []) [eventOf "b", eventOf "a"] :=
  (pages_exact_iff one_ne_zero).1

/-- An event appended after the first page moves the position: the event read last
is read again. -/
theorem appended_event_repeats :
    PagesRead (paginateEventsNewestFirst 1) [eventOf "a", eventOf "b"] "" [[eventOf "c"], []]
      ([eventOf "b"] ++ ([eventOf "b"] ++ [eventOf "a"])) :=
  .further rfl (toString_ne_empty 1) (.further rfl (toString_ne_empty 2) (.last rfl))

end WeaveFlow
