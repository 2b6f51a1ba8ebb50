import Mathlib

/-!
# State paths

A path is a root section and a list of segments.  Outside this package a `Path` is
either the zero value or the result of `NewPath`, so the type carries that: a
non-empty path has a known section and clean segments, without dots.  This is why
the dotted text names the path (`Path.string_inj`), although the state compares
texts.  The keys of a path, section first, are its address in the state root.
-/

namespace WeaveFlow

open List

/-! ## Text -/

def isSpace (c : Char) : Bool :=
  let n := c.toNat
  (9 ≤ n && n ≤ 13) || n = 0x20 || n = 0x85 || n = 0xA0 || n = 0x1680 ||
    (0x2000 ≤ n && n ≤ 0x200a) || n = 0x2028 || n = 0x2029 || n = 0x202f || n = 0x205f ||
    n = 0x3000

/-- `strings.TrimSpace` on characters. -/
def trimChars (cs : List Char) : List Char := (cs.dropWhile isSpace).rdropWhile isSpace

def trimSpace (s : String) : String := String.ofList (trimChars s.toList)

/-- The pieces between dots, the first one first. -/
def splitChars : List Char → List Char × List (List Char)
  | [] => ([], [])
  | c :: cs =>
    let split := splitChars cs
    if c = '.' then ([], split.1 :: split.2) else (c :: split.1, split.2)

/-- `strings.Split(s, ".")`. -/
def splitDots (s : String) : List String :=
  let split := splitChars s.toList
  String.ofList split.1 :: split.2.map String.ofList

/-- `strings.Join(segments, ".")`. -/
def joinDots : List String → String
  | [] => ""
  | [s] => s
  | s :: rest => s ++ "." ++ joinDots rest

/-- The text `%q` prints for a text without special characters. -/
def quote (s : String) : String := "\"" ++ s ++ "\""

/-- A check that fails with a text. -/
def requireText (condition : Bool) (message : String) : Except String Unit :=
  if condition then .ok () else .error message

@[simp] theorem requireText_eq_ok : requireText condition message = .ok u ↔ condition = true := by
  cases condition <;> simp [requireText]

theorem trimChars_idem : trimChars (trimChars cs) = trimChars cs := by
  have hp : trimChars cs <+: cs.dropWhile isSpace := rdropWhile_prefix ..
  -- The first character that survives is not a space.
  have hd : (trimChars cs).dropWhile isSpace = trimChars cs := by
    cases ht : trimChars cs with
    | nil => rfl
    | cons c rest =>
      obtain ⟨tail, hta⟩ := hp
      rw [ht] at hta
      have hne : cs.dropWhile isSpace ≠ [] := by rw [← hta]; simp
      have hh := head_dropWhile_not isSpace hne
      have hc : isSpace c = false := by simpa [← hta] using hh
      rw [dropWhile_cons_of_neg (by simp [hc])]
  rw [trimChars, hd, trimChars]
  exact rdropWhile_idempotent ..

theorem trimSpace_idem : trimSpace (trimSpace s) = trimSpace s := by
  rw [trimSpace, trimSpace, String.toList_ofList, trimChars_idem]

variable {s : String}

/-- A text whose first and last character are no blanks is trimmed. -/
theorem trimChars_eq_self (hh : ∀ c ∈ cs.head?, isSpace c = false)
    (hl : ∀ c ∈ cs.getLast?, isSpace c = false) : trimChars cs = cs := by
  have hd : cs.dropWhile isSpace = cs := by
    cases cs with
    | nil => rfl
    | cons c rest => exact dropWhile_cons_of_neg (by simp [hh c rfl])
  rw [trimChars, hd, rdropWhile_eq_self_iff]
  intro hne
  rw [hl _ (getLast_mem_getLast? hne)]
  exact Bool.false_ne_true

theorem trimSpace_eq_self (hh : ∀ c ∈ s.toList.head?, isSpace c = false)
    (hl : ∀ c ∈ s.toList.getLast?, isSpace c = false) : trimSpace s = s := by
  rw [trimSpace, trimChars_eq_self hh hl, String.ofList_toList]

/-- The first and the last character of a trimmed text are no blanks. -/
theorem trimmed_ends (h : trimSpace s = s) :
    (∀ c ∈ s.toList.head?, isSpace c = false) ∧ ∀ c ∈ s.toList.getLast?, isSpace c = false := by
  have hch : trimChars s.toList = s.toList := by
    have := congrArg String.toList h
    rwa [trimSpace, String.toList_ofList] at this
  constructor
  · intro c hc
    by_contra hsp
    rw [Bool.not_eq_false] at hsp
    cases hs : s.toList with
    | nil => simp [hs] at hc
    | cons d rest =>
      rw [hs] at hc hch
      obtain rfl : d = c := by simpa using hc
      have hl := congrArg List.length hch
      rw [trimChars, dropWhile_cons_of_pos hsp] at hl
      have h1 := ( rdropWhile_prefix isSpace (rest.dropWhile isSpace)).length_le
      have h2 := (dropWhile_suffix isSpace (l := rest)).length_le
      rw [length_cons] at hl
      omega
  · intro c hc
    obtain ⟨hne, rfl⟩ := mem_getLast?_eq_getLast hc
    have hd : (s.toList.dropWhile isSpace).rdropWhile isSpace ≠ [] := by
      rw [← trimChars, hch]
      exact hne
    have hn := rdropWhile_last_not isSpace (s.toList.dropWhile isSpace) hd
    rw [getLast_congr hd hne hch] at hn
    exact Bool.eq_false_iff.mpr hn

/-- A trimmed text that is not empty stays trimmed after a word. -/
theorem trimSpace_append (hw : trimSpace word = word) (hne : word ≠ "") (hs : trimSpace s = s)
    (hs' : s ≠ "") : trimSpace (word ++ s) = word ++ s := by
  have hcs : s.toList ≠ [] := fun h => hs' (String.toList_inj.mp h)
  have hws : word.toList ≠ [] := fun h => hne (String.toList_inj.mp h)
  refine trimSpace_eq_self ?_ ?_
  · rw [String.toList_append, List.head?_append_of_ne_nil _ hws]
    exact (trimmed_ends hw).1
  · rw [String.toList_append, List.getLast?_append_of_ne_nil _ hcs]
    exact (trimmed_ends hs).2

theorem splitChars_of_noDot (h : '.' ∉ cs) : splitChars cs = (cs, []) := by
  induction cs with
  | nil => rfl
  | cons c cs ih =>
    have hc : c ≠ '.' := fun hc => h (by simp [hc])
    simp only [splitChars, ih fun hm => h (mem_cons_of_mem _ hm), if_neg hc]

theorem splitChars_append (h : '.' ∉ cs) :
    splitChars (cs ++ '.' :: rest) = (cs, (splitChars rest).1 :: (splitChars rest).2) := by
  induction cs with
  | nil => rfl
  | cons c cs ih =>
    have hc : c ≠ '.' := fun hc => h (by simp [hc])
    simp only [cons_append, splitChars, ih fun hm => h (mem_cons_of_mem _ hm), if_neg hc]

/-- Splitting undoes joining when no piece has a dot. -/
theorem splitDots_joinDots (hs : '.' ∉ s.toList) (hr : ∀ t ∈ rest, '.' ∉ t.toList) :
    splitDots (joinDots (s :: rest)) = s :: rest := by
  induction rest generalizing s with
  | nil => simp [joinDots, splitDots, splitChars_of_noDot hs]
  | cons t rest ih =>
    have ht := ih (hr t mem_cons_self) (forall_mem_cons.mp hr).2
    have hsp : splitChars (joinDots (s :: t :: rest)).toList =
        (s.toList, (splitChars (joinDots (t :: rest)).toList).1 ::
          (splitChars (joinDots (t :: rest)).toList).2) := by
      rw [joinDots, String.toList_append, String.toList_append, append_assoc]
      · exact splitChars_append hs
      · simp
    rw [splitDots, hsp]
    rw [splitDots] at ht
    simp only [map_cons, String.ofList_toList, ht]

/-! ## Paths -/

/-- Graph-wide business state. -/
def sectionShared : String := "shared"
/-- State of one node or agent scope. -/
def sectionScopes : String := "scopes"
def sectionInternal : String := "internal"
def sectionRuntime : String := "runtime"

def sections : List String := [sectionShared, sectionScopes, sectionInternal, sectionRuntime]

def knownSection (s : String) : Bool := sections.contains s

/-- What `NewPath` leaves as a segment. -/
def cleanSegment (s : String) : Bool :=
  s ≠ "" && !s.toList.contains '.' && trimSpace s = s

/-- The zero path, or a known section with clean segments. -/
def pathOK (sectionName : String) (segments : List String) : Bool :=
  (sectionName = "" && segments.isEmpty) || (knownSection sectionName && segments.all cleanSegment)

/-- The address of a value in state. -/
structure Path where
  sectionName : String
  segments : List String
  ok : pathOK sectionName segments = true
  deriving DecidableEq

namespace Path

def zero : Path := ⟨"", [], rfl⟩

def empty (p : Path) : Bool := p.sectionName = ""

def string (p : Path) : String :=
  if p.sectionName = "" then ""
  else if p.segments.isEmpty then p.sectionName
  else p.sectionName ++ "." ++ joinDots p.segments

/-- The keys that lead from the root to the value. -/
def keys (p : Path) : List String := p.sectionName :: p.segments

instance : Inhabited Path := ⟨zero⟩

end Path

def normalizeSegment (s : String) : String := trimSpace s

/-- The segment loop of `NewPath`. -/
def cleanSegments : List String → Except String { cleaned : List String // cleaned.all cleanSegment }
  | [] => .ok ⟨[], rfl⟩
  | s :: rest =>
    if hempty : normalizeSegment s = "" then
      .error "state path segment is required"
    else if hdot : (normalizeSegment s).toList.contains '.' = true then
      .error ("state path segment " ++ quote (normalizeSegment s) ++ " must not contain '.'")
    else
      match cleanSegments rest with
      | .error e => .error e
      | .ok ⟨cleaned, hc⟩ =>
        .ok ⟨normalizeSegment s :: cleaned, by
          have hidem : trimSpace (normalizeSegment s) = normalizeSegment s := trimSpace_idem
          rw [all_cons, hc, Bool.and_true, cleanSegment, hidem]
          simp [hempty] at hdot ⊢
          exact hdot⟩

def newPath (sectionName : String) (segments : List String) : Except String Path :=
  if normalizeSegment sectionName = "" then
    .error "state path section is required"
  else if hknown : knownSection (normalizeSegment sectionName) = true then
    match cleanSegments segments with
    | .error e => .error e
    | .ok ⟨cleaned, hc⟩ =>
      .ok ⟨normalizeSegment sectionName, cleaned, by rw [pathOK, hknown, hc]; simp⟩
  else
    .error ("unknown state path section " ++ quote (normalizeSegment sectionName))

def parsePath (text : String) : Except String Path :=
  match splitDots (trimSpace text) with
  | [] => .error "state path is required"
  | first :: rest =>
    if trimSpace first = "" then .error "state path is required"
    else newPath first rest

/-- `pathWithin`: the parent is the path or an ancestor of it. -/
def pathWithin (path parent : Path) : Bool :=
  !path.empty && !parent.empty && path.sectionName = parent.sectionName &&
    parent.segments.isPrefixOf path.segments

def isReservedPath (path : Path) : Bool :=
  path.sectionName = sectionInternal || path.sectionName = sectionRuntime

/-! ## What the text and the keys say -/

namespace Path

variable {p q : Path} {s : String}

theorem segments_clean (hp : p.empty = false) :
    knownSection p.sectionName = true ∧ ∀ s ∈ p.segments, cleanSegment s = true := by
  have hok := p.ok
  have hne : p.sectionName ≠ "" := by simpa [empty] using hp
  simpa [pathOK, hne] using hok

theorem mem_sections (hp : p.empty = false) : p.sectionName ∈ sections := by
  simpa [knownSection] using (segments_clean hp).1

theorem noDot_of_clean (h : cleanSegment s = true) : '.' ∉ s.toList := by
  simp [cleanSegment] at h
  exact h.1.2

theorem noDot_of_known (h : knownSection s = true) : '.' ∉ s.toList := by
  have ha : ∀ t ∈ sections, '.' ∉ t.toList := by decide
  exact ha s (by simpa [knownSection] using h)

theorem string_eq_joinDots (hp : p.empty = false) : p.string = joinDots p.keys := by
  have hne : p.sectionName ≠ "" := by simpa [empty] using hp
  rw [string, if_neg hne, keys]
  cases hs : p.segments with
  | nil => rfl
  | cons s rest => rfl

theorem string_eq_empty : p.string = "" ↔ p.empty = true := by
  constructor
  · intro h
    by_contra hne
    have hp : p.empty = false := by simpa using hne
    have hs : p.sectionName ≠ "" := by simpa [empty] using hp
    rw [string, if_neg hs] at h
    split at h
    · exact hs h
    · have hl := congrArg String.length h
      simp [String.length_append] at hl
  · intro h
    have hs : p.sectionName = "" := by simpa [empty] using h
    rw [string, if_pos hs]

@[ext] theorem ext (hs : p.sectionName = q.sectionName) (hse : p.segments = q.segments) :
    p = q := by
  cases p
  cases q
  cases hs
  cases hse
  rfl

theorem keys_inj (h : p.keys = q.keys) : p = q := by
  simp only [keys, List.cons.injEq] at h
  exact ext h.1 h.2

/-- The dotted text names the path. -/
theorem string_inj (hp : p.empty = false) (h : p.string = q.string) : p = q := by
  have hq : q.empty = false := by
    by_contra hne
    have hqe : q.string = "" := string_eq_empty.mpr (by simpa using hne)
    simp [hqe, string_eq_empty, hp] at h
  have split_keys : ∀ {r : Path}, r.empty = false → splitDots r.string = r.keys := by
    intro r hr
    rw [string_eq_joinDots hr]
    exact splitDots_joinDots (noDot_of_known (segments_clean hr).1)
      fun t ht => noDot_of_clean ((segments_clean hr).2 t ht)
  refine keys_inj ?_
  rw [← split_keys hp, ← split_keys hq, h]

theorem trimSpace_of_clean (h : cleanSegment s = true) : trimSpace s = s ∧ s ≠ "" := by
  simp [cleanSegment] at h
  exact ⟨h.2, h.1.1⟩

theorem trimSpace_of_known (h : knownSection s = true) : trimSpace s = s ∧ s ≠ "" := by
  have ha : ∀ t ∈ sections, trimSpace t = t ∧ t ≠ "" := by decide
  exact ha s (by simpa [knownSection] using h)

theorem trimSpace_joinDots (hs : trimSpace s = s ∧ s ≠ "")
    (hr : ∀ t ∈ rest, trimSpace t = t ∧ t ≠ "") :
    trimSpace (joinDots (s :: rest)) = joinDots (s :: rest) ∧ joinDots (s :: rest) ≠ "" := by
  induction rest generalizing s with
  | nil => exact hs
  | cons t rest ih =>
    obtain ⟨ht, hne⟩ := ih (hr t mem_cons_self) (forall_mem_cons.mp hr).2
    have hd : trimSpace ("." ++ joinDots (t :: rest)) = "." ++ joinDots (t :: rest) :=
      trimSpace_append (by decide) (by decide) ht hne
    have hdo : "." ++ joinDots (t :: rest) ≠ "" := by
      intro h
      have hl := congrArg String.length h
      simp [String.length_append] at hl
    rw [joinDots, String.append_assoc]
    · refine ⟨trimSpace_append hs.1 hs.2 hd hdo, ?_⟩
      intro h
      have hl := congrArg String.length h
      simp [String.length_append] at hl
    · simp

theorem cleanSegments_of_clean {segments : List String}
    (h : ∀ s ∈ segments, cleanSegment s = true) :
    ∃ hc, cleanSegments segments = .ok ⟨segments, hc⟩ := by
  induction segments with
  | nil => exact ⟨rfl, rfl⟩
  | cons s rest ih =>
    obtain ⟨hc, hr⟩ := ih (forall_mem_cons.mp h).2
    have hs := h s mem_cons_self
    obtain ⟨htr, hne⟩ := trimSpace_of_clean hs
    have hd := noDot_of_clean hs
    refine ⟨by rw [all_cons, hs, hc]; rfl, ?_⟩
    rw [cleanSegments]
    simp only [normalizeSegment, htr]
    rw [dif_neg hne, dif_neg (by simpa using hd), hr]

/-- A path is parsed back from its text. -/
theorem parsePath_string (hp : p.empty = false) : parsePath p.string = .ok p := by
  obtain ⟨hs, hse⟩ := segments_clean hp
  obtain ⟨hst, hsn⟩ := trimSpace_of_known hs
  obtain ⟨htr, -⟩ := trimSpace_joinDots ⟨hst, hsn⟩ fun t ht =>
    trimSpace_of_clean (hse t ht)
  obtain ⟨hc, hcl⟩ := cleanSegments_of_clean hse
  rw [parsePath, string_eq_joinDots hp, keys, htr,
    splitDots_joinDots (noDot_of_known hs) fun t ht => noDot_of_clean (hse t ht)]
  simp only [hst]
  rw [if_neg hsn, newPath]
  simp only [normalizeSegment, hst]
  rw [if_neg hsn, dif_pos hs, hcl]

/-- Containment of paths is containment of addresses. -/
theorem within_iff (hp : path.empty = false) (hq : parent.empty = false) :
    pathWithin path parent = true ↔ parent.keys <+: path.keys := by
  simp only [pathWithin, hp, hq, keys, Bool.not_false, Bool.true_and, Bool.and_eq_true,
    decide_eq_true_eq, isPrefixOf_iff_prefix, cons_prefix_cons]
  exact and_congr_left fun _ => eq_comm

theorem within_empty_left (h : path.empty = true) :
    pathWithin path parent = false := by simp [pathWithin, h]

theorem within_empty_right (h : parent.empty = true) :
    pathWithin path parent = false := by simp [pathWithin, h]

end Path

end WeaveFlow
