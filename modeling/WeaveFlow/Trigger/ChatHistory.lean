import WeaveFlow.Lib.Base64
import WeaveFlow.State.Path

/-!
# Where chat turns are stored

The turns of a chat lie in a file tree below the directory of the trigger store,
one level for each part of a turn's identity.  A part made of plain characters is
used as it is, any other is written in base64 behind a tilde, which is no plain
character.  The parts then are checked once more and joined.

A path is the list of the names below the store's directory; where the source
returns the empty text there is none.  All paths have the same length, so two
different ones cannot lie below one another.
-/

namespace WeaveFlow.ChatHistory

open List

/-- What tells one turn of a chat from another. -/
structure Identity where
  triggerID : String
  userID : String
  channelConversationID : String
  conversationID : String
  /-- A millisecond timestamp. -/
  id : Nat

def Identity.trimmed (a : Identity) : Identity :=
  ⟨trimSpace a.triggerID, trimSpace a.userID, trimSpace a.channelConversationID,
    trimSpace a.conversationID, a.id⟩

/-- `filepath.Base`: the last name of a path. -/
def fileBase (path : String) : String :=
  if path = "" then "."
  else
    let names := path.toList.rdropWhile (· = '/')
    if names = [] then "/" else String.ofList (names.rtakeWhile (· ≠ '/'))

def isPlainChar (c : Char) : Bool :=
  ('a' ≤ c && c ≤ 'z') || ('A' ≤ c && c ≤ 'Z') || ('0' ≤ c && c ≤ '9') ||
    c = '-' || c = '_' || c = '.'

def isPlainChatHistoryPathSegment (value : String) : Bool :=
  value ≠ "" && value.toList.all isPlainChar

def base64 (value : String) : String :=
  String.ofList (Base64.encode value.toByteArray.data.toList)

def chatHistoryPathSegment (value : String) : String :=
  let value := trimSpace value
  if value ≠ "." ∧ value ≠ ".." ∧ isPlainChatHistoryPathSegment value then fileBase value
  else fileBase ("~" ++ base64 value)

/-- The check of a component.  That it has no slash includes that it has no "../". -/
def safeComponent (component : String) : Bool :=
  component ≠ "" && component ≠ ".." && '/' ∉ component.toList && '\\' ∉ component.toList &&
    fileBase component = component

/-- Join checked components to a path.  Joining leaves out the name ".". -/
def safeChatHistoryPath (base : Option (List String)) (components : List String) :
    Option (List String) := do
  let base ← base
  if components.all safeComponent then some (base ++ components.filter (· ≠ ".")) else none

def chatConversationRoot (a : Identity) : Option (List String) :=
  safeChatHistoryPath (some []) ["history", chatHistoryPathSegment a.triggerID,
    chatHistoryPathSegment a.userID, chatHistoryPathSegment a.channelConversationID]

def chatConversationDir (a : Identity) : Option (List String) :=
  safeChatHistoryPath (chatConversationRoot a)
    ["conversations", chatHistoryPathSegment a.conversationID]

def chatHistoryDir (a : Identity) : Option (List String) :=
  safeChatHistoryPath (chatConversationDir a) ["turns"]

def chatHistoryPath (a : Identity) : Option (List String) :=
  safeChatHistoryPath (chatHistoryDir a) [toString a.id ++ ".json"]

/-! ## Names -/

theorem fileBase_eq_self (hne : s ≠ "") (hs : '/' ∉ s.toList) : fileBase s = s := by
  have hl : s.toList ≠ [] := fun h => hne (String.toList_inj.mp h)
  have hd : s.toList.rdropWhile (· = '/') = s.toList := by
    rw [rdropWhile_eq_self_iff]
    intro h hc
    exact hs (of_decide_eq_true hc ▸ getLast_mem h)
  have ht : s.toList.rtakeWhile (· ≠ '/') = s.toList := by
    rw [rtakeWhile_eq_self_iff]
    intro c hc
    exact decide_eq_true fun h => hs (h ▸ hc)
  rw [fileBase, if_neg hne]
  simp only [hd, if_neg hl, ht, String.ofList_toList]

/-- The names the tree is made of. -/
structure Name (s : String) : Prop where
  noDot : s ≠ "."
  safe : safeComponent s = true

theorem name_of_chars (hne : s ≠ "") (hd : s ≠ ".") (hdd : s ≠ "..")
    (hc : ∀ c ∈ s.toList, c ≠ '/' ∧ c ≠ '\\') : Name s := by
  have hs : '/' ∉ s.toList := fun h => (hc _ h).1 rfl
  have hb : '\\' ∉ s.toList := fun h => (hc _ h).2 rfl
  exact ⟨hd, by simp [safeComponent, hne, hdd, hs, hb, fileBase_eq_self hne hs]⟩

theorem name_of_mem (hm : c ∈ s.toList) (hd : c ≠ '.')
    (hc : ∀ c ∈ s.toList, c ≠ '/' ∧ c ≠ '\\') : Name s := by
  refine name_of_chars ?_ ?_ ?_ hc <;>
    · rintro rfl
      simp_all

theorem path_of_names (h : ∀ c ∈ components, Name c) :
    safeChatHistoryPath (some base) components = some (base ++ components) := by
  have ha : components.all safeComponent = true := all_eq_true.mpr fun c hc => (h c hc).safe
  simpa [safeChatHistoryPath, ha] using fun c hc => (h c hc).noDot

theorem of_isPlainChar (h : isPlainChar c = true) : c ≠ '/' ∧ c ≠ '\\' ∧ c ≠ '~' := by
  refine ⟨?_, ?_, ?_⟩ <;>
    · rintro rfl
      exact absurd h (by decide)

theorem name_encoded (value : String) : Name ("~" ++ base64 value) := by
  refine name_of_mem (c := '~') (by simp) (by decide) fun c hc => ?_
  rw [String.toList_append, mem_append] at hc
  rcases hc with hc | hc
  · cases mem_singleton.mp hc
    decide
  · rw [base64, String.toList_ofList] at hc
    have ha := Base64.encode_subset _ c hc
    constructor <;>
      · rintro rfl
        exact absurd ha (by decide)

/-- A part is its own name if it is plain, and its encoding otherwise. -/
theorem segment_cases (value : String) : Name (chatHistoryPathSegment value) ∧
    ((chatHistoryPathSegment value = trimSpace value ∧
        ∀ c ∈ (trimSpace value).toList, isPlainChar c = true) ∨
      chatHistoryPathSegment value = "~" ++ base64 (trimSpace value)) := by
  have hself : ∀ {s}, Name s → fileBase s = s := fun hn => by
    have := hn.safe
    simp only [safeComponent, Bool.and_eq_true, decide_eq_true_eq] at this
    exact this.2
  unfold chatHistoryPathSegment
  dsimp only
  split
  next h =>
    obtain ⟨hd, hdd, hp⟩ := h
    simp only [isPlainChatHistoryPathSegment, Bool.and_eq_true, decide_eq_true_eq, all_eq_true] at hp
    have hn : Name (trimSpace value) := name_of_chars hp.1 hd hdd fun c hc =>
      ⟨(of_isPlainChar (hp.2 c hc)).1, (of_isPlainChar (hp.2 c hc)).2.1⟩
    rw [hself hn]
    exact ⟨hn, .inl ⟨rfl, hp.2⟩⟩
  next =>
    rw [hself (name_encoded _)]
    exact ⟨name_encoded _, .inr rfl⟩

theorem segment_inj (h : chatHistoryPathSegment a = chatHistoryPathSegment b) :
    trimSpace a = trimSpace b := by
  have hne : ∀ {s t : String}, (∀ c ∈ s.toList, isPlainChar c = true) → s ≠ "~" ++ t := by
    rintro s t hs rfl
    exact (of_isPlainChar (hs '~' (by simp))).2.2 rfl
  rcases (segment_cases a).2 with ⟨ha, hpa⟩ | ha <;>
    rcases (segment_cases b).2 with ⟨hb, hpb⟩ | hb <;> rw [ha, hb] at h
  · exact h
  · exact absurd h (hne hpa)
  · exact absurd h.symm (hne hpb)
  · have he := congrArg String.toList h
    rw [String.toList_append, String.toList_append] at he
    have hl := String.toList_inj.mp (append_cancel_left he)
    have hbytes := Base64.encode_injective (String.ofList_inj.mp hl)
    exact String.toByteArray_inj.mp (ByteArray.ext (Array.toList_inj.mp hbytes))

theorem name_turn (n : Nat) : Name (toString n ++ ".json") := by
  refine name_of_mem (c := 'j') (by simp) (by decide) fun c hc => ?_
  rw [String.toList_append, mem_append] at hc
  rcases hc with hc | hc
  · rw [Nat.toString_eq_ofList_toDigits, String.toList_ofList] at hc
    have hd : c.isDigit = true := Nat.isDigit_of_mem_toDigits (by decide) (by decide) hc
    constructor <;>
      · rintro rfl
        exact absurd hd (by decide)
  · constructor <;>
      · rintro rfl
        exact absurd hc (by decide)

theorem chatHistoryPath_eq (a : Identity) : chatHistoryPath a = some ["history",
    chatHistoryPathSegment a.triggerID, chatHistoryPathSegment a.userID,
    chatHistoryPathSegment a.channelConversationID, "conversations",
    chatHistoryPathSegment a.conversationID, "turns", toString a.id ++ ".json"] := by
  have hs := fun value => (segment_cases value).1
  have hh : Name "history" := ⟨by decide, by decide⟩
  have hc : Name "conversations" := ⟨by decide, by decide⟩
  have ht : Name "turns" := ⟨by decide, by decide⟩
  rw [chatHistoryPath, chatHistoryDir, chatConversationDir, chatConversationRoot,
    path_of_names (by simp [hh, hs]), path_of_names (by simp [hc, hs]),
    path_of_names (by simp [ht]), path_of_names (forall_mem_singleton.mpr (name_turn _))]
  rfl

theorem trimmed_eq_of_path (h : chatHistoryPath a = chatHistoryPath b) : a.trimmed = b.trimmed := by
  rw [chatHistoryPath_eq, chatHistoryPath_eq] at h
  injection h with h
  simp only [cons.injEq, true_and, and_true] at h
  obtain ⟨ht, hu, hc, hv, hi⟩ := h
  have hid := congrArg String.toList hi
  rw [String.toList_append, String.toList_append] at hid
  have hn : a.id = b.id := Nat.repr_inj.mp (String.toList_inj.mp (append_cancel_right hid))
  rw [Identity.trimmed, Identity.trimmed, segment_inj ht, segment_inj hu, segment_inj hc,
    segment_inj hv, hn]

/-- Turns whose identities differ after trimming have different paths, and neither
lies below the other. -/
theorem chat_paths_apart (h : a.trimmed ≠ b.trimmed) : ∃ p q, chatHistoryPath a = some p ∧
    chatHistoryPath b = some q ∧ p ≠ [] ∧ q ≠ [] ∧ ¬ p <+: q ∧ ¬ q <+: p := by
  have hne := mt trimmed_eq_of_path h
  rw [chatHistoryPath_eq, chatHistoryPath_eq] at hne
  refine ⟨_, _, chatHistoryPath_eq a, chatHistoryPath_eq b, cons_ne_nil _ _, cons_ne_nil _ _,
    fun hp => ?_, fun hp => ?_⟩
  · exact hne (congrArg some (hp.eq_of_length (by simp only [length_cons])))
  · exact hne (congrArg some (hp.eq_of_length (by simp only [length_cons]))).symm

theorem dotted_user_apart : ∃ p q, chatHistoryPath ⟨"t", "../u", "c", "v", 1⟩ = some p ∧
    chatHistoryPath ⟨"t", "u", "c", "v", 1⟩ = some q ∧
      p ≠ [] ∧ q ≠ [] ∧ ¬ p <+: q ∧ ¬ q <+: p :=
  chat_paths_apart fun h => absurd (congrArg Identity.userID h) (by decide)

end WeaveFlow.ChatHistory
