import WeaveFlow.Lib.MapTree

/-!
# File trees with links

A file tree has directories, files and symbolic links.  A path is followed part by part
(`walk`) up to its end or to the first link, and goes on with what the link names (`resolve`), as
often as the system allows.  What a path resolves to does not depend on that limit
(`resolve_mono`), and it is there (`exists_of_resolve`).
-/

namespace LinkTree

open List

/-- What is no directory. -/
inductive FileLeaf where
  | file
  | link (absolute : Bool) (target : List String)

/-- The tree below the root directory. -/
abbrev FileTree := MapTree String FileLeaf

/-- Where a path leads before a link is followed. -/
inductive Walk where
  | done (path : List String)
  | jump (dir parts : List String)
  | fail

variable (tree : FileTree)

/-- Follow the parts of a path from a directory. -/
def walk : (parts dir : List String) → Walk
  | [], dir => .done dir
  | part :: rest, dir =>
    if part = "" || part = "." then walk rest dir
    else if part = ".." then walk rest dir.dropLast
    else
      match MapTree.lookAt (dir ++ [part]) (some tree) with
      | none => .fail
      | some (.leaf .file) => if rest.isEmpty then .done (dir ++ [part]) else .fail
      | some (.leaf (.link absolute target)) =>
        .jump (if absolute then [] else dir) (target ++ rest)
      | some (.node _) => walk rest (dir ++ [part])

/-- The path that is reached over at most so many links. -/
def resolve : Nat → (dir parts : List String) → Option (List String)
  | links, dir, parts =>
    match walk tree parts dir, links with
    | .done path, _ => some path
    | .jump dir parts, links + 1 => resolve links dir parts
    | _, _ => none

variable {tree}

theorem resolve_mono (hle : m ≤ n) (h : resolve tree m dir parts = some path) :
    resolve tree n dir parts = some path := by
  induction m generalizing n dir parts with
  | zero =>
    unfold resolve at h ⊢
    cases hw : walk tree parts dir <;> rw [hw] at h <;> first | exact h | cases h
  | succ m ih =>
    obtain ⟨n, rfl⟩ : ∃ k, n = k + 1 := ⟨n - 1, by omega⟩
    unfold resolve at h ⊢
    cases hw : walk tree parts dir with
    | done p => rw [hw] at h; exact h
    | jump dir parts => rw [hw] at h; exact ih (Nat.le_of_succ_le_succ hle) h
    | fail => simp [hw] at h

/-- Something is at the path. -/
def At (tree : FileTree) (path : List String) : Prop :=
  (MapTree.lookAt path (some tree)).isSome = true

theorem at_nil : At tree [] := rfl

theorem At.of_append (h : At tree (dir ++ rest)) : At tree dir := by
  rw [At, MapTree.lookAt_append] at h
  rw [At]
  cases hl : MapTree.lookAt dir (some tree) with
  | none => simp [hl] at h
  | some t => rfl

theorem at_walk (hd : At tree dir) :
    (∀ path, walk tree parts dir = .done path → At tree path) ∧
      ∀ dir' rest, walk tree parts dir = .jump dir' rest → At tree dir' := by
  induction parts generalizing dir with
  | nil =>
    refine ⟨fun path h => ?_, fun dir' rest h => ?_⟩ <;> cases h
    exact hd
  | cons part parts ih =>
    rw [walk]
    split
    · exact ih hd
    · split
      · refine ih (@At.of_append tree _ (dir.drop (dir.length - 1)) ?_)
        rwa [dropLast_eq_take, take_append_drop]
      · split
        · exact ⟨fun path h => (by cases h), fun dir' rest h => (by cases h)⟩
        next hl =>
          split
          · refine ⟨fun path h => ?_, fun dir' rest h => ?_⟩ <;> cases h
            rw [At, hl]
            rfl
          · exact ⟨fun path h => (by cases h), fun dir' rest h => (by cases h)⟩
        next absolute target hl =>
          refine ⟨fun path h => ?_, fun dir' rest h => ?_⟩ <;> cases h
          split
          · exact rfl
          · exact hd
        next kids hl => exact ih (by rw [At, hl]; rfl)

/-- What a path resolves to is there. -/
theorem exists_of_resolve (hd : At tree dir) (h : resolve tree links dir parts = some path) :
    At tree path := by
  induction links generalizing dir parts with
  | zero =>
    unfold resolve at h
    cases hw : walk tree parts dir with
    | done p => rw [hw] at h; cases h; exact (at_walk hd).1 _ hw
    | jump dir' rest => simp [hw] at h
    | fail => simp [hw] at h
  | succ links ih =>
    unfold resolve at h
    cases hw : walk tree parts dir with
    | done p => rw [hw] at h; cases h; exact (at_walk hd).1 _ hw
    | jump dir' rest => rw [hw] at h; exact ih ((at_walk hd).2 _ _ hw) h
    | fail => simp [hw] at h

end LinkTree
