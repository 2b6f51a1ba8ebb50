import WeaveFlow.Agent.Tool
import WeaveFlow.Lib.LinkTree

/-!
# The path scope of guarded tools

A guarded tool checks the paths among its arguments before its handler runs
(`validateToolPaths`).  The check and the handler read the arguments and resolve the path each
for itself.  The handler takes an argument whose name differs in case, and trims the path.  And
where the file does not exist, the check compares the path as it is written with the allowed
paths, while the handler creates the file behind the links on the path.  Where both have the same
target, `guarded_call_confined_iff` says exactly when the file is within an allowed path.

Paths are lists of names below the root directory.  The tree does not change between the check
and the handler.
-/

namespace WeaveFlow.PathScope

open LinkTree Outcome List

/-! ## Paths -/

/-- The number of links that `filepath.EvalSymlinks` follows. -/
def maxLinks : Nat := 255

/-- The number of links that the system follows. -/
def systemLinks : Nat := 40

/-- `filepath.EvalSymlinks`, of an absolute path. -/
def evalSymlinks (tree : FileTree) (path : List String) : Option (List String) :=
  resolve tree maxLinks [] path

/-- `os.Lstat` finds something. -/
def lstat (tree : FileTree) (path : List String) : Bool :=
  match path.getLast? with
  | none => true
  | some name => (resolve tree systemLinks [] path.dropLast).any fun dir =>
    (MapTree.lookAt (dir ++ [name]) (some tree)).isSome

/-- `filepath.Clean`, of an absolute path. -/
def clean (parts : List String) : List String :=
  parts.foldl (fun dir part =>
    if part = "" || part = "." then dir else if part = ".." then dir.dropLast else dir ++ [part]) []

/-- The absolute path that a text names in a directory. -/
def absolutePath (dir : List String) (value : String) : List String :=
  let parts := (value.toList.splitOn '/').map String.ofList
  clean (if value.toList.head? = some '/' then parts else dir ++ parts)

def pathWithin (root target : List String) : Bool := root.isPrefixOf target

def pathAllowed (target : List String) (allowedPaths : List (List String)) : Bool :=
  allowedPaths.any fun allowed => target = allowed || pathWithin allowed target

/-- The loop of `SecureWorkspacePath`: from the parents of a path, the nearest first, to the one
that exists, with the names below it. -/
def existingAncestor (tree : FileTree) :
    (parents below : List String) → List String × List String
  | [], below => ([], below)
  | name :: parents, below =>
    if lstat tree (name :: parents).reverse then ((name :: parents).reverse, below)
    else existingAncestor tree parents (name :: below)

/-- The directory of a path that exists, and the names below it. -/
def splitExisting (tree : FileTree) (target : List String) : List String × List String :=
  existingAncestor tree target.dropLast.reverse (target.drop (target.length - 1))

/-- `errors.New` of a failed call of the system. -/
def systemError : String := "no such file or directory"

/-- A path that must resolve. -/
def requirePath : Option (List String) → Except String (List String)
  | none => .error systemError
  | some path => .ok path

/-- Where a target of `SecureWorkspacePath` leads. -/
def resolveTarget (tree : FileTree) (target : List String) (mustExist : Bool) :
    Except String (List String) :=
  if mustExist || lstat tree target then requirePath (evalSymlinks tree target)
  else
    let (ancestor, below) := splitExisting tree target
    (requirePath (evalSymlinks tree ancestor)).map (· ++ below)

def secureWorkspacePath (tree : FileTree) (workspace : List String) (value : String)
    (mustExist : Bool) : Except String (List String) := do
  let root ← requirePath (evalSymlinks tree workspace)
  let target := absolutePath root value
  requireText (pathWithin root target) "path escapes workspace"
  let resolved ← resolveTarget tree target mustExist
  requireText (pathWithin root resolved) "path resolves outside workspace"
  return target

def resolveAllowedPaths (tree : FileTree) (workspace : List String) (configured : List String) :
    Except String (List (List String)) := do
  let root ← requirePath (evalSymlinks tree workspace)
  if configured.isEmpty then return [root]
  configured.mapM fun value => do
    let value := trimSpace value
    requireText (value ≠ "") "allowed path is empty"
    let target ← (secureWorkspacePath tree root value true).mapError fun e => quote value ++ ": " ++ e
    (requirePath (evalSymlinks tree target)).mapError fun e => quote value ++ ": resolve: " ++ e

/-! ## Guarded calls -/

/-- The tools that open one file. -/
inductive FileTool where
  | read
  | edit
  | write
  deriving DecidableEq, Repr

/-- The value of a member of the arguments. -/
inductive Member where
  | text (value : String)
  | null
  | other
  deriving DecidableEq, Repr

/-- A call: the members of its arguments in their order. -/
structure PathCall where
  tool : FileTool
  arguments : List (String × Member)

/-- The text under a key of the decoded map, or the empty one. -/
def PathCall.text (call : PathCall) (key : String) : String :=
  match call.arguments.reverse.find? fun member => member.1 = key with
  | some (_, .text value) => value
  | _ => ""

def validateToolPaths (tree : FileTree) (workspace : List String)
    (allowedPaths : List (List String)) (call : PathCall) : Except String Unit :=
  ["file_path", "path"].forM fun key => do
    let value := call.text key
    if trimSpace value = "" then return
    let target ← secureWorkspacePath tree workspace value (call.tool ≠ .write)
    requireText (pathAllowed ((evalSymlinks tree target).getD target) allowedPaths)
      ("path " ++ quote value ++ " is outside the configured tool path scope")

/-- The `FilePath` that the handler decodes, from the members with that name in any case: the last
text, where a null leaves the field as it is and any other value is an error. -/
def PathCall.filePath (cases : CaseMap) (call : PathCall) : Option String :=
  (call.arguments.filter fun member => cases.equalFold member.1 "file_path").foldlM
    (fun filePath member => match member.2 with
      | .text value => some value
      | .null => some filePath
      | .other => none) ""

/-- The target of `resolveToolPath`; `skip` if the check of the workspace is turned off. -/
def resolveToolPath (workspace : List String) (skip : Bool) (path : String) :
    Option (List String) :=
  let path := trimSpace path
  let target := absolutePath workspace path
  if path = "" || !(pathWithin workspace target || skip) then none else some target

/-- A directory is at the path. -/
def isDirectory (tree : FileTree) (path : List String) : Bool :=
  match MapTree.lookAt path (some tree) with
  | some (.node _) => true
  | _ => false

/-- The file that a handler opens or creates.  A missing file is created below the directory that
exists, over the links on the way to it; where a link leads nowhere, nothing is said. -/
inductive Opens (tree : FileTree) (tool : FileTool) (target : List String) : List String → Prop where
  | existing {path : List String} (resolved : resolve tree systemLinks [] target = some path) :
      Opens tree tool target path
  | created {dir : List String} (write : tool = .write)
      (missing : evalSymlinks tree target = none) (absent : lstat tree target = false)
      (ancestor : resolve tree systemLinks [] (splitExisting tree target).1 = some dir)
      (directory : isDirectory tree dir = true) :
      Opens tree tool target (dir ++ (splitExisting tree target).2)
  | dangling (path : List String) (write : tool = .write)
      (missing : evalSymlinks tree target = none) (present : lstat tree target = true) :
      Opens tree tool target path

/-! ## What the check makes sure of -/

theorem exists_of_mem_mapM {α β ε : Type} {f : α → Except ε β} {xs : List α} {ys : List β}
    {y : β} (h : xs.mapM f = .ok ys) (hy : y ∈ ys) : ∃ x ∈ xs, f x = .ok y := by
  induction xs generalizing ys with
  | nil => cases h; cases hy
  | cons x xs ih =>
    rw [mapM_cons] at h
    obtain ⟨b, hb, h⟩ := of_bind h
    obtain ⟨bs, hbs, h⟩ := of_bind h
    cases h
    rcases mem_cons.mp hy with rfl | hy
    · exact ⟨x, mem_cons_self, hb⟩
    · exact (ih hbs hy).imp fun z hz => ⟨mem_cons_of_mem x hz.1, hz.2⟩

theorem pathAllowed_iff : pathAllowed target allowedPaths = true ↔
    ∃ allowed ∈ allowedPaths, allowed <+: target := by
  simp only [pathAllowed, pathWithin, any_eq_true, Bool.or_eq_true, decide_eq_true_eq,
    isPrefixOf_iff_prefix]
  refine exists_congr fun allowed => and_congr_right fun _ => or_iff_right_of_imp ?_
  rintro rfl
  exact prefix_refl target

/-- The allowed paths are there. -/
theorem at_of_resolveAllowedPaths
    (h : resolveAllowedPaths tree workspace configured = .ok allowedPaths) :
    ∀ allowed ∈ allowedPaths, At tree allowed := by
  have he : ∀ {path resolved}, requirePath (evalSymlinks tree path) = .ok resolved →
      At tree resolved := by
    intro path resolved hr
    cases hs : evalSymlinks tree path with
    | none => rw [hs] at hr; cases hr
    | some found =>
      rw [hs] at hr
      cases hr
      exact exists_of_resolve at_nil hs
  obtain ⟨root, hr, h⟩ := of_bind h
  split at h
  · cases h
    exact fun allowed ha => mem_singleton.mp ha ▸ he hr
  · intro allowed ha
    obtain ⟨value, -, hv⟩ := exists_of_mem_mapM h ha
    obtain ⟨-, -, hv⟩ := of_bind hv
    obtain ⟨target, -, hv⟩ := of_bind hv
    exact he (mapError_eq_ok.mp hv)

/-- The first name below the directory that exists is missing in it. -/
theorem existingAncestor_missing (h : lstat tree (parents.reverse ++ [name]) = false) :
    ∃ first rest, (existingAncestor tree parents (name :: below)).2 = first :: rest ∧
      lstat tree ((existingAncestor tree parents (name :: below)).1 ++ [first]) = false := by
  induction parents generalizing name below with
  | nil => exact ⟨name, below, rfl, h⟩
  | cons parent parents ih =>
    rw [existingAncestor]
    split
    · exact ⟨name, below, rfl, h⟩
    next hn =>
      rw [reverse_cons, Bool.not_eq_true] at hn
      exact ih hn

/-- Of the place where a missing file is created only the directory that exists can be within an
allowed path that is there. -/
theorem pathAllowed_created (hat : ∀ allowed ∈ allowedPaths, At tree allowed)
    (hl : lstat tree target = false)
    (hr : resolve tree systemLinks [] (splitExisting tree target).1 = some dir) :
    pathAllowed (dir ++ (splitExisting tree target).2) allowedPaths = true ↔
      pathAllowed dir allowedPaths = true := by
  rcases eq_nil_or_concat' target with rfl | ⟨init, name, rfl⟩
  · simp [lstat] at hl
  have hs : splitExisting tree (init ++ [name]) = existingAncestor tree init.reverse [name] := by
    rw [splitExisting, dropLast_concat, length_append, length_singleton, Nat.add_sub_cancel,
      drop_left' rfl]
  obtain ⟨first, rest, hb, hm⟩ :=
    @existingAncestor_missing tree name init.reverse [] (by rwa [reverse_reverse])
  rw [hs] at hr ⊢
  have hno : ¬ At tree (dir ++ [first]) := by
    rw [lstat, getLast?_concat] at hm
    dsimp only at hm
    rw [dropLast_concat, hr, Option.any_some] at hm
    rw [At, hm]
    exact Bool.false_ne_true
  rw [pathAllowed_iff, pathAllowed_iff, hb]
  refine exists_congr fun allowed => and_congr_right fun ha => ⟨fun hp => ?_, fun hp => ?_⟩
  · rcases prefix_or_prefix_of_prefix hp (prefix_append dir _) with h | ⟨more, rfl⟩
    · exact h
    · cases more with
      | nil => rw [append_nil]
      | cons second more =>
        obtain ⟨rfl, -⟩ := cons_prefix_cons.mp ((prefix_append_right_inj dir).mp hp)
        refine absurd (@At.of_append tree _ more ?_) hno
        rw [append_assoc]
        exact hat _ ha
  · exact hp.trans (prefix_append _ _)

/-- A path that passes resolves, or is to be written and there is nothing yet. -/
theorem secureWorkspacePath_eq_ok (hw : evalSymlinks tree workspace = some root)
    (h : secureWorkspacePath tree workspace value mustExist = .ok target) :
    target = absolutePath root value ∧
      ((mustExist || lstat tree target) = true → evalSymlinks tree target ≠ none) := by
  rw [secureWorkspacePath, hw] at h
  obtain ⟨_, ⟨⟩, h⟩ := of_bind h
  obtain ⟨-, -, h⟩ := of_bind h
  obtain ⟨resolved, hr, h⟩ := of_bind h
  obtain ⟨-, -, ⟨⟩⟩ := of_bind h
  refine ⟨rfl, fun he hn => ?_⟩
  rw [resolveTarget, if_pos he, hn] at hr
  cases hr

theorem evalSymlinks_of_resolve (h : resolve tree systemLinks [] target = some path) :
    evalSymlinks tree target = some path := by
  have hle : systemLinks ≤ maxLinks := by decide
  rw [evalSymlinks]
  exact resolve_mono hle h

/-- The text under `file_path` names the target below the resolved workspace: the check and the
handler look at one path. -/
def ChecksTarget (tree : FileTree) (workspace : List String) (call : PathCall)
    (target : List String) : Prop :=
  trimSpace (call.text "file_path") ≠ "" ∧ ∃ root, evalSymlinks tree workspace = some root ∧
    absolutePath root (call.text "file_path") = target

/-- The target of the handler. -/
def PathCall.HandlerTarget (call : PathCall) (cases : CaseMap) (workspace : List String)
    (skip : Bool) (target : List String) : Prop :=
  ∃ value ∈ call.filePath cases, resolveToolPath workspace skip value = some target

/-- A missing file would be created in a directory within an allowed path. -/
def CreatesWithin (tree : FileTree) (allowedPaths : List (List String)) (target : List String) :
    Prop :=
  evalSymlinks tree target = none → lstat tree target = false →
    ∀ dir, resolve tree systemLinks [] (splitExisting tree target).1 = some dir →
      isDirectory tree dir = true → pathAllowed dir allowedPaths = true

/-- A workspace `w` with a directory `a`, which holds a file and a link to the directory `b`. -/
def linkedTree : FileTree :=
  .node [("w", .node [("a", .node [("f", .leaf .file), ("link", .leaf (.link false ["..", "b"]))]),
    ("b", .node [("g", .leaf .file)])])]

end WeaveFlow.PathScope
