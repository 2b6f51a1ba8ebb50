import WeaveFlow.State.Path

/-!
# Storage directories of graphs

The server keeps the sessions, the commit journal and the receipts of a graph in
one directory, named by `graphStorageKey`.  An id that is a safe file name is its
own key.  Any other id is made safe, cut to length and given a digest of the id as
a suffix.  Digests keep the keys of the second kind apart, but nothing keeps them
apart from the first kind: a generated key is itself a safe file name, so an id
of that very text is stored in the same directory.
-/

namespace WeaveFlow

/-- The character tables of the `unicode` package that a key depends on. -/
structure CharTables where
  isLetter : Char → Bool
  isDigit : Char → Bool
  toUpper : Char → Char

def CharTables.ascii : CharTables := ⟨Char.isAlpha, Char.isDigit, Char.toUpper⟩

/-- The first six bytes of a digest, printed as twelve hexadecimal digits. -/
structure ShortDigest where
  hex : String → String
  length_hex : ∀ id, (hex id).length = 12

section

variable (tables : CharTables) (digest : ShortDigest)

def safePathSegment (value : String) : String :=
  let value := trimSpace value
  if value = "" then "graph"
  else
    let kept c := tables.isLetter c || tables.isDigit c || c = '-' || c = '_' || c = '.'
    let written := value.toList.map fun c => if kept c then c else '_'
    let cut c := decide (c = '.' ∨ c = ' ')
    let out := (written.dropWhile cut).rdropWhile cut
    if out = [] then "graph" else String.ofList (out.take 80)

def isReservedGraphStorageKey (value : String) : Bool :=
  String.ofList ((value.toList.takeWhile (· ≠ '.')).map tables.toUpper) ∈
    ["CON", "PRN", "AUX", "NUL",
      "COM1", "COM2", "COM3", "COM4", "COM5", "COM6", "COM7", "COM8", "COM9",
      "LPT1", "LPT2", "LPT3", "LPT4", "LPT5", "LPT6", "LPT7", "LPT8", "LPT9"]

/-- The id is a safe file name and is used as it is. -/
def Verbatim (graphID : String) : Prop :=
  trimSpace graphID = safePathSegment tables (trimSpace graphID) ∧
    isReservedGraphStorageKey tables (safePathSegment tables (trimSpace graphID)) = false

instance : Decidable (Verbatim tables graphID) := inferInstanceAs (Decidable (_ ∧ _))

def graphStorageKey (graphID : String) : String :=
  if Verbatim tables graphID then safePathSegment tables (trimSpace graphID)
  else
    let suffix := digest.hex (trimSpace graphID)
    String.ofList ((safePathSegment tables (trimSpace graphID)).toList.take (80 - suffix.length - 1))
      ++ "-" ++ suffix

/-- The directory of a graph as the names on the way to it. -/
def graphStorageDirectory (baseDir : List String) (graphID : String) : List String :=
  baseDir ++ ["graphs", graphStorageKey tables digest graphID]

variable {tables digest}

theorem graphStorageKey_verbatim (h : Verbatim tables graphID) :
    graphStorageKey tables digest graphID = trimSpace graphID := by
  rw [graphStorageKey, if_pos h, ← h.1]

theorem hex_eq_of_key_eq (ha : ¬ Verbatim tables a) (hb : ¬ Verbatim tables b)
    (h : graphStorageKey tables digest a = graphStorageKey tables digest b) :
    digest.hex (trimSpace a) = digest.hex (trimSpace b) := by
  rw [graphStorageKey, graphStorageKey, if_neg ha, if_neg hb] at h
  have hl : (digest.hex (trimSpace a)).toList.length = (digest.hex (trimSpace b)).toList.length := by
    rw [String.length_toList, String.length_toList, digest.length_hex, digest.length_hex]
  have ht := congrArg String.toList h
  simp only [String.toList_append] at ht
  exact String.toList_inj.mp (List.append_inj' ht hl).2

/-- The key generated for an id that is no safe file name: its first characters and the digest. -/
theorem graphStorageKey_generated (h : ¬ Verbatim tables graphID) :
    graphStorageKey tables digest graphID =
      String.ofList ((safePathSegment tables (trimSpace graphID)).toList.take 67) ++ "-" ++
        digest.hex (trimSpace graphID) := by
  simp only [graphStorageKey, if_neg h, digest.length_hex]

/-- Two graphs share their directory exactly if the id of one is a safe file name
and spells the key generated for the other. -/
theorem graph_directory_shared_iff (hab : trimSpace a ≠ trimSpace b)
    (hd : ¬ Verbatim tables a → ¬ Verbatim tables b →
      digest.hex (trimSpace a) ≠ digest.hex (trimSpace b)) :
    graphStorageDirectory tables digest baseDir a = graphStorageDirectory tables digest baseDir b ↔
      (Verbatim tables a ∧ ¬ Verbatim tables b ∧ trimSpace a =
        String.ofList ((safePathSegment tables (trimSpace b)).toList.take 67) ++ "-" ++
          digest.hex (trimSpace b)) ∨
      (¬ Verbatim tables a ∧ Verbatim tables b ∧ trimSpace b =
        String.ofList ((safePathSegment tables (trimSpace a)).toList.take 67) ++ "-" ++
          digest.hex (trimSpace a)) := by
  have hk : graphStorageDirectory tables digest baseDir a =
      graphStorageDirectory tables digest baseDir b ↔
      graphStorageKey tables digest a = graphStorageKey tables digest b := by
    simp [graphStorageDirectory]
  rw [hk]
  by_cases ha : Verbatim tables a <;> by_cases hb : Verbatim tables b
  · simp [graphStorageKey_verbatim, ha, hb, hab]
  · rw [graphStorageKey_verbatim ha, graphStorageKey_generated hb]
    simp [ha, hb]
  · rw [graphStorageKey_verbatim hb, graphStorageKey_generated ha, eq_comm]
    simp [ha, hb]
  · have hne : graphStorageKey tables digest a ≠ graphStorageKey tables digest b := fun h =>
      hd ha hb (hex_eq_of_key_eq ha hb h)
    simp [ha, hb, hne]

end

/-- The digest of "a/b", the only id below that needs one. -/
def slashDigest : ShortDigest := ⟨fun _ => "c14cddc033f6", fun _ => rfl⟩

theorem plain_directories_differ :
    graphStorageDirectory .ascii slashDigest [] "a/b" ≠
      graphStorageDirectory .ascii slashDigest [] "a_b" := by
  rw [Ne, graph_directory_shared_iff (by decide) (fun _ h => absurd (by decide) h)]
  decide

/-- The id "a_b-c14cddc033f6" spells the key generated for "a/b". -/
theorem generated_key_taken :
    trimSpace "a/b" ≠ trimSpace "a_b-c14cddc033f6" ∧
      graphStorageDirectory .ascii slashDigest ["srv"] "a/b" =
        graphStorageDirectory .ascii slashDigest ["srv"] "a_b-c14cddc033f6" := by
  decide

end WeaveFlow
