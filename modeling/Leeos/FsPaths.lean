import Mathlib.Data.List.Basic
import Mathlib.Data.Nat.Basic

/-!
# Paths (`path_parse` and `search_file` in `fs/fs.c`)

A C string is the list of its bytes without the terminator, and a pointer into it is the list of
the bytes from there on; `none` is the null pointer. The buffer `name` is known by its bytes up to
the last one written, the rest of it being 0 from its initialisation on. A directory stands for
its inode number, and `search_dir_entry` is the look-up in a tree.
-/
namespace FsPaths

abbrev CString := List (BitVec 8)

def slash : BitVec 8 := 0x2f#8

def maxPathLen : ℕ := 512

def skipSlashes : CString → CString
  | [] => []
  | c :: rest => if c = slash then skipSlashes rest else c :: rest

/-- The copying loop: the bytes stored, and the path from where it stops. -/
def copyName : CString → CString × CString
  | [] => ([], [])
  | c :: rest =>
    if c = slash then ([], c :: rest)
    else (c :: (copyName rest).1, (copyName rest).2)

/-- The pointer returned, and the bytes stored into `name_store` from its start on. -/
def pathParse (pathname : CString) : Option CString × CString :=
  let start := match pathname with
    | [] => []
    | c :: rest => if c = slash then skipSlashes rest else c :: rest
  let r := copyName start
  (if r.2 = [] then none else some r.2, r.1)

inductive FileType where
  | unknown
  | regular
  | directory
  deriving DecidableEq, Repr

structure DirEntry where
  iNo : ℕ
  fType : FileType
  deriving DecidableEq, Repr

/-- `lookup d name` is the entry that `search_dir_entry` finds in the directory with inode `d`.
An entry in use is not of the type `FT_UNKNOWN`. -/
structure Tree where
  lookup : ℕ → CString → Option DirEntry
  in_use : ∀ d name e, lookup d name = some e → e.fType ≠ .unknown

structure PathSearchRecord where
  searchedPath : CString
  parentDir : ℕ
  fileType : FileType
  deriving DecidableEq, Repr

/-- What a search must not do: read or follow the null pointer, or leave one of its buffers. -/
inductive PathFault where
  | nullPath
  | nameOverflow
  | pathOverflow
  deriving DecidableEq, Repr

/-- The inode number found (`none` is -1), and the record. -/
abbrev SearchResult := Except PathFault (Option ℕ × PathSearchRecord)

/-- `stored` comes over the first bytes of the buffer; one byte is left for the terminator. -/
def storeName (name stored : CString) : Except PathFault CString :=
  if stored.length < maxPathLen then .ok (stored ++ name.drop stored.length)
  else .error .nameOverflow

def strcatPath (dst src : CString) : Except PathFault CString :=
  if dst.length + src.length < maxPathLen then .ok (dst ++ src) else .error .pathOverflow

def ptrLen (pathPtr : Option CString) : ℕ := (pathPtr.getD []).length

theorem length_copyName (p : CString) : (copyName p).2.length ≤ p.length := by
  induction p with
  | nil => simp [copyName]
  | cons c rest ih =>
    simp only [copyName]
    split
    · exact le_rfl
    · exact Nat.le_succ_of_le ih

theorem length_skipSlashes (p : CString) : (skipSlashes p).length ≤ p.length := by
  induction p with
  | nil => simp [skipSlashes]
  | cons c rest ih =>
    simp only [skipSlashes]
    split
    · exact Nat.le_succ_of_le ih
    · exact le_rfl

theorem ptrLen_pathParse (c : BitVec 8) (rest : CString) :
    ptrLen (pathParse (c :: rest)).1 < (c :: rest).length := by
  have hcopy : ∀ p : CString, ptrLen (if (copyName p).2 = [] then none else some (copyName p).2) =
      (copyName p).2.length := by
    intro p
    by_cases he : (copyName p).2 = []
    · simp [ptrLen, he]
    · simp [ptrLen, he]
  simp only [pathParse]
  rw [hcopy]
  by_cases hc : c = slash
  · rw [if_pos hc]
    exact Nat.lt_succ_of_le (Nat.le_trans (length_copyName _) (length_skipSlashes _))
  · rw [if_neg hc]
    simp only [copyName, if_neg hc]
    exact Nat.lt_succ_of_le (length_copyName _)

/-- `if (path_ptr[0]) path_ptr = path_parse(path_ptr, name)`, on the cleared buffer. -/
def parseNext (pathPtr : Option CString) : Except PathFault (Option CString × CString) :=
  match pathPtr with
  | none => .error .nullPath
  | some [] => .ok (some [], [])
  | some (c :: rest) =>
    match storeName [] (pathParse (c :: rest)).2 with
    | .ok name => .ok ((pathParse (c :: rest)).1, name)
    | .error e => .error e

theorem ptrLen_parseNext {pathPtr ptr : Option CString} {name : CString}
    (h : parseNext pathPtr = .ok (ptr, name)) :
    ptrLen ptr < ptrLen pathPtr ∨ ptrLen ptr = ptrLen pathPtr ∧ name = [] := by
  match pathPtr, h with
  | some [], h =>
    cases h
    exact Or.inr ⟨rfl, rfl⟩
  | some (c :: rest), h =>
    simp only [parseNext] at h
    split at h
    · cases h
      exact Or.inl (ptrLen_pathParse c rest)
    · cases h

/-- The loop of `search_file`. `pDe` is the entry found last, `record` the caller's record. -/
def searchLoop (t : Tree) (parentDir parentInodeNo : ℕ) (pDe : DirEntry)
    (pathPtr : Option CString) (name : CString) (record : PathSearchRecord) : SearchResult :=
  if _hname : name = [] then
    .ok (some pDe.iNo, { record with parentDir := parentInodeNo, fileType := .directory })
  else
    match strcatPath record.searchedPath [slash] with
    | .error e => .error e
    | .ok path =>
    match strcatPath path name with
    | .error e => .error e
    | .ok path =>
    match t.lookup parentDir name with
    | none => .ok (none, { record with searchedPath := path })
    | some e =>
      match _hnext : parseNext pathPtr with
      | .error fault => .error fault
      | .ok (ptr, next) =>
        match e.fType with
        | .directory => searchLoop t e.iNo parentDir e ptr next
            { record with searchedPath := path, parentDir := e.iNo }
        | .regular => .ok (some e.iNo, { record with searchedPath := path, fileType := .regular })
        | .unknown => searchLoop t parentDir parentInodeNo e ptr next
            { record with searchedPath := path }
termination_by 2 * ptrLen pathPtr + (if name = [] then 0 else 1)
decreasing_by
  all_goals
    have := ptrLen_parseNext _hnext
    simp only [_hname, if_false]
    rcases this with h | ⟨h, hn⟩
    · split <;> omega
    · simp [h, hn]

/-- The three spellings that are answered at once: `/`, `/..` and `/.`. -/
def rootSpellings : List CString := [[slash], [slash, 0x2e#8, 0x2e#8], [slash, 0x2e#8]]

/-- `search_file` on a cleared record. `stack` is what `p_de` holds before it is written. The
path is parsed twice before the loop. -/
def searchFile (t : Tree) (stack : DirEntry) (filename : CString) : SearchResult :=
  if filename ∈ rootSpellings then .ok (some 0, ⟨[], 0, .directory⟩)
  else
    let first := pathParse filename
    match storeName [] first.2 with
    | .error e => .error e
    | .ok name =>
    match first.1 with
    | none => .error .nullPath
    | some ptr =>
    let second := pathParse ptr
    match storeName name second.2 with
    | .error e => .error e
    | .ok name => searchLoop t 0 0 stack second.1 name ⟨[], 0, .unknown⟩

/-! ## What a search is to find -/

def components (path : CString) : List CString := (path.splitOn slash).filter (· ≠ [])

/-- Follow the components from directory `dir` on, `visited` being the path to it. -/
def follow (t : Tree) (dir : ℕ) (visited : CString) : List CString → Option ℕ × PathSearchRecord
  | [] => (some dir, ⟨visited, dir, .directory⟩)
  | name :: rest =>
    let path := visited ++ slash :: name
    match t.lookup dir name with
    | none => (none, ⟨path, dir, .unknown⟩)
    | some e =>
      if rest = [] then (some e.iNo, ⟨path, dir, e.fType⟩)
      else if e.fType = .directory then follow t e.iNo path rest
      else (none, ⟨path, dir, .unknown⟩)

/-- The root's own spellings visit no component. -/
def expected (t : Tree) (filename : CString) : Option ℕ × PathSearchRecord :=
  if filename ∈ rootSpellings then follow t 0 [] [] else follow t 0 [] (components filename)

end FsPaths
