import Leeos.FsBitmaps
import Leeos.FsPaths

/-!
# Directory entries (`fs/dir.c`)

The reader and the writer of a directory each make a table of its 140 blocks. `search_dir_entry`
keeps it in an array of bytes, `sync_dir_entry` in one of words. A buffer is a memory of its own that
starts at 0; the partition of both is `curr_part`, and `sys_malloc` gives what is asked of it.
-/
namespace FsDirectory

open ExecRules KernelBitmap FsDisk FsBitmaps LibStdint
open FsPaths (CString)

def maxFileNameLen : ℕ := 16
def entrySize : ℕ := FsLayout.dirEntrySize
def entriesPerSector : ℕ := 512 / 24
def blockCnt : ℕ := 12 + 128

/-- The fields of the directory's inode that are used here. -/
structure DirInode where
  iSize : ℕ
  iOpenCnts : ℕ
  iSectors : ℕ → ℕ

structure DirState where
  fs : FsState
  inode : DirInode

inductive DirHalt where
  /-- `ASSERT(strlen(filename) <= MAX_FILE_NAME_LEN)` -/
  | nameLen
  /-- `ASSERT((dir_size % sizeof(struct dir)) == 0)` -/
  | dirSize
  /-- `ASSERT(lba <= max_lba)` of `ide_read` and `ide_write`. -/
  | maxLba
  deriving DecidableEq, Repr

abbrev DirM (α : Type) := Exec DirHalt DirState α

/-! ## Entries -/

structure DirEntry where
  filename : List (BitVec 8)
  iNo : ℕ
  fType : ℕ
  deriving DecidableEq, Repr

def loadEntry (m : Bytes) (a : ℕ) : DirEntry where
  filename := (List.range maxFileNameLen).map fun i => m (a + i)
  iNo := loadWord m (a + 16)
  fType := loadWord m (a + 20)

def fType (m : Bytes) (a : ℕ) : ℕ := loadWord m (a + 20)

def entryBytes (filename : CString) (inodeNo fileType : ℕ) (pDe : Bytes) : Bytes :=
  let pDe := storeWord pDe 16 inodeNo
  let pDe := copyBytes (fun i => filename.getD i 0) 0 pDe 0 filename.length
  storeWord pDe 20 fileType

def createDirEntry (filename : CString) (inodeNo fileType : ℕ) (pDe : Bytes) :
    Except DirHalt Bytes :=
  if filename.length ≤ maxFileNameLen then .ok (entryBytes filename inodeNo fileType pDe)
  else .error .nameLen

/-- `!strcmp(a, name)`; no byte of `name` is 0. -/
def sameString (m : Bytes) : ℕ → CString → Bool
  | a, [] => m a == 0
  | a, c :: rest => m a == c && sameString m (a + 1) rest

/-! ## `search_dir_entry` -/

/-- What a buffer holds after one sector has been read into it. -/
def sectorAt (disk : Bytes) (lba : ℕ) : Bytes := fun i => disk (512 * lba + i)

/-- `each_sect_addr_array[i]`: the array has bytes, and the indirect block is read behind the first
12 of them. -/
def eachSectAddr (disk : Bytes) (inode : DirInode) (i : ℕ) : ℕ :=
  if i < 12 then inode.iSectors i % 256
  else if inode.iSectors 12 ≠ 0 then (sectorAt disk (inode.iSectors 12) (i - 12)).toNat
  else 0

def searchSector (buf : Bytes) (name : CString) : Option DirEntry :=
  (List.range entriesPerSector).findSome? fun idx =>
    if sameString buf (24 * idx) name then some (loadEntry buf (24 * idx)) else none

def searchDirEntry (s : DirState) (name : CString) : Except DirHalt (Option DirEntry) :=
  if s.inode.iSectors 12 ≠ 0 ∧ maxLba < s.inode.iSectors 12 then .error .maxLba
  else .ok ((List.range blockCnt).findSome? fun i =>
    let lba := eachSectAddr s.fs.disk s.inode i
    if lba = 0 then none else searchSector (sectorAt s.fs.disk lba) name)

/-! ## `sync_dir_entry` -/

def allBlocks (disk : Bytes) (inode : DirInode) (i : ℕ) : ℕ :=
  if i < 12 then inode.iSectors i
  else if inode.iSectors 12 ≠ 0 then loadWord disk (512 * inode.iSectors 12 + 4 * (i - 12))
  else 0

def indirectBytes (blocks : ℕ → ℕ) : Bytes := fun i =>
  BitVec.ofNat 8 (blocks (12 + i / 4) / 256 ^ (i % 4))

def writeSector (lba : ℕ) (buf : Bytes) : DirM Unit := do
  ensure .maxLba (lba ≤ maxLba)
  modify fun s => { s with fs := { s.fs with disk := ideWrite s.fs.disk lba buf 0 1 } }

def setSector (i lba : ℕ) : DirM Unit := modify fun s =>
  { s with inode := { s.inode with iSectors := Function.update s.inode.iSectors i lba } }

def allocBlock : DirM (Option ℕ) := do
  let s ← get
  set { s with fs := (blockBitmapAlloc s.fs).2 }
  pure (blockBitmapAlloc s.fs).1

def blockIdx (s : DirState) (lba : ℕ) : ℕ := u32 (lba + 2 ^ 32 - s.fs.part.sb.dataStartLba)

/-- `bitmap_sync(curr_part, block_bitmap_idx, BLOCK_BITMAP)` for the block with this address. -/
def syncBit (lba : ℕ) : DirM Unit := do
  let s ← get
  ensure .maxLba (u32 (s.fs.part.sb.blockBitmapLba + blockIdx s lba / 4096) ≤ maxLba)
  set { s with fs := bitmapSync (blockIdx s lba) .blockBitmap s.fs }

def clearBit (lba : ℕ) : DirM Unit := modify fun s =>
  { s with fs := { s.fs with mem := bitmapSet s.fs.mem s.fs.part.blockBitmap (blockIdx s lba) false } }

def writeNewBlock (pDe : Bytes) (lba : ℕ) : DirM (Option Bool) := do
  writeSector lba (copyBytes pDe 0 (fun _ => 0) 0 entrySize)
  modify fun s => { s with inode := { s.inode with iSize := u32 (s.inode.iSize + entrySize) } }
  pure (some true)

/-- `all_blocks[block_idx] == 0`. Behind the indirect block's first entry two blocks are allocated
for one, and that the second may be missing is not looked at. -/
def addBlock (pDe : Bytes) (blocks : ℕ → ℕ) (idx : ℕ) : DirM (Option Bool) := do
  match ← allocBlock with
  | none => pure (some false)
  | some lba =>
    syncBit lba
    if idx < 12 then
      setSector idx lba
      writeNewBlock pDe lba
    else if idx = 12 then
      setSector 12 lba
      match ← allocBlock with
      | none =>
        clearBit lba
        setSector 12 0
        pure (some false)
      | some dataLba =>
        syncBit dataLba
        writeSector lba (indirectBytes (Function.update blocks 12 dataLba))
        writeNewBlock pDe dataLba
    else
      let dataLba := (← allocBlock).getD (2 ^ 32 - 1)
      syncBit dataLba
      let s ← get
      writeSector (s.inode.iSectors 12) (indirectBytes (Function.update blocks idx dataLba))
      writeNewBlock pDe dataLba

/-- The first entry of the type `FT_UNKNOWN`. -/
def freeSlot (buf : Bytes) : Option ℕ :=
  (List.range entriesPerSector).find? fun idx => fType buf (24 * idx) = 0

/-- Whether the entry has found a place in the block. -/
def fillSlot (pDe : Bytes) (lba : ℕ) : DirM Bool := do
  ensure .maxLba (lba ≤ maxLba)
  let s ← get
  let buf := sectorAt s.fs.disk lba
  match freeSlot buf with
  | none => pure false
  | some idx =>
    writeSector lba (copyBytes pDe 0 buf (24 * idx) entrySize)
    modify fun s =>
      { s with inode := { s.inode with iOpenCnts := u32 (s.inode.iOpenCnts + entrySize) } }
    pure true

/-- The loop over the blocks from `idx` on; `none` is the end of the function, which is reached
without a `return`. -/
def syncLoop (pDe : Bytes) (blocks : ℕ → ℕ) : ℕ → ℕ → DirM (Option Bool)
  | 0, _ => pure none
  | cnt + 1, idx =>
    if blocks idx = 0 then addBlock pDe blocks idx
    else do
      if ← fillSlot pDe (blocks idx) then pure (some true)
      else syncLoop pDe blocks cnt (idx + 1)

def syncDirEntry (pDe : Bytes) : DirM (Option Bool) := do
  let s ← get
  ensure .dirSize (s.inode.iSize % dirSize = 0)
  ensure .maxLba (s.inode.iSectors 12 ≠ 0 → s.inode.iSectors 12 ≤ maxLba)
  syncLoop pDe (allBlocks s.fs.disk s.inode) blockCnt 0

/-! ## Searching a range -/

section Range

variable {α : Type} {f g : ℕ → Option α} {n N : ℕ}

theorem findSome_range_eq_some_iff {r : α} : (List.range n).findSome? f = some r ↔
    ∃ i < n, f i = some r ∧ ∀ j < i, f j = none := by
  induction n with
  | zero => simp
  | succ n ih =>
    rw [List.range_succ, List.findSome?_append, Option.or_eq_some_iff, ih]
    simp only [List.findSome?_cons, List.findSome?_nil, List.findSome?_eq_none_iff,
      List.mem_range]
    constructor
    · rintro (⟨i, hi, hf, hbefore⟩ | ⟨hnone, hf⟩)
      · exact ⟨i, by omega, hf, hbefore⟩
      · refine ⟨n, by omega, ?_, hnone⟩
        cases h : f n with
        | none => simp [h] at hf
        | some b => simpa [h] using hf
    · rintro ⟨i, hi, hf, hbefore⟩
      by_cases hin : i = n
      · subst hin
        exact Or.inr ⟨hbefore, by simp [hf]⟩
      · exact Or.inl ⟨i, by omega, hf, hbefore⟩

theorem findSome_range_eq_none_iff :
    (List.range n).findSome? f = none ↔ ∀ i < n, f i = none := by
  simp only [List.findSome?_eq_none_iff, List.mem_range]

theorem findSome_range_congr (h : ∀ i < n, f i = g i) :
    (List.range n).findSome? f = (List.range n).findSome? g := by
  cases hg : (List.range n).findSome? g with
  | none =>
    rw [findSome_range_eq_none_iff] at hg ⊢
    exact fun i hi => (h i hi).trans (hg i hi)
  | some r =>
    rw [findSome_range_eq_some_iff] at hg ⊢
    obtain ⟨i, hi, hf, hbefore⟩ := hg
    exact ⟨i, hi, (h i hi).trans hf, fun j hj => (h j (by omega)).trans (hbefore j hj)⟩

theorem findSome_range_places (p : ℕ → ℕ) (hmono : ∀ j < n, ∀ i < j, p i < p j)
    (hlt : ∀ i < n, p i < N) (hval : ∀ i < n, f (p i) = g i)
    (hnone : ∀ j < N, (∀ i < n, p i ≠ j) → f j = none) :
    (List.range N).findSome? f = (List.range n).findSome? g := by
  have hplace : ∀ j < N, f j ≠ none → ∃ i < n, p i = j := by
    intro j hj hf
    by_contra hno
    push Not at hno
    exact hf (hnone j hj hno)
  cases hg : (List.range n).findSome? g with
  | none =>
    rw [findSome_range_eq_none_iff] at hg ⊢
    intro j hj
    by_contra hf
    obtain ⟨i, hi, rfl⟩ := hplace j hj hf
    exact hf ((hval i hi).trans (hg i hi))
  | some r =>
    rw [findSome_range_eq_some_iff] at hg ⊢
    obtain ⟨i, hi, hf, hbefore⟩ := hg
    refine ⟨p i, hlt i hi, (hval i hi).trans hf, fun j hj => ?_⟩
    by_contra hjf
    obtain ⟨k, hk, rfl⟩ := hplace j (by have := hlt i hi; omega) hjf
    rcases Nat.lt_trichotomy k i with hki | rfl | hki
    · exact hjf ((hval k hk).trans (hbefore k hki))
    · omega
    · have := hmono k hk i hki
      omega

end Range

/-! ## Names -/

variable {m m' disk : Bytes} {a k lba : ℕ} {name other : CString} {s : DirState}

/-- A name as `create_dir_entry` admits it. -/
structure ValidName (name : CString) : Prop where
  nonempty : 0 < name.length
  short : name.length ≤ maxFileNameLen
  plain : ∀ i < name.length, name.getD i 0 ≠ 0

theorem sameString_iff : sameString m a name = true ↔
    (∀ i < name.length, m (a + i) = name.getD i 0) ∧ m (a + name.length) = 0 := by
  induction name generalizing a with
  | nil => simp [sameString]
  | cons c rest ih =>
    rw [sameString, Bool.and_eq_true, beq_iff_eq, ih]
    have hshift : ∀ i, a + 1 + i = a + (i + 1) := fun i => by omega
    constructor
    · rintro ⟨hc, hrest, hend⟩
      refine ⟨fun i hi => ?_, ?_⟩
      · cases i with
        | zero => simpa using hc
        | succ i =>
          rw [← hshift, hrest i (by simpa using hi)]
          simp
      · rw [List.length_cons, ← hshift]
        exact hend
    · rintro ⟨hall, hend⟩
      refine ⟨by simpa using hall 0 (by simp), fun i hi => ?_, ?_⟩
      · have := hall (i + 1) (by simpa using hi)
        rw [hshift, this]
        simp
      · rw [hshift]
        simpa using hend

theorem sameString_congr (hn : ValidName name) (h : ∀ i < 24, m (a + i) = m' (k + i)) :
    sameString m a name = sameString m' k name := by
  have hlen : name.length ≤ 16 := hn.short
  rw [Bool.eq_iff_iff, sameString_iff, sameString_iff, h _ (by omega)]
  constructor
  · rintro ⟨hall, hend⟩
    exact ⟨fun i hi => (h i (by omega)).symm.trans (hall i hi), hend⟩
  · rintro ⟨hall, hend⟩
    exact ⟨fun i hi => (h i (by omega)).trans (hall i hi), hend⟩

theorem loadEntry_congr (h : ∀ i < 24, m (a + i) = m' (k + i)) : loadEntry m a = loadEntry m' k := by
  have hname : (List.range maxFileNameLen).map (fun i => m (a + i)) =
      (List.range maxFileNameLen).map fun i => m' (k + i) := by
    apply List.map_congr_left
    intro i hi
    have : i < 16 := List.mem_range.mp hi
    exact h i (by omega)
  have hword : ∀ o, o + 4 ≤ 24 → loadWord m (a + o) = loadWord m' (k + o) := by
    intro o ho
    apply loadWord_congr
    intro j hj
    rw [Nat.add_assoc, Nat.add_assoc]
    exact h (o + j) (by omega)
  rw [loadEntry, loadEntry, hname, hword 16 (by omega), hword 20 (by omega)]

theorem fType_congr (h : ∀ i < 24, m (a + i) = m' (k + i)) : fType m a = fType m' k :=
  congrArg DirEntry.fType (loadEntry_congr h)

theorem searchSector_congr (hn : ValidName name) (h : ∀ i < 512, m i = m' i) :
    searchSector m name = searchSector m' name := by
  apply findSome_range_congr
  intro idx hidx
  have hidx : idx < 21 := hidx
  have hentry : ∀ i < 24, m (24 * idx + i) = m' (24 * idx + i) := fun i hi => h _ (by omega)
  rw [sameString_congr hn hentry, loadEntry_congr hentry]

theorem searchSector_eq_none_iff : searchSector m name = none ↔
    ∀ idx < entriesPerSector, sameString m (24 * idx) name = false := by
  rw [searchSector, findSome_range_eq_none_iff]
  simp only [ite_eq_right_iff, reduceCtorEq, imp_false, Bool.not_eq_true]

theorem sameString_nil_byte (hn : ValidName name) (h : m a = 0) : sameString m a name = false := by
  rw [Bool.eq_false_iff]
  intro hsame
  have := (sameString_iff.mp hsame).1 0 hn.nonempty
  exact hn.plain 0 hn.nonempty (this.symm.trans h)

/-- The name in the field is this one, whether the field has room for its 0 or not. -/
def Carries (m : Bytes) (a : ℕ) (name : CString) : Prop :=
  (∀ i < name.length, m (a + i) = name.getD i 0) ∧
    (name.length < maxFileNameLen → m (a + name.length) = 0)

theorem carries_of_sameString (h : sameString m a name = true) : Carries m a name :=
  ⟨(sameString_iff.mp h).1, fun _ => (sameString_iff.mp h).2⟩

/-! ## The reader's table -/

/-- What the reader keeps of the addresses in the writer's table. -/
def addrByte (blocks : ℕ → ℕ) (i : ℕ) : ℕ :=
  if i < 12 then blocks i % 256 else blocks (12 + (i - 12) / 4) / 256 ^ ((i - 12) % 4) % 256

theorem loadWord_byte {j : ℕ} (hj : j < 4) : loadWord m a / 256 ^ j % 256 = (m (a + j)).toNat := by
  have h₀ := (m a).isLt
  have h₁ := (m (a + 1)).isLt
  have h₂ := (m (a + 2)).isLt
  have h₃ := (m (a + 3)).isLt
  rw [loadWord]
  obtain rfl | rfl | rfl | rfl : j = 0 ∨ j = 1 ∨ j = 2 ∨ j = 3 := by omega
  · simp only [Nat.add_zero]
    omega
  · omega
  · omega
  · omega

theorem eachSectAddr_eq (disk : Bytes) (inode : DirInode) (i : ℕ) :
    eachSectAddr disk inode i = addrByte (allBlocks disk inode) i := by
  by_cases hi : i < 12
  · rw [eachSectAddr, addrByte, if_pos hi, if_pos hi, allBlocks, if_pos hi]
  · have hout : ¬ 12 + (i - 12) / 4 < 12 := by omega
    have hsub : 12 + (i - 12) / 4 - 12 = (i - 12) / 4 := by omega
    rw [eachSectAddr, addrByte, if_neg hi, if_neg hi, allBlocks, if_neg hout, hsub]
    by_cases hind : inode.iSectors 12 ≠ 0
    · rw [if_pos hind, if_pos hind, loadWord_byte (Nat.mod_lt _ (by omega)), sectorAt]
      congr 2
      omega
    · rw [if_neg hind, if_neg hind, Nat.zero_div, Nat.zero_mod]

def searchTable (disk : Bytes) (addr : ℕ → ℕ) (name : CString) : Option DirEntry :=
  (List.range blockCnt).findSome? fun i =>
    if addr i = 0 then none else searchSector (sectorAt disk (addr i)) name

theorem searchDirEntry_eq (h : s.inode.iSectors 12 ≤ maxLba) : searchDirEntry s name =
    .ok (searchTable s.fs.disk (addrByte (allBlocks s.fs.disk s.inode)) name) := by
  rw [searchDirEntry, if_neg (by omega), searchTable]
  simp only [eachSectAddr_eq]

theorem searchTable_eq_some {addr : ℕ → ℕ} {e : DirEntry}
    (h : searchTable disk addr name = some e) :
    ∃ i < blockCnt, addr i ≠ 0 ∧ searchSector (sectorAt disk (addr i)) name = some e := by
  obtain ⟨i, hi, hf, -⟩ := findSome_range_eq_some_iff.mp h
  by_cases hz : addr i = 0
  · rw [if_pos hz] at hf
    cases hf
  · rw [if_neg hz] at hf
    exact ⟨i, hi, hz, hf⟩

theorem searchTable_bytes {blocks : ℕ → ℕ} {n : ℕ} (hn : n ≤ 44)
    (hused : ∀ i < n, blocks i ≠ 0 ∧ blocks i < 256)
    (hfree : ∀ i < blockCnt, n ≤ i → blocks i = 0) :
    searchTable disk (addrByte blocks) name =
      (List.range n).findSome? fun i => searchSector (sectorAt disk (blocks i)) name := by
  have hcnt : blockCnt = 140 := rfl
  have hplace : ∀ i < n, addrByte blocks (if i < 12 then i else 12 + 4 * (i - 12)) = blocks i := by
    intro i hi
    have hb := (hused i hi).2
    by_cases hd : i < 12
    · rw [if_pos hd, addrByte, if_pos hd, Nat.mod_eq_of_lt hb]
    · have hq : 12 + (12 + 4 * (i - 12) - 12) / 4 = i := by omega
      have hr : (12 + 4 * (i - 12) - 12) % 4 = 0 := by omega
      rw [if_neg hd, addrByte, if_neg (by omega), hq, hr, Nat.pow_zero, Nat.div_one,
        Nat.mod_eq_of_lt hb]
  refine findSome_range_places (fun i => if i < 12 then i else 12 + 4 * (i - 12)) ?_ ?_ ?_ ?_
  · intro j _ i hij
    split <;> split <;> omega
  · intro i hi
    split <;> omega
  · intro i hi
    rw [hplace i hi, if_neg (hused i hi).1]
  · intro j hj hno
    have hzero : addrByte blocks j = 0 := by
      by_cases hd : j < 12
      · have hout : n ≤ j := by
          by_contra hin
          exact hno j (by omega) (if_pos hd)
        rw [addrByte, if_pos hd, hfree j (by omega) hout]
      · rw [addrByte, if_neg hd]
        by_cases hin : 12 + (j - 12) / 4 < n
        · -- one of the upper three bytes of an address below 256
          have hr : (j - 12) % 4 ≠ 0 := by
            intro hr
            refine hno (12 + (j - 12) / 4) hin ?_
            rw [if_neg (by omega)]
            omega
          have hb := (hused _ hin).2
          have hpow : 256 ≤ 256 ^ ((j - 12) % 4) := Nat.le_self_pow hr 256
          rw [Nat.div_eq_of_lt (by omega), Nat.zero_mod]
        · rw [hfree _ (by omega) (by omega), Nat.zero_div, Nat.zero_mod]
    rw [if_pos hzero]

/-! ## One entry more in a sector -/

variable {buf pDe : Bytes} {slot iNo ft : ℕ}

def withEntry (pDe buf : Bytes) (slot : ℕ) : Bytes := copyBytes pDe 0 buf (24 * slot) entrySize

theorem withEntry_at {i : ℕ} (hi : i < 24) : withEntry pDe buf slot (24 * slot + i) = pDe (0 + i) :=
  copyBytes_at hi

theorem withEntry_other {idx i : ℕ} (h : idx ≠ slot) (hi : i < 24) :
    withEntry pDe buf slot (24 * idx + i) = buf (24 * idx + i) := by
  have hsize : entrySize = 24 := rfl
  apply copyBytes_outside
  omega

theorem sameString_withEntry {idx : ℕ} (hn : ValidName name) :
    sameString (withEntry pDe buf slot) (24 * idx) name =
      if idx = slot then sameString pDe 0 name else sameString buf (24 * idx) name := by
  by_cases h : idx = slot
  · rw [if_pos h, h]
    exact sameString_congr hn fun i hi => withEntry_at hi
  · rw [if_neg h]
    exact sameString_congr hn fun i hi => withEntry_other h hi

theorem searchSector_withEntry_self (hn : ValidName name) (hslot : slot < entriesPerSector)
    (hself : sameString pDe 0 name = true) (hnone : searchSector buf name = none) :
    searchSector (withEntry pDe buf slot) name = some (loadEntry pDe 0) := by
  rw [searchSector_eq_none_iff] at hnone
  refine findSome_range_eq_some_iff.mpr ⟨slot, hslot, ?_, fun j hj => ?_⟩
  · rw [sameString_withEntry hn, if_pos rfl, if_pos hself]
    exact congrArg some (loadEntry_congr fun i hi => withEntry_at hi)
  · rw [sameString_withEntry hn, if_neg (Nat.ne_of_lt hj), hnone j (hj.trans hslot),
      if_neg Bool.false_ne_true]

theorem searchSector_withEntry_other (hn : ValidName name) (hnew : sameString pDe 0 name = false)
    (hold : sameString buf (24 * slot) name = false) :
    searchSector (withEntry pDe buf slot) name = searchSector buf name := by
  apply findSome_range_congr
  intro idx hidx
  rw [sameString_withEntry hn]
  by_cases h : idx = slot
  · rw [if_pos h, h, hnew, hold]
    rfl
  · rw [if_neg h, loadEntry_congr fun i hi => withEntry_other h hi]

theorem searchSector_withEntry_some {e : DirEntry} (hn : ValidName name)
    (hnone : searchSector buf name = none)
    (h : searchSector (withEntry pDe buf slot) name = some e) : sameString pDe 0 name = true := by
  rw [searchSector_eq_none_iff] at hnone
  obtain ⟨idx, hidx, hf, -⟩ := findSome_range_eq_some_iff.mp h
  rw [sameString_withEntry hn] at hf
  by_cases hs : idx = slot
  · rw [if_pos hs] at hf
    by_contra hc
    rw [if_neg hc] at hf
    cases hf
  · rw [if_neg hs, hnone idx hidx] at hf
    cases hf

/-! ## The entry that `create_dir_entry` builds -/

def newEntry (name : CString) (iNo ft : ℕ) : Bytes := entryBytes name iNo ft fun _ => 0

theorem newEntry_name {i : ℕ} (hi : i < maxFileNameLen) :
    newEntry name iNo ft i = name.getD i 0 := by
  have hmax : maxFileNameLen = 16 := rfl
  rw [newEntry, entryBytes, storeWord_outside (by omega)]
  by_cases hin : i < name.length
  · rw [copyBytes_inside (by omega) (by omega)]
    congr 1
    omega
  · rw [copyBytes_outside (by omega), storeWord_outside (by omega),
      List.getD_eq_default _ _ (by omega)]

theorem newEntry_iNo (hlen : name.length ≤ maxFileNameLen) (hi : iNo < 2 ^ 32) :
    loadWord (newEntry name iNo ft) 16 = iNo := by
  have hmax : maxFileNameLen = 16 := rfl
  rw [newEntry, entryBytes, loadWord_storeWord_of_apart (by omega)]
  refine Eq.trans (loadWord_congr fun j hj => ?_) (@loadWord_storeWord (fun _ => 0) 16 _ hi)
  exact copyBytes_outside (by omega)

theorem newEntry_fType (hft : ft < 2 ^ 32) : loadWord (newEntry name iNo ft) 20 = ft :=
  loadWord_storeWord hft

/-- What `strcmp` sees of a name of 16 bytes goes on with the inode number. -/
theorem sameString_newEntry (hn : ValidName name) (hi : iNo < 2 ^ 32) :
    sameString (newEntry name iNo ft) 0 name = true ↔
      name.length < maxFileNameLen ∨ iNo % 256 = 0 := by
  have hmax : maxFileNameLen = 16 := rfl
  have hlen := hn.short
  have hname : ∀ i < name.length, newEntry name iNo ft (0 + i) = name.getD i 0 := by
    intro i hi
    rw [Nat.zero_add]
    exact newEntry_name (by omega)
  rw [sameString_iff, Nat.zero_add, and_iff_right hname]
  by_cases hshort : name.length < maxFileNameLen
  · rw [newEntry_name hshort, List.getD_eq_default _ _ le_rfl]
    exact iff_of_true rfl (Or.inl hshort)
  · rw [or_iff_right hshort, show name.length = 16 by omega]
    have hbyte := @loadWord_byte (newEntry name iNo ft) 16 0 (by omega)
    rw [newEntry_iNo hlen hi, Nat.pow_zero, Nat.div_one, Nat.add_zero] at hbyte
    rw [hbyte]
    constructor
    · intro h
      rw [h]
      rfl
    · intro h
      exact BitVec.eq_of_toNat_eq h

theorem sameString_newEntry_other (hn : ValidName name) (ho : ValidName other) (hne : other ≠ name) :
    sameString (newEntry name iNo ft) 0 other = false := by
  have hmax : maxFileNameLen = 16 := rfl
  have hlen := hn.short
  have hlen' := ho.short
  rw [Bool.eq_false_iff]
  intro h
  obtain ⟨hall, hend⟩ := sameString_iff.mp h
  rw [Nat.zero_add] at hend
  have hbytes : ∀ i < other.length, name.getD i 0 = other.getD i 0 := by
    intro i hi
    rw [← hall i hi, Nat.zero_add]
    exact (newEntry_name (by omega)).symm
  have hle : other.length ≤ name.length := by
    by_contra hgt
    have hb := hbytes name.length (by omega)
    rw [List.getD_eq_default _ _ le_rfl] at hb
    exact ho.plain _ (by omega) hb.symm
  have hge : name.length ≤ other.length := by
    by_contra hgt
    rw [newEntry_name (by omega)] at hend
    exact hn.plain _ (by omega) hend
  refine hne (List.ext_getElem (by omega) fun i h₁ h₂ => ?_)
  have hb := hbytes i h₁
  rw [List.getD_eq_getElem _ _ h₁, List.getD_eq_getElem _ _ h₂] at hb
  exact hb.symm

theorem createDirEntry_ok_iff {r : Bytes} : createDirEntry name iNo ft (fun _ => 0) = .ok r ↔
    name.length ≤ maxFileNameLen ∧ r = newEntry name iNo ft := by
  rw [createDirEntry]
  by_cases h : name.length ≤ maxFileNameLen
  · rw [if_pos h, Except.ok.injEq, and_iff_right h]
    exact eq_comm
  · rw [if_neg h]
    exact iff_of_false nofun fun hc => h hc.1

end FsDirectory
