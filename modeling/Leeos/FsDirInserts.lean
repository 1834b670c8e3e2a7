import Leeos.FsDirectory

/-!
# Where `sync_dir_entry` puts an entry

Every block before the one that takes the entry is full. The place is in a block the directory has,
or in a new one; neither it nor anything else that is written depends on the entry.
-/
namespace FsDirInserts

open ExecRules KernelBitmap FsDisk FsLayout FsBitmaps FsDirectory LibStdint
open FsPaths (CString)

variable {s t u : DirState} {n i k lba idx T : ℕ} {pDe buf disk : Bytes} {blocks : ℕ → ℕ}

/-! ## Well-formed directories -/

/-- The blocks of the data area lie on the disk, and the block bitmap covers them. -/
structure AreaShape (s : DirState) : Prop where
  start : 0 < s.fs.part.sb.dataStartLba
  fits : s.fs.part.sb.dataStartLba + 8 * s.fs.part.blockBitmap.bitmapLen ≤ maxLba + 1
  covered : 8 * s.fs.part.blockBitmap.bitmapLen ≤ 4096 * s.fs.part.sb.blockBitmapSects
  bitmap : s.fs.part.sb.blockBitmapLba + s.fs.part.sb.blockBitmapSects ≤ maxLba + 1
  apart : Region.Disjoint ⟨s.fs.part.sb.blockBitmapLba, s.fs.part.sb.blockBitmapSects⟩
    ⟨s.fs.part.sb.dataStartLba, 8 * s.fs.part.blockBitmap.bitmapLen⟩

/-- A clear bit is that of a block on the disk, and the bits have their sectors there. -/
structure FreeShape (s : DirState) : Prop where
  start : 0 < s.fs.part.sb.dataStartLba
  data : s.fs.part.sb.dataStartLba ≤ maxLba + 1
  fits : ∀ idx < 8 * s.fs.part.blockBitmap.bitmapLen,
    usedBit s.fs.mem s.fs.part.blockBitmap idx = false → s.fs.part.sb.dataStartLba + idx ≤ maxLba
  covered : 8 * s.fs.part.blockBitmap.bitmapLen ≤ 4096 * s.fs.part.sb.blockBitmapSects
  bitmap : s.fs.part.sb.blockBitmapLba + s.fs.part.sb.blockBitmapSects ≤ maxLba + 1
  apart : Region.Disjoint ⟨s.fs.part.sb.blockBitmapLba, s.fs.part.sb.blockBitmapSects⟩
    ⟨s.fs.part.sb.dataStartLba, 8 * s.fs.part.blockBitmap.bitmapLen⟩

theorem AreaShape.free (h : AreaShape s) : FreeShape s := by
  have hfits := h.fits
  constructor
  case start => exact h.start
  case data => omega
  case fits =>
    intro idx hidx _
    omega
  case covered => exact h.covered
  case bitmap => exact h.bitmap
  case apart => exact h.apart

/-- A block of the data area whose bit is set. -/
def Allocated (s : DirState) (lba : ℕ) : Prop := ∃ idx < 8 * s.fs.part.blockBitmap.bitmapLen,
  usedBit s.fs.mem s.fs.part.blockBitmap idx = true ∧ lba = s.fs.part.sb.dataStartLba + idx

def dirBlock (s : DirState) (i : ℕ) : ℕ := allBlocks s.fs.disk s.inode i

/-- The first `n` entries of the table are blocks of the directory, all different, and it has an
indirect block if they are more than 12. -/
structure DirShape (s : DirState) (n : ℕ) : Prop where
  area : AreaShape s
  count : n ≤ blockCnt
  used : ∀ i < n, Allocated s (dirBlock s i)
  unused : ∀ i < blockCnt, n ≤ i → dirBlock s i = 0
  distinct : ∀ i < n, ∀ j < i, dirBlock s j ≠ dirBlock s i
  indirect : 12 < n → Allocated s (s.inode.iSectors 12)
  indirect_apart : 12 < n → ∀ i < n, dirBlock s i ≠ s.inode.iSectors 12
  direct : n ≤ 12 → s.inode.iSectors 12 = 0

/-- The block that is allocated for the data: the first free one, and behind the direct blocks the
second. -/
def NewBlock (s : DirState) (n lba : ℕ) : Prop :=
  ∃ idx, FirstClear s.fs.mem s.fs.part.blockBitmap idx ∧
    if n < 12 then lba = s.fs.part.sb.dataStartLba + idx
    else ∃ idx', FirstClear (bitmapSet s.fs.mem s.fs.part.blockBitmap idx true)
      s.fs.part.blockBitmap idx' ∧ lba = s.fs.part.sb.dataStartLba + idx'

/-- The blocks that may take an entry, with their index. -/
def Target (s : DirState) (n i lba : ℕ) : Prop :=
  (i < n ∧ lba = dirBlock s i) ∨ (i = n ∧ n < blockCnt ∧ NewBlock s n lba)

theorem Target.index_le (h : Target s n i T) : i ≤ n := by
  rcases h with ⟨hi, -⟩ | ⟨rfl, -, -⟩
  · exact hi.le
  · exact le_rfl

theorem Allocated.pos (h : Allocated s lba) (harea : AreaShape s) : 0 < lba := by
  obtain ⟨idx, -, -, rfl⟩ := h
  have := harea.start
  omega

theorem Allocated.le_maxLba (h : Allocated s lba) (harea : AreaShape s) : lba ≤ maxLba := by
  obtain ⟨idx, hidx, -, rfl⟩ := h
  have := harea.fits
  omega

theorem Allocated.ne_clear (h : Allocated s lba)
    (hc : usedBit s.fs.mem s.fs.part.blockBitmap idx = false) :
    lba ≠ s.fs.part.sb.dataStartLba + idx := by
  obtain ⟨idx', -, hu, rfl⟩ := h
  intro he
  have hsame : idx' = idx := by omega
  rw [hsame, hc] at hu
  cases hu

theorem DirShape.iSectors_le (hsh : DirShape s n) : s.inode.iSectors 12 ≤ maxLba := by
  by_cases hn : 12 < n
  · exact (hsh.indirect hn).le_maxLba hsh.area
  · exact (hsh.direct (by omega)).trans_le (Nat.zero_le _)

/-! ## Sectors -/

theorem sectorAt_ideWrite_self {src : Bytes} {a : ℕ} (hi : i < 512) :
    sectorAt (ideWrite disk lba src a 1) lba i = src (a + i) :=
  copyBytes_at (by omega)

theorem sectorAt_ideWrite_ne {src : Bytes} {a l : ℕ} (h : l ≠ lba) (hi : i < 512) :
    sectorAt (ideWrite disk lba src a 1) l i = sectorAt disk l i := by
  apply copyBytes_outside
  omega

def putEntry (pDe : Bytes) (lba slot : ℕ) (disk : Bytes) : Bytes :=
  ideWrite disk lba (withEntry pDe (sectorAt disk lba) slot) 0 1

/-- Into the first slot of a sector that is cleared. -/
theorem ideWrite_newBlock : ideWrite disk lba (copyBytes pDe 0 (fun _ => 0) 0 entrySize) 0 1 =
    putEntry pDe lba 0 (ideWrite disk lba (fun _ => 0) 0 1) := by
  funext a
  by_cases ha : 512 * lba ≤ a ∧ a < 512 * lba + 512 * 1
  · obtain ⟨i, rfl⟩ : ∃ i, a = 512 * lba + i := ⟨a - 512 * lba, by omega⟩
    have hi : i < 512 * 1 := by omega
    refine (copyBytes_at hi).trans (Eq.trans ?_ (copyBytes_at hi).symm)
    rw [Nat.zero_add, withEntry, Nat.mul_zero]
    by_cases hin : i < 0 + entrySize
    · rw [copyBytes_inside (by omega) hin, copyBytes_inside (by omega) hin]
    · rw [copyBytes_outside (by omega), copyBytes_outside (by omega),
        sectorAt_ideWrite_self (by omega)]
  · have hout : a < 512 * lba ∨ 512 * lba + 512 * 1 ≤ a := by omega
    refine (copyBytes_outside hout).trans (Eq.trans ?_ (copyBytes_outside hout).symm)
    exact (copyBytes_outside hout).symm

theorem sectorAt_putEntry_self {slot : ℕ} (hi : i < 512) :
    sectorAt (putEntry pDe lba slot disk) lba i = withEntry pDe (sectorAt disk lba) slot i := by
  rw [putEntry, sectorAt_ideWrite_self hi, Nat.zero_add]

theorem sectorAt_putEntry_ne {slot l : ℕ} (h : l ≠ lba) (hi : i < 512) :
    sectorAt (putEntry pDe lba slot disk) l i = sectorAt disk l i := sectorAt_ideWrite_ne h hi

theorem allBlocks_congr {disk' : Bytes} {inode : DirInode} (hi : i < blockCnt)
    (h : inode.iSectors 12 ≠ 0 →
      ∀ a < 512, sectorAt disk' (inode.iSectors 12) a = sectorAt disk (inode.iSectors 12) a) :
    allBlocks disk' inode i = allBlocks disk inode i := by
  have hcnt : blockCnt = 140 := rfl
  rw [allBlocks, allBlocks]
  by_cases hd : i < 12
  · rw [if_pos hd, if_pos hd]
  · rw [if_neg hd, if_neg hd]
    by_cases hz : inode.iSectors 12 ≠ 0
    · rw [if_pos hz, if_pos hz]
      apply loadWord_congr
      intro j hj
      rw [Nat.add_assoc]
      exact h hz _ (by omega)
    · rw [if_neg hz, if_neg hz]

theorem loadWord_indirectBytes {m : Bytes} {a : ℕ}
    (h : ∀ j < 512, m (a + j) = indirectBytes blocks j) (hk : k < 128)
    (hb : blocks (12 + k) < 2 ^ 32) : loadWord m (a + 4 * k) = blocks (12 + k) := by
  have hbyte : ∀ j < 4, m (a + 4 * k + j) = BitVec.ofNat 8 (blocks (12 + k) / 256 ^ j) := by
    intro j hj
    have hq : (4 * k + j) / 4 = k := by omega
    have hr : (4 * k + j) % 4 = j := by omega
    rw [Nat.add_assoc, h _ (by omega), indirectBytes, hq, hr]
  have h₀ := hbyte 0 (by omega)
  rw [Nat.add_zero] at h₀
  simp only [loadWord, h₀, hbyte 1 (by omega), hbyte 2 (by omega), hbyte 3 (by omega),
    BitVec.toNat_ofNat]
  omega

/-! ## Where the entry goes -/

/-- The entry's place is slot `k` of block `i`, at `T`; `t` is the state but for the entry. -/
structure Place (s : DirState) (n i T k : ℕ) (t : DirState) : Prop where
  target : Target s n i T
  slot : k < entriesPerSector
  nonzero : T ≠ 0
  table : ∀ j < blockCnt, dirBlock t j = if j = i then T else dirBlock s j
  indirect : t.inode.iSectors 12 ≤ maxLba
  indirect_apart : t.inode.iSectors 12 ≠ T
  others : ∀ j < n, j ≠ i → dirBlock s j ≠ T
  kept : ∀ j < n, ∀ a < 512,
    sectorAt t.fs.disk (dirBlock s j) a = sectorAt s.fs.disk (dirBlock s j) a
  free : fType (sectorAt t.fs.disk T) (24 * k) = 0
  new : i = n → ∀ a < 512, sectorAt t.fs.disk T a = 0

def filled (pDe : Bytes) (T k : ℕ) (t : DirState) : DirState :=
  { t with fs := { t.fs with disk := putEntry pDe T k t.fs.disk } }

/-! ## The loop over the blocks -/

theorem freeSlot_eq_none_iff : freeSlot buf = none ↔
    ∀ idx < entriesPerSector, fType buf (24 * idx) ≠ 0 := by
  simp only [freeSlot, List.find?_eq_none, List.mem_range, decide_eq_true_eq]

theorem freeSlot_eq_some (h : freeSlot buf = some k) :
    k < entriesPerSector ∧ fType buf (24 * k) = 0 :=
  ⟨List.mem_range.mp (List.mem_of_find?_eq_some h), by simpa using List.find?_some h⟩

theorem fillSlot_full (hle : lba ≤ maxLba) (h : freeSlot (sectorAt s.fs.disk lba) = none) :
    fillSlot pDe lba s = .ok (false, s) := by
  rw [fillSlot, ensure_bind_of_true hle, get_bind, h]
  rfl

theorem fillSlot_free (hle : lba ≤ maxLba) (h : freeSlot (sectorAt s.fs.disk lba) = some k) :
    fillSlot pDe lba s = .ok (true, filled pDe lba k
      { s with inode := { s.inode with iOpenCnts := u32 (s.inode.iOpenCnts + entrySize) } }) := by
  rw [fillSlot, ensure_bind_of_true hle, get_bind, h]
  simp only [writeSector]
  rw [bind_assoc, ensure_bind_of_true hle]
  rfl

theorem syncLoop_skip (cnt idx : ℕ) (h : ∀ j < i, blocks (idx + j) ≠ 0 ∧
    blocks (idx + j) ≤ maxLba ∧ freeSlot (sectorAt s.fs.disk (blocks (idx + j))) = none) :
    syncLoop pDe blocks (i + cnt) idx s = syncLoop pDe blocks cnt (idx + i) s := by
  induction i generalizing idx with
  | zero => rw [Nat.zero_add, Nat.add_zero]
  | succ i ih =>
    obtain ⟨hne, hle, hfull⟩ := h 0 (by omega)
    rw [Nat.add_zero] at hne hle hfull
    rw [Nat.add_right_comm, syncLoop, if_neg hne, bind_of_ok (fillSlot_full hle hfull),
      if_neg Bool.false_ne_true, ih (idx + 1)]
    · rw [Nat.add_assoc, Nat.add_comm 1]
    · intro j hj
      rw [Nat.add_assoc, Nat.add_comm 1]
      exact h (j + 1) (by omega)

/-- A block without room for another entry. -/
def Full (s : DirState) (j : ℕ) : Prop :=
  dirBlock s j ≠ 0 ∧ freeSlot (sectorAt s.fs.disk (dirBlock s j)) = none

theorem syncDirEntry_pass (hind : s.inode.iSectors 12 ≤ maxLba)
    (hsize : s.inode.iSize % dirSize = 0) (hi : i ≤ blockCnt)
    (hdisk : ∀ j < i, dirBlock s j ≤ maxLba) (hfull : ∀ j < i, Full s j) :
    syncDirEntry pDe s =
      syncLoop pDe (allBlocks s.fs.disk s.inode) (blockCnt - i) i s := by
  rw [syncDirEntry, get_bind, ensure_bind_of_true hsize, ensure_bind_of_true (fun _ => hind)]
  have hskip := @syncLoop_skip s i pDe (allBlocks s.fs.disk s.inode) (blockCnt - i) 0 ?_
  · rw [Nat.zero_add, Nat.add_sub_cancel' hi] at hskip
    exact hskip
  · intro j hj
    rw [Nat.zero_add]
    exact ⟨(hfull j hj).1, hdisk j hj, (hfull j hj).2⟩

theorem syncDirEntry_add (hind : s.inode.iSectors 12 ≤ maxLba)
    (hsize : s.inode.iSize % dirSize = 0) (hi : i < blockCnt)
    (hdisk : ∀ j < i, dirBlock s j ≤ maxLba) (hfull : ∀ j < i, Full s j)
    (hzero : dirBlock s i = 0) :
    syncDirEntry pDe s = addBlock pDe (allBlocks s.fs.disk s.inode) i s := by
  have hzero : allBlocks s.fs.disk s.inode i = 0 := hzero
  rw [syncDirEntry_pass hind hsize hi.le hdisk hfull,
    show blockCnt - i = blockCnt - i - 1 + 1 by omega, syncLoop, if_pos hzero]

theorem syncDirEntry_fill (hind : s.inode.iSectors 12 ≤ maxLba)
    (hsize : s.inode.iSize % dirSize = 0) (hi : i < blockCnt)
    (hdisk : ∀ j ≤ i, dirBlock s j ≤ maxLba) (hfull : ∀ j < i, Full s j)
    (hne : dirBlock s i ≠ 0)
    (hfree : freeSlot (sectorAt s.fs.disk (dirBlock s i)) = some k) :
    syncDirEntry pDe s = .ok (some true, filled pDe (dirBlock s i) k
      { s with inode := { s.inode with iOpenCnts := u32 (s.inode.iOpenCnts + entrySize) } }) := by
  have hne : allBlocks s.fs.disk s.inode i ≠ 0 := hne
  have hfill := @fillSlot_free s k _ pDe (hdisk i le_rfl) hfree
  rw [dirBlock] at hfill
  rw [syncDirEntry_pass hind hsize hi.le (fun j hj => hdisk j hj.le) hfull,
    show blockCnt - i = blockCnt - i - 1 + 1 by omega, syncLoop, if_neg hne, bind_of_ok hfill,
    if_pos rfl]
  rfl

theorem DirShape.on_disk (hsh : DirShape s n) (hi : i < n) : dirBlock s i ≤ maxLba :=
  (hsh.used i hi).le_maxLba hsh.area

theorem DirShape.full (hsh : DirShape s n) (hi : i < n)
    (hfull : freeSlot (sectorAt s.fs.disk (dirBlock s i)) = none) : Full s i :=
  ⟨((hsh.used i hi).pos hsh.area).ne', hfull⟩

/-! ## A block the directory has -/

theorem place_existing (hsh : DirShape s n) (hi : i < n)
    (hfree : freeSlot (sectorAt s.fs.disk (dirBlock s i)) = some k) :
    Place s n i (dirBlock s i) k
      { s with inode := { s.inode with iOpenCnts := u32 (s.inode.iOpenCnts + entrySize) } } := by
  obtain ⟨hk, hzero⟩ := freeSlot_eq_some hfree
  have hused := hsh.used i hi
  have hpos := hused.pos hsh.area
  constructor
  case target => exact Or.inl ⟨hi, rfl⟩
  case slot => exact hk
  case nonzero => omega
  case table =>
    intro j _
    split
    case isTrue h => exact congrArg (dirBlock s) h
    case isFalse => rfl
  case indirect => exact hsh.iSectors_le
  case indirect_apart =>
    by_cases hn : 12 < n
    · exact (hsh.indirect_apart hn i hi).symm
    · have hdirect := hsh.direct (by omega)
      simp only
      omega
  case others =>
    intro j hj hne
    rcases Nat.lt_or_gt_of_ne hne with hlt | hlt
    · exact hsh.distinct i hi j hlt
    · exact (hsh.distinct j hj i hlt).symm
  case kept => exact fun _ _ _ _ => rfl
  case free => exact hzero
  case new => omega

theorem sync_existing (hsh : DirShape s n) (hsize : s.inode.iSize % dirSize = 0) (hi : i < n)
    (hfull : ∀ j < i, freeSlot (sectorAt s.fs.disk (dirBlock s j)) = none)
    (hfree : freeSlot (sectorAt s.fs.disk (dirBlock s i)) = some k) :
    syncDirEntry pDe s = .ok (some true, filled pDe (dirBlock s i) k
      { s with inode := { s.inode with iOpenCnts := u32 (s.inode.iOpenCnts + entrySize) } }) := by
  have hcount := hsh.count
  apply syncDirEntry_fill hsh.iSectors_le hsize (by omega)
  · exact fun j hj => hsh.on_disk (by omega)
  · exact fun j hj => hsh.full (by omega) (hfull j hj)
  · exact ((hsh.used i hi).pos hsh.area).ne'
  · exact hfree

/-! ## A new block -/

/-- A block is allocated and its bit is written to the disk. -/
def taken (idx : ℕ) (s : DirState) : DirState :=
  let fs := { s.fs with mem := bitmapSet s.fs.mem s.fs.part.blockBitmap idx true }
  { s with fs := bitmapSync idx .blockBitmap fs }

def withSector (i lba : ℕ) (s : DirState) : DirState :=
  { s with inode := { s.inode with iSectors := Function.update s.inode.iSectors i lba } }

def withIndirect (lba : ℕ) (blocks : ℕ → ℕ) (s : DirState) : DirState :=
  { s with fs := { s.fs with disk := ideWrite s.fs.disk lba (indirectBytes blocks) 0 1 } }

/-- The new block is empty but for the entry that is to come. -/
def cleared (lba : ℕ) (s : DirState) : DirState :=
  { fs := { s.fs with disk := ideWrite s.fs.disk lba (fun _ => 0) 0 1 }
    inode := { s.inode with iSize := u32 (s.inode.iSize + entrySize) } }

theorem cleared_disk : (cleared lba s).fs.disk = ideWrite s.fs.disk lba (fun _ => 0) 0 1 := rfl

theorem AreaShape.congr (h : AreaShape s) (hpart : t.fs.part = s.fs.part) : AreaShape t := by
  constructor <;> rw [hpart]
  case start => exact h.start
  case fits => exact h.fits
  case covered => exact h.covered
  case bitmap => exact h.bitmap
  case apart => exact h.apart

theorem firstClear_unique {m : Bytes} {btmp : Bitmap} {f g : ℕ} (hf : FirstClear m btmp f)
    (hg : FirstClear m btmp g) : f = g := by
  have not_lt : ∀ {f g}, FirstClear m btmp f → FirstClear m btmp g → ¬ f < g := by
    intro f g hf hg hlt
    have := hg.least f hlt
    rw [hf.clear] at this
    cases this
  have := not_lt hf hg
  have := not_lt hg hf
  omega

theorem bitmapScan_one {m : Bytes} {btmp : Bitmap} {f : ℕ} (hf : FirstClear m btmp f) :
    bitmapScan m btmp 1 = some f := by
  rcases bitmapScan_cases m btmp 1 with ⟨hall, -⟩ | ⟨g, hg, hscan⟩
  · have := hall f hf.inside
    rw [hf.clear] at this
    cases this
  · rw [hscan, if_pos rfl, firstClear_unique hg hf]

theorem usedBit_bitmapSet {m : Bytes} {btmp : Bitmap} {i k : ℕ} :
    usedBit (bitmapSet m btmp i true) btmp k = if k = i then true else usedBit m btmp k := by
  rw [usedBit, memBit_bitmapSet]
  by_cases h : k = i
  · rw [if_pos h, if_pos (congrArg _ h)]
  · rw [if_neg h, if_neg]
    · rfl
    · simp only [Bitmap.pos]
      omega

theorem FirstClear.second {m : Bytes} {btmp : Bitmap} {f g : ℕ}
    (hg : FirstClear (bitmapSet m btmp f true) btmp g) : g ≠ f ∧ usedBit m btmp g = false := by
  have hc := hg.clear
  rw [usedBit_bitmapSet] at hc
  split at hc
  · cases hc
  · case isFalse h => exact ⟨h, hc⟩

theorem FreeShape.congr (h : FreeShape s) (hpart : t.fs.part = s.fs.part)
    (hclear : ∀ k, usedBit t.fs.mem s.fs.part.blockBitmap k = false →
      usedBit s.fs.mem s.fs.part.blockBitmap k = false) : FreeShape t := by
  constructor <;> rw [hpart]
  case start => exact h.start
  case data => exact h.data
  case fits => exact fun k hk hc => h.fits k hk (hclear k hc)
  case covered => exact h.covered
  case bitmap => exact h.bitmap
  case apart => exact h.apart

theorem FreeShape.set_bit (h : FreeShape s) (hpart : t.fs.part = s.fs.part)
    (hmem : t.fs.mem = bitmapSet s.fs.mem s.fs.part.blockBitmap idx true) : FreeShape t := by
  refine h.congr hpart fun k hk => ?_
  rw [hmem, usedBit_bitmapSet] at hk
  split at hk
  · cases hk
  · exact hk

theorem FreeShape.first_le (h : FreeShape s)
    (hf : FirstClear s.fs.mem s.fs.part.blockBitmap idx) :
    s.fs.part.sb.dataStartLba + idx ≤ maxLba := h.fits idx hf.inside hf.clear

theorem FreeShape.second_le {idx' : ℕ} (h : FreeShape s)
    (hf' : FirstClear (bitmapSet s.fs.mem s.fs.part.blockBitmap idx true)
      s.fs.part.blockBitmap idx') : s.fs.part.sb.dataStartLba + idx' ≤ maxLba :=
  h.fits idx' hf'.inside (FirstClear.second hf').2

theorem allocBlock_some (harea : FreeShape s) (hf : FirstClear s.fs.mem s.fs.part.blockBitmap idx) :
    allocBlock s = .ok (some (s.fs.part.sb.dataStartLba + idx), { s with fs := { s.fs with
      mem := bitmapSet s.fs.mem s.fs.part.blockBitmap idx true } }) := by
  have hmax : maxLba = 163839 := rfl
  have hle := harea.first_le hf
  have hu : u32 (s.fs.part.sb.dataStartLba + idx) = s.fs.part.sb.dataStartLba + idx :=
    u32_of_lt (by omega)
  have hblock : blockBitmapAlloc s.fs = (some (s.fs.part.sb.dataStartLba + idx),
      { s.fs with mem := bitmapSet s.fs.mem s.fs.part.blockBitmap idx true }) := by
    simp only [blockBitmapAlloc, bitmapScan_one hf, hu]
  rw [allocBlock, get_bind, hblock]
  rfl

theorem allocBlock_none (h : ¬ ∃ idx, FirstClear s.fs.mem s.fs.part.blockBitmap idx) :
    allocBlock s = .ok (none, s) := by
  have hnone : bitmapScan s.fs.mem s.fs.part.blockBitmap 1 = none := by
    rcases bitmapScan_cases s.fs.mem s.fs.part.blockBitmap 1 with ⟨-, hscan⟩ | ⟨f, hf, -⟩
    · exact hscan
    · exact absurd ⟨f, hf⟩ h
  have hblock : blockBitmapAlloc s.fs = (none, s.fs) := by
    simp only [blockBitmapAlloc, hnone]
  rw [allocBlock, get_bind, hblock]
  rfl

theorem syncBit_ok (harea : FreeShape s) (hidx : idx < 8 * s.fs.part.blockBitmap.bitmapLen) :
    syncBit (s.fs.part.sb.dataStartLba + idx) s =
      .ok ((), { s with fs := bitmapSync idx .blockBitmap s.fs }) := by
  have hmax : maxLba = 163839 := rfl
  have hdata := harea.data
  have hcov := harea.covered
  have hbit := harea.bitmap
  have hback : blockIdx s (s.fs.part.sb.dataStartLba + idx) = idx := by
    rw [blockIdx, u32]
    omega
  rw [syncBit, get_bind, hback, ensure_bind_of_true]
  · rfl
  · rw [u32_of_lt (by omega)]
    omega

theorem sectorAt_taken (harea : FreeShape s) (hidx : idx < 8 * s.fs.part.blockBitmap.bitmapLen)
    (hlo : s.fs.part.sb.dataStartLba ≤ lba)
    (hhi : lba < s.fs.part.sb.dataStartLba + 8 * s.fs.part.blockBitmap.bitmapLen) (hi : i < 512) :
    sectorAt (taken idx s).fs.disk lba i = sectorAt s.fs.disk lba i := by
  have hmax : maxLba = 163839 := rfl
  have hcov := harea.covered
  have hbit := harea.bitmap
  have hapart := harea.apart
  unfold Region.Disjoint at hapart
  refine sectorAt_ideWrite_ne ?_ hi
  have hsec : sectorSize * 8 = 4096 := rfl
  rw [hsec]
  change lba ≠ u32 (s.fs.part.sb.blockBitmapLba + idx / 4096)
  rw [u32_of_lt (by omega)]
  simp only at hapart
  omega

theorem writeNewBlock_eq (h : lba ≤ maxLba) :
    writeNewBlock pDe lba s = .ok (some true, filled pDe lba 0 (cleared lba s)) := by
  rw [writeNewBlock, writeSector, bind_assoc, ensure_bind_of_true h]
  simp only [modify_bind, ideWrite_newBlock]
  rfl

theorem writeSector_ok {f : Unit → DirM (Option Bool)} (h : lba ≤ maxLba) :
    (writeSector lba (indirectBytes blocks) >>= f) s = f () (withIndirect lba blocks s) := by
  rw [writeSector, bind_assoc, ensure_bind_of_true h]
  rfl

theorem syncBit_taken (harea : FreeShape s) (hf : FirstClear s.fs.mem s.fs.part.blockBitmap idx) :
    syncBit (s.fs.part.sb.dataStartLba + idx) { s with fs := { s.fs with
      mem := bitmapSet s.fs.mem s.fs.part.blockBitmap idx true } } = .ok ((), taken idx s) :=
  @syncBit_ok { s with fs := { s.fs with
    mem := bitmapSet s.fs.mem s.fs.part.blockBitmap idx true } } idx (harea.set_bit rfl rfl) hf.inside

theorem addBlock_direct (harea : FreeShape s)
    (hf : FirstClear s.fs.mem s.fs.part.blockBitmap idx) (hn : n < 12)
    (hT : T = s.fs.part.sb.dataStartLba + idx) :
    addBlock pDe blocks n s =
      .ok (some true, filled pDe T 0 (cleared T (withSector n T (taken idx s)))) := by
  subst hT
  rw [addBlock, bind_of_ok (allocBlock_some harea hf)]
  refine (bind_of_ok (syncBit_taken harea hf)).trans ?_
  rw [if_pos hn]
  exact writeNewBlock_eq (harea.first_le hf)

theorem addBlock_first {idx' : ℕ} (harea : FreeShape s)
    (hf : FirstClear s.fs.mem s.fs.part.blockBitmap idx)
    (hf' : FirstClear (bitmapSet s.fs.mem s.fs.part.blockBitmap idx true)
      s.fs.part.blockBitmap idx')
    (hlba : lba = s.fs.part.sb.dataStartLba + idx)
    (hT : T = s.fs.part.sb.dataStartLba + idx') :
    addBlock pDe blocks 12 s = .ok (some true, filled pDe T 0 (cleared T (withIndirect lba
      (Function.update blocks 12 T) (taken idx' (withSector 12 lba (taken idx s)))))) := by
  have harea' : FreeShape (withSector 12 lba (taken idx s)) := harea.set_bit rfl rfl
  subst hlba hT
  rw [addBlock, bind_of_ok (allocBlock_some harea hf)]
  refine (bind_of_ok (syncBit_taken harea hf)).trans ?_
  rw [if_neg (by omega), if_pos rfl, setSector, modify_bind]
  refine (bind_of_ok (allocBlock_some harea' hf')).trans ?_
  refine (bind_of_ok (syncBit_taken harea' hf')).trans ?_
  rw [writeSector_ok (harea.first_le hf)]
  exact writeNewBlock_eq (harea.second_le hf')

theorem addBlock_later {idx' : ℕ} (harea : FreeShape s)
    (hf : FirstClear s.fs.mem s.fs.part.blockBitmap idx)
    (hf' : FirstClear (bitmapSet s.fs.mem s.fs.part.blockBitmap idx true)
      s.fs.part.blockBitmap idx') (hn : 12 < n) (hind : s.inode.iSectors 12 ≤ maxLba)
    (hT : T = s.fs.part.sb.dataStartLba + idx') :
    addBlock pDe blocks n s = .ok (some true, filled pDe T 0 (cleared T (withIndirect
      (s.inode.iSectors 12) (Function.update blocks n T) (taken idx' (taken idx s))))) := by
  have harea' : FreeShape (taken idx s) := harea.set_bit rfl rfl
  subst hT
  rw [addBlock, bind_of_ok (allocBlock_some harea hf)]
  refine (bind_of_ok (syncBit_taken harea hf)).trans ?_
  rw [if_neg (by omega), if_neg (by omega)]
  refine (bind_of_ok (allocBlock_some harea' hf')).trans ?_
  refine (bind_of_ok (syncBit_taken harea' hf')).trans ?_
  rw [get_bind]
  refine (writeSector_ok hind).trans ?_
  exact writeNewBlock_eq (harea.second_le hf')

theorem syncBit_minus_one {f : Unit → DirM (Option Bool)} (harea : FreeShape s) :
    (syncBit (2 ^ 32 - 1) >>= f) s = .error .maxLba := by
  have hmax : maxLba = 163839 := rfl
  have hstart := harea.start
  have hdata := harea.data
  have hbit := harea.bitmap
  have hblock : blockIdx s (2 ^ 32 - 1) = 2 ^ 32 - 1 - s.fs.part.sb.dataStartLba := by
    rw [blockIdx, u32]
    omega
  apply bind_of_error
  rw [syncBit, get_bind, hblock, ensure_bind_of_false]
  rw [u32_of_lt (by omega)]
  omega

theorem addBlock_none (harea : FreeShape s) (h : ∀ T, ¬ NewBlock s n T) (t : DirState) :
    addBlock pDe blocks n s ≠ .ok (some true, t) := by
  intro hrun
  rw [addBlock] at hrun
  by_cases hf : ∃ idx, FirstClear s.fs.mem s.fs.part.blockBitmap idx
  · obtain ⟨idx, hf⟩ := hf
    rw [bind_of_ok (allocBlock_some harea hf)] at hrun
    replace hrun := (bind_of_ok (syncBit_taken harea hf)).symm.trans hrun
    by_cases hn : n < 12
    · exact h _ ⟨idx, hf, by rw [if_pos hn]⟩
    have hno : ¬ ∃ idx', FirstClear (bitmapSet s.fs.mem s.fs.part.blockBitmap idx true)
        s.fs.part.blockBitmap idx' := by
      rintro ⟨idx', hf'⟩
      exact h _ ⟨idx, hf, by rw [if_neg hn]; exact ⟨idx', hf', rfl⟩⟩
    rw [if_neg hn] at hrun
    by_cases h12 : n = 12
    · rw [if_pos h12, setSector, modify_bind] at hrun
      have halloc := @allocBlock_none
        (withSector 12 (s.fs.part.sb.dataStartLba + idx) (taken idx s)) hno
      replace hrun := (bind_of_ok halloc).symm.trans hrun
      cases hrun
    · rw [if_neg h12, bind_of_ok (@allocBlock_none (taken idx s) hno)] at hrun
      have hsync := @syncBit_minus_one (taken idx s) (fun _ => do
        let s ← get
        writeSector (s.inode.iSectors 12) (indirectBytes (Function.update blocks n (2 ^ 32 - 1)))
        writeNewBlock pDe (2 ^ 32 - 1)) (harea.set_bit rfl rfl)
      replace hrun := hsync.symm.trans hrun
      cases hrun
  · rw [bind_of_ok (allocBlock_none hf)] at hrun
    cases hrun

/-! ## Where the new block is -/

theorem NewBlock.clear (h : NewBlock s n T) : ∃ idx < 8 * s.fs.part.blockBitmap.bitmapLen,
    usedBit s.fs.mem s.fs.part.blockBitmap idx = false ∧ T = s.fs.part.sb.dataStartLba + idx := by
  obtain ⟨idx, hf, hT⟩ := h
  split at hT
  · exact ⟨idx, hf.inside, hf.clear, hT⟩
  · obtain ⟨idx', hf', rfl⟩ := hT
    exact ⟨idx', hf'.inside, (FirstClear.second hf').2, rfl⟩

theorem Allocated.ne_new (h : Allocated s lba) (hT : NewBlock s n T) : lba ≠ T := by
  obtain ⟨idx, -, hc, rfl⟩ := hT.clear
  exact h.ne_clear hc

theorem NewBlock.pos (h : NewBlock s n T) (harea : AreaShape s) : 0 < T := by
  obtain ⟨idx, -, -, rfl⟩ := h.clear
  have := harea.start
  omega

theorem place_cleared (hsh : DirShape s n) (hn : n < blockCnt) (hT : NewBlock s n T)
    (htable : ∀ j < blockCnt, dirBlock u j = if j = n then T else dirBlock s j)
    (hind : u.inode.iSectors 12 ≤ maxLba) (hapart : u.inode.iSectors 12 ≠ T)
    (hkept : ∀ j < n, ∀ a < 512,
      sectorAt u.fs.disk (dirBlock s j) a = sectorAt s.fs.disk (dirBlock s j) a) :
    Place s n n T 0 (cleared T u) := by
  have hzero : ∀ a < 512, sectorAt (cleared T u).fs.disk T a = 0 := by
    intro a ha
    rw [cleared_disk, sectorAt_ideWrite_self ha]
  constructor
  case target => exact Or.inr ⟨rfl, hn, hT⟩
  case slot => decide
  case nonzero => exact (hT.pos hsh.area).ne'
  case table =>
    intro j hj
    refine Eq.trans (allBlocks_congr hj fun _ a ha => ?_) (htable j hj)
    rw [cleared_disk]
    exact sectorAt_ideWrite_ne hapart ha
  case indirect => exact hind
  case indirect_apart => exact hapart
  case others => exact fun j hj _ => (hsh.used j hj).ne_new hT
  case kept =>
    intro j hj a ha
    rw [cleared_disk, sectorAt_ideWrite_ne ((hsh.used j hj).ne_new hT) ha]
    exact hkept j hj a ha
  case free =>
    rw [fType, loadWord, hzero _ (by omega), hzero _ (by omega), hzero _ (by omega),
      hzero _ (by omega)]
    rfl
  case new => exact fun _ => hzero

theorem indirectEntry_lt {j : ℕ} (hj : ¬ j < 12) : dirBlock s j < 2 ^ 32 := by
  rw [dirBlock, allBlocks, if_neg hj]
  split
  · exact loadWord_lt _ _
  · omega

theorem table_withIndirect {L : ℕ} (hn : 12 ≤ n) (hT : T < 2 ^ 32) (hL : L ≠ 0)
    (h12 : u.inode.iSectors 12 = L)
    (hdirect : ∀ j < 12, u.inode.iSectors j = s.inode.iSectors j) {j : ℕ} (hj : j < blockCnt) :
    dirBlock (withIndirect L (Function.update (allBlocks s.fs.disk s.inode) n T) u) j =
      if j = n then T else dirBlock s j := by
  have hcnt : blockCnt = 140 := rfl
  have hmax : maxLba = 163839 := rfl
  by_cases hd : j < 12
  · rw [dirBlock, allBlocks, if_pos hd, if_neg (by omega), dirBlock, allBlocks, if_pos hd]
    exact hdirect j hd
  · have hind : (withIndirect L (Function.update (allBlocks s.fs.disk s.inode) n T) u).inode.iSectors
        12 = L := h12
    have hval : Function.update (allBlocks s.fs.disk s.inode) n T (12 + (j - 12)) =
        if j = n then T else dirBlock s j := by
      rw [Function.update_apply, show 12 + (j - 12) = j by omega]
      rfl
    rw [dirBlock, allBlocks, if_neg hd, hind, if_pos hL, ← hval]
    refine loadWord_indirectBytes (fun a ha => ?_) (by omega) ?_
    · exact (sectorAt_ideWrite_self ha).trans (congrArg _ (Nat.zero_add a))
    · rw [hval]
      split
      · exact hT
      · exact indirectEntry_lt hd

theorem sectorAt_taken_of_allocated (hu : FreeShape u) (h : Allocated s lba)
    (hpart : u.fs.part = s.fs.part) (hidx : idx < 8 * s.fs.part.blockBitmap.bitmapLen)
    (hi : i < 512) : sectorAt (taken idx u).fs.disk lba i = sectorAt u.fs.disk lba i := by
  obtain ⟨idx', hin, -, rfl⟩ := h
  rw [← hpart] at hidx hin ⊢
  exact sectorAt_taken hu hidx (Nat.le_add_right _ _) (by omega) hi

theorem withIndirect_disk : (withIndirect lba blocks s).fs.disk =
    ideWrite s.fs.disk lba (indirectBytes blocks) 0 1 := rfl

theorem place_direct (hsh : DirShape s n) (hn : n < 12)
    (hf : FirstClear s.fs.mem s.fs.part.blockBitmap idx)
    (hT : T = s.fs.part.sb.dataStartLba + idx) :
    Place s n n T 0 (cleared T (withSector n T (taken idx s))) := by
  have hcnt : blockCnt = 140 := rfl
  have hnew : NewBlock s n T := ⟨idx, hf, by rw [if_pos hn]; exact hT⟩
  have h12 : (withSector n T (taken idx s)).inode.iSectors 12 = 0 := by
    have hne : (12 : ℕ) ≠ n := by omega
    exact (Function.update_of_ne hne _ _).trans (hsh.direct (by omega))
  apply place_cleared hsh (by omega) hnew
  case htable =>
    intro j hj
    rw [dirBlock, allBlocks, h12, if_neg (not_not.mpr rfl)]
    by_cases hd : j < 12
    · rw [if_pos hd]
      refine (Function.update_apply _ _ _ _).trans ?_
      rw [dirBlock, allBlocks, if_pos hd]
      rfl
    · rw [if_neg hd, if_neg (by omega), hsh.unused j hj (by omega)]
  case hind => exact h12.trans_le (Nat.zero_le _)
  case hapart =>
    have := hnew.pos hsh.area
    omega
  case hkept =>
    intro j hj a ha
    exact sectorAt_taken_of_allocated hsh.area.free (hsh.used j hj) rfl hf.inside ha

theorem place_first {idx' : ℕ} (hsh : DirShape s 12)
    (hf : FirstClear s.fs.mem s.fs.part.blockBitmap idx)
    (hf' : FirstClear (bitmapSet s.fs.mem s.fs.part.blockBitmap idx true)
      s.fs.part.blockBitmap idx')
    (hlba : lba = s.fs.part.sb.dataStartLba + idx)
    (hT : T = s.fs.part.sb.dataStartLba + idx') :
    Place s 12 12 T 0 (cleared T (withIndirect lba
      (Function.update (allBlocks s.fs.disk s.inode) 12 T)
      (taken idx' (withSector 12 lba (taken idx s))))) := by
  have hmax : maxLba = 163839 := rfl
  have hfits := hsh.area.fits
  have hstart := hsh.area.start
  have hin := hf.inside
  have hin' := hf'.inside
  have hnew : NewBlock s 12 T := ⟨idx, hf, by rw [if_neg (by omega)]; exact ⟨idx', hf', hT⟩⟩
  have hsecond := (FirstClear.second hf').1
  have h12 : (taken idx' (withSector 12 lba (taken idx s))).inode.iSectors 12 = lba := by
    change Function.update s.inode.iSectors 12 lba 12 = lba
    exact Function.update_self _ _ _
  apply place_cleared hsh (by decide) hnew
  case htable =>
    intro j hj
    refine table_withIndirect le_rfl (by omega) (by omega) h12 (fun j hj => ?_) hj
    exact Function.update_of_ne (Nat.ne_of_lt hj) _ _
  case hind => exact h12.trans_le (by omega)
  case hapart => exact ne_of_eq_of_ne h12 (by omega)
  case hkept =>
    intro j hj a ha
    have hused := hsh.used j hj
    have hne : dirBlock s j ≠ lba := hlba ▸ hused.ne_clear hf.clear
    rw [withIndirect_disk, sectorAt_ideWrite_ne hne ha]
    have hsecond := @sectorAt_taken_of_allocated s (withSector 12 lba (taken idx s)) a _ idx'
      (hsh.area.free.set_bit rfl rfl) hused rfl hin' ha
    exact hsecond.trans (sectorAt_taken_of_allocated hsh.area.free hused rfl hin ha)

theorem place_later {idx' : ℕ} (hsh : DirShape s n) (hn : 12 < n) (hn' : n < blockCnt)
    (hf : FirstClear s.fs.mem s.fs.part.blockBitmap idx)
    (hf' : FirstClear (bitmapSet s.fs.mem s.fs.part.blockBitmap idx true)
      s.fs.part.blockBitmap idx')
    (hT : T = s.fs.part.sb.dataStartLba + idx') :
    Place s n n T 0 (cleared T (withIndirect (s.inode.iSectors 12)
      (Function.update (allBlocks s.fs.disk s.inode) n T) (taken idx' (taken idx s)))) := by
  have hmax : maxLba = 163839 := rfl
  have hfits := hsh.area.fits
  have hin := hf.inside
  have hin' := hf'.inside
  have hnew : NewBlock s n T := ⟨idx, hf, by rw [if_neg (by omega)]; exact ⟨idx', hf', hT⟩⟩
  have hind := hsh.indirect hn
  apply place_cleared hsh hn' hnew
  case htable =>
    intro j hj
    exact @table_withIndirect s (taken idx' (taken idx s)) n T _ hn.le (by omega)
      (hind.pos hsh.area).ne' rfl (fun _ _ => rfl) j hj
  case hind => exact hind.le_maxLba hsh.area
  case hapart => exact hind.ne_new hnew
  case hkept =>
    intro j hj a ha
    have hused := hsh.used j hj
    rw [withIndirect_disk, sectorAt_ideWrite_ne (hsh.indirect_apart hn j hj) ha]
    have hsecond := @sectorAt_taken_of_allocated s (taken idx s) a _ idx' (hsh.area.free.set_bit rfl rfl)
      hused rfl hin' ha
    exact hsecond.trans (sectorAt_taken_of_allocated hsh.area.free hused rfl hin ha)

/-! ## What a call does -/

theorem sync_new (hsh : DirShape s n) (hsize : s.inode.iSize % dirSize = 0)
    (hfull : ∀ j < n, freeSlot (sectorAt s.fs.disk (dirBlock s j)) = none) (hn : n < blockCnt)
    (hT : NewBlock s n T) : ∃ t, Place s n n T 0 t ∧
      ∀ pDe, syncDirEntry pDe s = .ok (some true, filled pDe T 0 t) := by
  have hrun : ∀ pDe, syncDirEntry pDe s = addBlock pDe (allBlocks s.fs.disk s.inode) n s := by
    intro pDe
    exact syncDirEntry_add hsh.iSectors_le hsize hn (fun j hj => hsh.on_disk hj)
      (fun j hj => hsh.full hj (hfull j hj)) (hsh.unused n hn le_rfl)
  obtain ⟨idx, hf, hT⟩ := hT
  rcases Nat.lt_trichotomy n 12 with hlt | rfl | hgt
  · rw [if_pos hlt] at hT
    refine ⟨_, place_direct hsh hlt hf hT, fun pDe => ?_⟩
    rw [hrun, addBlock_direct hsh.area.free hf hlt hT]
  · rw [if_neg (by omega)] at hT
    obtain ⟨idx', hf', hT⟩ := hT
    refine ⟨_, place_first hsh hf hf' rfl hT, fun pDe => ?_⟩
    rw [hrun, addBlock_first hsh.area.free hf hf' rfl hT]
  · rw [if_neg (by omega)] at hT
    obtain ⟨idx', hf', hT⟩ := hT
    refine ⟨_, place_later hsh hgt hn hf hf' hT, fun pDe => ?_⟩
    rw [hrun, addBlock_later hsh.area.free hf hf' hgt ((hsh.indirect hgt).le_maxLba hsh.area) hT]

theorem sync_place (hsh : DirShape s n) (hrun : syncDirEntry pDe s = .ok (some true, u)) :
    ∃ i T k t, Place s n i T k t ∧ u = filled pDe T k t := by
  have hsize : s.inode.iSize % dirSize = 0 := by
    rw [syncDirEntry, get_bind] at hrun
    exact (ensure_bind_ok_iff.mp hrun).1
  by_cases hfull : ∀ j < n, freeSlot (sectorAt s.fs.disk (dirBlock s j)) = none
  · by_cases hn : n < blockCnt
    · by_cases hnew : ∃ T, NewBlock s n T
      · obtain ⟨T, hT⟩ := hnew
        obtain ⟨t, hplace, heq⟩ := sync_new hsh hsize hfull hn hT
        rw [heq] at hrun
        cases hrun
        exact ⟨n, T, 0, t, hplace, rfl⟩
      · rw [syncDirEntry_add hsh.iSectors_le hsize hn (fun j hj => hsh.on_disk hj)
          (fun j hj => hsh.full hj (hfull j hj)) (hsh.unused n hn le_rfl)] at hrun
        exact absurd hrun (addBlock_none hsh.area.free (fun T hT => hnew ⟨T, hT⟩) u)
    · rw [syncDirEntry_pass hsh.iSectors_le hsize hsh.count (fun j hj => hsh.on_disk hj)
        (fun j hj => hsh.full hj (hfull j hj)), show blockCnt - n = 0 by omega] at hrun
      cases hrun
  · push Not at hfull
    -- the first block with room
    obtain ⟨hi, hroom⟩ := Nat.find_spec hfull
    have hbefore : ∀ j < Nat.find hfull, freeSlot (sectorAt s.fs.disk (dirBlock s j)) = none := by
      intro j hj
      by_contra hne
      exact Nat.find_min hfull hj ⟨hj.trans hi, hne⟩
    obtain ⟨k, hk⟩ := Option.ne_none_iff_exists'.mp hroom
    rw [sync_existing hsh hsize hi hbefore hk] at hrun
    cases hrun
    exact ⟨_, _, k, _, place_existing hsh hi hk, rfl⟩

/-! ## The directory with the entry -/

theorem Place.block_eq (h : Place s n i T k t) (hi : i < n) : T = dirBlock s i := by
  rcases h.target with ⟨-, hT⟩ | ⟨rfl, -, -⟩
  · exact hT
  · exact absurd hi (lt_irrefl _)

theorem Place.table_filled (h : Place s n i T k t) {j : ℕ} (hj : j < blockCnt) :
    dirBlock (filled pDe T k t) j = if j = i then T else dirBlock s j := by
  refine Eq.trans (allBlocks_congr hj fun _ a ha => ?_) (h.table j hj)
  exact sectorAt_putEntry_ne h.indirect_apart ha

theorem Place.search_filled {name : CString} (h : Place s n i T k t) (hn : ValidName name) {j : ℕ}
    (hj : j < n ∨ j = i) :
    searchSector (sectorAt (filled pDe T k t).fs.disk (if j = i then T else dirBlock s j)) name =
      if j = i then searchSector (withEntry pDe (sectorAt t.fs.disk T) k) name
      else searchSector (sectorAt s.fs.disk (dirBlock s j)) name := by
  by_cases he : j = i
  · rw [if_pos he, if_pos he]
    exact searchSector_congr hn fun a ha => sectorAt_putEntry_self ha
  · rw [if_neg he, if_neg he]
    have hjn : j < n := hj.resolve_right he
    refine searchSector_congr hn fun a ha => ?_
    exact (sectorAt_putEntry_ne (h.others j hjn he) ha).trans (h.kept j hjn a ha)

end FsDirInserts
