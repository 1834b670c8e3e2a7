import Leeos.FsDisk

/-!
# The layout of a partition (`partition_format` in `fs/fs.c`, `fs/super_block.h`)

`format_super_block` is the arithmetic at the head of `partition_format`, in 32 bits; the five
writes after it go to the structures it has placed. The layout is sound when the structures are
disjoint, lie in the partition and have the room they need.
-/
namespace FsLayout

open KernelBitmap FsDisk LibStdint

structure SuperBlock where
  magic : ℕ
  secCnt : ℕ
  inodeCnt : ℕ
  partLbaBase : ℕ
  blockBitmapLba : ℕ
  blockBitmapSects : ℕ
  inodeBitmapLba : ℕ
  inodeBitmapSects : ℕ
  inodeTableLba : ℕ
  inodeTableSects : ℕ
  dataStartLba : ℕ
  rootInodeNo : ℕ
  dirEntrySize : ℕ
  deriving DecidableEq, Repr

structure PartitionEntry where
  startLba : ℕ
  sectorCounter : ℕ
  deriving DecidableEq, Repr

def maxFilesPerPart : ℕ := 4096
def bitsPerSector : ℕ := 4096
def sectorSize : ℕ := 512
def dirEntrySize : ℕ := 24

def inodeBitmapSects : ℕ := divRoundUp maxFilesPerPart bitsPerSector

def inodeTableSects : ℕ := divRoundUp (inodeSize * maxFilesPerPart) sectorSize

def usedSects : ℕ := 2 + inodeBitmapSects + inodeTableSects

def freeSects (part : PartitionEntry) : ℕ := u32 (part.sectorCounter + 2 ^ 32 - usedSects)

def roughBitmapSects (part : PartitionEntry) : ℕ := divRoundUp (freeSects part) bitsPerSector

def blockBitmapBitLen (part : PartitionEntry) : ℕ :=
  u32 (freeSects part + 2 ^ 32 - roughBitmapSects part)

def blockBitmapSects (part : PartitionEntry) : ℕ :=
  divRoundUp (blockBitmapBitLen part) bitsPerSector

def formatSuperBlock (part : PartitionEntry) : SuperBlock :=
  let blockBitmapLba := u32 (part.startLba + 2)
  let inodeBitmapLba := u32 (blockBitmapLba + blockBitmapSects part)
  { magic := 0x19990814
    secCnt := part.sectorCounter
    inodeCnt := maxFilesPerPart
    partLbaBase := part.startLba
    blockBitmapLba := blockBitmapLba
    blockBitmapSects := blockBitmapSects part
    inodeBitmapLba := inodeBitmapLba
    inodeBitmapSects := inodeBitmapSects
    inodeTableLba := u32 (inodeBitmapLba + inodeBitmapSects)
    inodeTableSects := inodeTableSects
    dataStartLba := u32 (inodeTableSects + inodeTableSects)
    rootInodeNo := 0
    dirEntrySize := dirEntrySize }

/-! ## The writes -/

/-- One call of `ide_write`, with the contents of its buffer. -/
structure DiskWrite where
  lba : ℕ
  secCnt : ℕ
  buf : Bytes

def DiskWrite.apply (disk : Bytes) (w : DiskWrite) : Bytes := ideWrite disk w.lba w.buf 0 w.secCnt

def storeWords (m : Bytes) : ℕ → List ℕ → Bytes
  | _, [] => m
  | a, x :: rest => storeWords (storeWord m a x) (a + 4) rest

/-- The structure is packed: its words lie one behind the other. -/
def storeSuperBlock (m : Bytes) (a : ℕ) (sb : SuperBlock) : Bytes :=
  storeWords m a [sb.magic, sb.secCnt, sb.inodeCnt, sb.partLbaBase, sb.blockBitmapLba,
    sb.blockBitmapSects, sb.inodeBitmapLba, sb.inodeBitmapSects, sb.inodeTableLba,
    sb.inodeTableSects, sb.dataStartLba, sb.rootInodeNo, sb.dirEntrySize]

/-- The block bitmap; the loop after `memset` goes over the byte `block_bitmap_odd_idx`. -/
def blockBitmapBuffer (bitLen : ℕ) (heap : Bytes) : Bytes :=
  let buf := Function.update heap 0 (heap 0 ||| 0x01#8)
  let bytesLen := bitLen / 8
  let oddIdx := bitLen % 8
  let lastSize := sectorSize - bytesLen % sectorSize
  let buf := memset buf bytesLen 0xff#8 lastSize
  (List.range (oddIdx + 1)).foldl
    (fun buf i => Function.update buf oddIdx (buf oddIdx &&& ~~~(1#8 <<< i))) buf

/-- In bytes, of one half of the buffer that is allocated. -/
def bufSize (sb : SuperBlock) : ℕ :=
  u32 (max (max sb.blockBitmapSects sb.inodeBitmapSects) sb.inodeTableSects * sectorSize)

/-- `i_no`, `i_size` and `i_sectors[0]` of the root directory. -/
def rootInodeBuffer (sb : SuperBlock) (buf : Bytes) : Bytes :=
  storeWord (storeWord (storeWord buf 0 0) 4 (u32 (sb.dirEntrySize * 2))) 16 sb.dataStartLba

/-- `.` and `..`, each an `FT_DIRECTORY` with inode 0. -/
def rootDirBuffer (buf : Bytes) : Bytes :=
  let buf := storeWord (storeWord buf 20 2) 16 0
  let buf := Function.update buf 0 0x2e#8
  let buf := storeWord (storeWord buf 44 2) 40 0
  Function.update (Function.update buf 24 0x2e#8) 25 0x2e#8

/-- `stack` and `heap` are what the super block's padding and the allocated buffer held before. -/
def formatWrites (part : PartitionEntry) (stack heap : Bytes) : List DiskWrite :=
  let sb := formatSuperBlock part
  let blockBuf := blockBitmapBuffer (blockBitmapBitLen part) heap
  let inodeBuf := memset blockBuf 0 0 (bufSize sb)
  let tableBuf := rootInodeBuffer sb (memset inodeBuf 0 0 (bufSize sb))
  let dirBuf := rootDirBuffer (memset tableBuf 0 0 (bufSize sb))
  [⟨u32 (part.startLba + 1), 1, storeSuperBlock stack 0 sb⟩,
    ⟨sb.blockBitmapLba, sb.blockBitmapSects, blockBuf⟩,
    ⟨sb.inodeBitmapLba, sb.inodeBitmapSects, inodeBuf⟩,
    ⟨sb.inodeTableLba, sb.inodeTableSects, tableBuf⟩,
    ⟨sb.dataStartLba, 1, dirBuf⟩]

def partitionFormat (part : PartitionEntry) (stack heap disk : Bytes) : Bytes :=
  (formatWrites part stack heap).foldl DiskWrite.apply disk

/-! ## Soundness of the layout -/

/-- `len` sectors from `lba` on. -/
structure Region where
  lba : ℕ
  len : ℕ
  deriving DecidableEq, Repr

def Region.Disjoint (r r' : Region) : Prop := r.lba + r.len ≤ r'.lba ∨ r'.lba + r'.len ≤ r.lba

instance (r r' : Region) : Decidable (r.Disjoint r') := inferInstanceAs (Decidable (_ ∨ _))

def Region.Within (r r' : Region) : Prop := r'.lba ≤ r.lba ∧ r.lba + r.len ≤ r'.lba + r'.len

def PartitionEntry.region (part : PartitionEntry) : Region := ⟨part.startLba, part.sectorCounter⟩

/-- Boot sector, super block, the two bitmaps, the inode table and the data area. -/
def regions (part : PartitionEntry) : List Region :=
  let sb := formatSuperBlock part
  [⟨part.startLba, 1⟩, ⟨u32 (part.startLba + 1), 1⟩, ⟨sb.blockBitmapLba, sb.blockBitmapSects⟩,
    ⟨sb.inodeBitmapLba, sb.inodeBitmapSects⟩, ⟨sb.inodeTableLba, sb.inodeTableSects⟩,
    ⟨sb.dataStartLba, blockBitmapBitLen part⟩]

structure LayoutSound (part : PartitionEntry) : Prop where
  disjoint : (regions part).Pairwise Region.Disjoint
  within : ∀ r ∈ regions part, r.Within part.region
  table_room : inodeSize * maxFilesPerPart ≤ sectorSize * (formatSuperBlock part).inodeTableSects
  bitmap_room : blockBitmapBitLen part ≤ bitsPerSector * (formatSuperBlock part).blockBitmapSects
  writes : ∀ stack heap, ∀ w ∈ formatWrites part stack heap,
    ∃ r ∈ regions part, Region.Within ⟨w.lba, w.secCnt⟩ r

/-- The base of the data area is computed as twice the size of the inode table, 1216, wherever the
partition lies; this is when that is its right place. -/
def BaseFits (part : PartitionEntry) : Prop :=
  part.sectorCounter + 3484 < 2 ^ 32 ∧
    let free := part.sectorCounter - 611
    let rough := (free + 4095) / 4096
    part.startLba + (free - rough + 4095) / 4096 ≤ 605 ∧ 605 ≤ part.startLba + rough

variable {part : PartitionEntry}

theorem freeSects_eq (hmin : 613 ≤ part.sectorCounter) (hmax : part.sectorCounter < 2 ^ 32) :
    freeSects part = part.sectorCounter - 611 := by
  have : usedSects = 611 := by decide
  rw [freeSects, this, u32]
  omega

theorem roughBitmapSects_eq (hmin : 613 ≤ part.sectorCounter)
    (hmax : part.sectorCounter + 3484 < 2 ^ 32) :
    roughBitmapSects part = (part.sectorCounter - 611 + 4095) / 4096 := by
  rw [roughBitmapSects, freeSects_eq hmin (by omega), divRoundUp, u32, bitsPerSector]
  omega

theorem blockBitmapBitLen_eq (hmin : 613 ≤ part.sectorCounter)
    (hmax : part.sectorCounter + 3484 < 2 ^ 32) :
    blockBitmapBitLen part =
      part.sectorCounter - 611 - (part.sectorCounter - 611 + 4095) / 4096 := by
  rw [blockBitmapBitLen, roughBitmapSects_eq hmin hmax, freeSects_eq hmin (by omega), u32]
  omega

theorem blockBitmapSects_eq (hmin : 613 ≤ part.sectorCounter)
    (hmax : part.sectorCounter + 3484 < 2 ^ 32) :
    blockBitmapSects part =
      (part.sectorCounter - 611 - (part.sectorCounter - 611 + 4095) / 4096 + 4095) / 4096 := by
  rw [blockBitmapSects, blockBitmapBitLen_eq hmin hmax, divRoundUp, u32, bitsPerSector]
  omega

/-- From 2^32 - 3484 sectors on the rounding wraps, and no sector is left for the block bitmap. -/
theorem bitmap_room_iff (hmin : 613 ≤ part.sectorCounter) (hmax : part.sectorCounter < 2 ^ 32) :
    blockBitmapBitLen part ≤ bitsPerSector * blockBitmapSects part ↔
      part.sectorCounter + 3484 < 2 ^ 32 := by
  constructor
  · intro h
    by_contra hwrap
    have hrough : roughBitmapSects part = 0 := by
      rw [roughBitmapSects, freeSects_eq hmin hmax, divRoundUp, u32, bitsPerSector]
      omega
    have hlen : blockBitmapBitLen part = part.sectorCounter - 611 := by
      rw [blockBitmapBitLen, hrough, freeSects_eq hmin hmax, u32]
      omega
    have hsects : blockBitmapSects part = 0 := by
      rw [blockBitmapSects, hlen, divRoundUp, u32, bitsPerSector]
      omega
    rw [hsects, hlen] at h
    omega
  · intro hwrap
    rw [blockBitmapBitLen_eq hmin hwrap, blockBitmapSects_eq hmin hwrap, bitsPerSector]
    omega

theorem regions_eq (hb : part.startLba + blockBitmapSects part + 611 < 2 ^ 32) :
    regions part = [⟨part.startLba, 1⟩, ⟨part.startLba + 1, 1⟩,
      ⟨part.startLba + 2, blockBitmapSects part⟩,
      ⟨part.startLba + 2 + blockBitmapSects part, 1⟩,
      ⟨part.startLba + 3 + blockBitmapSects part, 608⟩, ⟨1216, blockBitmapBitLen part⟩] := by
  have hone : inodeBitmapSects = 1 := by decide
  have htable : inodeTableSects = 608 := by decide
  have h₁ : u32 (part.startLba + 1) = part.startLba + 1 := Nat.mod_eq_of_lt (by omega)
  have h₂ : u32 (part.startLba + 2) = part.startLba + 2 := Nat.mod_eq_of_lt (by omega)
  have h₃ : u32 (part.startLba + 2 + blockBitmapSects part) =
      part.startLba + 2 + blockBitmapSects part := Nat.mod_eq_of_lt (by omega)
  have h₄ : u32 (part.startLba + 2 + blockBitmapSects part + 1) =
      part.startLba + 3 + blockBitmapSects part := by
    rw [u32, Nat.mod_eq_of_lt (by omega)]
    omega
  have h₅ : u32 (608 + 608) = 1216 := by decide
  simp only [regions, formatSuperBlock, hone, htable, h₁, h₂, h₃, h₄, h₅]

theorem pairwise_regions_iff {r : ℕ} {d : Region} (hd : 0 < d.len) :
    [⟨part.startLba, 1⟩, ⟨part.startLba + 1, 1⟩, ⟨part.startLba + 2, r⟩,
      ⟨part.startLba + 2 + r, 1⟩, ⟨part.startLba + 3 + r, 608⟩, d].Pairwise Region.Disjoint ↔
    part.startLba + 611 + r ≤ d.lba ∨ d.lba + d.len ≤ part.startLba := by
  simp only [List.pairwise_cons, List.mem_cons, List.not_mem_nil, or_false, forall_eq_or_imp,
    forall_eq, Region.Disjoint, List.Pairwise.nil, and_true, IsEmpty.forall_iff, implies_true]
  omega

theorem formatWrites_within (hlen : 0 < blockBitmapBitLen part) (stack heap : Bytes) :
    ∀ w ∈ formatWrites part stack heap, ∃ r ∈ regions part, Region.Within ⟨w.lba, w.secCnt⟩ r := by
  intro w hw
  simp only [formatWrites, List.mem_cons, List.not_mem_nil, or_false] at hw
  have hself : ∀ r : Region, Region.Within r r := fun r => ⟨le_rfl, le_rfl⟩
  rcases hw with rfl | rfl | rfl | rfl | rfl
  · exact ⟨⟨u32 (part.startLba + 1), 1⟩, by simp [regions], hself _⟩
  · exact ⟨⟨(formatSuperBlock part).blockBitmapLba, (formatSuperBlock part).blockBitmapSects⟩,
      by simp [regions], hself _⟩
  · exact ⟨⟨(formatSuperBlock part).inodeBitmapLba, (formatSuperBlock part).inodeBitmapSects⟩,
      by simp [regions], hself _⟩
  · exact ⟨⟨(formatSuperBlock part).inodeTableLba, (formatSuperBlock part).inodeTableSects⟩,
      by simp [regions], hself _⟩
  · refine ⟨⟨(formatSuperBlock part).dataStartLba, blockBitmapBitLen part⟩, by simp [regions],
      le_rfl, ?_⟩
    simp only
    omega

theorem table_room : inodeSize * maxFilesPerPart ≤ sectorSize * inodeTableSects := by decide

theorem layoutSound_of_baseFits (hmin : 613 ≤ part.sectorCounter) (h : BaseFits part) :
    LayoutSound part := by
  obtain ⟨hwrap, hbase, htop⟩ := h
  have hr := blockBitmapSects_eq hmin hwrap
  have hl := blockBitmapBitLen_eq hmin hwrap
  have hb : part.startLba + blockBitmapSects part + 611 < 2 ^ 32 := by
    rw [hr]
    omega
  have hlen : 0 < blockBitmapBitLen part := by
    rw [hl]
    omega
  refine ⟨?_, ?_, table_room, (bitmap_room_iff hmin (by omega)).mpr hwrap,
    formatWrites_within hlen⟩
  · rw [regions_eq hb]
    apply (pairwise_regions_iff (d := ⟨1216, blockBitmapBitLen part⟩) hlen).mpr
    rw [hr]
    exact Or.inl (by simp only; omega)
  · rw [regions_eq hb, hr, hl]
    simp only [List.mem_cons, List.not_mem_nil, or_false, forall_eq_or_imp, forall_eq,
      Region.Within, PartitionEntry.region]
    omega

theorem baseFits_of_layoutSound (hmin : 613 ≤ part.sectorCounter)
    (hmax : part.sectorCounter < 2 ^ 32) (h : LayoutSound part) : BaseFits part := by
  have hwrap := (bitmap_room_iff hmin hmax).mp h.bitmap_room
  have hr := blockBitmapSects_eq hmin hwrap
  have hl := blockBitmapBitLen_eq hmin hwrap
  have hdata := h.within ⟨1216, blockBitmapBitLen part⟩ (by
    have : (formatSuperBlock part).dataStartLba = 1216 := rfl
    simp [regions, this])
  simp only [Region.Within, PartitionEntry.region] at hdata
  have hlen : 0 < blockBitmapBitLen part := by
    rw [hl]
    omega
  have hb : part.startLba + blockBitmapSects part + 611 < 2 ^ 32 := by
    rw [hr]
    omega
  have hdis := (pairwise_regions_iff (d := ⟨1216, blockBitmapBitLen part⟩) hlen).mp
    (regions_eq hb ▸ h.disjoint)
  simp only at hdis
  rw [hr, hl] at hdis
  rw [hl] at hdata
  refine ⟨hwrap, ?_, ?_⟩
  · omega
  · omega

/-- The layout of a partition with room for the metadata and a data block is sound in the few
places where 1216 is the sector after its inode table, and nowhere else. -/
theorem layoutSound_iff (part : PartitionEntry) (hmin : 613 ≤ part.sectorCounter)
    (hmax : part.sectorCounter < 2 ^ 32) : LayoutSound part ↔ BaseFits part :=
  ⟨baseFits_of_layoutSound hmin hmax, layoutSound_of_baseFits hmin⟩

theorem layoutSound_base_604 : LayoutSound ⟨604, 613⟩ :=
  (layoutSound_iff ⟨604, 613⟩ (by decide) (by decide)).mpr
    ⟨by decide, show 604 + 1 ≤ 605 by decide, show 605 ≤ 604 + 1 by decide⟩

/-- The first partition of a disk, at sector 2048: its data area would start before it. -/
theorem layout_unsound : ¬ LayoutSound ⟨2048, 20480⟩ := by
  intro h
  have hdata := h.within ⟨1216, blockBitmapBitLen ⟨2048, 20480⟩⟩ (by
    have : (formatSuperBlock ⟨2048, 20480⟩).dataStartLba = 1216 := rfl
    simp [regions, this])
  have : 2048 ≤ 1216 := hdata.1
  omega

end FsLayout
