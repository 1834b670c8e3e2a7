import Leeos.ExecRules
import Leeos.FsLayout

/-!
# Mounting, and the two bitmaps (`mount_partition` in `fs/fs.c`, `fs/file.c`)

A mounted partition has its two bitmaps in memory; every allocation is followed by a
`bitmap_sync` of the sector that holds the bit. `InSync` says that the disk can be mounted again
without loss. `bitmap_sync` takes both bitmaps' bytes from the inode bitmap and sends the inode
bitmap's to the inode table, so only the steps of `SafeStep` keep it.
-/
namespace FsBitmaps

open ExecRules KernelBitmap FsDisk FsLayout LibStdint

structure Partition where
  startLba : ℕ
  sectorCounter : ℕ
  sb : SuperBlock
  blockBitmap : Bitmap
  inodeBitmap : Bitmap
  deriving DecidableEq, Repr

structure FsState where
  mem : Bytes
  disk : Bytes
  part : Partition

def loadSuperBlock (m : Bytes) (a : ℕ) : SuperBlock where
  magic := loadWord m a
  secCnt := loadWord m (a + 4)
  inodeCnt := loadWord m (a + 8)
  partLbaBase := loadWord m (a + 12)
  blockBitmapLba := loadWord m (a + 16)
  blockBitmapSects := loadWord m (a + 20)
  inodeBitmapLba := loadWord m (a + 24)
  inodeBitmapSects := loadWord m (a + 28)
  inodeTableLba := loadWord m (a + 32)
  inodeTableSects := loadWord m (a + 36)
  dataStartLba := loadWord m (a + 40)
  rootInodeNo := loadWord m (a + 44)
  dirEntrySize := loadWord m (a + 48)

/-- What the three calls of `sys_malloc` return. -/
structure MountBuffers where
  sb : ℕ
  block : ℕ
  inode : ℕ

/-- `mount_partition` once the name matches. Both lengths are computed from the block bitmap. -/
def mountPartition (bufs : MountBuffers) (s : FsState) : FsState :=
  let mem := ideRead s.disk (u32 (s.part.startLba + 1)) s.mem bufs.sb 1
  let sb := loadSuperBlock mem bufs.sb
  let mem := ideRead s.disk sb.blockBitmapLba mem bufs.block sb.blockBitmapSects
  let mem := ideRead s.disk sb.inodeBitmapLba mem bufs.inode sb.inodeBitmapSects
  { mem := mem
    disk := s.disk
    part := { s.part with
      sb := sb
      blockBitmap := ⟨u32 (sb.blockBitmapSects * sectorSize), bufs.block⟩
      inodeBitmap := ⟨u32 (sb.blockBitmapSects * sectorSize), bufs.inode⟩ } }

def inodeBitmapAlloc (s : FsState) : Option ℕ × FsState :=
  match bitmapScan s.mem s.part.inodeBitmap 1 with
  | none => (none, s)
  | some idx => (some idx, { s with mem := bitmapSet s.mem s.part.inodeBitmap idx true })

def blockBitmapAlloc (s : FsState) : Option ℕ × FsState :=
  match bitmapScan s.mem s.part.blockBitmap 1 with
  | none => (none, s)
  | some idx => (some (u32 (s.part.sb.dataStartLba + idx)),
      { s with mem := bitmapSet s.mem s.part.blockBitmap idx true })

inductive BitmapType where
  | inodeBitmap
  | blockBitmap
  deriving DecidableEq, Repr

def bitmapSync (bitIdx : ℕ) (btmp : BitmapType) (s : FsState) : FsState :=
  let offSec := bitIdx / (sectorSize * 8)
  let offSize := sectorSize * offSec
  let target := match btmp with
    | .inodeBitmap => (u32 (s.part.sb.inodeTableLba + offSec), s.part.inodeBitmap.bits + offSize)
    | .blockBitmap => (u32 (s.part.sb.blockBitmapLba + offSec), s.part.inodeBitmap.bits + offSize)
  { s with disk := ideWrite s.disk target.1 s.mem target.2 1 }

inductive AllocOp where
  | inode
  | block
  deriving DecidableEq, Repr

def allocAndSync : AllocOp → FsState → FsState
  | .inode, s =>
    match inodeBitmapAlloc s with
    | (none, s) => s
    | (some idx, s) => bitmapSync idx .inodeBitmap s
  | .block, s =>
    match blockBitmapAlloc s with
    | (none, s) => s
    | (some lba, s) => bitmapSync (u32 (lba + 2 ^ 32 - s.part.sb.dataStartLba)) .blockBitmap s

/-! ## What a mounted partition is -/

/-- The bytes `a, …, a + len - 1` and `b, …, b + len' - 1` have none in common. -/
def Apart (a len b len' : ℕ) : Prop := a + len ≤ b ∨ b + len' ≤ a

instance (a len b len' : ℕ) : Decidable (Apart a len b len') :=
  inferInstanceAs (Decidable (_ ∨ _))

/-- The super block describes two areas that are apart from each other and from itself. -/
structure AreasApart (startLba : ℕ) (sb : SuperBlock) : Prop where
  start_bound : startLba + 1 < 2 ^ 32
  super_block : Apart (startLba + 1) 1 sb.blockBitmapLba sb.blockBitmapSects
  super_inode : Apart (startLba + 1) 1 sb.inodeBitmapLba sb.inodeBitmapSects
  areas : Apart sb.blockBitmapLba sb.blockBitmapSects sb.inodeBitmapLba sb.inodeBitmapSects
  block_bound : sb.blockBitmapLba + sb.blockBitmapSects ≤ 2 ^ 32
  block_len : sb.blockBitmapSects * 4096 < 2 ^ 31
  data_bound : sb.dataStartLba < 2 ^ 32

structure BuffersApart (bufs : MountBuffers) (sb : SuperBlock) : Prop where
  super_block : Apart bufs.sb 512 bufs.block (512 * sb.blockBitmapSects)
  super_inode : Apart bufs.sb 512 bufs.inode (512 * sb.inodeBitmapSects)
  bitmaps : Apart bufs.block (512 * sb.blockBitmapSects) bufs.inode (512 * sb.inodeBitmapSects)

def Mounted (s : FsState) : Prop :=
  ∃ s₀ bufs, s = mountPartition bufs s₀ ∧ AreasApart s.part.startLba s.part.sb ∧
    BuffersApart bufs s.part.sb

/-- A byte of the disk that belongs to neither bitmap. -/
def OutsideAreas (sb : SuperBlock) (a : ℕ) : Prop :=
  (a / 512 < sb.blockBitmapLba ∨ sb.blockBitmapLba + sb.blockBitmapSects ≤ a / 512) ∧
    (a / 512 < sb.inodeBitmapLba ∨ sb.inodeBitmapLba + sb.inodeBitmapSects ≤ a / 512)

/-- What is in memory is on the disk, the rest of the disk is as it was at `s₀`, and mounting
again gives the allocation state back. -/
structure InSync (s₀ s : FsState) : Prop where
  inode_area : ∀ i < 512 * s.part.sb.inodeBitmapSects,
    s.disk (512 * s.part.sb.inodeBitmapLba + i) = s.mem (s.part.inodeBitmap.bits + i)
  block_area : ∀ i < 512 * s.part.sb.blockBitmapSects,
    s.disk (512 * s.part.sb.blockBitmapLba + i) = s.mem (s.part.blockBitmap.bits + i)
  outside : ∀ a, OutsideAreas s.part.sb a → s.disk a = s₀.disk a
  remount : ∀ bufs, BuffersApart bufs s.part.sb →
    (mountPartition bufs s).part.sb = s.part.sb ∧
    (mountPartition bufs s).part.inodeBitmap.bitmapLen = s.part.inodeBitmap.bitmapLen ∧
    (mountPartition bufs s).part.blockBitmap.bitmapLen = s.part.blockBitmap.bitmapLen ∧
    (∀ i < 512 * s.part.sb.inodeBitmapSects,
      (mountPartition bufs s).mem (bufs.inode + i) = s.mem (s.part.inodeBitmap.bits + i)) ∧
    ∀ i < 512 * s.part.sb.blockBitmapSects,
      (mountPartition bufs s).mem (bufs.block + i) = s.mem (s.part.blockBitmap.bits + i)

/-- No inode is allocated, and a block only where the inode bitmap's buffer happens to hold the
bytes that the block bitmap's sector is to get, the bit being set. -/
def Safe (s : FsState) : AllocOp → Prop
  | .inode => ∀ i < 8 * s.part.inodeBitmap.bitmapLen,
      usedBit s.mem s.part.inodeBitmap i = true
  | .block => ∀ i, FirstClear s.mem s.part.blockBitmap i → ∀ j < 512,
      let mem := bitmapSet s.mem s.part.blockBitmap i true
      mem (s.part.inodeBitmap.bits + 512 * (i / 4096) + j) =
        mem (s.part.blockBitmap.bits + 512 * (i / 4096) + j)

def AllocStep (s s' : FsState) : Prop := ∃ op, s' = allocAndSync op s

def SafeStep (s s' : FsState) : Prop := ∃ op, Safe s op ∧ s' = allocAndSync op s

/-! ## Reading a disk that is in sync -/

variable {s s₀ : FsState} {bufs : MountBuffers}

theorem loadSuperBlock_congr {m m' : Bytes} {a b : ℕ} (h : ∀ j < 512, m (a + j) = m' (b + j)) :
    loadSuperBlock m a = loadSuperBlock m' b := by
  have hw : ∀ k ≤ 48, loadWord m (a + k) = loadWord m' (b + k) := by
    intro k hk
    apply loadWord_congr
    intro j hj
    rw [Nat.add_assoc, Nat.add_assoc]
    exact h (k + j) (by omega)
  have h₀ := hw 0 (by omega)
  rw [Nat.add_zero, Nat.add_zero] at h₀
  simp only [loadSuperBlock, h₀, hw 4 (by omega), hw 8 (by omega), hw 12 (by omega),
    hw 16 (by omega), hw 20 (by omega), hw 24 (by omega), hw 28 (by omega), hw 32 (by omega),
    hw 36 (by omega), hw 40 (by omega), hw 44 (by omega), hw 48 (by omega)]

@[simp] theorem mountPartition_disk : (mountPartition bufs s).disk = s.disk := rfl

@[simp] theorem mountPartition_startLba :
    (mountPartition bufs s).part.startLba = s.part.startLba := rfl

theorem mountPartition_blockBitmap : (mountPartition bufs s).part.blockBitmap =
    ⟨u32 ((mountPartition bufs s).part.sb.blockBitmapSects * sectorSize), bufs.block⟩ := rfl

theorem mountPartition_inodeBitmap : (mountPartition bufs s).part.inodeBitmap =
    ⟨u32 ((mountPartition bufs s).part.sb.blockBitmapSects * sectorSize), bufs.inode⟩ := rfl

theorem mountPartition_mem_eq : (mountPartition bufs s).mem =
    copyBytes s.disk (512 * (mountPartition bufs s).part.sb.inodeBitmapLba)
      (copyBytes s.disk (512 * (mountPartition bufs s).part.sb.blockBitmapLba)
        (ideRead s.disk (u32 (s.part.startLba + 1)) s.mem bufs.sb 1) bufs.block
        (512 * (mountPartition bufs s).part.sb.blockBitmapSects))
      bufs.inode (512 * (mountPartition bufs s).part.sb.inodeBitmapSects) := rfl

theorem mountPartition_sb_eq : (mountPartition bufs s).part.sb =
    loadSuperBlock s.disk (512 * u32 (s.part.startLba + 1)) := by
  refine loadSuperBlock_congr fun j hj => ?_
  have hj : j < 512 * 1 := by omega
  exact copyBytes_at hj

theorem mountPartition_sb (hb : s.part.startLba + 1 < 2 ^ 32) :
    (mountPartition bufs s).part.sb = loadSuperBlock s.disk (512 * (s.part.startLba + 1)) := by
  rw [mountPartition_sb_eq, u32_of_lt hb]

theorem mountPartition_mem {sb : SuperBlock} (hsb : (mountPartition bufs s).part.sb = sb)
    (hbuf : BuffersApart bufs sb) :
    (∀ i < 512 * sb.inodeBitmapSects,
      (mountPartition bufs s).mem (bufs.inode + i) = s.disk (512 * sb.inodeBitmapLba + i)) ∧
    ∀ i < 512 * sb.blockBitmapSects,
      (mountPartition bufs s).mem (bufs.block + i) = s.disk (512 * sb.blockBitmapLba + i) := by
  rw [mountPartition_mem_eq, hsb]
  constructor
  · intro i hi
    exact copyBytes_at hi
  · intro i hi
    have hap := hbuf.bitmaps
    rw [copyBytes_outside (by unfold Apart at hap; omega)]
    exact copyBytes_at hi

/-- What a mount gives and safe steps keep. -/
structure MountInv (s₀ s : FsState) : Prop where
  areas : AreasApart s.part.startLba s.part.sb
  super_block : loadSuperBlock s.disk (512 * (s.part.startLba + 1)) = s.part.sb
  block_len : s.part.blockBitmap.bitmapLen = 512 * s.part.sb.blockBitmapSects
  inode_len : s.part.inodeBitmap.bitmapLen = 512 * s.part.sb.blockBitmapSects
  buffers : Apart s.part.blockBitmap.bits (512 * s.part.sb.blockBitmapSects)
    s.part.inodeBitmap.bits (512 * s.part.sb.inodeBitmapSects)
  inode_area : ∀ i < 512 * s.part.sb.inodeBitmapSects,
    s.disk (512 * s.part.sb.inodeBitmapLba + i) = s.mem (s.part.inodeBitmap.bits + i)
  block_area : ∀ i < 512 * s.part.sb.blockBitmapSects,
    s.disk (512 * s.part.sb.blockBitmapLba + i) = s.mem (s.part.blockBitmap.bits + i)
  outside : ∀ a, OutsideAreas s.part.sb a → s.disk a = s₀.disk a

theorem areaLen_eq {sb : SuperBlock} (h : sb.blockBitmapSects * 4096 < 2 ^ 31) :
    u32 (sb.blockBitmapSects * sectorSize) = 512 * sb.blockBitmapSects := by
  simp only [u32, sectorSize]
  omega

theorem mountInv_start (h : Mounted s) : MountInv s s := by
  obtain ⟨s₀, bufs, rfl, hareas, hbuf⟩ := h
  have hlen := areaLen_eq hareas.block_len
  obtain ⟨hinode, hblock⟩ := mountPartition_mem rfl hbuf
  have hstart := hareas.start_bound
  rw [mountPartition_startLba] at hstart
  constructor
  case areas => exact hareas
  case super_block =>
    rw [mountPartition_disk, mountPartition_startLba]
    exact (mountPartition_sb hstart).symm
  case block_len => rw [mountPartition_blockBitmap, hlen]
  case inode_len => rw [mountPartition_inodeBitmap, hlen]
  case buffers =>
    rw [mountPartition_blockBitmap, mountPartition_inodeBitmap]
    exact hbuf.bitmaps
  case inode_area =>
    intro i hi
    rw [mountPartition_disk, mountPartition_inodeBitmap]
    exact (hinode i hi).symm
  case block_area =>
    intro i hi
    rw [mountPartition_disk, mountPartition_blockBitmap]
    exact (hblock i hi).symm
  case outside => exact fun _ _ => rfl

theorem MountInv.inSync (h : MountInv s₀ s) : InSync s₀ s := by
  refine ⟨h.inode_area, h.block_area, h.outside, fun bufs hbuf => ?_⟩
  have hsb : (mountPartition bufs s).part.sb = s.part.sb :=
    (mountPartition_sb h.areas.start_bound).trans h.super_block
  have hlen := areaLen_eq h.areas.block_len
  have hmem := mountPartition_mem hsb hbuf
  refine ⟨hsb, ?_, ?_, fun i hi => ?_, fun i hi => ?_⟩
  · rw [mountPartition_inodeBitmap, hsb, hlen, h.inode_len]
  · rw [mountPartition_blockBitmap, hsb, hlen, h.block_len]
  · exact (hmem.1 i hi).trans (h.inode_area i hi)
  · exact (hmem.2 i hi).trans (h.block_area i hi)

/-! ## The safe steps -/

theorem inodeStep_safe (hsafe : Safe s .inode) : allocAndSync .inode s = s := by
  have hnone : bitmapScan s.mem s.part.inodeBitmap 1 = none := by
    cases hs : bitmapScan s.mem s.part.inodeBitmap 1 with
    | none => rfl
    | some idx =>
      have hf := bitmapScan_one_some hs
      have hu := hsafe idx hf.inside
      rw [hf.clear] at hu
      cases hu
  simp only [allocAndSync, inodeBitmapAlloc, hnone]

theorem blockStep_eq {idx : ℕ} (hs : bitmapScan s.mem s.part.blockBitmap 1 = some idx)
    (hidx : idx < 2 ^ 32) (hdata : s.part.sb.dataStartLba < 2 ^ 32) :
    allocAndSync .block s =
      { s with
        mem := bitmapSet s.mem s.part.blockBitmap idx true
        disk := copyBytes (bitmapSet s.mem s.part.blockBitmap idx true)
          (s.part.inodeBitmap.bits + 512 * (idx / 4096)) s.disk
          (512 * u32 (s.part.sb.blockBitmapLba + idx / 4096)) 512 } := by
  have hback : u32 (u32 (s.part.sb.dataStartLba + idx) + 2 ^ 32 - s.part.sb.dataStartLba) =
      idx := by
    simp only [u32]
    omega
  simp only [allocAndSync, blockBitmapAlloc, hs, bitmapSync, hback]
  rfl

theorem bitmapSet_outside {m : Bytes} {btmp : Bitmap} {idx i : ℕ} {v : Bool}
    (h : i ≠ btmp.bits + idx / 8) : bitmapSet m btmp idx v i = m i :=
  Function.update_of_ne h _ _

theorem mountInv_block (h : MountInv s₀ s) (hsafe : Safe s .block) :
    MountInv s₀ (allocAndSync .block s) := by
  cases hs : bitmapScan s.mem s.part.blockBitmap 1 with
  | none =>
    have : allocAndSync .block s = s := by
      simp only [allocAndSync, blockBitmapAlloc, hs]
    rw [this]
    exact h
  | some idx =>
    have hf := bitmapScan_one_some hs
    have hidx : idx < 4096 * s.part.sb.blockBitmapSects := by
      have := hf.inside
      rw [h.block_len] at this
      omega
    have hlen := h.areas.block_len
    have hbound := h.areas.block_bound
    have hareas := h.areas.areas
    have hsuper := h.areas.super_block
    have hbufs := h.buffers
    unfold Apart at hareas hsuper hbufs
    have hsec : u32 (s.part.sb.blockBitmapLba + idx / 4096) =
        s.part.sb.blockBitmapLba + idx / 4096 := u32_of_lt (by omega)
    rw [blockStep_eq hs (by omega) h.areas.data_bound, hsec]
    -- the inode bitmap's buffer is not the block bitmap's
    have hinodeMem : ∀ i < 512 * s.part.sb.inodeBitmapSects,
        bitmapSet s.mem s.part.blockBitmap idx true (s.part.inodeBitmap.bits + i) =
          s.mem (s.part.inodeBitmap.bits + i) := by
      intro i hi
      exact bitmapSet_outside (by omega)
    have hdiskOut : ∀ a, a < 512 * (s.part.sb.blockBitmapLba + idx / 4096) ∨
        512 * (s.part.sb.blockBitmapLba + idx / 4096) + 512 ≤ a →
        copyBytes (bitmapSet s.mem s.part.blockBitmap idx true)
          (s.part.inodeBitmap.bits + 512 * (idx / 4096)) s.disk
          (512 * (s.part.sb.blockBitmapLba + idx / 4096)) 512 a = s.disk a :=
      fun a ha => copyBytes_outside ha
    constructor
    case areas => exact h.areas
    case super_block =>
      refine Eq.trans (loadSuperBlock_congr fun j hj => ?_) h.super_block
      apply hdiskOut
      simp only
      omega
    case block_len => exact h.block_len
    case inode_len => exact h.inode_len
    case buffers => exact h.buffers
    case inode_area =>
      intro i hi
      have hi : i < 512 * s.part.sb.inodeBitmapSects := hi
      exact ((hdiskOut _ (by omega)).trans (h.inode_area i hi)).trans (hinodeMem i hi).symm
    case block_area =>
      intro i hi
      have hi : i < 512 * s.part.sb.blockBitmapSects := hi
      by_cases hsame : i / 512 = idx / 4096
      · obtain ⟨j, rfl⟩ : ∃ j, i = 512 * (idx / 4096) + j := ⟨i - 512 * (idx / 4096), by omega⟩
        have hj : j < 512 := by omega
        have hcopy := hsafe idx hf j hj
        have hat : copyBytes (bitmapSet s.mem s.part.blockBitmap idx true)
              (s.part.inodeBitmap.bits + 512 * (idx / 4096)) s.disk
              (512 * (s.part.sb.blockBitmapLba + idx / 4096)) 512
              (512 * (s.part.sb.blockBitmapLba + idx / 4096) + j) =
            bitmapSet s.mem s.part.blockBitmap idx true
              (s.part.inodeBitmap.bits + 512 * (idx / 4096) + j) := copyBytes_at hj
        have hpos : 512 * (s.part.sb.blockBitmapLba + idx / 4096) + j =
            512 * s.part.sb.blockBitmapLba + (512 * (idx / 4096) + j) := by omega
        rw [hpos] at hat
        simp only [Nat.add_assoc] at hat hcopy ⊢
        exact hat.trans hcopy
      · have hne : s.part.blockBitmap.bits + i ≠ s.part.blockBitmap.bits + idx / 8 := by omega
        refine ((hdiskOut _ ?_).trans (h.block_area i hi)).trans (bitmapSet_outside hne).symm
        have : (512 * s.part.sb.blockBitmapLba + i) / 512 = s.part.sb.blockBitmapLba + i / 512 := by
          omega
        omega
    case outside =>
      intro a ha
      have hb := ha.1
      refine (hdiskOut a ?_).trans (h.outside a ha)
      change a / 512 < s.part.sb.blockBitmapLba ∨
        s.part.sb.blockBitmapLba + s.part.sb.blockBitmapSects ≤ a / 512 at hb
      omega

/-! ## Runs -/

theorem mountInv_step {s' : FsState} (h : MountInv s₀ s) (hstep : SafeStep s s') :
    MountInv s₀ s' := by
  obtain ⟨op, hsafe, rfl⟩ := hstep
  cases op with
  | inode =>
    rw [inodeStep_safe hsafe]
    exact h
  | block => exact mountInv_block h hsafe

/-- Runs of safe steps keep disk and memory in step. -/
theorem bitmaps_in_sync (h₀ : Mounted s₀) (h : Relation.ReflTransGen SafeStep s₀ s) :
    InSync s₀ s := by
  have hinv : MountInv s₀ s := by
    induction h with
    | refl => exact mountInv_start h₀
    | tail _ hstep ih => exact mountInv_step ih hstep
  exact hinv.inSync

/-! ## A partition with one data block left -/

/-- A disk with a super block in sector 1: block bitmap in sector 2, inode bitmap in sector 3,
inode table from sector 4 on. All bits are set but bit 0 of the block bitmap. -/
def smallDisk (inodeByte : BitVec 8) : Bytes := fun a =>
  if a < 1024 then storeSuperBlock (fun _ => 0#8) 512
    ⟨0x19990814, 1024, 4096, 0, 2, 1, 3, 1, 4, 608, 612, 0, 24⟩ a
  else if a = 1024 then 0xfe#8
  else if a = 1536 then inodeByte
  else if a < 2048 then 0xff#8
  else 0#8

def smallState (inodeByte : BitVec 8) : FsState :=
  mountPartition ⟨4096, 8192, 12288⟩
    ⟨fun _ => 0#8, smallDisk inodeByte, ⟨0, 1024, ⟨0, 0, 0, 0, 0, 0, 0, 0, 0, 0, 0, 0, 0⟩,
      ⟨0, 0⟩, ⟨0, 0⟩⟩⟩

theorem smallState_sb (b : BitVec 8) : (smallState b).part.sb =
    ⟨0x19990814, 1024, 4096, 0, 2, 1, 3, 1, 4, 608, 612, 0, 24⟩ := by
  have h : (smallState b).part.sb = loadSuperBlock (smallDisk b) 512 :=
    mountPartition_sb (by simp only; omega)
  have hload : loadSuperBlock (smallDisk b) 512 =
      loadSuperBlock (storeSuperBlock (fun _ => 0#8) 512
        ⟨0x19990814, 1024, 4096, 0, 2, 1, 3, 1, 4, 608, 612, 0, 24⟩) 512 :=
    loadSuperBlock_congr fun j hj => if_pos (by omega)
  rw [h, hload]
  decide +kernel

theorem mounted_smallState (b : BitVec 8) : Mounted (smallState b) := by
  have hsb := smallState_sb b
  have hstart : (smallState b).part.startLba = 0 := rfl
  have hareas : AreasApart (smallState b).part.startLba (smallState b).part.sb := by
    rw [hsb, hstart]
    constructor <;> decide
  have hbufs : BuffersApart ⟨4096, 8192, 12288⟩ (smallState b).part.sb := by
    rw [hsb]
    constructor <;> decide
  exact ⟨_, _, rfl, hareas, hbufs⟩

/-- With a full inode bitmap, the last block can be allocated. -/
theorem bitmaps_in_sync_last_block : InSync (smallState 0xff#8)
    (allocAndSync .block (smallState 0xff#8)) := by
  refine bitmaps_in_sync (mounted_smallState _) (.single ⟨.block, ?_, rfl⟩)
  intro i hi j hj
  have hclear : usedBit (smallState 0xff#8).mem (smallState 0xff#8).part.blockBitmap 0 = false := by
    decide +kernel
  have hzero : i = 0 := by
    by_contra hne
    rw [hi.least 0 (by omega)] at hclear
    cases hclear
  subst hzero
  have hall : ∀ j < 512, bitmapSet (smallState 0xff#8).mem (smallState 0xff#8).part.blockBitmap 0
      true ((smallState 0xff#8).part.inodeBitmap.bits + 512 * (0 / 4096) + j) =
      bitmapSet (smallState 0xff#8).mem (smallState 0xff#8).part.blockBitmap 0 true
        ((smallState 0xff#8).part.blockBitmap.bits + 512 * (0 / 4096) + j) := by
    decide +kernel
  exact hall j hj

/-- One allocated inode is lost at the next mount. -/
theorem inode_alloc_not_synced : Mounted (smallState 0xfe#8) ∧
    AllocStep (smallState 0xfe#8) (allocAndSync .inode (smallState 0xfe#8)) ∧
    ¬ InSync (smallState 0xfe#8) (allocAndSync .inode (smallState 0xfe#8)) := by
  refine ⟨mounted_smallState _, ⟨.inode, rfl⟩, fun h => ?_⟩
  have hsb : (allocAndSync .inode (smallState 0xfe#8)).part.sb.inodeBitmapSects = 1 := by
    decide +kernel
  have hbyte := h.inode_area 0 (by rw [hsb]; decide)
  revert hbyte
  decide +kernel

end FsBitmaps
