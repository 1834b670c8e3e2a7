import Leeos.DevicePartitionDisks
import Leeos.FsFormat
import Leeos.LibStdio

/-!
# The start of the file system (`filesys_init` in `fs/fs.c`)

The start looks at every partition of the second disk of each channel and formats those whose super
block has not the magic number. A format ends with the root directory in sector 1216 of the disk,
wherever its partition lies, and so it can undo the super block of a partition that starts at 1215.
-/
namespace FsStartup

open KernelBitmap FsDisk FsLayout FsFormat LibStdint
open DevicePartitions (Partition PartTag)
open DevicePartitionDisks (IdeState)
open LibStdio (numeral)

def magic : ℕ := 0x19990814

/-- A record of a partition, in one of the two arrays of the disk `hd`. -/
structure Slot where
  hd : ℕ
  tag : PartTag
  deriving DecidableEq, Repr

def deref (ide : IdeState) (x : Slot) : Partition :=
  match x.tag with
  | .prim i => ide.primParts x.hd i
  | .logic i => ide.logicParts x.hd i

def next : PartTag → PartTag
  | .prim i => .prim (i + 1)
  | .logic i => .logic (i + 1)

def diskName (hd : ℕ) : String := "sd" ++ String.singleton (Char.ofNat (97 + hd))

def partName (x : Slot) : String :=
  match x.tag with
  | .prim i => diskName x.hd ++ toString (i + 1)
  | .logic i => diskName x.hd ++ toString (i + 5)

def hasText (x : Slot) : String := partName x ++ " has filesystem \n"

def formattingText (x : Slot) : String :=
  "formatting " ++ diskName x.hd ++ " parttin " ++ partName x ++ " \n"

def hexText (n : ℕ) : String := String.ofList ((numeral 16 n).map fun c => Char.ofNat c.toNat)

def formatTexts (x : Slot) (sb : SuperBlock) : List String :=
  [partName x ++ " info:\n",
    "\tmagic:0x" ++ hexText sb.magic ++ "\n\tpart_lba_base:0x" ++ hexText sb.partLbaBase ++
      "\n\tall_sectors:0x" ++ hexText sb.secCnt ++ "\n\tinode_cnt:0x" ++ hexText sb.inodeCnt ++
      "\n\tblock_bitmap_lba:0x" ++ hexText sb.blockBitmapLba ++
      "\n\tblock_bitmap_sectors:0x" ++ hexText sb.blockBitmapSects ++
      "\n\tinode_bitmap_lba:0x" ++ hexText sb.inodeBitmapLba ++
      "\n\tinode_bitmap_sectors:0x" ++ hexText sb.inodeBitmapSects ++
      "\n\tinode_table_lba:0x" ++ hexText sb.inodeTableLba ++
      "\n\tinode_table_sectors:0x" ++ hexText sb.inodeTableSects ++
      "\n\tdata_start_lba:0x" ++ hexText sb.dataStartLba ++ "\n",
    "    super_block_lba:0x" ++ hexText (u32 (sb.partLbaBase + 1)) ++ "\n",
    " root_dir_lba: 0x" ++ hexText sb.dataStartLba ++ "\n",
    partName x ++ " format done \n"]

structure Startup where
  disks : ℕ → Bytes
  printed : List String

def Startup.print (st : Startup) (text : String) : Startup :=
  { st with printed := st.printed ++ [text] }

/-- `ide_write` with its two assertions. -/
def write (disk : Bytes) (w : DiskWrite) : Option Bytes :=
  if w.lba ≤ maxLba ∧ 0 < w.secCnt then some (w.apply disk) else none

def Partition.entry (part : Partition) : PartitionEntry := ⟨part.startLba, part.sectorCounter⟩

def superSector (part : Partition) : ℕ := u32 (part.startLba + 1)

def HasFilesystem (disk : Bytes) (part : Partition) : Prop :=
  loadWord disk (512 * superSector part) = magic

instance (disk : Bytes) (part : Partition) : Decidable (HasFilesystem disk part) :=
  inferInstanceAs (Decidable (_ = _))

/-- What the padding of the super block and the buffer of a format hold before. -/
structure Garbage where
  stack : Bytes
  heap : Bytes

/-- One round over a record; `none` is a failed assertion. -/
def initPart (ide : IdeState) (garbage : Slot → Garbage) (x : Slot) (st : Startup) :
    Option Startup :=
  let part := deref ide x
  if part.sectorCounter = 0 then some st
  else if maxLba < superSector part then none
  else if HasFilesystem (st.disks x.hd) part then some (st.print (hasText x))
  else do
    let ws := formatWrites (Partition.entry part) (garbage x).stack (garbage x).heap
    let disk ← ws.foldlM write (st.disks part.myDisk)
    let texts := formatTexts x (formatSuperBlock (Partition.entry part))
    some { disks := Function.update st.disks part.myDisk disk
           printed := st.printed ++ formattingText x :: texts }

/-- The twelve rounds of a disk; the pointer moves to the other array at the fifth. -/
def initParts (ide : IdeState) (garbage : Slot → Garbage) (hd : ℕ) (st : Startup) :
    Option Startup := do
  let r ← (List.range 12).foldlM (fun (r : Startup × PartTag) partIdx => do
    let part := if partIdx = 4 then .logic 0 else r.2
    let st ← initPart ide garbage ⟨hd, part⟩ r.1
    pure (st, next part)) (st, .prim 0)
  pure r.1

/-- The start up to the mount. The first disk of a channel is skipped. -/
def filesysInit (ide : IdeState) (garbage : Slot → Garbage) (channelCnt : ℕ) (st : Startup) :
    Option Startup :=
  (List.range channelCnt).foldlM (fun st no => initParts ide garbage (2 * no + 1) st) st

/-! ## The records in the order of the start -/

def diskSlots (hd : ℕ) : List Slot :=
  (List.range 4).map (fun i => ⟨hd, .prim i⟩) ++ (List.range 8).map fun i => ⟨hd, .logic i⟩

def slots (channelCnt : ℕ) : List Slot :=
  (List.range channelCnt).flatMap fun no => diskSlots (2 * no + 1)

variable {ide : IdeState} {garbage : Slot → Garbage} {channelCnt hd : ℕ} {st st' : Startup}
  {part other : Partition} {disk : Bytes} {stack heap : Bytes} {x y : Slot} {xs done : List Slot}

theorem initParts_eq (ide : IdeState) (garbage : Slot → Garbage) (hd : ℕ) (st : Startup) :
    initParts ide garbage hd st =
      (diskSlots hd).foldlM (fun st x => initPart ide garbage x st) st := by
  simp [initParts, diskSlots, List.range_succ, next, Option.bind_assoc]

theorem filesysInit_eq (ide : IdeState) (garbage : Slot → Garbage) (channelCnt : ℕ)
    (st : Startup) : filesysInit ide garbage channelCnt st =
      (slots channelCnt).foldlM (fun st x => initPart ide garbage x st) st := by
  rw [filesysInit, slots]
  induction List.range channelCnt generalizing st with
  | nil => rfl
  | cons no rest ih =>
    rw [List.foldlM_cons, List.flatMap_cons, List.foldlM_append, initParts_eq]
    exact bind_congr ih

/-! ## One format -/

def Used (part : Partition) : Prop := part.sectorCounter ≠ 0

instance (part : Partition) : Decidable (Used part) := inferInstanceAs (Decidable (_ ≠ _))

/-- A partition that the format has room in, on the disk. -/
structure Fits (part : Partition) : Prop where
  size : 613 ≤ part.sectorCounter
  room : part.startLba + part.sectorCounter ≤ maxLba + 1

def InSector (lba a : ℕ) : Prop := 512 * lba ≤ a ∧ a < 512 * lba + 512

/-- The byte `a` is in the partition. -/
def Inside (part : Partition) (a : ℕ) : Prop :=
  512 * part.startLba ≤ a ∧ a < 512 * (part.startLba + part.sectorCounter)

/-- The numbers of a layout without wrap. -/
structure Numbers (part : Partition) : Prop where
  positive : 0 < blockBitmapSects (Partition.entry part)
  room : 611 + blockBitmapSects (Partition.entry part) ≤ part.sectorCounter
  last : part.startLba + part.sectorCounter ≤ 163840

theorem Fits.numbers (h : Fits part) : Numbers part := by
  have hmax : maxLba + 1 = 163840 := rfl
  have hsize := h.size
  have hroom := h.room
  have hsects := @blockBitmapSects_eq (Partition.entry part) hsize
    (show part.sectorCounter + 3484 < 2 ^ 32 by omega)
  simp only [Partition.entry] at hsects
  constructor
  case positive => simp only [Partition.entry]; omega
  case room => simp only [Partition.entry]; omega
  case last => omega

theorem formatWrites_places (h : Fits part) (stack heap : Bytes) :
    (formatWrites (Partition.entry part) stack heap).map (fun w => (w.lba, w.secCnt)) =
      [(part.startLba + 1, 1),
        (part.startLba + 2, blockBitmapSects (Partition.entry part)),
        (part.startLba + 2 + blockBitmapSects (Partition.entry part), 1),
        (part.startLba + 3 + blockBitmapSects (Partition.entry part), 608), (1216, 1)] := by
  have hn := h.numbers
  have hroom := hn.room
  have hlast := hn.last
  have hone : inodeBitmapSects = 1 := by decide
  have htable : inodeTableSects = 608 := by decide
  have hstart : (Partition.entry part).startLba = part.startLba := rfl
  have h₁ : u32 (part.startLba + 1) = part.startLba + 1 := u32_of_lt (by omega)
  have h₂ : u32 (part.startLba + 2) = part.startLba + 2 := u32_of_lt (by omega)
  have h₃ : u32 (part.startLba + 2 + blockBitmapSects (Partition.entry part)) =
      part.startLba + 2 + blockBitmapSects (Partition.entry part) := u32_of_lt (by omega)
  have h₄ : u32 (part.startLba + 2 + blockBitmapSects (Partition.entry part) + 1) =
      part.startLba + 3 + blockBitmapSects (Partition.entry part) := by
    rw [u32_of_lt (by omega)]
    omega
  have h₅ : u32 (608 + 608) = 1216 := by decide
  simp only [formatWrites, formatSuperBlock, List.map_cons, List.map_nil, hone, htable, hstart, h₁,
    h₂, h₃, h₄, h₅]

/-- A write of a format stays in the partition or goes to sector 1216. -/
theorem formatWrites_range (h : Fits part) {w : DiskWrite}
    (hw : w ∈ formatWrites (Partition.entry part) stack heap) :
    w.lba ≤ maxLba ∧ 0 < w.secCnt ∧ ((w.lba, w.secCnt) = (1216, 1) ∨
      part.startLba ≤ w.lba ∧ w.lba + w.secCnt ≤ part.startLba + part.sectorCounter) := by
  have hn := h.numbers
  have hpos := hn.positive
  have hroom := hn.room
  have hlast := hn.last
  have hmax : maxLba = 163839 := rfl
  have hmem := List.mem_map_of_mem (f := fun w : DiskWrite => (w.lba, w.secCnt)) hw
  rw [formatWrites_places h] at hmem
  simp only [List.mem_cons, List.not_mem_nil, or_false, Prod.mk.injEq] at hmem ⊢
  omega

theorem write_ok {w : DiskWrite} (hlba : w.lba ≤ maxLba) (hcnt : 0 < w.secCnt) :
    write disk w = some (w.apply disk) := if_pos ⟨hlba, hcnt⟩

theorem writes_ok {ws : List DiskWrite} (h : ∀ w ∈ ws, w.lba ≤ maxLba ∧ 0 < w.secCnt) :
    ws.foldlM write disk = some (ws.foldl DiskWrite.apply disk) := by
  induction ws generalizing disk with
  | nil => rfl
  | cons w rest ih =>
    obtain ⟨hlba, hcnt⟩ := h w List.mem_cons_self
    rw [List.foldlM_cons, write_ok hlba hcnt, List.foldl_cons]
    exact ih fun v hv => h v (List.mem_cons_of_mem w hv)

theorem writes_outside {ws : List DiskWrite} {a : ℕ}
    (h : ∀ w ∈ ws, a < 512 * w.lba ∨ 512 * w.lba + 512 * w.secCnt ≤ a) :
    ws.foldl DiskWrite.apply disk a = disk a := by
  induction ws generalizing disk with
  | nil => rfl
  | cons w rest ih =>
    rw [List.foldl_cons, ih fun v hv => h v (List.mem_cons_of_mem w hv)]
    exact apply_outside (h w List.mem_cons_self)

theorem format_ok (h : Fits part) (stack heap disk : Bytes) :
    (formatWrites (Partition.entry part) stack heap).foldlM write disk =
      some (partitionFormat (Partition.entry part) stack heap disk) := by
  apply writes_ok
  intro w hw
  exact ⟨(formatWrites_range h hw).1, (formatWrites_range h hw).2.1⟩

/-- Beyond its partition a format writes sector 1216. -/
theorem format_outside (h : Fits part) {a : ℕ} (hpart : ¬ Inside part a)
    (hroot : ¬ InSector 1216 a) :
    partitionFormat (Partition.entry part) stack heap disk a = disk a := by
  apply writes_outside
  intro w hw
  rw [Inside] at hpart
  rw [InSector] at hroot
  obtain ⟨-, -, hwhere⟩ := formatWrites_range h hw
  rw [Prod.mk.injEq] at hwhere
  omega

theorem superSector_eq (h : Fits part) : superSector part = part.startLba + 1 := by
  have hlast := h.numbers.last
  have hsize := h.size
  exact u32_of_lt (by omega)

/-- The super block is in place unless the root directory is written over it. -/
theorem format_filesystem (h : Fits part) (hne : part.startLba ≠ 1215) :
    HasFilesystem (partitionFormat (Partition.entry part) stack heap disk) part := by
  have hlast := h.numbers.last
  have hsize := h.size
  have hword : loadWord (storeSuperBlock stack 0 (formatSuperBlock (Partition.entry part))) 0 =
      magic := @loadWord_storeWords _ _ 0 0 magic rfl (by decide)
  rw [HasFilesystem, ← hword]
  apply loadWord_congr
  intro j hj
  rw [Nat.zero_add]
  exact formatted_super_block (show (Partition.entry part).startLba < 2 ^ 32 by
    simp only [Partition.entry]; omega) hne stack heap disk (by omega)

theorem format_root (part : Partition) (stack heap disk : Bytes) :
    loadWord (partitionFormat (Partition.entry part) stack heap disk) (512 * 1216) = 0x2e := by
  obtain ⟨buf, hbuf⟩ := formatted_root_dir (Partition.entry part) stack heap disk
  have hsize := bufSize_ge (Partition.entry part)
  have hword : loadWord (rootDirBuffer (memset buf 0 0
      (bufSize (formatSuperBlock (Partition.entry part))))) 0 = 0x2e := by
    have hzero : ∀ i < 512, memset buf 0 0#8 (bufSize (formatSuperBlock (Partition.entry part))) i =
        0#8 := fun i hi => memset_inside (by omega) (by omega)
    simp [rootDirBuffer, loadWord, storeWord, hzero]
  rw [← hword]
  apply loadWord_congr
  intro j hj
  rw [Nat.zero_add]
  exact hbuf j (by omega)

/-! ## A start, partition after partition -/

/-- What the records must be like: those in use are of their disk, fit, and do not overlap. -/
structure Layout (ide : IdeState) (xs : List Slot) : Prop where
  own : ∀ x ∈ xs, Used (deref ide x) → (deref ide x).myDisk = x.hd
  fits : ∀ x ∈ xs, Used (deref ide x) → Fits (deref ide x)
  apart : ∀ x ∈ xs, ∀ y ∈ xs, x ≠ y → x.hd = y.hd → Used (deref ide x) → Used (deref ide y) →
    ∀ a, Inside (deref ide x) a → ¬ Inside (deref ide y) a

/-- The partition of the record has a file system. -/
def Ready (ide : IdeState) (st : Startup) (x : Slot) : Prop :=
  HasFilesystem (st.disks x.hd) (deref ide x)

instance (ide : IdeState) (st : Startup) (x : Slot) : Decidable (Ready ide st x) :=
  inferInstanceAs (Decidable (HasFilesystem _ _))

/-- What a format of the record's partition leaves. -/
def formatted (ide : IdeState) (garbage : Slot → Garbage) (x : Slot) (st : Startup) : Startup where
  disks := Function.update st.disks x.hd (partitionFormat (Partition.entry (deref ide x))
    (garbage x).stack (garbage x).heap (st.disks x.hd))
  printed := st.printed ++
    formattingText x :: formatTexts x (formatSuperBlock (Partition.entry (deref ide x)))

/-- All that a round over a record of a layout can do. -/
theorem initPart_cases (garbage : Slot → Garbage) (st : Startup)
    (hown : Used (deref ide x) → (deref ide x).myDisk = x.hd)
    (hfits : Used (deref ide x) → Fits (deref ide x)) :
    (¬ Used (deref ide x) ∧ initPart ide garbage x st = some st) ∨
    (Used (deref ide x) ∧ Ready ide st x ∧
      initPart ide garbage x st = some (st.print (hasText x))) ∨
    (Used (deref ide x) ∧ ¬ Ready ide st x ∧
      initPart ide garbage x st = some (formatted ide garbage x st)) := by
  by_cases hused : Used (deref ide x)
  · have hfit := hfits hused
    have hlast := hfit.numbers.last
    have hsize := hfit.size
    have hmax : maxLba = 163839 := rfl
    have hcnt : ¬ (deref ide x).sectorCounter = 0 := hused
    have hsector : ¬ maxLba < superSector (deref ide x) := by
      rw [superSector_eq hfit]
      omega
    by_cases hready : Ready ide st x
    · refine Or.inr (Or.inl ⟨hused, hready, ?_⟩)
      simp only [initPart, if_neg hcnt, if_neg hsector]
      exact if_pos hready
    · refine Or.inr (Or.inr ⟨hused, hready, ?_⟩)
      simp only [initPart, if_neg hcnt, if_neg hsector, hown hused]
      have hmagic : ¬ HasFilesystem (st.disks x.hd) (deref ide x) := hready
      rw [if_neg hmagic, format_ok hfit]
      rfl
  · refine Or.inl ⟨hused, ?_⟩
    have hcnt : (deref ide x).sectorCounter = 0 := not_not.mp hused
    simp only [initPart, if_pos hcnt]

theorem formatted_disk (x : Slot) (st : Startup) : (formatted ide garbage x st).disks x.hd =
    partitionFormat (Partition.entry (deref ide x)) (garbage x).stack (garbage x).heap
      (st.disks x.hd) := Function.update_self _ _ _

theorem formatted_other (h : hd ≠ x.hd) :
    (formatted ide garbage x st).disks hd = st.disks hd := Function.update_of_ne h _ _

/-- A format leaves the file systems of the other partitions, but for one in sector 1216. -/
theorem formatted_ready (hx : Fits (deref ide x)) (hy : Fits (deref ide y))
    (hapart : y.hd = x.hd → ∀ a, Inside (deref ide y) a → ¬ Inside (deref ide x) a)
    (hne : (deref ide y).startLba ≠ 1215) (h : Ready ide st y) :
    Ready ide (formatted ide garbage x st) y := by
  by_cases hd : y.hd = x.hd
  · have hsize := hy.size
    have hsector := superSector_eq hy
    rw [Ready, HasFilesystem, hd, formatted_disk, ← h, hd]
    apply loadWord_congr
    intro j hj
    apply format_outside hx
    · apply hapart hd
      rw [Inside, hsector]
      omega
    · rw [InSector, hsector]
      omega
  · rwa [Ready, formatted_other hd]

/-- Where a start stands after the rounds over `done`, out of all the records. -/
structure Progress (ide : IdeState) (all done : List Slot) (st st' : Startup) : Prop where
  ready : ∀ x ∈ all, Used (deref ide x) → (deref ide x).startLba ≠ 1215 →
    Ready ide st x ∨ x ∈ done → Ready ide st' x
  disks : ∀ hd,
    (st'.disks hd = st.disks hd ∧
      ∀ x ∈ done, x.hd = hd → Used (deref ide x) → Ready ide st x) ∨
    (loadWord (st'.disks hd) (512 * 1216) = 0x2e ∧
      ∃ x ∈ done, x.hd = hd ∧ Used (deref ide x) ∧ ¬ Ready ide st x)
  outside : ∀ hd a, ¬ InSector 1216 a →
    (∀ x ∈ all, x.hd = hd → Used (deref ide x) →
      (Ready ide st x → (deref ide x).startLba = 1215) → ¬ Inside (deref ide x) a) →
    st'.disks hd a = st.disks hd a

theorem progress_nil (ide : IdeState) (all : List Slot) (st : Startup) :
    Progress ide all [] st st := by
  constructor
  case ready =>
    rintro x - - - (hready | hmem)
    · exact hready
    · cases hmem
  case disks => exact fun hd => Or.inl ⟨rfl, fun x hx => absurd hx List.not_mem_nil⟩
  case outside => exact fun hd a _ _ => rfl

/-- The round over a record that has nothing to format. -/
theorem progress_skip {all : List Slot} {st₁ st₂ : Startup} (h : Progress ide all done st st₁)
    (hdisks : st₂.disks = st₁.disks) (hx : Used (deref ide x) → Ready ide st₁ x) :
    Progress ide all (done ++ [x]) st st₂ := by
  have hsame : ∀ y, Ready ide st₂ y ↔ Ready ide st₁ y := fun y => by
    rw [Ready, hdisks]
    rfl
  constructor
  case ready =>
    intro y hy hused hne hwhy
    rw [hsame]
    rcases hwhy with hready | hmem
    · exact h.ready y hy hused hne (Or.inl hready)
    · rcases List.mem_append.mp hmem with hmem | hmem
      · exact h.ready y hy hused hne (Or.inr hmem)
      · obtain rfl := List.mem_singleton.mp hmem
        exact hx hused
  case disks =>
    intro hd
    rw [hdisks]
    rcases h.disks hd with ⟨heq, hclean⟩ | ⟨hroot, y, hy, hfound⟩
    · refine Or.inl ⟨heq, fun y hy hyd hused => ?_⟩
      rcases List.mem_append.mp hy with hmem | hmem
      · exact hclean y hmem hyd hused
      · obtain rfl := List.mem_singleton.mp hmem
        have hready := hx hused
        rwa [Ready, hyd, heq, ← hyd] at hready
    · exact Or.inr ⟨hroot, y, List.mem_append_left _ hy, hfound⟩
  case outside =>
    intro hd a hsector hout
    rw [hdisks]
    exact h.outside hd a hsector hout

theorem progress_format {all : List Slot} {st₁ : Startup} (hl : Layout ide all) (hx : x ∈ all)
    (h : Progress ide all done st st₁) (hused : Used (deref ide x)) (hnot : ¬ Ready ide st₁ x) :
    Progress ide all (done ++ [x]) st (formatted ide garbage x st₁) := by
  have hfit := hl.fits x hx hused
  constructor
  case ready =>
    intro y hy hyused hne hwhy
    by_cases hyx : y = x
    · subst hyx
      rw [Ready, formatted_disk]
      exact format_filesystem hfit hne
    · have hready : Ready ide st₁ y := by
        apply h.ready y hy hyused hne
        apply hwhy.imp_right
        intro hmem
        rcases List.mem_append.mp hmem with hmem | hmem
        · exact hmem
        · exact absurd (List.mem_singleton.mp hmem) hyx
      exact formatted_ready hfit (hl.fits y hy hyused)
        (fun hd => hl.apart y hy x hx hyx hd hyused hused) hne hready
  case disks =>
    intro hd
    by_cases hxd : hd = x.hd
    · subst hxd
      right
      constructor
      · rw [formatted_disk]
        exact format_root _ _ _ _
      · rcases h.disks x.hd with ⟨heq, -⟩ | ⟨-, y, hy, hfound⟩
        · refine ⟨x, by simp, rfl, hused, ?_⟩
          rwa [Ready, heq] at hnot
        · exact ⟨y, List.mem_append_left _ hy, hfound⟩
    · rw [formatted_other hxd]
      rcases h.disks hd with ⟨heq, hclean⟩ | ⟨hroot, y, hy, hfound⟩
      · refine Or.inl ⟨heq, fun y hy hyd hyused => ?_⟩
        rcases List.mem_append.mp hy with hmem | hmem
        · exact hclean y hmem hyd hyused
        · obtain rfl := List.mem_singleton.mp hmem
          exact absurd hyd.symm hxd
      · exact Or.inr ⟨hroot, y, List.mem_append_left _ hy, hfound⟩
  case outside =>
    intro hd a hsector hout
    rw [← h.outside hd a hsector hout]
    by_cases hxd : hd = x.hd
    · subst hxd
      rw [formatted_disk]
      refine format_outside hfit (hout x hx rfl hused fun hready => ?_) hsector
      by_contra hne
      exact hnot (h.ready x hx hused hne (Or.inl hready))
    · rw [formatted_other hxd]

theorem rounds_progress {all : List Slot} (hl : Layout ide all) (hxs : ∀ x ∈ xs, x ∈ all)
    {st₁ : Startup} (h : Progress ide all done st st₁) :
    ∃ st₂, xs.foldlM (fun st x => initPart ide garbage x st) st₁ = some st₂ ∧
      Progress ide all (done ++ xs) st st₂ := by
  induction xs generalizing done st₁ with
  | nil => exact ⟨st₁, rfl, by rwa [List.append_nil]⟩
  | cons x rest ih =>
    have hx := hxs x List.mem_cons_self
    have hrest : ∀ y ∈ rest, y ∈ all := fun y hy => hxs y (List.mem_cons_of_mem x hy)
    have hdone : done ++ x :: rest = done ++ [x] ++ rest := by simp
    rw [List.foldlM_cons, hdone]
    rcases initPart_cases garbage st₁ (hl.own x hx) (hl.fits x hx) with
      ⟨hempty, heq⟩ | ⟨hused, hready, heq⟩ | ⟨hused, hnot, heq⟩
    · rw [heq]
      exact ih hrest (progress_skip h rfl fun hused => absurd hused hempty)
    · rw [heq]
      exact ih hrest (progress_skip h rfl fun _ => hready)
    · rw [heq]
      exact ih hrest (progress_format hl hx h hused hnot)

theorem start_progress (garbage : Slot → Garbage) (st : Startup)
    (hl : Layout ide (slots channelCnt)) :
    ∃ st', filesysInit ide garbage channelCnt st = some st' ∧
      Progress ide (slots channelCnt) (slots channelCnt) st st' := by
  rw [filesysInit_eq]
  exact rounds_progress hl (fun x hx => hx) (progress_nil ide (slots channelCnt) st)

/-! ## What a start leaves -/

/-- A partition has a file system behind the start, unless it starts at 1215 and one of its disk
was formatted. -/
theorem start_ready (garbage : Slot → Garbage) (st : Startup)
    (hl : Layout ide (slots channelCnt)) :
    ∃ st', filesysInit ide garbage channelCnt st = some st' ∧
      ∀ x ∈ slots channelCnt, Used (deref ide x) →
        (Ready ide st' x ↔ (deref ide x).startLba ≠ 1215 ∨
          ∀ y ∈ slots channelCnt, y.hd = x.hd → Used (deref ide y) → Ready ide st y) := by
  obtain ⟨st', hrun, h⟩ := start_progress garbage st hl
  refine ⟨st', hrun, fun x hx hused => ?_⟩
  by_cases hne : (deref ide x).startLba = 1215
  · have hsector : superSector (deref ide x) = 1216 := by rw [superSector, hne]; decide
    rcases h.disks x.hd with ⟨heq, hclean⟩ | ⟨hroot, y, hy, hyd, hyused, hnot⟩
    · have hready := hclean x hx rfl hused
      rw [Ready, ← heq] at hready
      exact ⟨fun _ => Or.inr hclean, fun _ => hready⟩
    · constructor
      · intro hready
        rw [Ready, HasFilesystem, hsector, hroot] at hready
        cases hready
      · rintro (hstart | hall)
        · exact absurd hne hstart
        · exact absurd (hall y hy hyd hyused) hnot
  · exact ⟨fun _ => Or.inl hne, fun _ => h.ready x hx hused hne (Or.inr hx)⟩

/-- Two partitions of the second disk, the first of which starts at 1215. -/
def twoParts : IdeState :=
  { DevicePartitionDisks.started with
    primParts := fun hd i =>
      if hd = 1 ∧ i = 0 then ⟨1215, 1000, 1⟩ else if hd = 1 ∧ i = 1 then ⟨5000, 700, 1⟩
      else ⟨0, 0, 0⟩ }

theorem twoParts_layout : Layout twoParts (slots 1) := by
  have hused : ∀ x ∈ slots 1, Used (deref twoParts x) → x = ⟨1, .prim 0⟩ ∨ x = ⟨1, .prim 1⟩ := by
    decide
  have hfirst : deref twoParts ⟨1, .prim 0⟩ = ⟨1215, 1000, 1⟩ := rfl
  have hsecond : deref twoParts ⟨1, .prim 1⟩ = ⟨5000, 700, 1⟩ := rfl
  constructor
  case own => decide
  case fits =>
    intro x hx hxused
    rcases hused x hx hxused with rfl | rfl
    · exact ⟨by decide, by decide⟩
    · exact ⟨by decide, by decide⟩
  case apart =>
    intro x hx y hy hne _ hxused hyused a hinside
    rw [Inside] at hinside ⊢
    rcases hused x hx hxused with rfl | rfl <;> rcases hused y hy hyused with rfl | rfl
    · exact absurd rfl hne
    · rw [hfirst] at hinside
      rw [hsecond]
      dsimp only at hinside ⊢
      omega
    · rw [hsecond] at hinside
      rw [hfirst]
      dsimp only at hinside ⊢
      omega
    · exact absurd rfl hne

theorem start_ready_sample :
    ∃ garbage st', filesysInit twoParts garbage 1 ⟨fun _ _ => 0, []⟩ = some st' ∧
      ¬ Ready twoParts st' ⟨1, .prim 0⟩ ∧ Ready twoParts st' ⟨1, .prim 1⟩ := by
  let garbage : Slot → Garbage := fun _ => ⟨fun _ => 0, fun _ => 0⟩
  obtain ⟨st', hrun, hiff⟩ :=
    start_ready garbage ⟨fun _ _ => 0, []⟩ twoParts_layout
  refine ⟨garbage, st', hrun, fun hready => ?_, ?_⟩
  · rcases (hiff ⟨1, .prim 0⟩ (by decide) (by decide)).mp hready with hne | hall
    · exact hne rfl
    · have hmagic := hall ⟨1, .prim 1⟩ (by decide) rfl (by decide)
      revert hmagic
      decide
  · exact (hiff ⟨1, .prim 1⟩ (by decide) (by decide)).mpr (Or.inl (by decide))

/-- What a start changes is on a disk with a partition that has no file system, in sector 1216, in
such a partition or in one that starts at 1215. -/
theorem start_changes (garbage : Slot → Garbage) (st : Startup)
    (hl : Layout ide (slots channelCnt)) :
    ∃ st', filesysInit ide garbage channelCnt st = some st' ∧
      ∀ hd a, st'.disks hd a ≠ st.disks hd a →
        (∃ x ∈ slots channelCnt, x.hd = hd ∧ Used (deref ide x) ∧ ¬ Ready ide st x) ∧
        (InSector 1216 a ∨ ∃ x ∈ slots channelCnt, x.hd = hd ∧ Used (deref ide x) ∧
          (¬ Ready ide st x ∨ (deref ide x).startLba = 1215) ∧ Inside (deref ide x) a) := by
  obtain ⟨st', hrun, h⟩ := start_progress garbage st hl
  refine ⟨st', hrun, fun hd a hchange => ⟨?_, ?_⟩⟩
  · rcases h.disks hd with ⟨heq, -⟩ | ⟨-, hdirty⟩
    · exact absurd (congrFun heq a) hchange
    · exact hdirty
  · by_contra hnone
    rw [not_or] at hnone
    apply hchange
    apply h.outside hd a hnone.1
    intro x hx hxd hused hwhy hinside
    exact hnone.2 ⟨x, hx, hxd, hused, imp_iff_not_or.mp hwhy, hinside⟩

theorem start_changes_sample :
    ∃ garbage st', filesysInit twoParts garbage 1 ⟨fun _ _ => 0, []⟩ = some st' ∧
      st'.disks 0 = fun _ => 0 := by
  let garbage : Slot → Garbage := fun _ => ⟨fun _ => 0, fun _ => 0⟩
  obtain ⟨st', hrun, hchanges⟩ :=
    start_changes garbage ⟨fun _ _ => 0, []⟩ twoParts_layout
  refine ⟨garbage, st', hrun, funext fun a => ?_⟩
  by_contra hne
  obtain ⟨⟨x, hx, hhd, -, -⟩, -⟩ := hchanges 0 a hne
  have hodd : ∀ y ∈ slots 1, y.hd ≠ 0 := by decide
  exact hodd x hx hhd

/-- Rounds over partitions with file systems only report them. -/
theorem rounds_settled (hown : ∀ x ∈ xs, Used (deref ide x) → (deref ide x).myDisk = x.hd)
    (hfits : ∀ x ∈ xs, Used (deref ide x) → Fits (deref ide x))
    (hready : ∀ x ∈ xs, Used (deref ide x) → Ready ide st x) (printed : List String) :
    ∃ texts, xs.foldlM (fun st x => initPart ide garbage x st) { st with printed := printed } =
        some { st with printed := printed ++ texts } ∧
      ∀ text ∈ texts, ∃ x ∈ xs, text = hasText x := by
  induction xs generalizing printed with
  | nil => exact ⟨[], by simp⟩
  | cons x rest ih =>
    have hx : x ∈ x :: rest := List.mem_cons_self
    have htail := ih (fun y hy => hown y (List.mem_cons_of_mem x hy))
      (fun y hy => hfits y (List.mem_cons_of_mem x hy))
      (fun y hy => hready y (List.mem_cons_of_mem x hy))
    rw [List.foldlM_cons]
    rcases initPart_cases garbage { st with printed := printed } (hown x hx) (hfits x hx) with ⟨-, heq⟩ | ⟨-, -, heq⟩ | ⟨hused, hnot, -⟩
    · obtain ⟨texts, hend, htexts⟩ := htail printed
      refine ⟨texts, ?_, fun text hmem => ?_⟩
      · rw [heq]
        exact hend
      · obtain ⟨y, hy, hsaid⟩ := htexts text hmem
        exact ⟨y, List.mem_cons_of_mem x hy, hsaid⟩
    · obtain ⟨texts, hend, htexts⟩ := htail (printed ++ [hasText x])
      refine ⟨hasText x :: texts, ?_, fun text hmem => ?_⟩
      · rw [heq]
        simpa [Startup.print] using hend
      · rcases List.mem_cons.mp hmem with rfl | hmem
        · exact ⟨x, hx, rfl⟩
        · obtain ⟨y, hy, hsaid⟩ := htexts text hmem
          exact ⟨y, List.mem_cons_of_mem x hy, hsaid⟩
    · exact absurd (hready x hx hused) hnot

/-- With a file system on every partition a start says so and changes nothing. -/
theorem start_settled (garbage : Slot → Garbage) (st : Startup)
    (hl : Layout ide (slots channelCnt))
    (hready : ∀ x ∈ slots channelCnt, Used (deref ide x) → Ready ide st x) :
    ∃ texts, filesysInit ide garbage channelCnt st =
        some { st with printed := st.printed ++ texts } ∧
      ∀ text ∈ texts, ∃ x ∈ slots channelCnt, text = hasText x := by
  rw [filesysInit_eq]
  exact rounds_settled hl.own hl.fits hready st.printed

end FsStartup
