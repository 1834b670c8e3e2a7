import Leeos.FsBitmaps

/-!
# The bitmaps of a fresh file system (`partition_format`, `mount_partition` in `fs/fs.c`)

`partition_format` fills the block bitmap's last sector byte by byte and then clears bits in the
byte whose number is the length modulo 8, so no length comes out right; bit 0 of the inode bitmap
stays clear for every partition. A mount takes the inode bitmap's length from the block bitmap.
-/
namespace FsFormat

open KernelBitmap FsDisk FsLayout FsBitmaps LibStdint

/-- The root directory's block is in use, and so is everything behind the data area. -/
structure BlockBitmapExact (part : PartitionEntry) (buf : Bytes) : Prop where
  root : memBit buf 0 = true
  free : ∀ i, 1 ≤ i → i < blockBitmapBitLen part → memBit buf i = false
  tail : ∀ i, blockBitmapBitLen part ≤ i → i < 4096 * blockBitmapSects part → memBit buf i = true

structure InodeBitmapExact (buf : Bytes) : Prop where
  root : memBit buf 0 = true
  free : ∀ i, 1 ≤ i → i < 4096 * inodeBitmapSects → memBit buf i = false

/-! ## What `partition_format` writes -/

theorem clearBits_bit (buf : Bytes) (idx k a : ℕ) {j : ℕ} (hj : j < 8) :
    ((List.range k).foldl
      (fun buf i => Function.update buf idx (buf idx &&& ~~~(1#8 <<< i))) buf a).getLsbD j =
      ((buf a).getLsbD j && !(decide (a = idx) && decide (j < k))) := by
  induction k with
  | zero => simp
  | succ k ih =>
    rw [List.range_succ, List.foldl_append, List.foldl_cons, List.foldl_nil]
    by_cases ha : a = idx
    · subst ha
      rw [Function.update_self, BitVec.getLsbD_and, BitVec.getLsbD_not, maskBit k j hj, ih]
      by_cases hk : j = k
      · simp [hk]
      · have hlt : j < k + 1 ↔ j < k := by omega
        simp [hk, hlt, hj]
    · rw [Function.update_of_ne ha, ih]
      simp [ha]

variable {part : PartitionEntry} {len : ℕ} {heap : Bytes}

theorem blockBitmapBuffer_cleared {j : ℕ} (hj : j ≤ len % 8) :
    memBit (blockBitmapBuffer len heap) (8 * (len % 8) + j) = false := by
  have hdiv : (8 * (len % 8) + j) / 8 = len % 8 := by omega
  have hmod : (8 * (len % 8) + j) % 8 = j := by omega
  rw [memBit, hdiv, hmod, blockBitmapBuffer, clearBits_bit _ _ _ _ (by omega)]
  simp [Nat.lt_succ_of_le hj]

theorem blockBitmapBuffer_filled {j : ℕ} (hj : j < 8) (hne : len / 8 ≠ len % 8) :
    memBit (blockBitmapBuffer len heap) (8 * (len / 8) + j) = true := by
  have hdiv : (8 * (len / 8) + j) / 8 = len / 8 := by omega
  have hmod : (8 * (len / 8) + j) % 8 = j := by omega
  have hsize : 0 < sectorSize - len / 8 % sectorSize := by
    rw [sectorSize]
    omega
  rw [memBit, hdiv, hmod, blockBitmapBuffer, clearBits_bit _ _ _ _ hj,
    memset_inside le_rfl (by omega), ones_bit j hj]
  simp [hne]

theorem blockBitmapSects_of_short (h : 0 < blockBitmapBitLen part)
    (h' : blockBitmapBitLen part < 64) : blockBitmapSects part = 1 := by
  rw [blockBitmapSects, divRoundUp, u32, bitsPerSector]
  omega

/-- The byte that is corrected is the last one of the bitmap for no length that works out. -/
theorem blockBitmap_not_exact (part : PartitionEntry) (heap : Bytes) :
    ¬ BlockBitmapExact part (blockBitmapBuffer (blockBitmapBitLen part) heap) := by
  intro h
  obtain hodd | hodd := Nat.eq_zero_or_pos (blockBitmapBitLen part % 8)
  · -- the root block's own bit is cleared
    have hroot := @blockBitmapBuffer_cleared _ heap 0 (Nat.zero_le (blockBitmapBitLen part % 8))
    rw [hodd, h.root] at hroot
    cases hroot
  have hlen : 0 < blockBitmapBitLen part := by omega
  by_cases hbyte : blockBitmapBitLen part / 8 = blockBitmapBitLen part % 8
  · -- the first bit behind the data area is cleared
    have hsects := blockBitmapSects_of_short hlen (by omega)
    have hclear := @blockBitmapBuffer_cleared _ heap _ (le_refl (blockBitmapBitLen part % 8))
    rw [h.tail _ (by omega) (by omega)] at hclear
    cases hclear
  by_cases hone : blockBitmapBitLen part = 1
  · -- the bits 8 and 9, both behind the data area, are cleared
    have hsects := blockBitmapSects_of_short hlen (by omega)
    have hclear := @blockBitmapBuffer_cleared _ heap 0 (Nat.zero_le (blockBitmapBitLen part % 8))
    rw [h.tail _ (by omega) (by omega)] at hclear
    cases hclear
  · -- the byte that holds the end of the data area stays full
    have hset : ∀ j < 8, memBit (blockBitmapBuffer (blockBitmapBitLen part) heap)
        (8 * (blockBitmapBitLen part / 8) + j) = true :=
      fun j hj => blockBitmapBuffer_filled hj hbyte
    have hfree := h.free (8 * (blockBitmapBitLen part / 8) +
      if blockBitmapBitLen part < 8 then 1 else 0) (by split <;> omega) (by split <;> omega)
    rw [hset _ (by split <;> omega)] at hfree
    cases hfree

theorem blockBitmapSects_le (part : PartitionEntry) : blockBitmapSects part ≤ 2 ^ 20 := by
  rw [blockBitmapSects, divRoundUp, u32, bitsPerSector]
  omega

theorem bufSize_ge (part : PartitionEntry) : 512 ≤ bufSize (formatSuperBlock part) := by
  have htable : inodeTableSects = 608 := by decide
  have hone : inodeBitmapSects = 1 := by decide
  have hsects := blockBitmapSects_le part
  simp only [bufSize, formatSuperBlock, htable, hone, sectorSize, u32]
  omega

theorem inodeBitmap_bit_zero (part : PartitionEntry) (buf : Bytes) :
    memBit (memset buf 0 0 (bufSize (formatSuperBlock part))) 0 = false := by
  have hsize := bufSize_ge part
  rw [memBit, Nat.zero_div, memset_inside le_rfl (by omega)]
  rfl

theorem inodeBitmap_not_exact (part : PartitionEntry) (buf : Bytes) :
    ¬ InodeBitmapExact (memset buf 0 0 (bufSize (formatSuperBlock part))) := by
  intro h
  have hroot := h.root
  rw [inodeBitmap_bit_zero] at hroot
  cases hroot

theorem inodeBitmap_scan (part : PartitionEntry) (buf : Bytes) :
    bitmapScan (memset buf 0 0 (bufSize (formatSuperBlock part))) ⟨512 * inodeBitmapSects, 0⟩ 1 =
      some 0 := by
  refine (bitmapScan_eq_some_iff le_rfl).mpr ⟨?_, ?_, fun q hq => absurd hq (Nat.not_lt_zero q)⟩
  · decide
  · intro i hi
    have hi : i = 0 := by omega
    subst hi
    exact inodeBitmap_bit_zero part buf

theorem formatWrites_bitmaps (part : PartitionEntry) (stack heap : Bytes) :
    ∃ block inode buf, (formatWrites part stack heap)[1]? = some block ∧
      (formatWrites part stack heap)[2]? = some inode ∧
      block.buf = blockBitmapBuffer (blockBitmapBitLen part) heap ∧
      inode.buf = memset buf 0 0 (bufSize (formatSuperBlock part)) :=
  ⟨_, _, _, rfl, rfl, rfl, rfl⟩

/-- Neither bitmap of any partition is exact, and the first inode that a scan of the inode bitmap
finds is the root directory's. -/
theorem format_never_exact (part : PartitionEntry) (stack heap : Bytes) :
    ∃ block inode, (formatWrites part stack heap)[1]? = some block ∧
      (formatWrites part stack heap)[2]? = some inode ∧
      ¬ BlockBitmapExact part block.buf ∧ ¬ InodeBitmapExact inode.buf ∧
      bitmapScan inode.buf ⟨512 * inodeBitmapSects, 0⟩ 1 = some 0 := by
  obtain ⟨block, inode, buf, hb, hi, hblock, hinode⟩ := formatWrites_bitmaps part stack heap
  refine ⟨block, inode, hb, hi, ?_, ?_, ?_⟩
  · rw [hblock]
    exact blockBitmap_not_exact part heap
  · rw [hinode]
    exact inodeBitmap_not_exact part buf
  · rw [hinode]
    exact inodeBitmap_scan part buf

/-- A partition of 10 MiB: the root directory's block and inode are both free. -/
theorem root_free_10_mib : ∃ block inode,
    (formatWrites ⟨2048, 20480⟩ (fun _ => 0#8) (fun _ => 0#8))[1]? = some block ∧
      (formatWrites ⟨2048, 20480⟩ (fun _ => 0#8) (fun _ => 0#8))[2]? = some inode ∧
      ¬ BlockBitmapExact ⟨2048, 20480⟩ block.buf ∧ ¬ InodeBitmapExact inode.buf := by
  obtain ⟨block, inode, buf, hb, hi, hblock, hinode⟩ :=
    formatWrites_bitmaps ⟨2048, 20480⟩ (fun _ => 0#8) (fun _ => 0#8)
  refine ⟨block, inode, hb, hi, fun h => ?_, ?_⟩
  · have hlen : blockBitmapBitLen ⟨2048, 20480⟩ = 19864 := by decide
    have hroot := h.root
    rw [hblock, hlen, @blockBitmapBuffer_cleared 19864 _ 0 (by decide)] at hroot
    cases hroot
  · rw [hinode]
    exact inodeBitmap_not_exact _ buf

/-! ## Mounting a formatted partition -/

def Formatted (part : PartitionEntry) (s : FsState) : Prop :=
  s.part.startLba = part.startLba ∧ s.part.sectorCounter = part.sectorCounter ∧
    ∃ stack heap disk, s.disk = partitionFormat part stack heap disk

/-- A bitmap in memory has the length and the contents of `sects` sectors from `lba` on. -/
structure Loaded (s : FsState) (btmp : Bitmap) (lba sects : ℕ) : Prop where
  len : btmp.bitmapLen = 512 * sects
  content : ∀ i < 512 * sects, s.mem (btmp.bits + i) = s.disk (512 * lba + i)

def afterAllocs (s : FsState) (k : ℕ) : FsState := (fun s => (inodeBitmapAlloc s).2)^[k] s

/-- What the call after the first `k` returns; `none` is -1. -/
def allocated (s : FsState) (k : ℕ) : Option ℕ := (inodeBitmapAlloc (afterAllocs s k)).1

structure AllocsSound (s : FsState) : Prop where
  distinct : ∀ j k i, allocated s j = some i → allocated s k = some i → j = k
  bound : ∀ k i, allocated s k = some i → i < maxFilesPerPart
  exhausted : ∀ k, allocated s k = none ↔
    ∀ i < maxFilesPerPart, usedBit (afterAllocs s k).mem s.part.inodeBitmap i = true

structure MountSound (s : FsState) : Prop where
  block : Loaded s s.part.blockBitmap s.part.sb.blockBitmapLba s.part.sb.blockBitmapSects
  inode : Loaded s s.part.inodeBitmap s.part.sb.inodeBitmapLba s.part.sb.inodeBitmapSects
  allocs : AllocsSound s

/-! ### A run of allocations -/

variable {s s₀ : FsState} {bufs : MountBuffers}

@[simp] theorem inodeBitmapAlloc_part (s : FsState) : (inodeBitmapAlloc s).2.part = s.part := by
  unfold inodeBitmapAlloc
  split <;> rfl

theorem inodeBitmapAlloc_none (h : (inodeBitmapAlloc s).1 = none) :
    bitmapScan s.mem s.part.inodeBitmap 1 = none := by
  unfold inodeBitmapAlloc at h
  split at h
  · assumption
  · cases h

theorem inodeBitmapAlloc_some {i : ℕ} (h : (inodeBitmapAlloc s).1 = some i) :
    FirstClear s.mem s.part.inodeBitmap i ∧
      (inodeBitmapAlloc s).2.mem = bitmapSet s.mem s.part.inodeBitmap i true := by
  unfold inodeBitmapAlloc at h ⊢
  split at h
  · cases h
  · next idx hscan =>
    obtain rfl := Option.some.inj h
    exact ⟨bitmapScan_one_some hscan, rfl⟩

theorem inodeBitmapAlloc_used {j : ℕ} (h : usedBit s.mem s.part.inodeBitmap j = true) :
    usedBit (inodeBitmapAlloc s).2.mem s.part.inodeBitmap j = true := by
  unfold inodeBitmapAlloc
  split
  · exact h
  · rw [usedBit, memBit_bitmapSet]
    split
    · rfl
    · exact h

theorem afterAllocs_succ (s : FsState) (k : ℕ) :
    afterAllocs s (k + 1) = (inodeBitmapAlloc (afterAllocs s k)).2 :=
  Function.iterate_succ_apply' _ _ _

theorem afterAllocs_part (s : FsState) (k : ℕ) : (afterAllocs s k).part = s.part := by
  induction k with
  | zero => rfl
  | succ k ih => rw [afterAllocs_succ, inodeBitmapAlloc_part, ih]

theorem afterAllocs_used {j k m : ℕ} (hle : k ≤ m)
    (h : usedBit (afterAllocs s k).mem s.part.inodeBitmap j = true) :
    usedBit (afterAllocs s m).mem s.part.inodeBitmap j = true := by
  induction m, hle using Nat.le_induction with
  | base => exact h
  | succ m hkm ih =>
    rw [afterAllocs_succ, ← afterAllocs_part s m]
    rw [← afterAllocs_part s m] at ih
    exact inodeBitmapAlloc_used ih

theorem allocated_some {k i : ℕ} (h : allocated s k = some i) :
    i < 8 * s.part.inodeBitmap.bitmapLen ∧
      usedBit (afterAllocs s k).mem s.part.inodeBitmap i = false ∧
      usedBit (afterAllocs s (k + 1)).mem s.part.inodeBitmap i = true := by
  obtain ⟨hclear, hmem⟩ := inodeBitmapAlloc_some h
  rw [← afterAllocs_part s k]
  refine ⟨hclear.inside, hclear.clear, ?_⟩
  rw [afterAllocs_succ, hmem, usedBit, memBit_bitmapSet, if_pos rfl]

theorem allocated_lt {j k i : ℕ} (hj : allocated s j = some i) (hlt : j < k) :
    allocated s k ≠ some i := by
  intro hk
  have hused := afterAllocs_used (show j + 1 ≤ k from hlt) (allocated_some hj).2.2
  rw [(allocated_some hk).2.1] at hused
  cases hused

theorem allocsSound_of_len (hlen : s.part.inodeBitmap.bitmapLen = 512) : AllocsSound s := by
  constructor
  case distinct =>
    intro j k i hj hk
    by_contra hne
    rcases Nat.lt_or_gt_of_ne hne with hlt | hlt
    · exact allocated_lt hj hlt hk
    · exact allocated_lt hk hlt hj
  case bound =>
    intro k i h
    have hin := (allocated_some h).1
    rw [hlen] at hin
    exact hin
  case exhausted =>
    intro k
    constructor
    · intro h i hi
      have hall := bitmapScan_one_none (inodeBitmapAlloc_none h)
      rw [afterAllocs_part, hlen] at hall
      exact hall i hi
    · intro hall
      cases h : allocated s k with
      | none => rfl
      | some i =>
        have hin := (allocated_some h).1
        have hclear := (allocated_some h).2.1
        rw [hlen] at hin
        rw [hall i hin] at hclear
        cases hclear

/-! ### The super block of a formatted partition -/

theorem apply_outside {w : DiskWrite} {disk : Bytes} {a : ℕ}
    (h : a < 512 * w.lba ∨ 512 * w.lba + 512 * w.secCnt ≤ a) : w.apply disk a = disk a :=
  copyBytes_outside h

theorem apply_inside {w : DiskWrite} {disk : Bytes} {i : ℕ} (h : i < 512 * w.secCnt) :
    w.apply disk (512 * w.lba + i) = w.buf i := by
  rw [DiskWrite.apply, ideWrite, copyBytes_at h, Nat.zero_add]

theorem loadWord_storeWords_of_below {xs : List ℕ} {m : Bytes} {a b : ℕ} (h : b + 4 ≤ a) :
    loadWord (storeWords m a xs) b = loadWord m b := by
  induction xs generalizing m a with
  | nil => rfl
  | cons x rest ih =>
    rw [storeWords, ih (by omega), loadWord_storeWord_of_apart (Or.inl h)]

theorem loadWord_storeWords {xs : List ℕ} {m : Bytes} {a k x : ℕ} (h : xs[k]? = some x)
    (hx : x < 2 ^ 32) : loadWord (storeWords m a xs) (a + 4 * k) = x := by
  induction xs generalizing m a k with
  | nil => simp at h
  | cons y rest ih =>
    cases k with
    | zero =>
      obtain rfl : y = x := by simpa using h
      rw [storeWords, loadWord_storeWords_of_below (by omega)]
      exact loadWord_storeWord hx
    | succ k =>
      rw [storeWords, ← ih (by simpa using h), Nat.mul_succ, Nat.add_comm (4 * k), Nat.add_assoc]

theorem loadWord_update {m : Bytes} {a i : ℕ} {v : BitVec 8} (h : i < a ∨ a + 4 ≤ i) :
    loadWord (Function.update m i v) a = loadWord m a := by
  apply loadWord_congr
  intro j hj
  exact Function.update_of_ne (by omega) _ _

/-- Only the root directory's sector, 1216, can fall on the super block. -/
theorem formatted_super_block (hbase : part.startLba < 2 ^ 32) (hne : part.startLba ≠ 1215)
    (stack heap disk : Bytes) {i : ℕ} (hi : i < 512) :
    partitionFormat part stack heap disk (512 * u32 (part.startLba + 1) + i) =
      storeSuperBlock stack 0 (formatSuperBlock part) i := by
  have hsects := blockBitmapSects_le part
  have hdata : (formatSuperBlock part).dataStartLba = 1216 := rfl
  have htable : inodeTableSects = 608 := by decide
  have hone : inodeBitmapSects = 1 := by decide
  simp only [partitionFormat, formatWrites, List.foldl_cons, List.foldl_nil]
  rw [apply_outside, apply_outside, apply_outside, apply_outside, apply_inside (by omega)]
  · simp only [formatSuperBlock, u32]
    omega
  · simp only [formatSuperBlock, hone, u32]
    omega
  · simp only [formatSuperBlock, hone, htable, u32]
    omega
  · simp only [hdata, u32]
    omega

theorem formatted_root_dir (part : PartitionEntry) (stack heap disk : Bytes) :
    ∃ buf, ∀ i < 512, partitionFormat part stack heap disk (512 * 1216 + i) =
      rootDirBuffer (memset buf 0 0 (bufSize (formatSuperBlock part))) i := by
  obtain ⟨ws, buf, hws⟩ : ∃ ws buf, formatWrites part stack heap = ws ++
      [⟨1216, 1, rootDirBuffer (memset buf 0 0 (bufSize (formatSuperBlock part)))⟩] :=
    ⟨[_, _, _, _], _, rfl⟩
  refine ⟨buf, fun i hi => ?_⟩
  rw [partitionFormat, hws, List.foldl_append, List.foldl_cons, List.foldl_nil]
  exact apply_inside (show i < 512 * 1 by omega)

theorem formatSuperBlock_words (stack : Bytes) (part : PartitionEntry) :
    loadWord (storeSuperBlock stack 0 (formatSuperBlock part)) 20 = blockBitmapSects part ∧
      loadWord (storeSuperBlock stack 0 (formatSuperBlock part)) 28 = 1 := by
  have hsects := blockBitmapSects_le part
  have hone : inodeBitmapSects = 1 := by decide
  rw [storeSuperBlock]
  constructor
  · exact @loadWord_storeWords _ _ 0 5 (blockBitmapSects part) rfl (by omega)
  · exact hone ▸ @loadWord_storeWords _ _ 0 7 inodeBitmapSects rfl (by omega)

theorem rootDirBuffer_words {buf : Bytes} {n : ℕ} (h : 512 ≤ n) :
    loadWord (rootDirBuffer (memset buf 0 0 n)) 20 = 2 ∧
      loadWord (rootDirBuffer (memset buf 0 0 n)) 28 = 0 := by
  simp only [rootDirBuffer]
  constructor
  · rw [loadWord_update (by omega), loadWord_update (by omega),
      loadWord_storeWord_of_apart (by omega), loadWord_storeWord_of_apart (by omega),
      loadWord_update (by omega), loadWord_storeWord_of_apart (by omega),
      loadWord_storeWord (by omega)]
  · rw [loadWord_update (by omega), loadWord_update (by omega),
      loadWord_storeWord_of_apart (by omega), loadWord_storeWord_of_apart (by omega),
      loadWord_update (by omega), loadWord_storeWord_of_apart (by omega),
      loadWord_storeWord_of_apart (by omega)]
    simp only [loadWord]
    repeat rw [memset_inside (by omega) (by omega)]
    rfl

theorem mounted_sects (hf : Formatted part s₀) (hbase : part.startLba < 2 ^ 32) :
    ((mountPartition bufs s₀).part.sb.blockBitmapSects,
      (mountPartition bufs s₀).part.sb.inodeBitmapSects) =
    if part.startLba = 1215 then (2, 0) else (blockBitmapSects part, 1) := by
  obtain ⟨hstart, -, stack, heap, disk, hdisk⟩ := hf
  rw [mountPartition_sb_eq, hstart, hdisk]
  simp only [loadSuperBlock]
  have hword : ∀ {m : Bytes} {S : ℕ}, (∀ i < 512, partitionFormat part stack heap disk
      (512 * S + i) = m i) → ∀ k ≤ 28, loadWord (partitionFormat part stack heap disk)
        (512 * S + k) = loadWord m k := by
    intro m S h k hk
    apply loadWord_congr
    intro j hj
    rw [Nat.add_assoc]
    exact h (k + j) (by omega)
  split
  · next h =>
    obtain ⟨buf, hbuf⟩ := formatted_root_dir part stack heap disk
    have hwords := @rootDirBuffer_words buf _ (bufSize_ge part)
    have hsector : u32 (part.startLba + 1) = 1216 := by rw [h]; decide
    rw [hsector, hword hbuf 20 (by omega), hword hbuf 28 (by omega), hwords.1, hwords.2]
  · next h =>
    have hsb : ∀ i < 512, _ := fun i hi => formatted_super_block hbase h stack heap disk hi
    have hwords := formatSuperBlock_words stack part
    rw [hword hsb 20 (by omega), hword hsb 28 (by omega), hwords.1, hwords.2]

theorem blockBitmapSects_eq_zero (hcount : part.sectorCounter < 2 ^ 32)
    (h : part.sectorCounter < 613 ∨ 2 ^ 32 ≤ part.sectorCounter + 3484) :
    blockBitmapSects part = 0 := by
  have hused : usedSects = 611 := by decide
  have hfree : freeSects part = if part.sectorCounter < 611 then part.sectorCounter + 2 ^ 32 - 611
      else part.sectorCounter - 611 := by
    rw [freeSects, hused, u32]
    split <;> omega
  have hrough : roughBitmapSects part = if part.sectorCounter = 612 then 1 else 0 := by
    rw [roughBitmapSects, hfree, divRoundUp, u32, bitsPerSector]
    split <;> split <;> omega
  rw [blockBitmapSects, blockBitmapBitLen, hfree, hrough, divRoundUp, u32, u32, bitsPerSector]
  split <;> split <;> omega

theorem blockBitmapSects_eq_one_iff (hcount : part.sectorCounter < 2 ^ 32) :
    blockBitmapSects part = 1 ↔ 613 ≤ part.sectorCounter ∧ part.sectorCounter ≤ 4709 := by
  by_cases h : part.sectorCounter < 613 ∨ 2 ^ 32 ≤ part.sectorCounter + 3484
  · rw [blockBitmapSects_eq_zero hcount h]
    omega
  · rw [blockBitmapSects_eq (by omega) (by omega)]
    omega

theorem range_of_mountSound (hbase : part.startLba < 2 ^ 32) (hcount : part.sectorCounter < 2 ^ 32)
    (hf : Formatted part s₀) (h : MountSound (mountPartition bufs s₀)) :
    613 ≤ part.sectorCounter ∧ part.sectorCounter ≤ 4709 ∧ part.startLba ≠ 1215 := by
  have hsects := @mounted_sects part s₀ bufs hf hbase
  have hlen := h.inode.len
  rw [mountPartition_inodeBitmap] at hlen
  simp only [u32, sectorSize] at hlen
  split at hsects
  · rw [Prod.mk.injEq] at hsects
    rw [hsects.1, hsects.2] at hlen
    omega
  · next hne =>
    rw [Prod.mk.injEq] at hsects
    rw [hsects.1, hsects.2] at hlen
    have hle := blockBitmapSects_le part
    have hrange := (blockBitmapSects_eq_one_iff hcount).mp (by omega)
    exact ⟨hrange.1, hrange.2, hne⟩

/-- A mount gives both bitmaps their areas' lengths exactly when the block bitmap, like the inode
bitmap, has one sector, and the root directory has not been written over the super block. -/
theorem mountSound_iff (part : PartitionEntry) (s₀ : FsState) (bufs : MountBuffers)
    (hbase : part.startLba < 2 ^ 32) (hcount : part.sectorCounter < 2 ^ 32)
    (hf : Formatted part s₀) (hbuf : BuffersApart bufs (mountPartition bufs s₀).part.sb) :
    MountSound (mountPartition bufs s₀) ↔
      613 ≤ part.sectorCounter ∧ part.sectorCounter ≤ 4709 ∧ part.startLba ≠ 1215 := by
  refine ⟨range_of_mountSound hbase hcount hf, fun ⟨hmin, hmax, hne⟩ => ?_⟩
  have hsects := @mounted_sects part s₀ bufs hf hbase
  have hone := (blockBitmapSects_eq_one_iff hcount).mpr ⟨hmin, hmax⟩
  rw [if_neg hne, Prod.mk.injEq, hone] at hsects
  have hlen : u32 (1 * sectorSize) = 512 := by decide
  obtain ⟨hinode, hblock⟩ := mountPartition_mem rfl hbuf
  refine ⟨⟨?_, hblock⟩, ⟨?_, hinode⟩, allocsSound_of_len ?_⟩
  · rw [mountPartition_blockBitmap, hsects.1, hlen]
  · rw [mountPartition_inodeBitmap, hsects.1, hsects.2, hlen]
  · rw [mountPartition_inodeBitmap, hsects.1, hlen]

/-- A partition on a disk of zeros, formatted and not mounted before. -/
def freshState (part : PartitionEntry) : FsState where
  mem := fun _ => 0#8
  disk := partitionFormat part (fun _ => 0#8) (fun _ => 0#8) (fun _ => 0#8)
  part := ⟨part.startLba, part.sectorCounter, ⟨0, 0, 0, 0, 0, 0, 0, 0, 0, 0, 0, 0, 0⟩, ⟨0, 0⟩, ⟨0, 0⟩⟩

theorem formatted_freshState (part : PartitionEntry) : Formatted part (freshState part) :=
  ⟨rfl, rfl, _, _, _, rfl⟩

theorem mountSound_2_mib :
    MountSound (mountPartition ⟨4096, 8192, 12288⟩ (freshState ⟨2048, 4096⟩)) := by
  have hf := formatted_freshState ⟨2048, 4096⟩
  have hsects := @mounted_sects _ _ ⟨4096, 8192, 12288⟩ hf (by decide)
  rw [if_neg (by decide), (blockBitmapSects_eq_one_iff (by decide)).mpr (by decide),
    Prod.mk.injEq] at hsects
  refine (mountSound_iff ⟨2048, 4096⟩ _ ⟨4096, 8192, 12288⟩ (by decide) (by decide) hf ?_).mpr
    (by decide)
  refine ⟨?_, ?_, ?_⟩
  · rw [hsects.1]
    decide
  · rw [hsects.2]
    decide
  · rw [hsects.1, hsects.2]
    decide

/-- The inode bitmap of a partition of 10 MiB gets the block bitmap's 5 sectors as its length. -/
theorem mount_unsound_10_mib :
    ¬ MountSound (mountPartition ⟨4096, 8192, 12288⟩ (freshState ⟨2048, 20480⟩)) := by
  intro h
  have hrange := range_of_mountSound (by decide) (by decide) (formatted_freshState _) h
  exact absurd hrange (by decide)

end FsFormat
