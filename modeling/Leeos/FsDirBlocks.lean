import Leeos.FsDirInserts

/-!
# The blocks `sync_dir_entry` allocates

The first block that is not full decides. If the directory does not have it, one block or two are
taken from the bitmap; behind the thirteenth the first of the two is entered nowhere.
-/
namespace FsDirBlocks

open ExecRules KernelBitmap FsDisk FsLayout FsBitmaps FsDirectory FsDirInserts LibStdint

variable {s t u : DirState} {i j k b f g T : ℕ} {pDe : Bytes}

/-! ## The directories -/

/-- Every address that may be read is one of the disk. -/
structure OnDisk (s : DirState) : Prop where
  area : FreeShape s
  blocks : ∀ i < blockCnt, dirBlock s i ≤ maxLba
  indirect : s.inode.iSectors 12 ≤ maxLba

/-- What the directory refers to is in use, and its indirect block holds no entries. -/
structure TableShape (s : DirState) : Prop extends OnDisk s where
  used : ∀ i < blockCnt, dirBlock s i ≠ 0 → Allocated s (dirBlock s i)
  index_used : s.inode.iSectors 12 ≠ 0 → Allocated s (s.inode.iSectors 12)
  index_apart : s.inode.iSectors 12 ≠ 0 → ∀ i < blockCnt, dirBlock s i ≠ s.inode.iSectors 12

theorem DirShape.table {n : ℕ} (h : DirShape s n) : TableShape s := by
  have hin : ∀ i < blockCnt, dirBlock s i ≠ 0 → i < n := by
    intro i hi hne
    by_contra hlt
    exact hne (h.unused i hi (by omega))
  have hind : s.inode.iSectors 12 ≠ 0 → 12 < n := by
    intro hne
    by_contra hlt
    exact hne (h.direct (by omega))
  constructor
  case toOnDisk =>
    refine ⟨h.area.free, fun i hi => ?_, h.iSectors_le⟩
    by_cases hz : dirBlock s i = 0
    · exact hz.trans_le (Nat.zero_le _)
    · exact h.on_disk (hin i hi hz)
  case used => exact fun i hi hne => h.used i (hin i hi hne)
  case index_used => exact fun hne => h.indirect (hind hne)
  case index_apart =>
    intro hne i hi
    by_cases hlt : i < n
    · exact h.indirect_apart (hind hne) i hlt
    · rw [h.unused i hi (by omega)]
      exact hne.symm

/-- The first block that is not full, or not there. -/
structure Stop (s : DirState) (i : ℕ) : Prop where
  lt : i < blockCnt
  before : ∀ j < i, Full s j
  room : ¬ Full s i

instance (s : DirState) (j : ℕ) : Decidable (Full s j) := inferInstanceAs (Decidable (_ ∧ _))

theorem Stop.unique (hi : Stop s i) (hj : Stop s j) : i = j := by
  rcases Nat.lt_trichotomy i j with hlt | rfl | hlt
  · exact absurd (hj.before i hlt) hi.room
  · rfl
  · exact absurd (hi.before j hlt) hj.room

theorem exists_stop (h : ∃ i < blockCnt, ¬ Full s i) : ∃ i, Stop s i := by
  classical
  obtain ⟨hlt, hroom⟩ := Nat.find_spec h
  refine ⟨Nat.find h, hlt, fun j hj => ?_, hroom⟩
  by_contra hfull
  exact Nat.find_min h hj ⟨hj.trans hlt, hfull⟩

/-- Behind the thirteenth block there is an indirect one. -/
theorem Stop.index_ne (h : Stop s i) (hi : 12 < i) : s.inode.iSectors 12 ≠ 0 := by
  intro hzero
  apply (h.before 12 hi).1
  rw [dirBlock, allBlocks, if_neg (by omega), if_neg (not_not.mpr hzero)]

theorem Stop.add (h : Stop s i) (hdisk : OnDisk s) (hsize : s.inode.iSize % dirSize = 0)
    (hzero : dirBlock s i = 0) :
    syncDirEntry pDe s = addBlock pDe (allBlocks s.fs.disk s.inode) i s :=
  syncDirEntry_add hdisk.indirect hsize h.lt (fun j hj => hdisk.blocks j (hj.trans h.lt)) h.before
    hzero

theorem Stop.fill (h : Stop s i) (hdisk : OnDisk s) (hsize : s.inode.iSize % dirSize = 0)
    (hne : dirBlock s i ≠ 0) :
    ∃ u, syncDirEntry pDe s = .ok (some true, u) ∧ u.inode.iSize = s.inode.iSize := by
  obtain ⟨k, hk⟩ : ∃ k, freeSlot (sectorAt s.fs.disk (dirBlock s i)) = some k := by
    rw [← Option.ne_none_iff_exists']
    exact fun hnone => h.room ⟨hne, hnone⟩
  refine ⟨_, syncDirEntry_fill hdisk.indirect hsize h.lt (fun j hj => ?_) h.before hne hk, rfl⟩
  exact hdisk.blocks j (hj.trans_lt h.lt)

theorem syncDirEntry_halt (hsize : s.inode.iSize % dirSize ≠ 0) :
    syncDirEntry pDe s = .error .dirSize := by
  rw [syncDirEntry, get_bind, ensure_bind_of_false hsize]

/-! ## Bits and references -/

def BitmapFull (s : DirState) : Prop :=
  ∀ idx < 8 * s.fs.part.blockBitmap.bitmapLen, usedBit s.fs.mem s.fs.part.blockBitmap idx = true

def NewlySet (s u : DirState) (b : ℕ) : Prop := ∃ idx < 8 * s.fs.part.blockBitmap.bitmapLen,
  usedBit s.fs.mem s.fs.part.blockBitmap idx = false ∧
    usedBit u.fs.mem s.fs.part.blockBitmap idx = true ∧ b = s.fs.part.sb.dataStartLba + idx

def References (s : DirState) (b : ℕ) : Prop :=
  b ≠ 0 ∧ (b = s.inode.iSectors 12 ∨ ∃ i < blockCnt, dirBlock s i = b)

/-- The directory has become larger by one entry, and what was allocated for it belongs to it. -/
structure Grown (s u : DirState) : Prop where
  size : u.inode.iSize = s.inode.iSize + entrySize
  open_cnts : u.inode.iOpenCnts = s.inode.iOpenCnts
  bits : ∀ b, NewlySet s u b ↔ References u b ∧ ¬ References s b

/-- No assertion fails, and an entry that is added makes the directory grow. -/
def Adds (pDe : Bytes) (s : DirState) : Prop :=
  match syncDirEntry pDe s with
  | .error _ => False
  | .ok (r, u) => r = some true → Grown s u

theorem adds_of_ok {r : Option Bool} (h : syncDirEntry pDe s = .ok (r, u)) :
    Adds pDe s ↔ (r = some true → Grown s u) := by
  rw [Adds, h]

theorem adds_of_error {e : DirHalt} (h : syncDirEntry pDe s = .error e) : ¬ Adds pDe s := by
  rw [Adds, h]
  exact id

theorem bitmapFull_or_firstClear (s : DirState) :
    BitmapFull s ∨ ∃ f, FirstClear s.fs.mem s.fs.part.blockBitmap f := by
  rcases bitmapScan_cases s.fs.mem s.fs.part.blockBitmap 1 with ⟨hall, -⟩ | ⟨f, hf, -⟩
  · exact Or.inl hall
  · exact Or.inr ⟨f, hf⟩

theorem BitmapFull.not_firstClear (h : BitmapFull s) :
    ¬ ∃ f, FirstClear s.fs.mem s.fs.part.blockBitmap f := by
  rintro ⟨f, hf⟩
  have := h f hf.inside
  rw [hf.clear] at this
  cases this

theorem addBlock_refuse (h : BitmapFull s) {blocks : ℕ → ℕ} :
    addBlock pDe blocks i s = .ok (some false, s) := by
  rw [addBlock, bind_of_ok (allocBlock_none h.not_firstClear)]
  rfl

theorem newlySet_one (hf : FirstClear s.fs.mem s.fs.part.blockBitmap f)
    (hmem : u.fs.mem = bitmapSet s.fs.mem s.fs.part.blockBitmap f true) :
    NewlySet s u b ↔ b = s.fs.part.sb.dataStartLba + f := by
  simp only [NewlySet, hmem, usedBit_bitmapSet]
  constructor
  · rintro ⟨idx, -, hclear, hset, rfl⟩
    split at hset
    case isTrue he => rw [he]
    case isFalse =>
      rw [hclear] at hset
      cases hset
  · rintro rfl
    exact ⟨f, hf.inside, hf.clear, if_pos rfl, rfl⟩

theorem newlySet_two (hf : FirstClear s.fs.mem s.fs.part.blockBitmap f)
    (hg : FirstClear (bitmapSet s.fs.mem s.fs.part.blockBitmap f true) s.fs.part.blockBitmap g)
    (hmem : u.fs.mem = bitmapSet (bitmapSet s.fs.mem s.fs.part.blockBitmap f true)
      s.fs.part.blockBitmap g true) : NewlySet s u b ↔
      b = s.fs.part.sb.dataStartLba + f ∨ b = s.fs.part.sb.dataStartLba + g := by
  simp only [NewlySet, hmem, usedBit_bitmapSet]
  constructor
  · rintro ⟨idx, -, hclear, hset, rfl⟩
    by_cases hg : idx = g
    · rw [hg]
      exact Or.inr rfl
    · by_cases hf : idx = f
      · rw [hf]
        exact Or.inl rfl
      · rw [if_neg hg, if_neg hf, hclear] at hset
        cases hset
  · rintro (rfl | rfl)
    · refine ⟨f, hf.inside, hf.clear, ?_, rfl⟩
      rw [if_pos rfl, ite_self]
    · exact ⟨g, hg.inside, (FirstClear.second hg).2, if_pos rfl, rfl⟩

theorem TableShape.not_references (h : TableShape s)
    (hc : usedBit s.fs.mem s.fs.part.blockBitmap f = false) :
    ¬ References s (s.fs.part.sb.dataStartLba + f) := by
  rintro ⟨hne, hind | ⟨i, hi, hb⟩⟩
  · exact (h.index_used (hind ▸ hne)).ne_clear hc hind.symm
  · exact (h.used i hi (hb ▸ hne)).ne_clear hc hb

/-! ## The table of the directory that has grown -/

theorem dirBlock_filled (hj : j < blockCnt) (hne : u.inode.iSectors 12 ≠ T) :
    dirBlock (filled pDe T k (cleared T u)) j = dirBlock u j := by
  refine allBlocks_congr hj fun _ a ha => ?_
  refine (sectorAt_putEntry_ne hne ha).trans ?_
  rw [cleared_disk]
  exact sectorAt_ideWrite_ne hne ha

theorem table_direct (h : TableShape s) (hi : i < 12) (hj : j < blockCnt)
    (hf : FirstClear s.fs.mem s.fs.part.blockBitmap f) :
    dirBlock (withSector i T (taken f s)) j = if j = i then T else dirBlock s j := by
  have h12 : (withSector i T (taken f s)).inode.iSectors 12 = s.inode.iSectors 12 := by
    have hne : (12 : ℕ) ≠ i := by omega
    exact Function.update_of_ne hne _ _
  by_cases hd : j < 12
  · rw [dirBlock, allBlocks, if_pos hd, dirBlock, allBlocks, if_pos hd]
    exact Function.update_apply _ _ _ _
  · rw [if_neg (by omega), dirBlock, allBlocks, if_neg hd, h12, dirBlock, allBlocks, if_neg hd]
    by_cases hz : s.inode.iSectors 12 ≠ 0
    · have hcnt : blockCnt = 140 := rfl
      rw [if_pos hz, if_pos hz]
      apply loadWord_congr
      intro a ha
      have hkept := @sectorAt_taken_of_allocated s s (4 * (j - 12) + a) _ f h.area
        (h.index_used hz) rfl hf.inside (by omega)
      rw [Nat.add_assoc]
      exact hkept
    · rw [if_neg hz, if_neg hz]

theorem references_direct (hzero : dirBlock s i = 0) (hi : i < blockCnt) (hT : T ≠ 0)
    (hind : u.inode.iSectors 12 = s.inode.iSectors 12)
    (htable : ∀ j < blockCnt, dirBlock u j = if j = i then T else dirBlock s j) :
    References u b ↔ b = T ∨ References s b := by
  rw [References, References, hind]
  constructor
  · rintro ⟨hne, hb | ⟨j, hj, hb⟩⟩
    · exact Or.inr ⟨hne, Or.inl hb⟩
    · rw [htable j hj] at hb
      split at hb
      · exact Or.inl hb.symm
      · exact Or.inr ⟨hne, Or.inr ⟨j, hj, hb⟩⟩
  · rintro (rfl | ⟨hne, hb | ⟨j, hj, hb⟩⟩)
    · exact ⟨hT, Or.inr ⟨i, hi, by rw [htable i hi, if_pos rfl]⟩⟩
    · exact ⟨hne, Or.inl hb⟩
    · refine ⟨hne, Or.inr ⟨j, hj, ?_⟩⟩
      rw [htable j hj, if_neg]
      · exact hb
      · rintro rfl
        exact hne (hb.symm.trans hzero)

theorem references_first {L : ℕ} (hT : T ≠ 0) (hL : L ≠ 0)
    (hind : u.inode.iSectors 12 = L)
    (htable : ∀ j < blockCnt, dirBlock u j = if j = 12 then T else dirBlock s j)
    (hb : ¬ References s b) : References u b ↔ b = L ∨ b = T := by
  have hcnt : blockCnt = 140 := rfl
  rw [References, hind]
  constructor
  · rintro ⟨hne, rfl | ⟨j, hj, he⟩⟩
    · exact Or.inl rfl
    · rw [htable j hj] at he
      split at he
      · exact Or.inr he.symm
      · exact absurd ⟨hne, Or.inr ⟨j, hj, he⟩⟩ hb
  · rintro (rfl | rfl)
    · exact ⟨hL, Or.inl rfl⟩
    · exact ⟨hT, Or.inr ⟨12, by omega, by rw [htable 12 (by omega), if_pos rfl]⟩⟩

theorem size_grown (hword : s.inode.iSize < 2 ^ 32) (hentry : s.inode.iSize % entrySize = 0)
    (hsize : s.inode.iSize % dirSize = 0) :
    u32 (s.inode.iSize + entrySize) = s.inode.iSize + entrySize := by
  have h₁ : entrySize = 24 := rfl
  have h₂ : dirSize = 520 := rfl
  rw [h₁] at hentry ⊢
  rw [h₂] at hsize
  exact u32_of_lt (by omega)

/-! ## One call -/

theorem grown_direct (h : TableShape s) (hi : i < 12) (hzero : dirBlock s i = 0)
    (hf : FirstClear s.fs.mem s.fs.part.blockBitmap f)
    (hsize : u32 (s.inode.iSize + entrySize) = s.inode.iSize + entrySize)
    (hT : T = s.fs.part.sb.dataStartLba + f) :
    Grown s (filled pDe T 0 (cleared T (withSector i T (taken f s)))) := by
  have hcnt : blockCnt = 140 := rfl
  have hstart := h.area.start
  have hfresh := h.not_references hf.clear
  have h12 : (withSector i T (taken f s)).inode.iSectors 12 = s.inode.iSectors 12 := by
    have hne : (12 : ℕ) ≠ i := by omega
    exact Function.update_of_ne hne _ _
  have hne : s.inode.iSectors 12 ≠ T := by
    intro he
    exact hfresh (hT ▸ ⟨by omega, Or.inl he.symm⟩)
  have hind : (filled pDe T 0 (cleared T (withSector i T (taken f s)))).inode.iSectors 12 =
      s.inode.iSectors 12 := h12
  have htable : ∀ j < blockCnt, dirBlock (filled pDe T 0 (cleared T (withSector i T (taken f s)))) j
      = if j = i then T else dirBlock s j := by
    intro j hj
    rw [dirBlock_filled hj (ne_of_eq_of_ne h12 hne)]
    exact table_direct h hi hj hf
  refine ⟨hsize, rfl, fun b => ?_⟩
  rw [newlySet_one hf rfl, references_direct hzero (by omega) (by omega) hind htable]
  constructor
  · rintro rfl
    exact ⟨Or.inl hT.symm, hfresh⟩
  · rintro ⟨hb | hb, hnot⟩
    · exact hb.trans hT
    · exact absurd hb hnot

/-- Both blocks that are taken for the thirteenth are entered. -/
theorem grown_of_first {L : ℕ} (h : TableShape s)
    (hf : FirstClear s.fs.mem s.fs.part.blockBitmap f)
    (hg : FirstClear (bitmapSet s.fs.mem s.fs.part.blockBitmap f true) s.fs.part.blockBitmap g)
    (hL : L = s.fs.part.sb.dataStartLba + f) (hT : T = s.fs.part.sb.dataStartLba + g)
    (hsize : u.inode.iSize = s.inode.iSize + entrySize)
    (hopen : u.inode.iOpenCnts = s.inode.iOpenCnts)
    (hmem : u.fs.mem = bitmapSet (bitmapSet s.fs.mem s.fs.part.blockBitmap f true)
      s.fs.part.blockBitmap g true)
    (hind : u.inode.iSectors 12 = L)
    (htable : ∀ j < blockCnt, dirBlock u j = if j = 12 then T else dirBlock s j) : Grown s u := by
  have hstart := h.area.start
  refine ⟨hsize, hopen, fun b => ?_⟩
  rw [newlySet_two hf hg hmem, ← hL, ← hT]
  constructor
  · intro hb
    have hnot : ¬ References s b := by
      rcases hb with rfl | rfl
      · exact hL ▸ h.not_references hf.clear
      · exact hT ▸ h.not_references (FirstClear.second hg).2
    exact ⟨(references_first (by omega) (by omega) hind htable hnot).mpr hb, hnot⟩
  · rintro ⟨hb, hnot⟩
    exact (references_first (by omega) (by omega) hind htable hnot).mp hb

theorem grown_first {L : ℕ} (h : TableShape s)
    (hf : FirstClear s.fs.mem s.fs.part.blockBitmap f)
    (hg : FirstClear (bitmapSet s.fs.mem s.fs.part.blockBitmap f true) s.fs.part.blockBitmap g)
    (hsize : u32 (s.inode.iSize + entrySize) = s.inode.iSize + entrySize)
    (hL : L = s.fs.part.sb.dataStartLba + f) (hT : T = s.fs.part.sb.dataStartLba + g) :
    Grown s (filled pDe T 0 (cleared T (withIndirect L
      (Function.update (allBlocks s.fs.disk s.inode) 12 T)
      (taken g (withSector 12 L (taken f s)))))) := by
  have hmax : maxLba = 163839 := rfl
  have hstart := h.area.start
  have hle := h.area.second_le hg
  have hgf := (FirstClear.second hg).1
  have h12 : (taken g (withSector 12 L (taken f s))).inode.iSectors 12 = L := by
    change Function.update s.inode.iSectors 12 L 12 = L
    exact Function.update_self _ _ _
  have hdirect : ∀ j < 12, (taken g (withSector 12 L (taken f s))).inode.iSectors j =
      s.inode.iSectors j := fun j hj => Function.update_of_ne (Nat.ne_of_lt hj) _ _
  apply grown_of_first h hf hg hL hT
  case hsize => exact hsize
  case hopen => rfl
  case hmem => rfl
  case hind => exact h12
  case htable =>
    intro j hj
    apply (dirBlock_filled hj ?_).trans
    · exact table_withIndirect le_rfl (by omega) (by omega) h12 hdirect hj
    · exact ne_of_eq_of_ne h12 (by omega)

theorem not_grown_of_later (h : TableShape s)
    (hf : FirstClear s.fs.mem s.fs.part.blockBitmap f)
    (hg : FirstClear (bitmapSet s.fs.mem s.fs.part.blockBitmap f true) s.fs.part.blockBitmap g)
    (hT : T = s.fs.part.sb.dataStartLba + g)
    (hmem : u.fs.mem = bitmapSet (bitmapSet s.fs.mem s.fs.part.blockBitmap f true)
      s.fs.part.blockBitmap g true)
    (hind : u.inode.iSectors 12 = s.inode.iSectors 12)
    (htable : ∀ j < blockCnt, dirBlock u j = if j = i then T else dirBlock s j) :
    ¬ Grown s u := by
  intro hgrown
  have hgf := (FirstClear.second hg).1
  have hfresh := h.not_references hf.clear
  have hset := (newlySet_two hf hg hmem).mpr (Or.inl rfl)
  obtain ⟨⟨hpos, hb | ⟨j, hj, hb⟩⟩, -⟩ := (hgrown.bits _).mp hset
  · exact hfresh ⟨hpos, Or.inl (hb.trans hind)⟩
  · rw [htable j hj] at hb
    split at hb
    · omega
    · exact hfresh ⟨hpos, Or.inr ⟨j, hj, hb⟩⟩

theorem not_grown_later (h : TableShape s) (hi : 12 < i) (hind : s.inode.iSectors 12 ≠ 0)
    (hf : FirstClear s.fs.mem s.fs.part.blockBitmap f)
    (hg : FirstClear (bitmapSet s.fs.mem s.fs.part.blockBitmap f true) s.fs.part.blockBitmap g)
    (hT : T = s.fs.part.sb.dataStartLba + g) :
    ¬ Grown s (filled pDe T 0 (cleared T (withIndirect (s.inode.iSectors 12)
      (Function.update (allBlocks s.fs.disk s.inode) i T) (taken g (taken f s))))) := by
  have hmax : maxLba = 163839 := rfl
  have hle := h.area.second_le hg
  have hne : s.inode.iSectors 12 ≠ T := by
    intro he
    exact h.not_references (FirstClear.second hg).2 (hT ▸ ⟨by omega, Or.inl he.symm⟩)
  apply not_grown_of_later h hf hg hT
  case hmem => rfl
  case hind => rfl
  case htable =>
    intro j hj
    apply (dirBlock_filled hj ?_).trans
    · exact @table_withIndirect s (taken g (taken f s)) i T _ hi.le (by omega) hind rfl
        (fun _ _ => rfl) j hj
    · exact hne

theorem add_grown (h : TableShape s) (hstop : Stop s i) (hzero : dirBlock s i = 0)
    (hsize : u32 (s.inode.iSize + entrySize) = s.inode.iSize + entrySize)
    (hrun : addBlock pDe (allBlocks s.fs.disk s.inode) i s = .ok (some true, u)) :
    Grown s u ↔ i ≤ 12 := by
  by_cases hnew : ∃ T, NewBlock s i T
  · obtain ⟨T, f, hf, hT⟩ := hnew
    rcases Nat.lt_trichotomy i 12 with hlt | rfl | hgt
    · rw [if_pos hlt] at hT
      rw [addBlock_direct h.area hf hlt hT] at hrun
      cases hrun
      exact iff_of_true (grown_direct h hlt hzero hf hsize hT) hlt.le
    · rw [if_neg (by omega)] at hT
      obtain ⟨g, hg, hT⟩ := hT
      rw [addBlock_first h.area hf hg rfl hT] at hrun
      cases hrun
      exact iff_of_true (grown_first h hf hg hsize rfl hT) le_rfl
    · rw [if_neg (by omega)] at hT
      obtain ⟨g, hg, hT⟩ := hT
      rw [addBlock_later h.area hf hg hgt h.indirect hT] at hrun
      cases hrun
      exact iff_of_false (not_grown_later h hgt (hstop.index_ne hgt) hf hg hT) (by omega)
  · exact absurd hrun (addBlock_none h.area (fun T hT => hnew ⟨T, hT⟩) u)

/-- No second block for the thirteenth: the bit is cleared in memory again, and not on the disk. -/
def undone (f : ℕ) (s : DirState) : DirState where
  fs := { s.fs with disk := (taken f s).fs.disk }
  inode := { s.inode with iSectors := Function.update s.inode.iSectors 12 0 }

theorem bitmapSet_undo {m : Bytes} {btmp : Bitmap} (h : usedBit m btmp f = false) :
    bitmapSet (bitmapSet m btmp f true) btmp f false = m := by
  apply bytes_ext
  intro k
  rw [memBit_bitmapSet, memBit_bitmapSet]
  split
  case isTrue he =>
    rw [he]
    exact h.symm
  case isFalse => rfl

theorem second_none (hi : ¬ i < 12) (hf : FirstClear s.fs.mem s.fs.part.blockBitmap f)
    (hno : ∀ T, ¬ NewBlock s i T) : ¬ ∃ g,
      FirstClear (bitmapSet s.fs.mem s.fs.part.blockBitmap f true) s.fs.part.blockBitmap g := by
  rintro ⟨g, hg⟩
  exact hno _ ⟨f, hf, by rw [if_neg hi]; exact ⟨g, hg, rfl⟩⟩

theorem blockIdx_data (harea : FreeShape s) (hf : FirstClear s.fs.mem s.fs.part.blockBitmap f)
    (hpart : t.fs.part = s.fs.part) : blockIdx t (s.fs.part.sb.dataStartLba + f) = f := by
  have hle := harea.first_le hf
  have hmax : maxLba = 163839 := rfl
  rw [blockIdx, hpart, u32]
  omega

theorem clearBit_undo (harea : FreeShape s) (hf : FirstClear s.fs.mem s.fs.part.blockBitmap f)
    {lba : ℕ} (hlba : lba = s.fs.part.sb.dataStartLba + f) :
    clearBit lba (withSector 12 lba (taken f s)) = .ok ((),
      { withSector 12 lba s with fs := { s.fs with disk := (taken f s).fs.disk } }) := by
  have hidx : blockIdx (withSector 12 lba (taken f s)) lba = f :=
    hlba ▸ blockIdx_data harea hf rfl
  rw [clearBit, modify_apply, hidx]
  have hmem : bitmapSet (withSector 12 lba (taken f s)).fs.mem
      (withSector 12 lba (taken f s)).fs.part.blockBitmap f false = s.fs.mem :=
    bitmapSet_undo hf.clear
  rw [hmem]
  rfl

theorem addBlock_undo (harea : FreeShape s)
    (hf : FirstClear s.fs.mem s.fs.part.blockBitmap f) (hno : ∀ T, ¬ NewBlock s 12 T)
    {blocks : ℕ → ℕ} : addBlock pDe blocks 12 s = .ok (some false, undone f s) := by
  have halloc := @allocBlock_none (withSector 12 (s.fs.part.sb.dataStartLba + f) (taken f s))
    (second_none (by omega) hf hno)
  rw [addBlock, bind_of_ok (allocBlock_some harea hf)]
  refine (bind_of_ok (syncBit_taken harea hf)).trans ?_
  rw [if_neg (by omega), if_pos rfl, setSector, modify_bind]
  refine (bind_of_ok halloc).trans ((bind_of_ok (clearBit_undo harea hf rfl)).trans ?_)
  rw [setSector, modify_bind, pure_apply, undone]
  simp only [withSector, Function.update_idem]

theorem addBlock_halt (harea : FreeShape s) (hi : 12 < i)
    (hf : FirstClear s.fs.mem s.fs.part.blockBitmap f) (hno : ∀ T, ¬ NewBlock s i T)
    {blocks : ℕ → ℕ} : addBlock pDe blocks i s = .error .maxLba := by
  have hnone := second_none (by omega) hf hno
  rw [addBlock, bind_of_ok (allocBlock_some harea hf)]
  refine (bind_of_ok (syncBit_taken harea hf)).trans ?_
  rw [if_neg (by omega), if_neg (by omega), bind_of_ok (@allocBlock_none (taken f s) hnone)]
  exact syncBit_minus_one (harea.set_bit rfl rfl)

theorem addBlock_new (hdisk : OnDisk s) (hnew : NewBlock s i T) {blocks : ℕ → ℕ} :
    ∃ u, addBlock pDe blocks i s = .ok (some true, u) := by
  obtain ⟨f, hf, hT⟩ := hnew
  rcases Nat.lt_trichotomy i 12 with hlt | rfl | hgt
  · exact ⟨_, addBlock_direct hdisk.area hf hlt rfl⟩
  · rw [if_neg (by omega)] at hT
    obtain ⟨g, hg, hT⟩ := hT
    exact ⟨_, addBlock_first hdisk.area hf hg rfl hT⟩
  · rw [if_neg (by omega)] at hT
    obtain ⟨g, hg, hT⟩ := hT
    exact ⟨_, addBlock_later hdisk.area hf hg hgt hdisk.indirect hT⟩

theorem addBlock_returns (hdisk : OnDisk s) (hi : i ≤ 12) {blocks : ℕ → ℕ} :
    ∃ r u, addBlock pDe blocks i s = .ok (r, u) := by
  rcases bitmapFull_or_firstClear s with hfull | ⟨f, hf⟩
  · exact ⟨_, _, addBlock_refuse hfull⟩
  · by_cases hnew : ∃ T, NewBlock s i T
    · obtain ⟨T, hT⟩ := hnew
      exact ⟨_, addBlock_new hdisk hT⟩
    · rcases Nat.lt_or_eq_of_le hi with hlt | rfl
      · exact absurd ⟨_, f, hf, by rw [if_pos hlt]⟩ hnew
      · exact ⟨_, _, addBlock_undo hdisk.area hf fun T hT => hnew ⟨T, hT⟩⟩

theorem adds_add_iff (h : TableShape s) (hstop : Stop s i) (hzero : dirBlock s i = 0)
    (hsize : u32 (s.inode.iSize + entrySize) = s.inode.iSize + entrySize)
    (hrun : syncDirEntry pDe s = addBlock pDe (allBlocks s.fs.disk s.inode) i s) :
    Adds pDe s ↔ i ≤ 12 ∨ BitmapFull s := by
  rcases bitmapFull_or_firstClear s with hfull | ⟨f, hf⟩
  · refine iff_of_true ?_ (Or.inr hfull)
    rw [adds_of_ok (hrun.trans (addBlock_refuse hfull))]
    exact fun hr => by cases hr
  · have hfull : ¬ BitmapFull s := fun hfull => hfull.not_firstClear ⟨f, hf⟩
    rw [or_iff_left hfull]
    by_cases hi : i ≤ 12
    · obtain ⟨r, u, hok⟩ := @addBlock_returns s i pDe h.toOnDisk hi (allBlocks s.fs.disk s.inode)
      refine iff_of_true ((adds_of_ok (hrun.trans hok)).mpr ?_) hi
      rintro rfl
      exact (add_grown h hstop hzero hsize hok).mpr hi
    · refine iff_of_false ?_ hi
      by_cases hnew : ∃ T, NewBlock s i T
      · obtain ⟨T, hT⟩ := hnew
        obtain ⟨u, hok⟩ := @addBlock_new s i T pDe h.toOnDisk hT (allBlocks s.fs.disk s.inode)
        rw [adds_of_ok (hrun.trans hok)]
        exact fun hadds => hi ((add_grown h hstop hzero hsize hok).mp (hadds rfl))
      · exact adds_of_error
          (hrun.trans (addBlock_halt h.area (by omega) hf fun T hT => hnew ⟨T, hT⟩))

/-- The calls that keep what is said of them: the size passes the assertion, and the first block
that is not full is missing and one of the first thirteen. -/
theorem sync_grows_iff (h : TableShape s) (hword : s.inode.iSize < 2 ^ 32)
    (hentry : s.inode.iSize % entrySize = 0) (hroom : ∃ i < blockCnt, ¬ Full s i) :
    (Adds pDe s ↔ s.inode.iSize % dirSize = 0 ∧
      ∃ i, Stop s i ∧ dirBlock s i = 0 ∧ (i ≤ 12 ∨ BitmapFull s)) ∧
    ∀ u, syncDirEntry pDe s = .ok (some true, u) →
      (Grown s u ↔ ∃ i, Stop s i ∧ dirBlock s i = 0 ∧ i ≤ 12) := by
  obtain ⟨i, hstop⟩ := exists_stop hroom
  -- the condition speaks of the one block that decides
  have hat : ∀ P : ℕ → Prop, (∃ j, Stop s j ∧ dirBlock s j = 0 ∧ P j) ↔ dirBlock s i = 0 ∧ P i := by
    intro P
    constructor
    · rintro ⟨j, hj, hp⟩
      exact hstop.unique hj ▸ hp
    · exact fun hp => ⟨i, hstop, hp⟩
  rw [hat, hat]
  by_cases hsize : s.inode.iSize % dirSize = 0
  case neg =>
    have hrun := @syncDirEntry_halt s pDe hsize
    refine ⟨iff_of_false (adds_of_error hrun) fun h => hsize h.1, fun u hok => ?_⟩
    rw [hrun] at hok
    cases hok
  case pos =>
    have hgrow := size_grown hword hentry hsize
    by_cases hzero : dirBlock s i = 0
    · have hrun := @Stop.add s i pDe hstop h.toOnDisk hsize hzero
      refine ⟨?_, fun u hok => ?_⟩
      · rw [adds_add_iff h hstop hzero hgrow hrun]
        exact ⟨fun hi => ⟨hsize, hzero, hi⟩, fun hi => hi.2.2⟩
      · rw [add_grown h hstop hzero hgrow (hrun.symm.trans hok)]
        exact ⟨fun hi => ⟨hzero, hi⟩, fun hi => hi.2⟩
    · obtain ⟨t, hrun, hsame⟩ := @Stop.fill s i pDe hstop h.toOnDisk hsize hzero
      have hno : ¬ Grown s t := by
        intro hg
        have := hg.size
        have hlen : entrySize = 24 := rfl
        omega
      refine ⟨iff_of_false (fun hadds => hno ((adds_of_ok hrun).mp hadds rfl))
        fun hi => hzero hi.2.1, fun u hok => ?_⟩
      rw [hrun] at hok
      cases hok
      exact iff_of_false hno fun hi => hzero hi.1

/-! ## Directories of some direct blocks -/

/-- The blocks are from sector 100 on, and hold so many entries; memory and disk agree on the
bitmap. -/
def sampleDir (iSize cnt entries : ℕ) (bits : ℕ → BitVec 8) : DirState where
  fs :=
    { mem := fun a => if 4096 ≤ a ∧ a < 4608 then bits (a - 4096) else 0xff
      disk := fun a =>
        if 1024 ≤ a ∧ a < 1536 then bits (a - 1024)
        else if a % 512 % 24 = 20 ∧ 21 * (a / 512 - 100) + a % 512 / 24 < entries then 1 else 0
      part := ⟨0, 5000, ⟨0x19990814, 5000, 4096, 0, 2, 1, 3, 1, 4, 96, 100, 0, 24⟩,
        ⟨512, 4096⟩, ⟨512, 8192⟩⟩ }
  inode := ⟨iSize, 1, fun i => if i < cnt then 100 + i else 0⟩

variable {iSize cnt entries : ℕ} {bits : ℕ → BitVec 8}

theorem sampleDir_bit {idx : ℕ} (h : idx < 4096) :
    usedBit (sampleDir iSize cnt entries bits).fs.mem
      (sampleDir iSize cnt entries bits).fs.part.blockBitmap idx =
      (bits (idx / 8)).getLsbD (idx % 8) := by
  have hbyte : (sampleDir iSize cnt entries bits).fs.mem (4096 + idx / 8) = bits (idx / 8) := by
    refine (if_pos (by omega)).trans ?_
    rw [Nat.add_sub_cancel_left]
  rw [usedBit_eq]
  exact congrArg (fun byte : BitVec 8 => byte.getLsbD (idx % 8)) hbyte

theorem sampleDir_block (hcnt : cnt ≤ 12) :
    dirBlock (sampleDir iSize cnt entries bits) i = if i < cnt then 100 + i else 0 := by
  have h12 : (sampleDir iSize cnt entries bits).inode.iSectors 12 = 0 := if_neg (by omega)
  rw [dirBlock, allBlocks]
  by_cases hi : i < 12
  · rw [if_pos hi]
    rfl
  · rw [if_neg hi, if_neg (not_not.mpr h12), if_neg (by omega)]

theorem sampleDir_shape (hcnt : cnt ≤ 12)
    (hbits : ∀ i < cnt, (bits (i / 8)).getLsbD (i % 8) = true) :
    DirShape (sampleDir iSize cnt entries bits) cnt := by
  have hall : blockCnt = 140 := rfl
  constructor
  case area =>
    have harea : AreaShape (sampleDir 0 0 0 fun _ => 0) := by constructor <;> decide
    exact harea.congr rfl
  case count => omega
  case used =>
    intro i hi
    rw [sampleDir_block hcnt, if_pos hi]
    have hin : i < 8 * 512 := by omega
    exact ⟨i, hin, (sampleDir_bit (by omega)).trans (hbits i hi), rfl⟩
  case unused =>
    intro i _ hi
    rw [sampleDir_block hcnt, if_neg (by omega)]
  case distinct =>
    intro i hi j hj
    rw [sampleDir_block hcnt, sampleDir_block hcnt, if_pos hi, if_pos (by omega)]
    omega
  case indirect => omega
  case indirect_apart => omega
  case direct => exact fun _ => if_neg (by omega)

/-- The first entry of a directory. -/
theorem sync_grows_first_entry : Adds (fun _ => 1) (sampleDir 0 0 0 fun _ => 0) := by
  have htable : TableShape (sampleDir 0 0 0 fun _ => 0) :=
    DirShape.table (sampleDir_shape (Nat.zero_le _) nofun)
  have hzero : dirBlock (sampleDir 0 0 0 fun _ => 0) 0 = 0 := sampleDir_block (Nat.zero_le _)
  have hstop : Stop (sampleDir 0 0 0 fun _ => 0) 0 := ⟨by decide, nofun, fun h => h.1 hzero⟩
  have hroom : ∃ i < blockCnt, ¬ Full (sampleDir 0 0 0 fun _ => 0) i := ⟨0, hstop.lt, hstop.room⟩
  refine (sync_grows_iff htable (by decide) (by decide) hroom).1.mpr ?_
  exact ⟨by decide, 0, hstop, hzero, Or.inl (by omega)⟩

/-- 65 entries in four blocks: the next one is put into the fourth, and the open count grows. -/
theorem sync_counts_as_open :
    TableShape (sampleDir 1560 4 65 fun i => if i = 0 then 0x0f else 0) ∧
    (sampleDir 1560 4 65 fun i => if i = 0 then 0x0f else 0).inode.iSize % entrySize = 0 ∧
    (∃ i < blockCnt, ¬ Full (sampleDir 1560 4 65 fun i => if i = 0 then 0x0f else 0) i) ∧
    ∃ u, syncDirEntry (fun _ => 1) (sampleDir 1560 4 65 fun i => if i = 0 then 0x0f else 0) =
      .ok (some true, u) ∧ u.inode.iSize = 1560 ∧ u.inode.iOpenCnts = 25 ∧
      ¬ Grown (sampleDir 1560 4 65 fun i => if i = 0 then 0x0f else 0) u := by
  have hrun : yields (syncDirEntry (fun _ => 1))
      (sampleDir 1560 4 65 fun i => if i = 0 then 0x0f else 0) (fun r u =>
        r == some true && u.inode.iSize == 1560 && u.inode.iOpenCnts == 25) = true := by
    decide +kernel
  obtain ⟨r, u, hsync, htest⟩ := yields_iff.mp hrun
  simp only [Bool.and_eq_true, beq_iff_eq] at htest
  obtain ⟨⟨rfl, hsize⟩, hopen⟩ := htest
  refine ⟨DirShape.table (sampleDir_shape (by decide) (by decide)), by decide, ⟨4, by decide, ?_⟩,
    u, hsync, hsize, hopen, fun hg => ?_⟩
  · exact fun hfull => hfull.1 (sampleDir_block (by decide))
  · have := hg.open_cnts
    rw [hopen] at this
    cases this

/-! ## An entry that cannot be added -/

/-- The bitmap runs out, or every block is full. -/
def OutOfRoom (s : DirState) : Prop :=
  (∃ i, Stop s i ∧ dirBlock s i = 0 ∧ ∀ T, ¬ NewBlock s i T) ∨ ∀ i < blockCnt, Full s i

/-- The directory and the bitmap are as they were, in memory and on the disk. -/
structure Kept (s u : DirState) : Prop where
  inode : u.inode = s.inode
  bits : ∀ idx < 8 * s.fs.part.blockBitmap.bitmapLen,
    usedBit u.fs.mem s.fs.part.blockBitmap idx = usedBit s.fs.mem s.fs.part.blockBitmap idx
  bitmap : ∀ k < s.fs.part.sb.blockBitmapSects, ∀ a < 512,
    sectorAt u.fs.disk (s.fs.part.sb.blockBitmapLba + k) a =
      sectorAt s.fs.disk (s.fs.part.sb.blockBitmapLba + k) a
  blocks : ∀ i < blockCnt, dirBlock s i ≠ 0 → ∀ a < 512,
    sectorAt u.fs.disk (dirBlock s i) a = sectorAt s.fs.disk (dirBlock s i) a
  index : s.inode.iSectors 12 ≠ 0 → ∀ a < 512,
    sectorAt u.fs.disk (s.inode.iSectors 12) a = sectorAt s.fs.disk (s.inode.iSectors 12) a

def Refuses (pDe : Bytes) (s : DirState) : Prop :=
  ∃ u, syncDirEntry pDe s = .ok (some false, u) ∧ Kept s u

/-- What the sync of bit `f` writes is what is there already. -/
def SameSector (s : DirState) (f : ℕ) : Prop := ∀ a < 512,
  bitmapSet s.fs.mem s.fs.part.blockBitmap f true
    (s.fs.part.inodeBitmap.bits + 512 * (f / 4096) + a) =
    sectorAt s.fs.disk (s.fs.part.sb.blockBitmapLba + f / 4096) a

theorem kept_refl (s : DirState) : Kept s s :=
  ⟨rfl, fun _ _ => rfl, fun _ _ _ _ => rfl, fun _ _ _ _ _ => rfl, fun _ _ _ => rfl⟩

theorem refuses_of_ok {r : Option Bool} (h : syncDirEntry pDe s = .ok (r, u)) :
    Refuses pDe s ↔ r = some false ∧ Kept s u := by
  rw [Refuses, h]
  constructor
  · rintro ⟨u', he, hk⟩
    cases he
    exact ⟨rfl, hk⟩
  · rintro ⟨rfl, hk⟩
    exact ⟨u, rfl, hk⟩

theorem not_refuses_of_error {e : DirHalt} (h : syncDirEntry pDe s = .error e) :
    ¬ Refuses pDe s := by
  rintro ⟨u, hok, -⟩
  rw [h] at hok
  cases hok

theorem taken_disk (harea : FreeShape s) (hf : f < 8 * s.fs.part.blockBitmap.bitmapLen) :
    (taken f s).fs.disk = ideWrite s.fs.disk (s.fs.part.sb.blockBitmapLba + f / 4096)
      (bitmapSet s.fs.mem s.fs.part.blockBitmap f true)
      (s.fs.part.inodeBitmap.bits + 512 * (f / 4096)) 1 := by
  have hmax : maxLba = 163839 := rfl
  have hcov := harea.covered
  have hbit := harea.bitmap
  have hlba : u32 (s.fs.part.sb.blockBitmapLba + f / 4096) =
      s.fs.part.sb.blockBitmapLba + f / 4096 := u32_of_lt (by omega)
  rw [← hlba]
  rfl

/-- Only by chance is nothing left on the disk of the bit that was set. -/
theorem kept_undone_iff (harea : FreeShape s)
    (hf : FirstClear s.fs.mem s.fs.part.blockBitmap f) :
    Kept s (undone f s) ↔ s.inode.iSectors 12 = 0 ∧ SameSector s f := by
  have hin := hf.inside
  have hcov := harea.covered
  have hdisk : (undone f s).fs.disk = _ := taken_disk harea hin
  constructor
  · intro h
    constructor
    · have hsec := congrArg (fun inode => inode.iSectors 12) h.inode
      have hself : Function.update s.inode.iSectors 12 0 12 = 0 := Function.update_self _ _ _
      exact hsec.symm.trans hself
    · intro a ha
      have hkept := h.bitmap (f / 4096) (by omega) a ha
      rw [hdisk, sectorAt_ideWrite_self ha] at hkept
      exact hkept
  · rintro ⟨hzero, hsame⟩
    have hrefl := kept_refl s
    have hback : (undone f s).fs.disk = s.fs.disk := by
      rw [hdisk]
      funext a
      by_cases ha : a / 512 = s.fs.part.sb.blockBitmapLba + f / 4096
      · have h := hsame (a % 512) (Nat.mod_lt _ (by omega))
        have hpos : 512 * (s.fs.part.sb.blockBitmapLba + f / 4096) + a % 512 = a := by omega
        rw [sectorAt, hpos] at h
        rw [← h]
        conv_lhs => rw [← hpos]
        exact copyBytes_at (by omega)
      · exact copyBytes_outside (by omega)
    constructor
    case inode =>
      have hsec : Function.update s.inode.iSectors 12 0 = s.inode.iSectors := by
        rw [← hzero]
        exact Function.update_eq_self _ _
      rw [undone, hsec]
    case bits => exact fun _ _ => rfl
    case bitmap =>
      rw [hback]
      exact hrefl.bitmap
    case blocks =>
      rw [hback]
      exact hrefl.blocks
    case index =>
      rw [hback]
      exact hrefl.index

/-- A call that cannot add the entry changes nothing if the bitmap is full when a block is first
asked for. -/
theorem sync_refuses_iff (h : OnDisk s) (hno : OutOfRoom s) :
    Refuses pDe s ↔ s.inode.iSize % dirSize = 0 ∧ (∃ i < blockCnt, ¬ Full s i) ∧
      (BitmapFull s ∨ Stop s 12 ∧ s.inode.iSectors 12 = 0 ∧
        ∃ f, FirstClear s.fs.mem s.fs.part.blockBitmap f ∧ SameSector s f) := by
  by_cases hsize : s.inode.iSize % dirSize = 0
  case neg =>
    exact iff_of_false (not_refuses_of_error (syncDirEntry_halt hsize)) fun hc => hsize hc.1
  case pos =>
    rcases hno with ⟨i, hstop, hzero, hnew⟩ | hfull
    · have hrun := @Stop.add s i pDe hstop h hsize hzero
      rw [and_iff_right hsize, and_iff_right ⟨i, hstop.lt, hstop.room⟩]
      rcases bitmapFull_or_firstClear s with hbits | ⟨f, hf⟩
      · refine iff_of_true ?_ (Or.inl hbits)
        rw [refuses_of_ok (hrun.trans (addBlock_refuse hbits))]
        exact ⟨rfl, kept_refl s⟩
      · rw [or_iff_right fun hbits : BitmapFull s => hbits.not_firstClear ⟨f, hf⟩]
        rcases Nat.lt_trichotomy i 12 with hlt | rfl | hgt
        · exact absurd ⟨f, hf, by rw [if_pos hlt]⟩ (hnew _)
        · rw [refuses_of_ok (hrun.trans (addBlock_undo h.area hf hnew)), kept_undone_iff h.area hf]
          constructor
          · exact fun hc => ⟨hstop, hc.2.1, f, hf, hc.2.2⟩
          · rintro ⟨-, hind, f', hf', hsame⟩
            exact ⟨rfl, hind, firstClear_unique hf' hf ▸ hsame⟩
        · refine iff_of_false ?_ fun hc => ?_
          · exact not_refuses_of_error (hrun.trans (addBlock_halt h.area hgt hf hnew))
          · have := hstop.unique hc.1
            omega
    · have hrun : syncDirEntry pDe s = .ok (none, s) := by
        rw [syncDirEntry_pass h.indirect hsize le_rfl h.blocks hfull, Nat.sub_self]
        rfl
      refine iff_of_false ?_ ?_
      · rw [refuses_of_ok hrun]
        rintro ⟨hr, -⟩
        cases hr
      · rintro ⟨-, ⟨i, hi, hroom⟩, -⟩
        exact hroom (hfull i hi)

theorem bitmapFull_sampleDir (hbits : ∀ i < 512, bits i = 0xff#8) :
    BitmapFull (sampleDir iSize cnt entries bits) := by
  intro idx hidx
  have hidx : idx < 4096 := hidx
  rw [sampleDir_bit hidx, hbits _ (by omega)]
  exact ones_bit _ (Nat.mod_lt _ (by omega))

/-- A first block that is refused. -/
theorem sync_refuses_first_block : Refuses (fun _ => 1) (sampleDir 0 0 0 fun _ => 0xff) := by
  have htable : TableShape (sampleDir 0 0 0 fun _ => 0xff) :=
    DirShape.table (sampleDir_shape (Nat.zero_le _) nofun)
  have hzero : dirBlock (sampleDir 0 0 0 fun _ => 0xff) 0 = 0 := sampleDir_block (Nat.zero_le _)
  have hstop : Stop (sampleDir 0 0 0 fun _ => 0xff) 0 := ⟨by decide, nofun, fun h => h.1 hzero⟩
  have hfull : BitmapFull (sampleDir 0 0 0 fun _ => 0xff) := bitmapFull_sampleDir fun _ _ => rfl
  have hno : OutOfRoom (sampleDir 0 0 0 fun _ => 0xff) := by
    refine Or.inl ⟨0, hstop, hzero, ?_⟩
    rintro T ⟨f, hf, -⟩
    exact hfull.not_firstClear ⟨f, hf⟩
  refine (sync_refuses_iff htable.toOnDisk hno).mpr ⟨by decide, ⟨0, hstop.lt, hstop.room⟩, ?_⟩
  exact Or.inl hfull

theorem clear_of_sample (hf : f < 8 * 512)
    (h : usedBit (sampleDir iSize cnt entries fun i => if i = 1 then 0xef else 0xff).fs.mem
      ⟨512, 4096⟩ f = false) : f = 12 := by
  have hbit := (sampleDir_bit (by omega)).symm.trans h
  have hfull : ∀ o < 8, (0xff#8).getLsbD o ≠ false := by decide
  have hone : ∀ o < 8, (0xef#8).getLsbD o = false → o = 4 := by decide
  have ho := Nat.mod_lt f (by omega : 0 < 8)
  by_cases hbyte : f / 8 = 1
  · rw [if_pos hbyte] at hbit
    have := hone _ ho hbit
    omega
  · rw [if_neg hbyte] at hbit
    exact absurd hbit (hfull _ ho)

/-- Twelve full blocks and one clear bit, that of sector 112: the bit stays set on the disk. -/
theorem sync_leaks_bit :
    OnDisk (sampleDir 0 12 252 fun i => if i = 1 then 0xef else 0xff) ∧
    OutOfRoom (sampleDir 0 12 252 fun i => if i = 1 then 0xef else 0xff) ∧
    (∃ u, syncDirEntry (fun _ => 1) (sampleDir 0 12 252 fun i => if i = 1 then 0xef else 0xff) =
      .ok (some false, u) ∧ u.fs.mem 4097 = 0xef ∧ u.fs.disk 1025 = 0xff) ∧
    ¬ Refuses (fun _ => 1) (sampleDir 0 12 252 fun i => if i = 1 then 0xef else 0xff) := by
  have hrun : yields (syncDirEntry (fun _ => 1))
      (sampleDir 0 12 252 fun i => if i = 1 then 0xef else 0xff) (fun r u =>
        r == some false && u.fs.mem 4097 == 0xef && u.fs.disk 1025 == 0xff) = true := by
    decide +kernel
  have htable : TableShape (sampleDir 0 12 252 fun i => if i = 1 then 0xef else 0xff) :=
    DirShape.table (sampleDir_shape le_rfl (by decide))
  have hzero : dirBlock (sampleDir 0 12 252 fun i => if i = 1 then 0xef else 0xff) 12 = 0 :=
    sampleDir_block le_rfl
  have hstop : Stop (sampleDir 0 12 252 fun i => if i = 1 then 0xef else 0xff) 12 :=
    ⟨by decide, by decide +kernel, fun h => h.1 hzero⟩
  obtain ⟨r, u, hsync, htest⟩ := yields_iff.mp hrun
  simp only [Bool.and_eq_true, beq_iff_eq] at htest
  obtain ⟨⟨rfl, hmem⟩, hdisk⟩ := htest
  refine ⟨htable.toOnDisk, Or.inl ⟨12, hstop, hzero, ?_⟩, ⟨u, hsync, hmem, hdisk⟩, ?_⟩
  · rintro T ⟨f, hf, hT⟩
    rw [if_neg (by omega)] at hT
    obtain ⟨g, hg, -⟩ := hT
    obtain ⟨hne, hclear⟩ := FirstClear.second hg
    exact hne ((clear_of_sample hg.inside hclear).trans (clear_of_sample hf.inside hf.clear).symm)
  · rintro ⟨u', hsync', hkept⟩
    rw [hsync] at hsync'
    cases hsync'
    have hbefore : sectorAt (sampleDir 0 12 252 fun i => if i = 1 then 0xef else 0xff).fs.disk 2 1 =
        0xef := by decide
    have hafter : sectorAt u.fs.disk 2 1 = 0xff := hdisk
    have hsame := hafter.symm.trans ((hkept.bitmap 0 (by decide) 1 (by omega)).trans hbefore)
    cases hsame

end FsDirBlocks
