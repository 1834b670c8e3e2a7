import Leeos.FsDirInserts
import Mathlib.Data.Finset.Card
import Mathlib.Order.Interval.Finset.Nat

/-!
# Finding the entries that were added

An entry that `sync_dir_entry` has added is to be what `search_dir_entry` finds under its name, and
nothing is to change for the other names. The reader keeps one byte of each address and compares
16 bytes of a name and the 0 behind them.
-/
namespace FsDirEntries

open ExecRules KernelBitmap FsDisk FsBitmaps FsDirectory FsDirInserts
open FsPaths (CString)

variable {s t : DirState} {n i k T iNo ft : ℕ} {name other : CString} {pDe buf disk : Bytes}

/-- The entry in use at no place carries the name, and those that are free have none. -/
structure Contents (s : DirState) (n : ℕ) (name : CString) : Prop where
  free : ∀ i < n, ∀ k < entriesPerSector, fType (sectorAt s.fs.disk (dirBlock s i)) (24 * k) = 0 →
    sectorAt s.fs.disk (dirBlock s i) (24 * k) = 0
  used : ∀ i < n, ∀ k < entriesPerSector, fType (sectorAt s.fs.disk (dirBlock s i)) (24 * k) ≠ 0 →
    ¬ Carries (sectorAt s.fs.disk (dirBlock s i)) (24 * k) name

def EntryFound (s : DirState) (name : CString) (iNo ft : ℕ) : Prop :=
  ∀ pDe s', createDirEntry name iNo ft (fun _ => 0) = .ok pDe →
    syncDirEntry pDe s = .ok (some true, s') →
    (∃ e, searchDirEntry s' name = .ok (some e) ∧ e.iNo = iNo ∧ e.fType = ft) ∧
      ∀ other, ValidName other → other ≠ name → searchDirEntry s' other = searchDirEntry s other

def withDisk (disk : Bytes) (s : DirState) : DirState := { s with fs := { s.fs with disk := disk } }

def SameIndirect (s : DirState) (n : ℕ) (disk : Bytes) : Prop :=
  12 < n → ∀ a < 512,
    sectorAt disk (s.inode.iSectors 12) a = sectorAt s.fs.disk (s.inode.iSectors 12) a

/-- Whatever the blocks of the directory hold, and whatever the type of the file. -/
def EntriesFound (s : DirState) (n : ℕ) (name : CString) (iNo : ℕ) : Prop :=
  ∀ disk, SameIndirect s n disk → Contents (withDisk disk s) n name →
    ∀ ft < 256, EntryFound (withDisk disk s) name iNo ft

/-- The size passes the assertion only if each block that may take the entry is one of the first 44,
at an address of one byte, and the name has a 0 behind it. -/
def Readable (s : DirState) (n : ℕ) (name : CString) (iNo : ℕ) : Prop :=
  s.inode.iSize % dirSize = 0 → ∀ i T, Target s n i T →
    i < 44 ∧ T < 256 ∧ (name.length < maxFileNameLen ∨ iNo % 256 = 0)

/-! ## What a search of the directory finds -/

theorem searchSector_zero (hn : ValidName name) (h : ∀ a < 512, buf a = 0) :
    searchSector buf name = none := by
  have hcnt : entriesPerSector = 21 := rfl
  rw [searchSector_eq_none_iff]
  intro idx hidx
  exact sameString_nil_byte hn (h _ (by omega))

theorem Contents.free_slot (h : Contents s n name) (ho : ValidName other) (hi : i < n)
    (hk : k < entriesPerSector) (hfree : fType (sectorAt s.fs.disk (dirBlock s i)) (24 * k) = 0) :
    sameString (sectorAt s.fs.disk (dirBlock s i)) (24 * k) other = false :=
  sameString_nil_byte ho (h.free i hi k hk hfree)

theorem Contents.none (h : Contents s n name) (hn : ValidName name) (hi : i < n) :
    searchSector (sectorAt s.fs.disk (dirBlock s i)) name = none := by
  rw [searchSector_eq_none_iff]
  intro k hk
  by_cases hfree : fType (sectorAt s.fs.disk (dirBlock s i)) (24 * k) = 0
  · exact h.free_slot hn hi hk hfree
  · rw [Bool.eq_false_iff]
    exact fun hsame => h.used i hi k hk hfree (carries_of_sameString hsame)

theorem search_eq (hsh : DirShape s n) (hn : n ≤ 44) (hb : ∀ i < n, dirBlock s i < 256) :
    searchDirEntry s name = .ok ((List.range n).findSome? fun i =>
      searchSector (sectorAt s.fs.disk (dirBlock s i)) name) := by
  rw [searchDirEntry_eq (hsh.iSectors_le)]
  refine congrArg Except.ok (searchTable_bytes hn (fun i hi => ⟨?_, hb i hi⟩) hsh.unused)
  exact ((hsh.used i hi).pos hsh.area).ne'

theorem search_filled (h : Place s n i T k t) (hsh : DirShape s n) (hn : ValidName name)
    (hcount : n ≤ 44) (hb : ∀ j < n, dirBlock s j < 256) (hi : i < 44) (hT : T < 256) :
    searchDirEntry (filled pDe T k t) name =
      .ok ((List.range (max n (i + 1))).findSome? fun j =>
        if j = i then searchSector (withEntry pDe (sectorAt t.fs.disk T) k) name
        else searchSector (sectorAt s.fs.disk (dirBlock s j)) name) := by
  have hcnt : blockCnt = 140 := rfl
  have hidx := h.target.index_le
  have htable : ∀ j < blockCnt, allBlocks (filled pDe T k t).fs.disk (filled pDe T k t).inode j =
      if j = i then T else dirBlock s j := fun j hj => h.table_filled hj
  have hsectors : (filled pDe T k t).inode.iSectors 12 ≤ maxLba := h.indirect
  rw [searchDirEntry_eq hsectors]
  have hlen : max n (i + 1) ≤ 44 := by omega
  refine congrArg Except.ok (Eq.trans (searchTable_bytes hlen ?_ ?_) ?_)
  · intro j hj
    rw [htable j (by omega)]
    split
    · exact ⟨h.nonzero, hT⟩
    · have hjn : j < n := by omega
      exact ⟨((hsh.used j hjn).pos hsh.area).ne', hb j hjn⟩
  · intro j hj hout
    rw [htable j hj, if_neg (by omega)]
    exact hsh.unused j hj (by omega)
  · apply findSome_range_congr
    intro j hj
    rw [htable j (by omega)]
    exact h.search_filled hn (by omega)

/-! ## When it is found -/

theorem search_other (h : Place s n i T k t) (hc : Contents s n name)
    (hn : ValidName name) (ho : ValidName other) (hne : other ≠ name) {j : ℕ} (hj : j = i) :
    searchSector (withEntry (newEntry name iNo ft) (sectorAt t.fs.disk T) k) other =
      if j < n then searchSector (sectorAt s.fs.disk (dirBlock s j)) other else none := by
  subst hj
  have hnew : sameString (newEntry name iNo ft) 0 other = false :=
    sameString_newEntry_other hn ho hne
  have hkcnt : entriesPerSector = 21 := rfl
  have hk := h.slot
  by_cases hj : j < n
  · have hT := h.block_eq hj
    have hsame : ∀ a < 512, sectorAt t.fs.disk T a = sectorAt s.fs.disk (dirBlock s j) a :=
      fun a ha => hT ▸ h.kept j hj a ha
    have hfree : fType (sectorAt s.fs.disk (dirBlock s j)) (24 * k) = 0 := by
      rw [← h.free]
      exact (fType_congr fun a ha => hsame _ (by omega)).symm
    have hold : sameString (sectorAt t.fs.disk T) (24 * k) other = false := by
      rw [sameString_congr ho fun a ha => hsame _ (by omega)]
      exact hc.free_slot ho hj hk hfree
    rw [if_pos hj, searchSector_withEntry_other ho hnew hold]
    exact searchSector_congr ho hsame
  · have hzero := h.new (by have := h.target.index_le; omega)
    have hold : sameString (sectorAt t.fs.disk T) (24 * k) other = false :=
      sameString_nil_byte ho (hzero _ (by omega))
    rw [if_neg hj, searchSector_withEntry_other ho hnew hold]
    exact searchSector_zero ho hzero

theorem search_self (h : Place s n i T k t) (hc : Contents s n name) (hn : ValidName name)
    (hself : sameString (newEntry name iNo ft) 0 name = true) :
    searchSector (withEntry (newEntry name iNo ft) (sectorAt t.fs.disk T) k) name =
      some (loadEntry (newEntry name iNo ft) 0) := by
  refine searchSector_withEntry_self hn h.slot hself ?_
  by_cases hi : i < n
  · rw [← hc.none hn hi]
    exact searchSector_congr hn fun a ha => h.block_eq hi ▸ h.kept i hi a ha
  · exact searchSector_zero hn (h.new (by have := h.target.index_le; omega))

theorem entry_found (hsh : DirShape s n) (hc : Contents s n name) (hn : ValidName name)
    (hi : iNo < 2 ^ 32) (hft : ft < 2 ^ 32)
    (hread : ∀ i T, Target s n i T →
      i < 44 ∧ T < 256 ∧ (name.length < maxFileNameLen ∨ iNo % 256 = 0)) :
    EntryFound s name iNo ft := by
  intro pDe s' hcreate hsync
  obtain ⟨-, rfl⟩ := createDirEntry_ok_iff.mp hcreate
  obtain ⟨i, T, k, t, hplace, rfl⟩ := sync_place hsh hsync
  obtain ⟨hi44, hT, hshort⟩ := hread i T hplace.target
  have hidx := hplace.target.index_le
  have hb : ∀ j < n, j < 44 ∧ dirBlock s j < 256 := by
    intro j hj
    obtain ⟨hj44, hlt, -⟩ := hread j _ (Or.inl ⟨hj, rfl⟩)
    exact ⟨hj44, hlt⟩
  have hcount : n ≤ 44 := by
    by_contra hgt
    exact absurd (hb 44 (by omega)).1 (by omega)
  constructor
  · refine ⟨loadEntry (newEntry name iNo ft) 0, ?_, newEntry_iNo hn.short hi, newEntry_fType hft⟩
    rw [search_filled hplace hsh hn hcount (fun j hj => (hb j hj).2) hi44 hT]
    refine congrArg Except.ok (findSome_range_eq_some_iff.mpr ⟨i, by omega, ?_, fun j hj => ?_⟩)
    · rw [if_pos rfl]
      exact search_self hplace hc hn ((sameString_newEntry hn hi).mpr hshort)
    · rw [if_neg (Nat.ne_of_lt hj)]
      exact hc.none hn (by omega)
  · intro other ho hne
    rw [search_filled hplace hsh ho hcount (fun j hj => (hb j hj).2) hi44 hT,
      search_eq hsh hcount fun j hj => (hb j hj).2]
    congr 1
    have hvalue : ∀ j < max n (i + 1),
        (if j = i then searchSector (withEntry (newEntry name iNo ft) (sectorAt t.fs.disk T) k) other
          else searchSector (sectorAt s.fs.disk (dirBlock s j)) other) =
        if j < n then searchSector (sectorAt s.fs.disk (dirBlock s j)) other else none := by
      intro j hj
      by_cases he : j = i
      · rw [if_pos he, search_other hplace hc hn ho hne he]
      · rw [if_neg he, if_pos (by omega)]
    rw [findSome_range_congr hvalue]
    -- a new block has nothing of another name
    apply findSome_range_places (fun j => j)
    · exact fun j _ i hij => hij
    · intro j hj
      omega
    · intro j hj
      exact if_pos hj
    · intro j _ hno
      exact if_neg fun hj => hno j hj rfl

/-! ## When it is not -/

/-- The blocks before `i` are full of bytes `c`, the others are empty. -/
def packedDisk (s : DirState) (n i : ℕ) (c : BitVec 8) : Bytes := fun a =>
  if ∃ j < i, dirBlock s j = a / 512 then c
  else if ∃ j < n, dirBlock s j = a / 512 then 0
  else s.fs.disk a

section Packed

variable {c : BitVec 8}

theorem sector_index {lba a : ℕ} (ha : a < 512) : (512 * lba + a) / 512 = lba := by omega

theorem packedDisk_before {j a : ℕ} (hj : j < i) (ha : a < 512) :
    sectorAt (packedDisk s n i c) (dirBlock s j) a = c := by
  rw [sectorAt, packedDisk, sector_index ha]
  exact if_pos ⟨j, hj, rfl⟩

theorem packedDisk_from (hsh : DirShape s n) {j a : ℕ} (hij : i ≤ j) (hj : j < n) (ha : a < 512) :
    sectorAt (packedDisk s n i c) (dirBlock s j) a = 0 := by
  have hno : ¬ ∃ j' < i, dirBlock s j' = dirBlock s j := by
    rintro ⟨j', hj', he⟩
    exact hsh.distinct j hj j' (by omega) he
  rw [sectorAt, packedDisk, sector_index ha, if_neg hno]
  exact if_pos ⟨j, hj, rfl⟩

theorem packedDisk_indirect (hsh : DirShape s n) (hi : i ≤ n) :
    SameIndirect s n (packedDisk s n i c) := by
  intro hn a ha
  have hno : ∀ m ≤ n, ¬ ∃ j < m, dirBlock s j = s.inode.iSectors 12 := by
    rintro m hm ⟨j, hj, he⟩
    exact hsh.indirect_apart hn j (by omega) he
  rw [sectorAt, packedDisk, sector_index ha, if_neg (hno i hi), if_neg (hno n le_rfl)]
  rfl

theorem fType_const (hc : c ≠ 0) (h : ∀ a < 512, buf a = c) (hk : k < entriesPerSector) :
    fType buf (24 * k) ≠ 0 := by
  have hcnt : entriesPerSector = 21 := rfl
  have hpos : c.toNat ≠ 0 := fun hz => hc (BitVec.eq_of_toNat_eq hz)
  rw [fType, loadWord, h _ (by omega)]
  omega

theorem fType_zero (h : ∀ a < 512, buf a = 0) (hk : k < entriesPerSector) :
    fType buf (24 * k) = 0 := by
  have hcnt : entriesPerSector = 21 := rfl
  rw [fType, loadWord, h _ (by omega), h _ (by omega), h _ (by omega), h _ (by omega)]
  rfl

theorem freeSlot_zero (h : ∀ a < 512, buf a = 0) : freeSlot buf = some 0 := by
  have hrange : List.range entriesPerSector = 0 :: (List.range 20).map (· + 1) := by decide
  rw [freeSlot, hrange]
  exact List.find?_cons_of_pos (by simpa using fType_zero h (by decide : 0 < entriesPerSector))

theorem freeSlot_const (hc : c ≠ 0) (h : ∀ a < 512, buf a = c) : freeSlot buf = none :=
  freeSlot_eq_none_iff.mpr fun _ hk => fType_const hc h hk

end Packed

theorem dirBlock_withDisk (hsh : DirShape s n) (h : SameIndirect s n disk) {j : ℕ}
    (hj : j < blockCnt) : dirBlock (withDisk disk s) j = dirBlock s j := by
  refine allBlocks_congr hj fun hne => ?_
  by_cases hn : 12 < n
  · exact h hn
  · exact absurd (hsh.direct (by omega)) hne

theorem shape_withDisk (hsh : DirShape s n) (h : SameIndirect s n disk) :
    DirShape (withDisk disk s) n := by
  have hcount := hsh.count
  have hblock : ∀ j < n, dirBlock (withDisk disk s) j = dirBlock s j :=
    fun j hj => dirBlock_withDisk hsh h (by omega)
  constructor
  case area => exact hsh.area.congr rfl
  case count => exact hcount
  case used =>
    intro i hi
    rw [hblock i hi]
    exact hsh.used i hi
  case unused =>
    intro i hi hout
    rw [dirBlock_withDisk hsh h hi]
    exact hsh.unused i hi hout
  case distinct =>
    intro i hi j hj
    rw [hblock i hi, hblock j (by omega)]
    exact hsh.distinct i hi j hj
  case indirect => exact hsh.indirect
  case indirect_apart =>
    intro hn i hi
    rw [hblock i hi]
    exact hsh.indirect_apart hn i hi
  case direct => exact hsh.direct

theorem target_withDisk (hsh : DirShape s n) (h : SameIndirect s n disk) :
    Target (withDisk disk s) n i T ↔ Target s n i T := by
  have hcount := hsh.count
  apply or_congr
  · apply and_congr_right
    intro hi
    rw [dirBlock_withDisk hsh h (by omega)]
  · exact Iff.rfl

theorem packed_contents {c : BitVec 8} (hsh : DirShape s n) (hi : i ≤ n) (hc : c ≠ 0)
    (hfirst : c ≠ name.getD 0 0) (hn : ValidName name) :
    Contents (withDisk (packedDisk s n i c) s) n name := by
  have hcnt : entriesPerSector = 21 := rfl
  have hcount := hsh.count
  have hsame := @packedDisk_indirect s n i c hsh hi
  constructor
  case free =>
    intro j hj k hk hfree
    rw [dirBlock_withDisk hsh hsame (by omega)] at hfree ⊢
    by_cases hji : j < i
    · exact absurd hfree (fType_const hc (fun a ha => packedDisk_before hji ha) hk)
    · exact packedDisk_from hsh (by omega) hj (by omega)
  case used =>
    intro j hj k hk hused
    rw [dirBlock_withDisk hsh hsame (by omega)] at hused ⊢
    by_cases hji : j < i
    · rintro ⟨hall, -⟩
      exact hfirst ((packedDisk_before hji (by omega)).symm.trans (hall 0 hn.nonempty))
    · exact absurd (fType_zero (fun a ha => packedDisk_from hsh (by omega) hj ha) hk) hused

/-- With the blocks before it full, the block takes the entry. -/
theorem packed_sync {c : BitVec 8} (hsh : DirShape s n) (hsize : s.inode.iSize % dirSize = 0)
    (htarget : Target s n i T) (hc : c ≠ 0) : ∃ t,
      Place (withDisk (packedDisk s n i c) s) n i T 0 t ∧
      (∀ a < 512, sectorAt t.fs.disk T a = 0) ∧
      ∀ pDe, syncDirEntry pDe (withDisk (packedDisk s n i c) s) =
        .ok (some true, filled pDe T 0 t) := by
  have hcount := hsh.count
  have hi : i ≤ n := htarget.index_le
  have hsame := @packedDisk_indirect s n i c hsh hi
  have hshape := shape_withDisk hsh hsame
  have hfull : ∀ j < i, freeSlot (sectorAt (packedDisk s n i c)
      (dirBlock (withDisk (packedDisk s n i c) s) j)) = none := by
    intro j hj
    rw [dirBlock_withDisk hsh hsame (by omega)]
    exact freeSlot_const hc fun a ha => packedDisk_before hj ha
  rcases htarget with ⟨hin, rfl⟩ | ⟨rfl, hn, hT⟩
  · have hzero : ∀ a < 512, sectorAt (packedDisk s n i c) (dirBlock s i) a = 0 :=
      fun a ha => packedDisk_from hsh le_rfl hin ha
    have hblock := dirBlock_withDisk hsh hsame (hin.trans_le hcount)
    have hfree : freeSlot (sectorAt (packedDisk s n i c)
        (dirBlock (withDisk (packedDisk s n i c) s) i)) = some 0 := by
      rw [hblock]
      exact freeSlot_zero hzero
    rw [← hblock] at hzero ⊢
    exact ⟨_, place_existing hshape hin hfree, hzero,
      fun pDe => sync_existing hshape hsize hin hfull hfree⟩
  · obtain ⟨t, hplace, hrun⟩ := sync_new hshape hsize hfull hn hT
    exact ⟨t, hplace, hplace.new rfl, hrun⟩

/-- A file type that no search of a sector below 256 gives. -/
theorem exists_unused_type (found : ℕ → Option DirEntry) :
    ∃ ft < 256, ∀ a, 0 < a → a < 256 → ∀ e, found a = some e → e.fType ≠ ft := by
  let types : Finset ℕ := (Finset.Ico 1 256).image fun a => ((found a).map DirEntry.fType).getD 0
  have hcard : types.card < (Finset.range 256).card := by
    refine lt_of_le_of_lt Finset.card_image_le ?_
    rw [Nat.card_Ico, Finset.card_range]
    omega
  obtain ⟨ft, hmem, hnot⟩ := Finset.exists_mem_notMem_of_card_lt_card hcard
  refine ⟨ft, Finset.mem_range.mp hmem, fun a hpos hlt e he hft => hnot ?_⟩
  refine Finset.mem_image.mpr ⟨a, Finset.mem_Ico.mpr ⟨hpos, hlt⟩, ?_⟩
  rw [he, Option.map_some, Option.getD_some, hft]

theorem addrByte_lt (blocks : ℕ → ℕ) (i : ℕ) : addrByte blocks i < 256 := by
  rw [addrByte]
  split <;> exact Nat.mod_lt _ (by omega)

theorem target_read (hsh : DirShape s n) (hn : ValidName name) (hi : iNo < 2 ^ 32)
    (h : EntriesFound s n name iNo) (hsize : s.inode.iSize % dirSize = 0)
    (htarget : Target s n i T) : T < 256 ∧ (name.length < maxFileNameLen ∨ iNo % 256 = 0) ∧
      ∃ t, ∃ p < blockCnt, addrByte (dirBlock t) p = T ∧ T ≠ 0 ∧
        (∀ j < blockCnt, dirBlock t j = if j = i then T else dirBlock s j) ∧
        ∀ j < n, j ≠ i → dirBlock s j ≠ T := by
  have hcount := hsh.count
  have hin : i ≤ n := htarget.index_le
  obtain ⟨c, hc, hfirst⟩ : ∃ c : BitVec 8, c ≠ 0 ∧ c ≠ name.getD 0 0 := by
    by_cases h1 : name.getD 0 0 = 1
    · exact ⟨2, by decide, by rw [h1]; decide⟩
    · exact ⟨1, by decide, fun he => h1 he.symm⟩
  have hsame := @packedDisk_indirect s n i c hsh hin
  obtain ⟨t, hplace, hzero, hrun⟩ := packed_sync hsh hsize htarget hc
  obtain ⟨ft, hft, hunused⟩ :=
    exists_unused_type fun a => searchSector (sectorAt t.fs.disk a) name
  have hcreate : createDirEntry name iNo ft (fun _ => 0) = .ok (newEntry name iNo ft) :=
    createDirEntry_ok_iff.mpr ⟨hn.short, rfl⟩
  obtain ⟨⟨e, hsearch, -, htype⟩, -⟩ := h _ hsame (packed_contents hsh hin hc hfirst hn) ft hft _ _
    hcreate (hrun _)
  have hsectors : (filled (newEntry name iNo ft) T 0 t).inode.iSectors 12 ≤ maxLba :=
    hplace.indirect
  rw [searchDirEntry_eq hsectors, Except.ok.injEq] at hsearch
  obtain ⟨p, hp, hne, hfound⟩ := searchTable_eq_some hsearch
  have hlt := addrByte_lt (allBlocks (filled (newEntry name iNo ft) T 0 t).fs.disk
    (filled (newEntry name iNo ft) T 0 t).inode) p
  generalize hlba : addrByte (allBlocks (filled (newEntry name iNo ft) T 0 t).fs.disk
    (filled (newEntry name iNo ft) T 0 t).inode) p = lba at hne hfound hlt
  -- only the block that took the entry can have an entry of this type
  have hT : lba = T := by
    by_contra hother
    refine hunused lba (Nat.pos_of_ne_zero hne) hlt e ?_ htype
    rw [← hfound]
    exact searchSector_congr hn fun a ha => (sectorAt_putEntry_ne hother ha).symm
  subst hT
  refine ⟨hlt, ?_, filled (newEntry name iNo ft) lba 0 t, p, hp, hlba, hne, ?_, ?_⟩
  · have hsector : searchSector (withEntry (newEntry name iNo ft) (sectorAt t.fs.disk lba) 0) name =
        some e := by
      rw [← hfound]
      exact searchSector_congr hn fun a ha => (sectorAt_putEntry_self ha).symm
    exact (sameString_newEntry hn hi).mp
      (searchSector_withEntry_some hn (searchSector_zero hn hzero) hsector)
  · intro j hj
    rw [hplace.table_filled hj, dirBlock_withDisk hsh hsame hj]
  · intro j hj hji
    rw [← dirBlock_withDisk hsh hsame (by omega)]
    exact hplace.others j hj hji

/-- Behind the first 44 blocks no address is read. -/
theorem readable_of_found (hsh : DirShape s n) (hn : ValidName name) (hi : iNo < 2 ^ 32)
    (h : EntriesFound s n name iNo) : Readable s n name iNo := by
  have hcnt : blockCnt = 140 := rfl
  intro hsize i T htarget
  obtain ⟨hT, hshort, t, p, hp, hread, hpos, htable, hothers⟩ :=
    target_read hsh hn hi h hsize htarget
  refine ⟨?_, hT, hshort⟩
  by_contra hfar
  -- the address in the table is a byte of the address of one of the first 44 blocks
  have hbyte : ∀ j < 44, dirBlock t j = 0 ∨ (dirBlock t j < 256 ∧ dirBlock t j ≠ T) := by
    intro j hj
    rw [htable j (by omega), if_neg (by omega)]
    by_cases hjn : j < n
    · exact Or.inr ⟨(target_read hsh hn hi h hsize (Or.inl ⟨hjn, rfl⟩)).1,
        hothers j hjn (by omega)⟩
    · exact Or.inl (hsh.unused j (by omega) (by omega))
  rw [addrByte] at hread
  split at hread
  · rcases hbyte p (by omega) with hz | ⟨hlt, hne⟩
    · rw [hz] at hread
      omega
    · omega
  · rcases hbyte (12 + (p - 12) / 4) (by omega) with hz | ⟨hlt, hne⟩
    · rw [hz, Nat.zero_div] at hread
      omega
    · by_cases hr : (p - 12) % 4 = 0
      · rw [hr, Nat.pow_zero, Nat.div_one] at hread
        omega
      · have hpow : 256 ≤ 256 ^ ((p - 12) % 4) := Nat.le_self_pow hr 256
        rw [Nat.div_eq_of_lt (by omega)] at hread
        omega

/-- Whatever the directory holds, an entry that is added is found, just in case all blocks that may
take it are among the first 44, at addresses below 256, and its name has a 0 behind it. -/
theorem entries_found_iff (hsh : DirShape s n) (hn : ValidName name) (hi : iNo < 2 ^ 32) :
    EntriesFound s n name iNo ↔ Readable s n name iNo := by
  constructor
  · exact readable_of_found hsh hn hi
  · intro hread disk hsame hc ft hft pDe s' hcreate hsync
    have hsize : s.inode.iSize % dirSize = 0 := by
      rw [syncDirEntry, get_bind] at hsync
      exact (ensure_bind_ok_iff.mp hsync).1
    refine entry_found (shape_withDisk hsh hsame) hc hn hi (by omega) ?_ pDe s' hcreate hsync
    intro i T htarget
    exact hread hsize i T ((target_withDisk hsh hsame).mp htarget)

/-! ## A directory without blocks -/

/-- A new inode as `inode_init` leaves it, on a partition where the root directory has block 0. -/
def freshDir (sb : FsLayout.SuperBlock) : DirState where
  fs := ⟨fun a => if a = 4096 then 1 else 0, fun _ => 0, ⟨sb.partLbaBase, sb.secCnt, sb,
    ⟨512, 4096⟩, ⟨512, 8192⟩⟩⟩
  inode := ⟨0, 0, fun _ => 0⟩

theorem freshDir_block (sb : FsLayout.SuperBlock) (i : ℕ) : dirBlock (freshDir sb) i = 0 := by
  rw [dirBlock, allBlocks]
  split <;> rfl

theorem freshDir_shape {sb : FsLayout.SuperBlock} (h : AreaShape (freshDir sb)) :
    DirShape (freshDir sb) 0 where
  area := h
  count := Nat.zero_le _
  used := nofun
  unused := fun i _ _ => freshDir_block sb i
  distinct := nofun
  indirect := nofun
  indirect_apart := nofun
  direct := fun _ => rfl

theorem freshDir_target {sb : FsLayout.SuperBlock} (h : Target (freshDir sb) 0 i T) :
    i = 0 ∧ T = sb.dataStartLba + 1 := by
  have hone : FirstClear (fun a => if a = 4096 then 1 else 0) ⟨512, 4096⟩ 1 := by
    refine ⟨by decide, by decide, fun j hj => ?_⟩
    obtain rfl : j = 0 := by omega
    decide
  rcases h with ⟨hi, -⟩ | ⟨rfl, -, idx, hf, hT⟩
  · omega
  · rw [if_pos (by omega), firstClear_unique hf hone] at hT
    exact ⟨rfl, hT⟩

theorem validName_a : ValidName [97] where
  nonempty := by decide
  short := by decide
  plain := by decide

/-- Room for an inode table of 96 sectors only. -/
def smallSuperBlock : FsLayout.SuperBlock :=
  { FsLayout.formatSuperBlock ⟨0, 4000⟩ with inodeTableSects := 96, dataStartLba := 100 }

theorem entries_found_small : EntriesFound (freshDir smallSuperBlock) 0 [97] 1 := by
  refine (entries_found_iff (freshDir_shape ?_) validName_a (by decide)).mpr ?_
  · constructor <;> decide
  · intro _ i T htarget
    obtain ⟨rfl, rfl⟩ := freshDir_target htarget
    exact ⟨by decide, by decide, Or.inl (by decide)⟩

/-- On a formatted partition the block is 1217, and the reader looks into sector 193. -/
theorem entry_lost : DirShape (freshDir (FsLayout.formatSuperBlock ⟨604, 4000⟩)) 0 ∧
    Contents (freshDir (FsLayout.formatSuperBlock ⟨604, 4000⟩)) 0 [97] ∧ ValidName [97] ∧
    ¬ EntryFound (freshDir (FsLayout.formatSuperBlock ⟨604, 4000⟩)) [97] 1 1 := by
  refine ⟨freshDir_shape (by constructor <;> decide), ⟨nofun, nofun⟩, validName_a, fun h => ?_⟩
  have hrun : yields (syncDirEntry (newEntry [97] 1 1))
      (freshDir (FsLayout.formatSuperBlock ⟨604, 4000⟩)) (fun r t => r == some true &&
        (searchDirEntry t [97]).toOption == some none) = true := by
    decide +kernel
  obtain ⟨r, t, hsync, htest⟩ := yields_iff.mp hrun
  simp only [Bool.and_eq_true, beq_iff_eq] at htest
  obtain ⟨rfl, hnone⟩ := htest
  obtain ⟨⟨e, hfound, -⟩, -⟩ := h _ t (createDirEntry_ok_iff.mpr ⟨validName_a.short, rfl⟩) hsync
  rw [hfound] at hnone
  cases hnone

end FsDirEntries
