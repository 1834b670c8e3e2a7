import Leeos.FsDirectory

/-!
# Searching a directory, read by read (`search_dir_entry`)

The search of `FsDirectory` with its two heap buffers: what is read into them, when they are freed,
and what `strcmp` sees behind the buffer of a sector. `sys_malloc` gives zeroed memory.
-/
namespace FsDirSearch

open ExecRules KernelBitmap FsDisk FsDirectory
open FsPaths (CString)

inductive SearchBuffer where
  | eachSectAddrArray
  | buf
  deriving DecidableEq

/-- `dirE` is the caller's entry, `reads` the sectors read so far. -/
structure SearchState where
  disk : Bytes
  eachSectAddrArray : Bytes
  buf : Bytes
  dirE : Bytes
  reads : List ℕ
  allocated : List SearchBuffer

abbrev SearchM (α : Type) := Exec DirHalt SearchState α

def sysFree (b : SearchBuffer) : SearchM Unit := modify fun s =>
  { s with allocated := s.allocated.erase b }

def readAddrs (lba : ℕ) : SearchM Unit := do
  ensure .maxLba (lba ≤ maxLba)
  modify fun s => { s with
    eachSectAddrArray := ideRead s.disk lba s.eachSectAddrArray 12 1
    reads := s.reads ++ [lba] }

def readBuf (lba : ℕ) : SearchM Unit := do
  ensure .maxLba (lba ≤ maxLba)
  modify fun s => { s with buf := ideRead s.disk lba s.buf 0 1, reads := s.reads ++ [lba] }

/-- The first loop: a sector number is stored in a byte. -/
def storeAddrs (inode : DirInode) : ℕ → Bytes → Bytes
  | 0, m => m
  | i + 1, m => Function.update (storeAddrs inode i m) i (BitVec.ofNat 8 (inode.iSectors i))

/-- Memory from the start of the buffer on. -/
def withBehind (buf behind : Bytes) : Bytes := fun i => if i < 512 then buf i else behind i

/-- The entries of a sector from `idx` on. -/
def entryLoop (behind : Bytes) (name : CString) : ℕ → ℕ → SearchM Bool
  | 0, _ => pure false
  | left + 1, idx => do
    let s ← get
    if sameString (withBehind s.buf behind) (24 * idx) name then
      set { s with dirE := copyBytes s.buf (24 * idx) s.dirE 0 entrySize }
      sysFree .buf
      sysFree .eachSectAddrArray
      pure true
    else entryLoop behind name left (idx + 1)

/-- The addresses from `i` on. -/
def sectorLoop (behind : Bytes) (name : CString) : ℕ → ℕ → SearchM Bool
  | 0, _ => pure false
  | left + 1, i => do
    let s ← get
    let lba := (s.eachSectAddrArray i).toNat
    if lba = 0 then sectorLoop behind name left (i + 1)
    else
      readBuf lba
      if ← entryLoop behind name entriesPerSector 0 then pure true
      else
        modify fun s => { s with buf := memset s.buf 0 0 512 }
        sectorLoop behind name left (i + 1)

def searchDirEntry (inode : DirInode) (behind : Bytes) (name : CString) : SearchM Bool := do
  modify fun s => { s with
    allocated := .eachSectAddrArray :: s.allocated
    eachSectAddrArray := storeAddrs inode 12 fun _ => 0 }
  if inode.iSectors 12 ≠ 0 then readAddrs (inode.iSectors 12) else pure ()
  modify fun s => { s with allocated := .buf :: s.allocated, buf := fun _ => 0 }
  if ← sectorLoop behind name blockCnt 0 then pure true
  else
    sysFree .buf
    sysFree .eachSectAddrArray
    pure false

/-! ## Entries and the first of them -/

/-- The entry is in use, and its field holds the name, with a 0 behind it where one fits. -/
def InUse (disk : Bytes) (name : CString) (lba idx : ℕ) : Prop :=
  fType disk (512 * lba + 24 * idx) ≠ 0 ∧ name.length ≤ maxFileNameLen ∧
    Carries disk (512 * lba + 24 * idx) name

/-- `strcmp` finds the name in the entry once the sector is in the buffer. -/
def Compares (disk behind : Bytes) (name : CString) (lba idx : ℕ) : Prop :=
  sameString (withBehind (sectorAt disk lba) behind) (24 * idx) name = true

/-- Entry `idx` of the `k`-th block is the first with the property. -/
structure First (P : ℕ → ℕ → Prop) (k idx : ℕ) : Prop where
  block_lt : k < blockCnt
  entry_lt : idx < entriesPerSector
  here : P k idx
  earlier_block : ∀ j < k, ∀ i < entriesPerSector, ¬ P j i
  earlier_entry : ∀ i < idx, ¬ P k i

/-- The table's `k`-th address names a sector whose entry `idx` has the property. -/
def At (table : ℕ → ℕ) (P : ℕ → ℕ → Prop) (k idx : ℕ) : Prop := table k ≠ 0 ∧ P (table k) idx

/-- A block of the directory: one of its data blocks or its indirect block. -/
def OwnBlock (disk : Bytes) (inode : DirInode) (lba : ℕ) : Prop :=
  lba ≠ 0 ∧ (lba = inode.iSectors 12 ∨ ∃ k < blockCnt, allBlocks disk inode k = lba)

structure SearchRight (inode : DirInode) (name : CString) (s t : SearchState) (found : Bool) :
    Prop where
  found_iff : found = true ↔ ∃ k < blockCnt, ∃ idx < entriesPerSector,
    At (allBlocks s.disk inode) (InUse s.disk name) k idx
  copy : ∀ k idx, First (At (allBlocks s.disk inode) (InUse s.disk name)) k idx →
    ∀ j < entrySize, t.dirE j = s.disk (512 * allBlocks s.disk inode k + 24 * idx + j)
  reads : ∀ lba ∈ t.reads, lba ∈ s.reads ∨ OwnBlock s.disk inode lba
  freed : t.allocated = s.allocated

def SearchMeets (inode : DirInode) (behind : Bytes) (name : CString) (s : SearchState) : Prop :=
  ∃ found t, searchDirEntry inode behind name s = .ok (found, t) ∧
    SearchRight inode name s t found

/-- The entry has the name, or `strcmp` says so. -/
def Candidate (disk behind : Bytes) (name : CString) (lba idx : ℕ) : Prop :=
  InUse disk name lba idx ∨ Compares disk behind name lba idx

/-- Up to the first candidate, the addresses fit into bytes and are among those that the table of
bytes has room for. -/
def AddrsFit (disk behind : Bytes) (inode : DirInode) (name : CString) : Prop :=
  ∀ k < blockCnt, allBlocks disk inode k ≠ 0 →
    (∀ j < k, ∀ i < entriesPerSector,
      ¬ At (allBlocks disk inode) (Candidate disk behind name) j i) →
    allBlocks disk inode k < 256 ∧ k < 44

/-- The first candidate has the name and `strcmp` says so. -/
def FirstAgrees (disk behind : Bytes) (inode : DirInode) (name : CString) : Prop :=
  ∀ k idx, First (At (allBlocks disk inode) (Candidate disk behind name)) k idx →
    InUse disk name (allBlocks disk inode k) idx ∧
      Compares disk behind name (allBlocks disk inode k) idx

variable {s t : SearchState} {inode : DirInode} {behind disk : Bytes} {name : CString}

/-! ## The loops -/

theorem storeAddrs_at (n : ℕ) (m : Bytes) (i : ℕ) : storeAddrs inode n m i =
    if i < n then BitVec.ofNat 8 (inode.iSectors i) else m i := by
  induction n with
  | zero => rfl
  | succ n ih =>
    rw [storeAddrs, Function.update_apply, ih]
    by_cases hi : i = n
    · rw [if_pos hi, if_pos (by omega), hi]
    · rw [if_neg hi]
      by_cases hlt : i < n
      · rw [if_pos hlt, if_pos (by omega)]
      · rw [if_neg hlt, if_neg (by omega)]

/-- The state after a hit: the entry is copied and the buffers are freed. -/
def afterHit (s : SearchState) (idx : ℕ) : SearchState :=
  { s with
    dirE := copyBytes s.buf (24 * idx) s.dirE 0 entrySize
    allocated := (s.allocated.erase .buf).erase .eachSectAddrArray }

theorem entryLoop_spec (left : ℕ) : ∀ idx,
    (∃ i, idx ≤ i ∧ i < idx + left ∧ sameString (withBehind s.buf behind) (24 * i) name = true ∧
      (∀ j, idx ≤ j → j < i → sameString (withBehind s.buf behind) (24 * j) name = false) ∧
      entryLoop behind name left idx s = .ok (true, afterHit s i)) ∨
    ((∀ j, idx ≤ j → j < idx + left →
      sameString (withBehind s.buf behind) (24 * j) name = false) ∧
      entryLoop behind name left idx s = .ok (false, s)) := by
  induction left with
  | zero =>
    intro idx
    exact Or.inr ⟨fun j h₁ h₂ => by omega, rfl⟩
  | succ left ih =>
    intro idx
    rw [entryLoop, get_bind]
    by_cases hhit : sameString (withBehind s.buf behind) (24 * idx) name = true
    · refine Or.inl ⟨idx, le_rfl, by omega, hhit, fun j h₁ h₂ => by omega, ?_⟩
      rw [if_pos hhit]
      rfl
    · have hno : sameString (withBehind s.buf behind) (24 * idx) name = false :=
        Bool.eq_false_iff.mpr hhit
      rw [if_neg hhit]
      rcases ih (idx + 1) with ⟨i, h₁, h₂, hi, hbefore, hrun⟩ | ⟨hnone, hrun⟩
      · refine Or.inl ⟨i, by omega, by omega, hi, fun j h₃ h₄ => ?_, hrun⟩
        by_cases hj : j = idx
        · exact hj ▸ hno
        · exact hbefore j (by omega) h₄
      · refine Or.inr ⟨fun j h₃ h₄ => ?_, hrun⟩
        by_cases hj : j = idx
        · exact hj ▸ hno
        · exact hnone j (by omega) (by omega)

/-- The address in the array of bytes. -/
def addrAt (s : SearchState) (i : ℕ) : ℕ := (s.eachSectAddrArray i).toNat

def afterRead (s : SearchState) (lba : ℕ) : SearchState :=
  { s with buf := ideRead s.disk lba s.buf 0 1, reads := s.reads ++ [lba] }

@[simp] theorem afterRead_disk (lba : ℕ) : (afterRead s lba).disk = s.disk := rfl
@[simp] theorem afterRead_array (lba : ℕ) :
    (afterRead s lba).eachSectAddrArray = s.eachSectAddrArray := rfl
@[simp] theorem afterRead_buf (lba : ℕ) :
    (afterRead s lba).buf = ideRead s.disk lba s.buf 0 1 := rfl
@[simp] theorem afterRead_reads (lba : ℕ) : (afterRead s lba).reads = s.reads ++ [lba] := rfl
@[simp] theorem afterRead_allocated (lba : ℕ) : (afterRead s lba).allocated = s.allocated := rfl

theorem readBuf_bind {α : Type} {i : ℕ} (f : Unit → SearchM α) :
    (readBuf (addrAt s i) >>= f) s = f () (afterRead s (addrAt s i)) := by
  have hlt := (s.eachSectAddrArray i).isLt
  have hmax : maxLba = 163839 := by decide
  refine bind_of_ok ?_
  rw [readBuf, ensure_bind_of_true (by rw [addrAt]; omega)]
  rfl

theorem withBehind_read (buf : Bytes) (lba : ℕ) :
    withBehind (ideRead disk lba buf 0 1) behind = withBehind (sectorAt disk lba) behind := by
  funext i
  rw [withBehind, withBehind]
  by_cases hi : i < 512
  · rw [if_pos hi, if_pos hi, ideRead, copyBytes_inside (by omega) (by omega), sectorAt,
      Nat.sub_zero]
  · rw [if_neg hi, if_neg hi]

/-- No entry of the sectors number `i` to `k - 1` has the property. -/
def NoneIn (P : ℕ → ℕ → Prop) (i k : ℕ) : Prop :=
  ∀ j, i ≤ j → j < k → ∀ idx < entriesPerSector, ¬ P j idx

theorem NoneIn.cons {P : ℕ → ℕ → Prop} {i k : ℕ} (h : ∀ idx < entriesPerSector, ¬ P i idx)
    (h' : NoneIn P (i + 1) k) : NoneIn P i k := by
  intro j h₁ h₂
  by_cases hj : j = i
  · exact hj ▸ h
  · exact h' j (by omega) h₂

/-- How the loop over the addresses from `i` on ends, with `left` of them still to come. -/
structure Searched (behind : Bytes) (name : CString) (s t : SearchState) (i left : ℕ)
    (found : Bool) : Prop where
  reads : ∀ lba ∈ t.reads, lba ∈ s.reads ∨ ∃ k, i ≤ k ∧ k < i + left ∧ addrAt s k = lba ∧
    lba ≠ 0 ∧ NoneIn (At (addrAt s) (Compares s.disk behind name)) i k
  hit : found = true → ∃ k idx, i ≤ k ∧ k < i + left ∧ idx < entriesPerSector ∧
    At (addrAt s) (Compares s.disk behind name) k idx ∧
    NoneIn (At (addrAt s) (Compares s.disk behind name)) i k ∧
    (∀ j < idx, ¬ At (addrAt s) (Compares s.disk behind name) k j) ∧
    t.allocated = (s.allocated.erase .buf).erase .eachSectAddrArray ∧
    ∀ j < entrySize, t.dirE j = s.disk (512 * addrAt s k + 24 * idx + j)
  miss : found = false → NoneIn (At (addrAt s) (Compares s.disk behind name)) i (i + left) ∧
    t.allocated = s.allocated

theorem Searched.skip {u : SearchState} {i left : ℕ} {found : Bool}
    (h : Searched behind name u t (i + 1) left found) (hd : u.disk = s.disk)
    (ha : u.eachSectAddrArray = s.eachSectAddrArray) (hb : u.allocated = s.allocated)
    (hr : ∀ lba ∈ u.reads, lba ∈ s.reads ∨ (lba = addrAt s i ∧ lba ≠ 0))
    (hno : ∀ idx < entriesPerSector, ¬ At (addrAt s) (Compares s.disk behind name) i idx) :
    Searched behind name s t i (left + 1) found := by
  have haddr : addrAt u = addrAt s := by
    funext j
    rw [addrAt, addrAt, ha]
  obtain ⟨hreads, hhit, hmiss⟩ := h
  rw [haddr, hd] at hreads hhit hmiss
  constructor
  case reads =>
    intro lba hlba
    rcases hreads lba hlba with hold | ⟨k, h₁, h₂, h₃, h₄, hnone⟩
    · rcases hr lba hold with hs | ⟨he, h0⟩
      · exact Or.inl hs
      · exact Or.inr ⟨i, le_rfl, by omega, he.symm, h0, fun j h₁ h₂ => by omega⟩
    · exact Or.inr ⟨k, by omega, by omega, h₃, h₄, hnone.cons hno⟩
  case hit =>
    intro hf
    obtain ⟨k, idx, h₁, h₂, hidx, hat, hnone, hrest⟩ := hhit hf
    rw [hb] at hrest
    exact ⟨k, idx, by omega, by omega, hidx, hat, hnone.cons hno, hrest⟩
  case miss =>
    intro hf
    obtain ⟨hnone, hall⟩ := hmiss hf
    rw [show i + 1 + left = i + (left + 1) by omega] at hnone
    exact ⟨hnone.cons hno, hall.trans hb⟩

theorem sectorLoop_spec (left : ℕ) : ∀ (s : SearchState) (i : ℕ),
    ∃ found t, sectorLoop behind name left i s = .ok (found, t) ∧
      Searched behind name s t i left found := by
  induction left with
  | zero =>
    intro s i
    refine ⟨false, s, rfl, fun lba h => Or.inl h, nofun, fun _ => ⟨fun j h₁ h₂ => by omega, rfl⟩⟩
  | succ left ih =>
    intro s i
    rw [sectorLoop, get_bind]
    change ∃ found t, (if addrAt s i = 0 then _ else (readBuf (addrAt s i) >>= _) : SearchM Bool) s =
      .ok (found, t) ∧ _
    by_cases h0 : addrAt s i = 0
    · obtain ⟨found, t, hrun, hres⟩ := ih s (i + 1)
      rw [if_pos h0]
      exact ⟨found, t, hrun, hres.skip rfl rfl rfl (fun lba h => Or.inl h) fun idx _ h => h.1 h0⟩
    · rw [if_neg h0, readBuf_bind]
      obtain ⟨u, hu⟩ : ∃ u, u = afterRead s (addrAt s i) := ⟨_, rfl⟩
      have hview : withBehind u.buf behind = withBehind (sectorAt s.disk (addrAt s i)) behind := by
        rw [hu]
        exact withBehind_read _ _
      have hreads : ∀ lba ∈ u.reads, lba ∈ s.reads ∨ (lba = addrAt s i ∧ lba ≠ 0) := by
        intro lba hlba
        rw [hu, afterRead_reads, List.mem_append, List.mem_singleton] at hlba
        exact hlba.imp id fun he => ⟨he, he ▸ h0⟩
      rw [← hu]
      rcases @entryLoop_spec u behind name entriesPerSector 0 with
        ⟨idx, -, hidx, hhit, hbefore, hrun⟩ | ⟨hnone, hrun⟩
      · rw [hview] at hhit hbefore
        rw [bind_of_ok hrun, if_pos rfl]
        refine ⟨true, _, rfl, fun lba hlba => ?_, fun _ => ?_, nofun⟩
        · refine (hreads lba hlba).imp id fun h => ?_
          exact ⟨i, le_rfl, by omega, h.1.symm, h.2, fun j h₁ h₂ => by omega⟩
        · refine ⟨i, idx, le_rfl, by omega, by omega, ⟨h0, hhit⟩, fun j h₁ h₂ => by omega,
            fun j hj hat => ?_, by simp only [afterHit, hu, afterRead_allocated], fun j hj => ?_⟩
          · have := hbefore j (by omega) hj
            rw [hat.2] at this
            cases this
          · have hsize : entrySize = 24 := rfl
            have hcnt : entriesPerSector = 21 := rfl
            simp only [afterHit, hu, afterRead_buf, ideRead]
            rw [copyBytes_inside (by omega) (by omega), copyBytes_inside (by omega) (by omega)]
            congr 1
            omega
      · rw [hview] at hnone
        rw [bind_of_ok hrun, if_neg (by simp), modify_bind]
        obtain ⟨found, t, hrest, hres⟩ := ih { u with buf := memset u.buf 0 0 512 } (i + 1)
        refine ⟨found, t, hrest, hres.skip (by simp [hu]) (by simp [hu]) (by simp [hu]) hreads ?_⟩
        intro idx hidx hat
        have := hnone idx (by omega) (by omega)
        rw [hat.2] at this
        cases this

/-! ## The whole search -/

/-- The state in which the sectors are searched. -/
def prepared (inode : DirInode) (s : SearchState) : SearchState where
  disk := s.disk
  eachSectAddrArray :=
    if inode.iSectors 12 ≠ 0 then
      ideRead s.disk (inode.iSectors 12) (storeAddrs inode 12 fun _ => 0) 12 1
    else storeAddrs inode 12 fun _ => 0
  buf _ := 0
  dirE := s.dirE
  reads := if inode.iSectors 12 ≠ 0 then s.reads ++ [inode.iSectors 12] else s.reads
  allocated := .buf :: .eachSectAddrArray :: s.allocated

theorem searchDirEntry_eq (h12 : inode.iSectors 12 ≤ maxLba) :
    searchDirEntry inode behind name s = (do
      if ← sectorLoop behind name blockCnt 0 then pure true
      else
        sysFree .buf
        sysFree .eachSectAddrArray
        pure false) (prepared inode s) := by
  rw [searchDirEntry, modify_bind, prepared]
  by_cases h0 : inode.iSectors 12 ≠ 0
  · rw [if_pos h0, if_pos h0, if_pos h0, readAddrs, bind_assoc, ensure_bind_of_true h12]
    rfl
  · rw [if_neg h0, if_neg h0, if_neg h0]
    rfl

theorem addrAt_prepared {i : ℕ} (hi : i < blockCnt) :
    addrAt (prepared inode s) i = eachSectAddr s.disk inode i := by
  have hcnt : blockCnt = 140 := rfl
  rw [addrAt, prepared, eachSectAddr]
  by_cases h0 : inode.iSectors 12 ≠ 0
  · simp only [if_pos h0]
    by_cases hd : i < 12
    · rw [ideRead, copyBytes_outside (by omega), storeAddrs_at, if_pos hd, if_pos hd,
        BitVec.toNat_ofNat]
    · rw [ideRead, copyBytes_inside (by omega) (by omega), if_neg hd, sectorAt]
  · simp only [if_neg h0]
    rw [storeAddrs_at]
    by_cases hd : i < 12
    · rw [if_pos hd, if_pos hd, BitVec.toNat_ofNat]
    · rw [if_neg hd, if_neg hd]
      rfl

structure SearchEnds (behind : Bytes) (name : CString) (inode : DirInode) (addr : ℕ → ℕ)
    (s t : SearchState) (found : Bool) : Prop where
  reads : ∀ lba ∈ t.reads, lba ∈ s.reads ∨ (lba = inode.iSectors 12 ∧ lba ≠ 0) ∨
    ∃ k < blockCnt, addr k = lba ∧ lba ≠ 0 ∧ NoneIn (At addr (Compares s.disk behind name)) 0 k
  hit : found = true → ∃ k idx, First (At addr (Compares s.disk behind name)) k idx ∧
    ∀ j < entrySize, t.dirE j = s.disk (512 * addr k + 24 * idx + j)
  miss : found = false → NoneIn (At addr (Compares s.disk behind name)) 0 blockCnt
  freed : t.allocated = s.allocated

theorem searchDirEntry_spec (h12 : inode.iSectors 12 ≤ maxLba) :
    ∃ found t, searchDirEntry inode behind name s = .ok (found, t) ∧
      SearchEnds behind name inode (addrByte (allBlocks s.disk inode)) s t found := by
  obtain ⟨found, t, hrun, hres⟩ := @sectorLoop_spec behind name blockCnt (prepared inode s) 0
  rw [searchDirEntry_eq h12, bind_of_ok hrun]
  have haddr : ∀ k < blockCnt,
      addrAt (prepared inode s) k = addrByte (allBlocks s.disk inode) k :=
    fun k hk => (addrAt_prepared hk).trans (eachSectAddr_eq _ _ _)
  have hat : ∀ P k idx, k < blockCnt →
      (At (addrAt (prepared inode s)) P k idx ↔ At (addrByte (allBlocks s.disk inode)) P k idx) := by
    intro P k idx hk
    rw [At, At, haddr k hk]
  have hnone : ∀ P k, k ≤ blockCnt → NoneIn (At (addrAt (prepared inode s)) P) 0 k →
      NoneIn (At (addrByte (allBlocks s.disk inode)) P) 0 k :=
    fun P k hk h j h₁ h₂ idx hidx hj => h j h₁ h₂ idx hidx ((hat P j idx (by omega)).mpr hj)
  obtain ⟨hreads, hhit, hmiss⟩ := hres
  rw [Nat.zero_add] at hreads hhit hmiss
  have hpre : ∀ lba ∈ (prepared inode s).reads, lba ∈ s.reads ∨
      (lba = inode.iSectors 12 ∧ lba ≠ 0) := by
    intro lba hlba
    rw [prepared] at hlba
    by_cases h0 : inode.iSectors 12 ≠ 0
    · simp only [if_pos h0, List.mem_append, List.mem_singleton] at hlba
      exact hlba.imp id fun he => ⟨he, he ▸ h0⟩
    · simp only [if_neg h0] at hlba
      exact Or.inl hlba
  have hreads' : ∀ lba ∈ t.reads, lba ∈ s.reads ∨ (lba = inode.iSectors 12 ∧ lba ≠ 0) ∨
      ∃ k < blockCnt, addrByte (allBlocks s.disk inode) k = lba ∧ lba ≠ 0 ∧
        NoneIn (At (addrByte (allBlocks s.disk inode)) (Compares s.disk behind name)) 0 k := by
    intro lba hlba
    rcases hreads lba hlba with hold | ⟨k, -, hk, he, h0, hno⟩
    · exact (hpre lba hold).imp id Or.inl
    · exact Or.inr (Or.inr ⟨k, hk, (haddr k hk).symm.trans he, h0, hnone _ k (by omega) hno⟩)
  cases found with
  | true =>
    rw [if_pos rfl]
    refine ⟨true, t, rfl, hreads', fun _ => ?_, nofun, ?_⟩
    · obtain ⟨k, idx, -, hk, hidx, hhere, hno, hbefore, -, hcopy⟩ := hhit rfl
      refine ⟨k, idx, ⟨hk, hidx, (hat _ k idx hk).mp hhere, ?_, ?_⟩, ?_⟩
      · exact fun j hj i hi => hnone _ k (by omega) hno j (by omega) hj i hi
      · exact fun i hi h => hbefore i hi ((hat _ k i hk).mpr h)
      · intro j hj
        rw [← haddr k hk]
        exact hcopy j hj
    · obtain ⟨_, _, -, -, -, -, -, -, hfree, -⟩ := hhit rfl
      rw [hfree, prepared]
      simp
  | false =>
    rw [if_neg (by simp)]
    obtain ⟨hno, hfree⟩ := hmiss rfl
    refine ⟨false, _, rfl, hreads', nofun, fun _ => hnone _ _ le_rfl hno, ?_⟩
    change (t.allocated.erase .buf).erase .eachSectAddrArray = s.allocated
    rw [hfree, prepared]
    simp

/-- What stands behind the buffer is not looked at for a name that fits its field. -/
theorem compares_iff {lba idx : ℕ} (hn : ValidName name) (hidx : idx < entriesPerSector) :
    Compares disk behind name lba idx ↔ sameString (sectorAt disk lba) (24 * idx) name = true := by
  have hcnt : entriesPerSector = 21 := rfl
  rw [Compares, sameString_congr hn fun i hi => if_pos (by omega)]

theorem sector_missed {lba : ℕ} (hn : ValidName name)
    (h : ∀ idx < entriesPerSector, ¬ Compares disk behind name lba idx) :
    searchSector (sectorAt disk lba) name = none :=
  searchSector_eq_none_iff.mpr fun idx hidx =>
    Bool.eq_false_iff.mpr fun hsame => h idx hidx ((compares_iff hn hidx).mpr hsame)

theorem search_refines {d : DirState} (hn : ValidName name) (hdisk : s.disk = d.fs.disk) :
    FsDirectory.searchDirEntry d name =
      (searchDirEntry d.inode behind name s).map fun r =>
        if r.1 then some (loadEntry r.2.dirE 0) else none := by
  by_cases h12 : d.inode.iSectors 12 ≤ maxLba
  case neg =>
    have h0 : d.inode.iSectors 12 ≠ 0 := by omega
    rw [FsDirectory.searchDirEntry, if_pos ⟨h0, by omega⟩, searchDirEntry, modify_bind, if_pos h0,
      readAddrs, bind_assoc, ensure_bind_of_false h12]
    rfl
  obtain ⟨found, t, hrun, hends⟩ := @searchDirEntry_spec s d.inode behind name h12
  rw [FsDirectory.searchDirEntry_eq h12, hrun, ← hdisk]
  cases found with
  | false =>
    refine congrArg Except.ok (findSome_range_eq_none_iff.mpr fun k hk => ?_)
    by_cases h0 : addrByte (allBlocks s.disk d.inode) k = 0
    · exact if_pos h0
    · rw [if_neg h0]
      exact sector_missed hn fun idx hidx hsame =>
        hends.miss rfl k (Nat.zero_le k) hk idx hidx ⟨h0, hsame⟩
  | true =>
    obtain ⟨k, idx, hfirst, hcopy⟩ := hends.hit rfl
    refine congrArg Except.ok (findSome_range_eq_some_iff.mpr ⟨k, hfirst.block_lt, ?_, ?_⟩)
    · rw [if_neg hfirst.here.1, searchSector, findSome_range_eq_some_iff]
      refine ⟨idx, hfirst.entry_lt, ?_, fun j hj => ?_⟩
      · rw [if_pos ((compares_iff hn hfirst.entry_lt).mp hfirst.here.2)]
        refine congrArg some (loadEntry_congr fun i hi => ?_)
        rw [Nat.zero_add, hcopy i hi, sectorAt, Nat.add_assoc]
      · have hj' : j < entriesPerSector := hj.trans hfirst.entry_lt
        exact if_neg fun hsame => hfirst.earlier_entry j hj
          ⟨hfirst.here.1, (compares_iff hn hj').mpr hsame⟩
    · intro j hj
      by_cases h0 : addrByte (allBlocks s.disk d.inode) j = 0
      · exact if_pos h0
      · rw [if_neg h0]
        exact sector_missed hn fun i hi hsame => hfirst.earlier_block j hj i hi ⟨h0, hsame⟩

/-! ## First entries -/

variable {P Q : ℕ → ℕ → Prop} {k k' idx idx' : ℕ}

theorem First.unique (h : First P k idx) (h' : First P k' idx') : k = k' ∧ idx = idx' := by
  have hk : k = k' := by
    rcases Nat.lt_trichotomy k k' with hlt | he | hlt
    · exact (h'.earlier_block k hlt idx h.entry_lt h.here).elim
    · exact he
    · exact (h.earlier_block k' hlt idx' h'.entry_lt h'.here).elim
  subst hk
  refine ⟨rfl, ?_⟩
  rcases Nat.lt_trichotomy idx idx' with hlt | he | hlt
  · exact (h'.earlier_entry idx hlt h.here).elim
  · exact he
  · exact (h.earlier_entry idx' hlt h'.here).elim

theorem exists_first (h : ∃ k < blockCnt, ∃ idx < entriesPerSector, P k idx) :
    ∃ k idx, First P k idx := by
  classical
  have hk : ∃ k, k < blockCnt ∧ ∃ idx < entriesPerSector, P k idx := h
  have hidx : ∃ idx, idx < entriesPerSector ∧ P (Nat.find hk) idx := (Nat.find_spec hk).2
  refine ⟨Nat.find hk, Nat.find hidx, (Nat.find_spec hk).1, (Nat.find_spec hidx).1,
    (Nat.find_spec hidx).2, fun j hj i hi hp => ?_, fun i hi hp => ?_⟩
  · have := (Nat.find_spec hk).1
    exact Nat.find_min hk hj ⟨by omega, i, hi, hp⟩
  · have := (Nat.find_spec hidx).1
    exact Nat.find_min hidx hi ⟨by omega, hp⟩

theorem First.of_imp (h : First P k idx) (hq : Q k idx) (himp : ∀ k idx, Q k idx → P k idx) :
    First Q k idx where
  block_lt := h.block_lt
  entry_lt := h.entry_lt
  here := hq
  earlier_block j hj i hi hp := h.earlier_block j hj i hi (himp j i hp)
  earlier_entry i hi hp := h.earlier_entry i hi (himp k i hp)

/-! ## Entries with the same bytes -/

variable {lba lba' : ℕ}

theorem inUse_congr (h : ∀ j < entrySize,
      disk (512 * lba + 24 * idx + j) = disk (512 * lba' + 24 * idx' + j))
    (hu : InUse disk name lba idx) : InUse disk name lba' idx' := by
  obtain ⟨hf, hlen, hname, hend⟩ := hu
  have hmax : maxFileNameLen = 16 := rfl
  have hsize : entrySize = 24 := rfl
  refine ⟨?_, hlen, fun i hi => ?_, fun hlt => ?_⟩
  · rwa [← fType_congr fun i hi => h i (by omega)]
  · exact (h i (by omega)).symm.trans (hname i hi)
  · exact (h _ (by omega)).symm.trans (hend hlt)

theorem compares_congr (hlen : name.length ≤ maxFileNameLen) (hidx : idx < entriesPerSector)
    (hidx' : idx' < entriesPerSector) (h : ∀ j < entrySize,
      disk (512 * lba + 24 * idx + j) = disk (512 * lba' + 24 * idx' + j))
    (hc : Compares disk behind name lba idx) : Compares disk behind name lba' idx' := by
  have hmax : maxFileNameLen = 16 := rfl
  have hsize : entrySize = 24 := rfl
  have hcnt : entriesPerSector = 21 := rfl
  have hview : ∀ lba i j, i < entriesPerSector → j < entrySize →
      withBehind (sectorAt disk lba) behind (24 * i + j) = disk (512 * lba + 24 * i + j) := by
    intro lba i j hi hj
    rw [withBehind, if_pos (by omega), sectorAt, Nat.add_assoc]
  rw [Compares, sameString_iff] at hc ⊢
  obtain ⟨hname, hend⟩ := hc
  refine ⟨fun i hi => ?_, ?_⟩
  · rw [hview lba' idx' i hidx' (by omega), ← h i (by omega), ← hview lba idx i hidx (by omega)]
    exact hname i hi
  · rw [hview lba' idx' _ hidx' (by omega), ← h _ (by omega), ← hview lba idx _ hidx (by omega)]
    exact hend

/-! ## The table of bytes and the table of words -/

/-- The word whose byte number `i` of the table is. -/
def wordOf (i : ℕ) : ℕ := if i < 12 then i else 12 + (i - 12) / 4

/-- The lowest byte of word `k`. -/
def slotOf (k : ℕ) : ℕ := if k < 12 then k else 12 + 4 * (k - 12)

theorem slotOf_lt (h : k < 44) : slotOf k < blockCnt := by
  have hcnt : blockCnt = 140 := rfl
  rw [slotOf]
  split <;> omega

theorem wordOf_lt {i : ℕ} (h : i < blockCnt) : wordOf i < 44 := by
  have hcnt : blockCnt = 140 := rfl
  rw [wordOf]
  split <;> omega

theorem wordOf_lt_of_lt_slotOf {i : ℕ} (h : i < slotOf k) : wordOf i < k := by
  rw [slotOf] at h
  rw [wordOf]
  split at h <;> split <;> omega

theorem wordOf_le_of_le_slotOf {i : ℕ} (h : i ≤ slotOf k) : wordOf i ≤ k := by
  rw [slotOf] at h
  rw [wordOf]
  split at h <;> split <;> omega

theorem addrByte_slotOf {words : ℕ → ℕ} (hb : words k < 256) :
    addrByte words (slotOf k) = words k := by
  rw [addrByte, slotOf]
  by_cases hd : k < 12
  · rw [if_pos hd, if_pos hd, Nat.mod_eq_of_lt hb]
  · rw [if_neg hd, if_neg (by omega), show 12 + (12 + 4 * (k - 12) - 12) / 4 = k by omega,
      show (12 + 4 * (k - 12) - 12) % 4 = 0 by omega, Nat.pow_zero, Nat.div_one,
      Nat.mod_eq_of_lt hb]

/-- A word below 256 has one byte that is not 0, and that is the word. -/
theorem addrByte_ne_zero {words : ℕ → ℕ} {i : ℕ} (hb : words (wordOf i) ≠ 0 → words (wordOf i) < 256)
    (h : addrByte words i ≠ 0) : words (wordOf i) ≠ 0 ∧ addrByte words i = words (wordOf i) := by
  rw [addrByte] at h ⊢
  by_cases hd : i < 12
  · rw [wordOf, if_pos hd] at hb ⊢
    rw [if_pos hd] at h ⊢
    have h0 : words i ≠ 0 := fun h0 => h (by rw [h0])
    exact ⟨h0, Nat.mod_eq_of_lt (hb h0)⟩
  · rw [wordOf, if_neg hd] at hb ⊢
    rw [if_neg hd] at h ⊢
    have h0 : words (12 + (i - 12) / 4) ≠ 0 := by
      intro h0
      rw [h0, Nat.zero_div, Nat.zero_mod] at h
      exact h rfl
    have hlt := hb h0
    refine ⟨h0, ?_⟩
    by_cases hr : (i - 12) % 4 = 0
    · rw [hr, Nat.pow_zero, Nat.div_one, Nat.mod_eq_of_lt hlt]
    · have hpow : 256 ≤ 256 ^ ((i - 12) % 4) := Nat.le_self_pow hr 256
      rw [Nat.div_eq_of_lt (by omega), Nat.zero_mod] at h
      exact (h rfl).elim

theorem AddrsFit.byte (h : AddrsFit disk behind inode name) {K i : ℕ}
    (hfree : ∀ j < K, ∀ idx < entriesPerSector,
      ¬ At (allBlocks disk inode) (Candidate disk behind name) j idx)
    (hi : i < blockCnt) (hle : wordOf i ≤ K) (h0 : addrByte (allBlocks disk inode) i ≠ 0) :
    allBlocks disk inode (wordOf i) ≠ 0 ∧
      addrByte (allBlocks disk inode) i = allBlocks disk inode (wordOf i) := by
  have hcnt : blockCnt = 140 := rfl
  have hword := wordOf_lt hi
  refine addrByte_ne_zero (fun hw => ?_) h0
  exact (h _ (by omega) hw fun j hj idx hidx => hfree j (by omega) idx hidx).1

theorem AddrsFit.no_hit (h : AddrsFit disk behind inode name) {K i : ℕ}
    (hfree : ∀ j < K, ∀ idx < entriesPerSector,
      ¬ At (allBlocks disk inode) (Candidate disk behind name) j idx)
    (hi : i < blockCnt) (hlt : wordOf i < K) (hidx : idx < entriesPerSector) :
    ¬ At (addrByte (allBlocks disk inode)) (Compares disk behind name) i idx := by
  rintro ⟨h0, hc⟩
  obtain ⟨hw, he⟩ := h.byte hfree hi hlt.le h0
  exact hfree _ hlt idx hidx ⟨hw, Or.inr (he ▸ hc)⟩

/-! ## When the search is right -/

section Ends

variable {found : Bool} {K idx₀ : ℕ}

theorem candidate_of_inUse (k idx : ℕ) (h : At (allBlocks disk inode) (InUse disk name) k idx) :
    At (allBlocks disk inode) (Candidate disk behind name) k idx := ⟨h.1, Or.inl h.2⟩

theorem SearchEnds.own (hend : SearchEnds behind name inode (addrByte (allBlocks s.disk inode)) s t
      found) (hfit : AddrsFit s.disk behind inode name)
    (hfree : ∀ j < K, ∀ idx < entriesPerSector,
      ¬ At (allBlocks s.disk inode) (Candidate s.disk behind name) j idx)
    (hstop : ∀ i < blockCnt, NoneIn (At (addrByte (allBlocks s.disk inode))
      (Compares s.disk behind name)) 0 i → wordOf i ≤ K) :
    ∀ lba ∈ t.reads, lba ∈ s.reads ∨ OwnBlock s.disk inode lba := by
  intro lba hlba
  rcases hend.reads lba hlba with hold | ⟨he, h0⟩ | ⟨i, hi, he, h0, hnone⟩
  · exact Or.inl hold
  · exact Or.inr ⟨h0, Or.inl he⟩
  · have hword := wordOf_lt hi
    have hcnt : blockCnt = 140 := rfl
    obtain ⟨-, hw⟩ := hfit.byte hfree hi (hstop i hi hnone) (he ▸ h0)
    exact Or.inr ⟨h0, Or.inr ⟨_, by omega, hw.symm.trans he⟩⟩

theorem SearchEnds.right_of_none (hend : SearchEnds behind name inode
      (addrByte (allBlocks s.disk inode)) s t found) (hfit : AddrsFit s.disk behind inode name)
    (hnone : ∀ k < blockCnt, ∀ idx < entriesPerSector,
      ¬ At (allBlocks s.disk inode) (Candidate s.disk behind name) k idx) :
    SearchRight inode name s t found := by
  have hcnt : blockCnt = 140 := rfl
  have hmiss : found = false := by
    cases found with
    | false => rfl
    | true =>
      obtain ⟨i, idx, hfirst, -⟩ := hend.hit rfl
      have hword := wordOf_lt hfirst.block_lt
      exact (hfit.no_hit hnone hfirst.block_lt (by omega) hfirst.entry_lt hfirst.here).elim
  constructor
  case found_iff =>
    rw [hmiss]
    refine iff_of_false (by simp) ?_
    rintro ⟨k, hk, idx, hidx, hu⟩
    exact hnone k hk idx hidx (candidate_of_inUse k idx hu)
  case copy =>
    intro k idx hfirst
    exact (hnone k hfirst.block_lt idx hfirst.entry_lt (candidate_of_inUse k idx hfirst.here)).elim
  case reads =>
    refine hend.own hfit hnone fun i hi _ => ?_
    have := wordOf_lt hi
    omega
  case freed => exact hend.freed

variable (hfirst : First (At (allBlocks s.disk inode) (Candidate s.disk behind name)) K idx₀)

include hfirst in
/-- The bytes lead to the first candidate if `strcmp` accepts it. -/
theorem AddrsFit.first_hit (hfit : AddrsFit s.disk behind inode name)
    (hc : Compares s.disk behind name (allBlocks s.disk inode K) idx₀) :
    addrByte (allBlocks s.disk inode) (slotOf K) = allBlocks s.disk inode K ∧
      First (At (addrByte (allBlocks s.disk inode)) (Compares s.disk behind name)) (slotOf K)
        idx₀ := by
  obtain ⟨hb, hk⟩ := hfit K hfirst.block_lt hfirst.here.1 hfirst.earlier_block
  have hbyte := @addrByte_slotOf K _ hb
  have hslot := slotOf_lt hk
  refine ⟨hbyte, hslot, hfirst.entry_lt, ⟨hbyte ▸ hfirst.here.1, hbyte ▸ hc⟩, ?_, ?_⟩
  · intro j hj i hi
    exact hfit.no_hit hfirst.earlier_block (by omega) (wordOf_lt_of_lt_slotOf hj) hi
  · intro i hi hat
    rw [At, hbyte] at hat
    exact hfirst.earlier_entry i hi ⟨hat.1, Or.inr hat.2⟩

include hfirst in
theorem SearchEnds.at_first (hend : SearchEnds behind name inode
      (addrByte (allBlocks s.disk inode)) s t found) (hfit : AddrsFit s.disk behind inode name)
    (hc : Compares s.disk behind name (allBlocks s.disk inode K) idx₀) :
    found = true ∧ (∀ j < entrySize,
      t.dirE j = s.disk (512 * allBlocks s.disk inode K + 24 * idx₀ + j)) ∧
      ∀ lba ∈ t.reads, lba ∈ s.reads ∨ OwnBlock s.disk inode lba := by
  obtain ⟨hbyte, hhit⟩ := hfit.first_hit hfirst hc
  have hfound : found = true := by
    cases found with
    | true => rfl
    | false =>
      exact (hend.miss rfl _ (Nat.zero_le _) hhit.block_lt idx₀ hhit.entry_lt hhit.here).elim
  refine ⟨hfound, ?_, ?_⟩
  · obtain ⟨i, idx, hfirst', hcopy⟩ := hend.hit hfound
    obtain ⟨rfl, rfl⟩ := hfirst'.unique hhit
    rw [hbyte] at hcopy
    exact hcopy
  · refine hend.own hfit hfirst.earlier_block fun i hi hnone => wordOf_le_of_le_slotOf ?_
    by_contra hgt
    exact hnone _ (Nat.zero_le _) (by omega) idx₀ hhit.entry_lt hhit.here

include hfirst in
theorem SearchEnds.right_iff (hend : SearchEnds behind name inode
      (addrByte (allBlocks s.disk inode)) s t found) (hfit : AddrsFit s.disk behind inode name) :
    SearchRight inode name s t found ↔ InUse s.disk name (allBlocks s.disk inode K) idx₀ ∧
      Compares s.disk behind name (allBlocks s.disk inode K) idx₀ := by
  constructor
  · intro hr
    rcases hfirst.here.2 with hu | hc
    · -- the first entry with the name is returned, so `strcmp` has accepted its bytes
      refine ⟨hu, ?_⟩
      have hin : First (At (allBlocks s.disk inode) (InUse s.disk name)) K idx₀ :=
        hfirst.of_imp ⟨hfirst.here.1, hu⟩ candidate_of_inUse
      have hfound := hr.found_iff.mpr ⟨K, hfirst.block_lt, idx₀, hfirst.entry_lt, hin.here⟩
      obtain ⟨i, idx, hhit, hcopy⟩ := hend.hit hfound
      refine compares_congr hu.2.1 hhit.entry_lt hfirst.entry_lt (fun j hj => ?_) hhit.here.2
      exact (hcopy j hj).symm.trans (hr.copy K idx₀ hin j hj)
    · -- `strcmp` has accepted the bytes of the first entry with the name
      refine ⟨?_, hc⟩
      obtain ⟨hfound, hcopy, -⟩ := hend.at_first hfirst hfit hc
      obtain ⟨k, idx, hin⟩ := exists_first (hr.found_iff.mp hfound)
      refine inUse_congr (fun j hj => ?_) hin.here.2
      exact (hr.copy k idx hin j hj).symm.trans (hcopy j hj)
  · rintro ⟨hu, hc⟩
    have hin : First (At (allBlocks s.disk inode) (InUse s.disk name)) K idx₀ :=
      hfirst.of_imp ⟨hfirst.here.1, hu⟩ candidate_of_inUse
    obtain ⟨hfound, hcopy, hown⟩ := hend.at_first hfirst hfit hc
    constructor
    case found_iff =>
      exact iff_of_true hfound ⟨K, hfirst.block_lt, idx₀, hfirst.entry_lt, hin.here⟩
    case copy =>
      intro k idx hin'
      obtain ⟨rfl, rfl⟩ := hin'.unique hin
      exact hcopy
    case reads => exact hown
    case freed => exact hend.freed

end Ends

theorem searchMeets_iff_right {found : Bool} (hrun : searchDirEntry inode behind name s =
    .ok (found, t)) : SearchMeets inode behind name s ↔ SearchRight inode name s t found := by
  constructor
  · rintro ⟨found', t', hrun', hright⟩
    cases hrun.symm.trans hrun'
    exact hright
  · exact fun hright => ⟨found, t, hrun, hright⟩

/-- A directory whose addresses fit is searched correctly exactly when the first candidate has the
name in both ways. -/
theorem search_meets_iff (h12 : inode.iSectors 12 ≤ maxLba)
    (hfit : AddrsFit s.disk behind inode name) :
    SearchMeets inode behind name s ↔ FirstAgrees s.disk behind inode name := by
  obtain ⟨found, t, hrun, hend⟩ := @searchDirEntry_spec s inode behind name h12
  rw [searchMeets_iff_right hrun]
  by_cases hany : ∃ k < blockCnt, ∃ idx < entriesPerSector,
      At (allBlocks s.disk inode) (Candidate s.disk behind name) k idx
  · obtain ⟨K, idx₀, hfirst⟩ := exists_first hany
    rw [hend.right_iff hfirst hfit]
    constructor
    · intro hboth k idx hfirst'
      obtain ⟨rfl, rfl⟩ := hfirst'.unique hfirst
      exact hboth
    · exact fun h => h K idx₀ hfirst
  · push Not at hany
    refine iff_of_true (hend.right_of_none hfit hany) fun k idx hfirst => ?_
    exact (hany k hfirst.block_lt idx hfirst.entry_lt hfirst.here).elim

/-! ## A directory of one block -/

/-- One file `a`, in the first entry of sector `lba`. -/
def oneFile (lba : ℕ) : Bytes := fun i =>
  if i = 512 * lba then 0x61 else if i = 512 * lba + 20 then 1 else 0

def oneBlock (lba : ℕ) : DirInode := ⟨24, 1, fun i => if i = 0 then lba else 0⟩

def startSearch (disk : Bytes) : SearchState := ⟨disk, fun _ => 0, fun _ => 0, fun _ => 0, [], []⟩

theorem allBlocks_oneBlock (disk : Bytes) (lba k : ℕ) :
    allBlocks disk (oneBlock lba) k = if k = 0 then lba else 0 := by
  rw [allBlocks, oneBlock]
  by_cases hk : k < 12
  · rw [if_pos hk]
  · rw [if_neg hk, if_neg (show ¬ k = 0 by omega)]
    rfl

theorem inUse_oneFile (lba : ℕ) : InUse (oneFile lba) [0x61] lba 0 := by
  have hzero : ∀ o, o ≠ 0 → o ≠ 20 → oneFile lba (512 * lba + o) = 0 := by
    intro o h₁ h₂
    rw [oneFile, if_neg (by omega), if_neg (by omega)]
  have htype : oneFile lba (512 * lba + 20) = 1 := by
    rw [oneFile, if_neg (by omega), if_pos rfl]
  refine ⟨?_, by decide, fun i hi => ?_, fun _ => hzero 1 (by omega) (by omega)⟩
  · rw [fType, loadWord, Nat.mul_zero, Nat.add_zero, htype]
    simp
  · have hi : i < 1 := hi
    obtain rfl : i = 0 := by omega
    exact if_pos rfl

/-- The block of sector 200 is found in a byte. -/
theorem search_meets_sector_200 : AddrsFit (oneFile 200) (fun _ => 0) (oneBlock 200) [0x61] ∧
    SearchMeets (oneBlock 200) (fun _ => 0) [0x61] (startSearch (oneFile 200)) := by
  have hword := allBlocks_oneBlock (oneFile 200) 200
  have hfit : AddrsFit (oneFile 200) (fun _ => 0) (oneBlock 200) [0x61] := by
    intro k _ h0 _
    rw [hword] at h0 ⊢
    by_cases hk : k = 0
    · rw [if_pos hk]
      omega
    · rw [if_neg hk] at h0
      exact (h0 rfl).elim
  have hin := inUse_oneFile 200
  have hcmp : Compares (oneFile 200) (fun _ => 0) [0x61] 200 0 := by
    rw [Compares]
    decide +kernel
  have hfirst : First (At (allBlocks (oneFile 200) (oneBlock 200))
      (Candidate (oneFile 200) (fun _ => 0) [0x61])) 0 0 := by
    refine ⟨by decide, by decide, ?_, fun j hj => by omega, fun i hi => by omega⟩
    rw [At, hword]
    exact ⟨by decide, Or.inl hin⟩
  refine ⟨hfit, (search_meets_iff (s := startSearch (oneFile 200)) (Nat.zero_le _) hfit).mpr
    fun k idx hfirst' => ?_⟩
  obtain ⟨rfl, rfl⟩ := hfirst'.unique hfirst
  rw [show allBlocks (startSearch (oneFile 200)).disk (oneBlock 200) 0 = 200 from hword 0]
  exact ⟨hin, hcmp⟩

/-- Of the address 300 the byte 44 is kept, so a foreign sector is read and the file missed. -/
theorem search_misses_sector_300 :
    ¬ SearchMeets (oneBlock 300) (fun _ => 0) [0x61] (startSearch (oneFile 300)) := by
  have hrun : yields (searchDirEntry (oneBlock 300) (fun _ => 0) [0x61])
      (startSearch (oneFile 300)) (fun found t => found == false && t.reads == [44]) = true := by
    decide +kernel
  obtain ⟨found, t, hs, ht⟩ := yields_iff.mp hrun
  simp only [Bool.and_eq_true, beq_iff_eq] at ht
  obtain ⟨rfl, -⟩ := ht
  rw [searchMeets_iff_right hs]
  intro hright
  have hword : allBlocks (oneFile 300) (oneBlock 300) 0 = 300 :=
    allBlocks_oneBlock (oneFile 300) 300 0
  have hin : At (allBlocks (oneFile 300) (oneBlock 300)) (InUse (oneFile 300) [0x61]) 0 0 := by
    rw [At, hword]
    exact ⟨by decide, inUse_oneFile 300⟩
  have := hright.found_iff.mpr ⟨0, by decide, 0, by decide, hin⟩
  cases this

end FsDirSearch
