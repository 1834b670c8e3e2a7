import Leeos.FsDisk
import Leeos.KernelHeapRuns

/-!
# Inodes (`fs/inode.c`)

An open inode is a block of the heap, read from its slot of the inode table and put on the
partition's list `open_inodes`. What `sys_malloc` returns is an argument of the calls; `live` are
the blocks in use, of whichever heap. The list is kept as the addresses of its inodes, in order.
-/
namespace FsInodes

open ExecRules KernelBitmap FsDisk KernelHeapAccounts KernelHeapRuns LibStdint

structure InodePosition where
  twoSec : Bool
  secLba : ℕ
  offSize : ℕ
  deriving DecidableEq, Repr

structure InodeState where
  mem : Bytes
  disk : Bytes
  inodeTableLba : ℕ
  live : List Live
  openInodes : List ℕ

inductive InodeHalt where
  /-- `ASSERT(inode_no < 4096)` -/
  | inodeNo
  /-- `ASSERT(dst != 0 && src != 0)` of `memcpy`. -/
  | null
  /-- `sys_free` of what is no block, or a block that was freed before. -/
  | freed
  /-- The element is on the list already, or is not on it. -/
  | list
  deriving DecidableEq, Repr

abbrev InodeM (α : Type) := Exec InodeHalt InodeState α

/-! ## The fields of an inode -/

def iNo (m : Bytes) (inode : ℕ) : ℕ := loadWord m inode
def iOpenCnts (m : Bytes) (inode : ℕ) : ℕ := loadWord m (inode + 8)
def setOpenCnts (m : Bytes) (inode cnt : ℕ) : Bytes := storeWord m (inode + 8) cnt

def decrement (x : ℕ) : ℕ := u32 (x + 2 ^ 32 - 1)

theorem decrement_of_pos {x : ℕ} (h : 0 < x) (hlt : x < 2 ^ 32) : decrement x = x - 1 := by
  rw [decrement, u32]
  omega

/-! ## What the functions call -/

/-- A call of `sys_malloc` that returns `p`; a block that is given is cleared. -/
def sysMalloc (p size : ℕ) : InodeM ℕ := do
  if p = 0 then pure 0
  else
    modify fun s => { s with mem := memset s.mem p 0 size, live := ⟨p, size⟩ :: s.live }
    pure p

def sysFree (p : ℕ) : InodeM Unit := do
  let s ← get
  ensure .freed (∃ b ∈ s.live, b.ptr = p)
  set { s with live := s.live.eraseP (·.ptr = p) }

def listAppend (e : ℕ) : InodeM Unit := do
  let s ← get
  ensure .list (e ∉ s.openInodes)
  set { s with openInodes := s.openInodes ++ [e] }

def listRemove (e : ℕ) : InodeM Unit := do
  let s ← get
  ensure .list (e ∈ s.openInodes)
  set { s with openInodes := s.openInodes.erase e }

/-! ## `inode_locate`, `inode_open`, `inode_close` -/

def inodePosition (inodeTableLba inodeNo : ℕ) : InodePosition :=
  let inodeSumSize := u32 (inodeNo * inodeSize)
  let leftInodeSize := inodeSumSize % 512
  { twoSec := ¬ (512 - leftInodeSize > inodeSize)
    secLba := u32 (inodeTableLba + inodeSumSize / 512)
    offSize := leftInodeSize }

def inodeLocate (inodeNo : ℕ) : InodeM InodePosition := do
  ensure .inodeNo (inodeNo < 4096)
  let s ← get
  pure (inodePosition s.inodeTableLba inodeNo)

def InodePosition.sects (pos : InodePosition) : ℕ := if pos.twoSec then 2 else 1

def findOpen (s : InodeState) (inodeNo : ℕ) : Option ℕ :=
  s.openInodes.find? fun p => iNo s.mem p = inodeNo

/-- The search of the list; an inode that is found is counted. -/
def searchOpen (inodeNo : ℕ) : InodeM (Option ℕ) := do
  let s ← get
  match findOpen s inodeNo with
  | none => pure none
  | some p =>
    set { s with mem := setOpenCnts s.mem p (u32 (iOpenCnts s.mem p + 1)) }
    pure (some p)

def readSlot (pos : InodePosition) (ioBuf : ℕ) : InodeM Unit :=
  modify fun s => { s with mem := ideRead s.disk pos.secLba s.mem ioBuf pos.sects }

/-- From the `memcpy` to `i_open_cnts = 1`. -/
def enterInode (currInode : ℕ) (pos : InodePosition) (ioBuf : ℕ) : InodeM Unit := do
  ensure .null (currInode ≠ 0 ∧ ioBuf + pos.offSize ≠ 0)
  modify fun s => { s with mem := copyBytes s.mem (ioBuf + pos.offSize) s.mem currInode inodeSize }
  listAppend currInode
  modify fun s => { s with mem := setOpenCnts s.mem currInode 1 }

/-- What the two calls of `sys_malloc` in `inode_open` return. The first is made with `pgdir` set to
0, so it is served by the kernel's heap. -/
structure OpenBuffers where
  inode : ℕ
  ioBuf : ℕ
  deriving DecidableEq, Repr

def inodeOpen (bufs : OpenBuffers) (inodeNo : ℕ) : InodeM ℕ := do
  match ← searchOpen inodeNo with
  | some p => pure p
  | none =>
    let currInode ← sysMalloc bufs.inode inodeSize
    let pos ← inodeLocate inodeNo
    let ioBuf ← sysMalloc bufs.ioBuf (512 * pos.sects)
    readSlot pos ioBuf
    enterInode currInode pos ioBuf
    sysFree ioBuf
    pure currInode

def inodeClose (inode : ℕ) : InodeM Unit := do
  let s ← get
  let cnt := decrement (iOpenCnts s.mem inode)
  set { s with mem := setOpenCnts s.mem inode cnt }
  if cnt = 0 then
    listRemove inode
    sysFree inode
  else pure ()

/-! ## Blocks -/

/-- Two blocks that the heap has given out have different addresses and no byte in common. -/
def BlocksApart (b b' : Live) : Prop :=
  b.ptr ≠ b'.ptr ∧ (b.ptr + b.size ≤ b'.ptr ∨ b'.ptr + b'.size ≤ b.ptr)

instance (b b' : Live) : Decidable (BlocksApart b b') := inferInstanceAs (Decidable (_ ∧ _))

instance : Std.Symm BlocksApart := ⟨fun _ _ h => ⟨h.1.symm, h.2.symm⟩⟩

/-- What `sys_malloc` may return for `size` bytes: null or a new block, never in page 0. -/
def Fresh (live : List Live) (p size : ℕ) : Prop :=
  p = 0 ∨ 4096 ≤ p ∧ ∀ b ∈ live, BlocksApart ⟨p, size⟩ b

variable {s s' : InodeState} {p q n no : ℕ} {bufs : OpenBuffers} {pos : InodePosition}

def inodeBlock (p : ℕ) : Live := ⟨p, inodeSize⟩

theorem perm_free {live L : List Live} {b : Live} (h : live.Perm (b :: L))
    (hapart : live.Pairwise BlocksApart) : (live.eraseP (·.ptr = b.ptr)).Perm L := by
  have herase := h.eraseP (fun b' => decide (b'.ptr = b.ptr)) (hapart.imp fun hab ha hb => by
    simp only [decide_eq_true_eq] at ha hb
    exact hab.1 (ha.trans hb.symm))
  rw [List.eraseP_cons_of_pos (by simp)] at herase
  exact herase

theorem iNo_setOpenCnts_self (m : Bytes) (p cnt : ℕ) : iNo (setOpenCnts m p cnt) p = iNo m p :=
  loadWord_storeWord_of_apart (Or.inl (by omega))

theorem iOpenCnts_setOpenCnts_self {m : Bytes} {cnt : ℕ} (h : cnt < 2 ^ 32) :
    iOpenCnts (setOpenCnts m p cnt) p = cnt := loadWord_storeWord h

/-- The bytes of the block are the same in both memories. -/
def Kept (m m' : Bytes) (b : Live) : Prop := ∀ i < b.size, m' (b.ptr + i) = m (b.ptr + i)

theorem Kept.trans {m m' m'' : Bytes} {b : Live} (h : Kept m m' b) (h' : Kept m' m'' b) :
    Kept m m'' b := fun i hi => (h' i hi).trans (h i hi)

theorem Kept.iNo {m m' : Bytes} (h : Kept m m' (inodeBlock p)) : iNo m' p = iNo m p :=
  loadWord_congr fun j hj => h j (show j < 76 by omega)

theorem Kept.iOpenCnts {m m' : Bytes} (h : Kept m m' (inodeBlock p)) :
    iOpenCnts m' p = iOpenCnts m p :=
  loadWord_congr fun j hj => by
    rw [Nat.add_assoc]
    exact h (8 + j) (show 8 + j < 76 by omega)

theorem kept_setOpenCnts {m : Bytes} {cnt : ℕ} {b : Live} (h : BlocksApart (inodeBlock p) b) :
    Kept m (setOpenCnts m p cnt) b := by
  intro i hi
  have hap : p + 76 ≤ b.ptr ∨ b.ptr + b.size ≤ p := h.2
  exact storeWord_outside (by omega)

theorem kept_memset {m : Bytes} {v : BitVec 8} {b : Live} (h : BlocksApart ⟨p, n⟩ b) :
    Kept m (memset m p v n) b := by
  intro i hi
  have hap : p + n ≤ b.ptr ∨ b.ptr + b.size ≤ p := h.2
  exact memset_outside (by omega)

theorem kept_copyBytes {src m : Bytes} {a : ℕ} {b : Live} (h : BlocksApart ⟨p, n⟩ b) :
    Kept m (copyBytes src a m p n) b := by
  intro i hi
  have hap : p + n ≤ b.ptr ∨ b.ptr + b.size ≤ p := h.2
  exact copyBytes_outside (by omega)

/-- A slot lies in the sectors that are read for it. -/
theorem offSize_le (tableLba no : ℕ) : (inodePosition tableLba no).offSize + inodeSize ≤
    512 * (inodePosition tableLba no).sects := by
  by_cases h : 512 - u32 (no * 76) % 512 > 76
  · simp only [inodePosition, InodePosition.sects, inodeSize, h, not_true, decide_false,
      Bool.false_eq_true, if_false]
    omega
  · simp only [inodePosition, InodePosition.sects, inodeSize, h, not_false_iff, decide_true,
      if_true]
    omega

/-! ## What the calls do -/

/-- The live blocks and the memory after `sys_malloc` has returned `p`. -/
def given (p size : ℕ) (live : List Live) : List Live := if p = 0 then live else ⟨p, size⟩ :: live
def cleared (p size : ℕ) (m : Bytes) : Bytes := if p = 0 then m else memset m p 0 size

theorem sysMalloc_run : sysMalloc p n s =
    .ok (p, { s with mem := cleared p n s.mem, live := given p n s.live }) := by
  rw [sysMalloc, cleared, given]
  by_cases hp : p = 0
  · rw [if_pos hp, if_pos hp, if_pos hp, hp]
    rfl
  · rw [if_neg hp, if_neg hp, if_neg hp]
    rfl

theorem kept_cleared {m : Bytes} {b : Live} (h : p ≠ 0 → BlocksApart ⟨p, n⟩ b) :
    Kept m (cleared p n m) b := by
  rw [cleared]
  split
  · exact fun _ _ => rfl
  · next hp => exact kept_memset (h hp)

theorem searchOpen_none (h : findOpen s no = none) : searchOpen no s = .ok (none, s) := by
  simp only [searchOpen, get_bind, h, pure_apply]

theorem searchOpen_some (h : findOpen s no = some p) : searchOpen no s =
    .ok (some p, { s with mem := setOpenCnts s.mem p (u32 (iOpenCnts s.mem p + 1)) }) := by
  simp only [searchOpen, get_bind, h, set_bind, pure_apply]

theorem findOpen_some (h : findOpen s no = some p) : p ∈ s.openInodes ∧ iNo s.mem p = no :=
  ⟨List.mem_of_find?_eq_some h, by simpa using List.find?_some h⟩

theorem findOpen_none (h : findOpen s no = none) : ∀ p ∈ s.openInodes, iNo s.mem p ≠ no := by
  simpa [findOpen] using h

theorem sysFree_ok {u : Unit} (h : sysFree p s = .ok (u, s')) : (∃ b ∈ s.live, b.ptr = p) ∧
    s' = { s with live := s.live.eraseP (·.ptr = p) } := by
  rw [sysFree, get_bind] at h
  obtain ⟨hin, h⟩ := ensure_bind_ok_iff.mp h
  cases h
  exact ⟨hin, rfl⟩

def enteredMem (s : InodeState) (pos : InodePosition) (inode ioBuf : ℕ) : Bytes :=
  setOpenCnts (copyBytes s.mem (ioBuf + pos.offSize) s.mem inode inodeSize) inode 1

theorem enterInode_ok {u : Unit} (h : enterInode p pos q s = .ok (u, s')) :
    (p ≠ 0 ∧ q + pos.offSize ≠ 0) ∧ p ∉ s.openInodes ∧
      s' = { s with mem := enteredMem s pos p q, openInodes := s.openInodes ++ [p] } := by
  rw [enterInode] at h
  obtain ⟨hptr, h⟩ := ensure_bind_ok_iff.mp h
  rw [modify_bind] at h
  obtain ⟨_, t, happend, h⟩ := bind_ok_iff.mp h
  rw [listAppend, get_bind] at happend
  obtain ⟨hnew, happend⟩ := ensure_bind_ok_iff.mp happend
  cases happend
  cases h
  exact ⟨hptr, hnew, rfl⟩

theorem iNo_enteredMem : iNo (enteredMem s pos p q) p = loadWord s.mem (q + pos.offSize) := by
  rw [enteredMem, iNo_setOpenCnts_self]
  exact loadWord_congr fun j hj => copyBytes_at (show j < 76 by omega)

theorem iOpenCnts_enteredMem : iOpenCnts (enteredMem s pos p q) p = 1 :=
  iOpenCnts_setOpenCnts_self (by omega)

theorem kept_enteredMem {b : Live} (h : BlocksApart (inodeBlock p) b) :
    Kept s.mem (enteredMem s pos p q) b :=
  (kept_copyBytes h).trans (kept_setOpenCnts h)

theorem inodeLocate_ok (h : inodeLocate no s = .ok (pos, s')) :
    no < 4096 ∧ pos = inodePosition s.inodeTableLba no ∧ s' = s := by
  obtain ⟨hlt, h⟩ := ensure_bind_ok_iff.mp h
  cases h
  exact ⟨hlt, rfl, rfl⟩

/-- The state in which `inode_open` enters an inode that it has not found. -/
def slotRead (s : InodeState) (bufs : OpenBuffers) (no : ℕ) : InodeState :=
  let pos := inodePosition s.inodeTableLba no
  { s with
    mem := ideRead s.disk pos.secLba
      (cleared bufs.ioBuf (512 * pos.sects) (cleared bufs.inode inodeSize s.mem)) bufs.ioBuf pos.sects
    live := given bufs.ioBuf (512 * pos.sects) (given bufs.inode inodeSize s.live) }

theorem inodeOpen_miss (hf : findOpen s no = none) (hrun : inodeOpen bufs no s = .ok (p, s')) :
    no < 4096 ∧ p = bufs.inode ∧ p ≠ 0 ∧ p ∉ s.openInodes ∧
      (∃ b ∈ (slotRead s bufs no).live, b.ptr = bufs.ioBuf) ∧
      s' = { s with
        mem := enteredMem (slotRead s bufs no) (inodePosition s.inodeTableLba no) p bufs.ioBuf
        openInodes := s.openInodes ++ [p]
        live := (slotRead s bufs no).live.eraseP (·.ptr = bufs.ioBuf) } := by
  rw [inodeOpen, bind_of_ok (searchOpen_none hf)] at hrun
  dsimp only at hrun
  rw [bind_of_ok sysMalloc_run] at hrun
  obtain ⟨pos, t, hloc, hrun⟩ := bind_ok_iff.mp hrun
  obtain ⟨hlt, rfl, rfl⟩ := inodeLocate_ok hloc
  rw [bind_of_ok sysMalloc_run, readSlot, modify_bind] at hrun
  obtain ⟨_, t, henter, hrun⟩ := bind_ok_iff.mp hrun
  obtain ⟨hptr, hnew, rfl⟩ := enterInode_ok henter
  obtain ⟨_, u, hfree, hrun⟩ := bind_ok_iff.mp hrun
  obtain ⟨hin, rfl⟩ := sysFree_ok hfree
  cases hrun
  exact ⟨hlt, rfl, hptr.1, hnew, hin, rfl⟩

theorem kept_miss {b : Live} (hi : BlocksApart (inodeBlock bufs.inode) b)
    (hb : BlocksApart ⟨bufs.ioBuf, 512 * (inodePosition s.inodeTableLba no).sects⟩ b) :
    Kept s.mem (enteredMem (slotRead s bufs no) pos bufs.inode bufs.ioBuf) b :=
  ((kept_cleared fun _ => hi).trans (kept_cleared fun _ => hb)).trans
    ((kept_copyBytes hb).trans (kept_enteredMem hi))

def slotNo (s : InodeState) (no : ℕ) : ℕ :=
  loadWord s.disk (512 * (inodePosition s.inodeTableLba no).secLba +
    (inodePosition s.inodeTableLba no).offSize)

theorem loadWord_ideRead (tableLba no : ℕ) (disk m : Bytes) (q : ℕ) :
    loadWord (ideRead disk (inodePosition tableLba no).secLba m q (inodePosition tableLba no).sects)
      (q + (inodePosition tableLba no).offSize) =
    loadWord disk (512 * (inodePosition tableLba no).secLba +
      (inodePosition tableLba no).offSize) := by
  have hin := offSize_le tableLba no
  have hsize : inodeSize = 76 := rfl
  apply loadWord_congr
  intro j hj
  rw [Nat.add_assoc, Nat.add_assoc]
  exact copyBytes_at (by omega)

theorem iNo_miss : iNo (enteredMem (slotRead s bufs no) (inodePosition s.inodeTableLba no) p
    bufs.ioBuf) p = slotNo s no :=
  iNo_enteredMem.trans (loadWord_ideRead _ _ _ _ _)

end FsInodes
