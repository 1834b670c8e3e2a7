import Leeos.ExecRules
import Leeos.KernelBitmap
import Leeos.KernelPaging
import Leeos.LibStdint

/-!
# Page allocation (`kernel/memory.c`)

The two physical pools, the virtual address pools, and the functions that move pages
between them. The state holds the bytes in which all bitmaps live, physical memory as far as
page tables go, and the running thread. Addresses are 32-bit numbers; `u32` marks the
places where the code's arithmetic may wrap. A failed assertion or a page fault halts.
-/
namespace KernelPools

open ExecRules KernelBitmap KernelPaging LibStdint

inductive PoolFlag where
  | kernel
  | user
  deriving DecidableEq, Repr

structure Pool where
  poolBitmap : Bitmap
  phyStartAddr : ℕ
  memSize : ℕ
  deriving DecidableEq, Repr

structure VirtualAddrs where
  vaddrBitmap : Bitmap
  vaddrStart : ℕ
  deriving DecidableEq, Repr

theorem u32_next_page {p : ℕ} (h : p + 1 < 2 ^ 20) :
    u32 (4096 * p + 4096) = 4096 * (p + 1) := by
  rw [u32]
  omega

def sub32 (a b : ℕ) : ℕ := u32 (a + 2 ^ 32 - b)

def kernelHeapStart : ℕ := 0xc0100000
def kernelBitmapStart : ℕ := 0xc009a000
def userProgStartVaddr : ℕ := 0x8048000

/-- The globals that `mem_pool_init` sets once and nobody changes afterwards: the three
bitmaps lie one behind the other, the user frames behind the kernel frames. -/
structure MemLayout where
  kernelPool : Pool
  userPool : Pool
  kernelVaddr : VirtualAddrs
  kernel_phy : kernelPool.phyStartAddr = 0x200000
  kernel_size : ∃ n < 65536, kernelPool.memSize = n * 4096 ∧ kernelPool.poolBitmap.bitmapLen = n / 8
  user_phy : userPool.phyStartAddr = kernelPool.phyStartAddr + kernelPool.memSize
  user_size : ∃ n < 65536, userPool.memSize = n * 4096 ∧ userPool.poolBitmap.bitmapLen = n / 8
  kernel_bits : kernelPool.poolBitmap.bits = kernelBitmapStart
  user_bits : userPool.poolBitmap.bits =
    kernelPool.poolBitmap.bits + kernelPool.poolBitmap.bitmapLen
  vaddr_bits : kernelVaddr.vaddrBitmap.bits =
    userPool.poolBitmap.bits + userPool.poolBitmap.bitmapLen
  vaddr_len : kernelVaddr.vaddrBitmap.bitmapLen = kernelPool.poolBitmap.bitmapLen
  vaddr_start : kernelVaddr.vaddrStart = kernelHeapStart

/-- What the allocator reads of the running thread's PCB. A kernel thread's PCB is zeroed; a
process has the bitmap of `create_user_vaddr_bitmap` on kernel heap pages. -/
structure Running where
  pgdir : ℕ
  userprogVaddr : VirtualAddrs
  shape : userprogVaddr.vaddrBitmap.bitmapLen = 0 ∨
    (userprogVaddr.vaddrStart = userProgStartVaddr ∧
      userprogVaddr.vaddrBitmap.bitmapLen = (0xc0000000 - userProgStartVaddr) / 4096 / 8 ∧
      kernelHeapStart ≤ userprogVaddr.vaddrBitmap.bits)

structure MemState where
  layout : MemLayout
  curr : Running
  bytes : Bytes
  frames : Frames
  pageDir : ℕ

inductive Assertion where
  | mallocPagesCnt
  | vaddrBelowStack
  | pteAbsent
  | getAPageIndex
  | freePagesArgs
  | freePagesPhy
  | freePagesUserPhy
  | freePagesKernelPhy
  | blockNotOnList
  | popElem
  | blockOnList
  deriving DecidableEq, Repr

inductive Halt where
  | pageFault (vaddr : ℕ)
  | assertion (a : Assertion)
  deriving DecidableEq, Repr

abbrev MemM (α : Type) := Exec Halt MemState α

def assert (a : Assertion) (c : Prop) [Decidable c] : MemM Unit := ensure (.assertion a) c

def MemState.pool (s : MemState) : PoolFlag → Pool
  | .kernel => s.layout.kernelPool
  | .user => s.layout.userPool

def MemState.vaddrs (s : MemState) : PoolFlag → VirtualAddrs
  | .kernel => s.layout.kernelVaddr
  | .user => s.curr.userprogVaddr

def memPoolInit (allMem : ℕ) : MemLayout :=
  let pageTableSize := 4096 * 256
  let kernelPoolStartAddr := pageTableSize + 0x00100000
  let freeMem := sub32 allMem kernelPoolStartAddr
  let freeMemPage := freeMem / 4096
  let kernelMemPage := freeMemPage / 2 % 65536
  let userMemPage := (freeMemPage - kernelMemPage) % 65536
  let userPoolStartAddr := kernelPoolStartAddr + kernelMemPage * 4096
  { kernelPool := ⟨⟨kernelMemPage / 8, kernelBitmapStart⟩, kernelPoolStartAddr,
      kernelMemPage * 4096⟩
    userPool := ⟨⟨userMemPage / 8, kernelBitmapStart + kernelMemPage / 8⟩, userPoolStartAddr,
      userMemPage * 4096⟩
    kernelVaddr := ⟨⟨kernelMemPage / 8, kernelBitmapStart + kernelMemPage / 8 + userMemPage / 8⟩,
      kernelHeapStart⟩
    kernel_phy := rfl
    kernel_size := ⟨_, Nat.mod_lt _ (by omega), rfl, rfl⟩
    user_phy := rfl
    user_size := ⟨_, Nat.mod_lt _ (by omega), rfl, rfl⟩
    kernel_bits := rfl
    user_bits := rfl
    vaddr_bits := rfl
    vaddr_len := rfl
    vaddr_start := rfl }

def initBitmaps (l : MemLayout) (m : Bytes) : Bytes :=
  bitmapInit (bitmapInit (bitmapInit m l.kernelPool.poolBitmap) l.userPool.poolBitmap)
    l.kernelVaddr.vaddrBitmap

def load (a : ℕ) : MemM Word := do
  let s ← get
  match readWord s.frames s.pageDir a with
  | some w => pure w
  | none => throw (.pageFault a)

def store (a : ℕ) (w : Word) : MemM Unit := do
  let s ← get
  match writeWord s.frames s.pageDir a w with
  | some fr => set { s with frames := fr }
  | none => throw (.pageFault a)

/-- `memset((void *)a, 0, PAGE_SIZE)` of a page table. -/
def zeroPage (a : ℕ) : MemM Unit := do
  let s ← get
  match clearPage s.frames s.pageDir a with
  | some fr => set { s with frames := fr }
  | none => throw (.pageFault a)

/-- The `while` loops that set or clear `n` bits from `index` on. -/
def setRange (m : Bytes) (btmp : Bitmap) (index : ℕ) (value : Bool) : ℕ → Bytes
  | 0 => m
  | n + 1 => bitmapSet (setRange m btmp index value n) btmp (index + n) value

/-- The address of the run at `bitstart`. The kernel's branch casts `vaddr_start`; the process's
one adds to the `uint32_t *` itself, so that the sum counts words. -/
def allocedPagesAddr (PF : PoolFlag) (vaddrStart bitstart : ℕ) : ℕ :=
  match PF with
  | .kernel => u32 (vaddrStart + 4096 * bitstart)
  | .user => u32 (vaddrStart + 4 * (4096 * bitstart))

def vaddrGetPages (PF : PoolFlag) (pageCnt : ℕ) : MemM ℕ := do
  let s ← get
  let va := s.vaddrs PF
  match bitmapScan s.bytes va.vaddrBitmap pageCnt with
  | none => pure 0
  | some bitstart =>
    set { s with bytes := setRange s.bytes va.vaddrBitmap bitstart true pageCnt }
    let addr := allocedPagesAddr PF va.vaddrStart bitstart
    assert .vaddrBelowStack (PF = .user → addr < 0xc0000000 - 4096)
    pure addr

def palloc (PF : PoolFlag) : MemM ℕ := do
  let s ← get
  let memPool := s.pool PF
  match bitmapScan s.bytes memPool.poolBitmap 1 with
  | none => pure 0
  | some bitIndex =>
    set { s with bytes := bitmapSet s.bytes memPool.poolBitmap bitIndex true }
    pure (u32 (memPool.phyStartAddr + 4096 * bitIndex))

/-- The result of `palloc` for a new table is stored unchecked: an empty kernel pool makes
the directory entry point at frame 0. -/
def pageTableAdd (virAddr phyAddr : ℕ) : MemM Unit := do
  let ptePtr := pteAddr virAddr
  let pdePtr := pdeAddr virAddr
  let pde ← load pdePtr
  if present pde then
    let pte ← load ptePtr
    assert .pteAbsent (present pte = false)
    store ptePtr (pgEntry phyAddr)
  else
    let allocPde ← palloc .kernel
    store pdePtr (pgEntry allocPde)
    zeroPage (ptePtr &&& 0xfffff000)
    let pte ← load ptePtr
    assert .pteAbsent (present pte = false)
    store ptePtr (pgEntry phyAddr)

/-- The `for` loop of `malloc_pages`, `left` pages still to map; `false` is its early
`return 0`. -/
def mapPages (PF : PoolFlag) : ℕ → ℕ → MemM Bool
  | 0, _ => pure true
  | left + 1, virAllocAddr => do
    let phyAllocAddr ← palloc PF
    if phyAllocAddr = 0 then pure false
    else
      pageTableAdd virAllocAddr phyAllocAddr
      mapPages PF left (u32 (virAllocAddr + 4096))

def mallocPages (PF : PoolFlag) (cntPages : ℕ) : MemM ℕ := do
  assert .mallocPagesCnt (0 < cntPages ∧ cntPages < 3840)
  let virAllocAddr ← vaddrGetPages PF cntPages
  if virAllocAddr = 0 then pure 0
  else
    let done ← mapPages PF cntPages virAllocAddr
    pure (if done then virAllocAddr else 0)

/-- The bitmap part of `get_a_page`; a flag that does not suit the thread marks nothing. -/
def markPage (PF : PoolFlag) (vaddr : ℕ) : MemM Unit := do
  let s ← get
  if (s.curr.pgdir ≠ 0 ∧ PF = .user) ∨ (s.curr.pgdir = 0 ∧ PF = .kernel) then
    let va := s.vaddrs PF
    let bitIndex := sub32 vaddr va.vaddrStart / 4096
    assert .getAPageIndex (0 < bitIndex)
    set { s with bytes := bitmapSet s.bytes va.vaddrBitmap bitIndex true }
  else pure ()

def getAPage (PF : PoolFlag) (vaddr : ℕ) : MemM ℕ := do
  markPage PF vaddr
  let phyAddr ← palloc PF
  pageTableAdd vaddr phyAddr
  pure vaddr

def addrVirtualToPhy (vaddr : ℕ) : MemM ℕ := do
  let pte ← load (pteAddr vaddr)
  pure ((pte &&& 0xfffff000#32).toNat + (vaddr &&& 0xfff))

/-- The owning pool is decided by `phy_addr > user_pool.phy_start_addr`. -/
def pfree (phyAddr : ℕ) : MemM Unit := do
  let s ← get
  let userPool := s.layout.userPool
  let kernelPool := s.layout.kernelPool
  if phyAddr > userPool.phyStartAddr then
    let poolIdx := sub32 phyAddr userPool.phyStartAddr / 4096
    set { s with bytes := bitmapSet s.bytes userPool.poolBitmap poolIdx false }
  else
    let poolIdx := sub32 phyAddr kernelPool.phyStartAddr / 4096
    set { s with bytes := bitmapSet s.bytes kernelPool.poolBitmap poolIdx false }

def vaddrRemovePages (PF : PoolFlag) (cntPages vaddr : ℕ) : MemM Unit :=
  modify fun s =>
    let va := s.vaddrs PF
    let vaddrIdx := sub32 vaddr va.vaddrStart / 4096
    { s with bytes := setRange s.bytes va.vaddrBitmap vaddrIdx false cntPages }

def pageTablePteRemove (virAddr : ℕ) : MemM Unit := do
  let pte ← load (pteAddr virAddr)
  store (pteAddr virAddr) (pte &&& ~~~1#32)

/-- The loops of `free_pages`, which differ in their assertion only. -/
def freeLoop (a : Assertion) (ok : MemLayout → ℕ → Bool) : ℕ → ℕ → ℕ → MemM Unit
  | 0, _, _ => pure ()
  | left + 1, vaddr, phyAddr => do
    let s ← get
    assert a (ok s.layout phyAddr = true)
    pfree phyAddr
    pageTablePteRemove vaddr
    let phyAddr ← addrVirtualToPhy (u32 (vaddr + 4096))
    freeLoop a ok left (u32 (vaddr + 4096)) phyAddr

def userPhyOk (l : MemLayout) (phyAddr : ℕ) : Bool :=
  decide (phyAddr % 4096 = 0 ∧ phyAddr ≥ l.userPool.phyStartAddr)

def kernelPhyOk (l : MemLayout) (phyAddr : ℕ) : Bool :=
  decide (phyAddr % 4096 = 0 ∧ phyAddr < l.userPool.phyStartAddr ∧
    phyAddr ≥ l.kernelPool.phyStartAddr)

def freePages (PF : PoolFlag) (cntPages vaddr : ℕ) : MemM Unit := do
  assert .freePagesArgs (cntPages ≥ 1 ∧ vaddr % 4096 = 0)
  let phyAddr ← addrVirtualToPhy vaddr
  assert .freePagesPhy (phyAddr % 4096 = 0 ∧ phyAddr ≥ 0x102000)
  let s ← get
  if phyAddr > s.layout.userPool.phyStartAddr then
    freeLoop .freePagesUserPhy userPhyOk cntPages vaddr phyAddr
  else
    freeLoop .freePagesKernelPhy kernelPhyOk cntPages vaddr phyAddr
  vaddrRemovePages PF cntPages vaddr

/-! ## What the state says about frames and pages -/

def MemState.poolStart (s : MemState) (PF : PoolFlag) : ℕ := (s.pool PF).phyStartAddr / 4096

/-- The number of frames a pool's bitmap can name. -/
def MemState.poolLen (s : MemState) (PF : PoolFlag) : ℕ := 8 * (s.pool PF).poolBitmap.bitmapLen

def MemState.vaddrLen (s : MemState) (PF : PoolFlag) : ℕ :=
  8 * (s.vaddrs PF).vaddrBitmap.bitmapLen

def MemState.poolBit (s : MemState) (PF : PoolFlag) (i : ℕ) : Bool :=
  usedBit s.bytes (s.pool PF).poolBitmap i

def MemState.vaddrBit (s : MemState) (PF : PoolFlag) (i : ℕ) : Bool :=
  usedBit s.bytes (s.vaddrs PF).vaddrBitmap i

def MemState.firstFree (s : MemState) (PF : PoolFlag) : Option ℕ :=
  bitmapScan s.bytes (s.pool PF).poolBitmap 1

def MemState.tableOf (s : MemState) (d : ℕ) : Option ℕ := KernelPaging.tableOf s.frames s.pageDir d

theorem MemState.tableOf_eq {s : MemState} {d : ℕ} {t : Option ℕ} (h : s.tableOf d = t) :
    KernelPaging.tableOf s.frames s.pageDir d = t := h

def MemState.entryOf (s : MemState) (p : ℕ) : Option Word :=
  KernelPaging.entryOf s.frames s.pageDir p

def MemState.frameOf (s : MemState) (p : ℕ) : Option ℕ :=
  KernelPaging.frameOf s.frames s.pageDir p

def PoolFlag.base : PoolFlag → ℕ
  | .kernel => 0xc0100
  | .user => 0x8048

/-- The page that the run at bit `r` begins on: a process's runs begin on every fourth page. -/
def PoolFlag.page : PoolFlag → ℕ → ℕ
  | .kernel, r => 0xc0100 + r
  | .user, r => 0x8048 + 4 * r

def PoolFlag.Managed : PoolFlag → ℕ → Prop
  | .kernel, p => 0xc0100 ≤ p ∧ p < 0xffc00
  | .user, p => 0x8048 ≤ p ∧ p < 0xc0000

instance (PF : PoolFlag) (p : ℕ) : Decidable (PF.Managed p) := by
  cases PF <;> exact inferInstanceAs (Decidable (_ ∧ _))

/-- The boot-time page tables: `set_page` of the loader writes the directory in frame 0x100
and the first 256 entries of the table in frame 0x101; the rest is what memory held. -/
def setPage (ram : Frames) : Frames := fun f i =>
  if f = 0x100 then
    if i = 0 ∨ i = 768 then pgEntry 0x101000
    else if 769 ≤ i ∧ i < 1023 then pgEntry (0x102000 + (i - 769) * 0x1000)
    else if i = 1023 then pgEntry 0x100000
    else 0#32
  else if f = 0x101 ∧ i < 256 then pgEntry (i * 0x1000)
  else ram f i

/-- The state `mem_init` leaves, under the loader's page directory. -/
def memInit (allMem : ℕ) (bytes : Bytes) (ram : Frames) (curr : Running) : MemState where
  layout := memPoolInit allMem
  curr := curr
  bytes := initBitmaps (memPoolInit allMem) bytes
  frames := setPage ram
  pageDir := 0x100

/-- A process whose bitmap lies on the second page of the kernel heap. -/
def sampleProcess : Running where
  pgdir := 0xc0100000
  userprogVaddr := ⟨⟨94199, 0xc0101000⟩, userProgStartVaddr⟩
  shape := Or.inr ⟨rfl, rfl, by decide⟩

/-- A machine with `pages` free frames, half of them for the kernel. -/
def sampleMachine (pages : ℕ) : MemState :=
  memInit (0x200000 + 4096 * pages) (fun _ => 0#8) (fun _ _ => 0#32) sampleProcess

end KernelPools
