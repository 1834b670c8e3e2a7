import Leeos.KernelContexts
import Leeos.KernelHeapRuns
import Leeos.KernelPageGrants
import Leeos.KernelPoolRoundTrip
import Leeos.KernelThreads

/-!
# Creating a process (`process_execute`)

PCBs are records kept by address, and the lists hold the addresses of PCBs. A failed assertion
stops the machine for good, so a halt carries the state it happened in. The pid lock is free and
nobody else runs meanwhile.
-/
namespace UserprogExecute

open ExecRules KernelBitmap KernelPaging KernelPools KernelPoolSteps KernelPoolInvariant
  KernelPoolMapping KernelPoolCalls KernelPoolRanges KernelDirectories KernelPageGrants KernelHeap
  KernelHeapAccounts KernelThreads LibStdint
open KernelContexts (Symbols threadCreate)

/-- `self_kernel_stack` is the first word of the PCB's page, and lies on the stacks. -/
structure ProcessPcb where
  status : TaskStatus
  priority : ℕ
  pid : ℕ
  name : List (BitVec 8)
  ticks : ℕ
  elapsedTicks : ℕ
  fdTable : ℕ → ℤ
  pgdir : ℕ
  userprogVaddr : VirtualAddrs
  uMemBlockDesc : ℕ → MemBlockDesc
  stackMagic : ℕ

/-- `kernelStacks` are the words of the kernel stacks; `sym` and `startProcess` are where the code
lies. -/
structure ExecuteState where
  mem : MemState
  pcbs : ℕ → ProcessPcb
  kernelStacks : ℕ → ℕ
  sym : Symbols
  startProcess : ℕ
  readyThreadList : List ℕ
  allThreadList : List ℕ
  mainThreadPcbPtr : ℕ
  nextPid : ℕ
  intr : Bool

inductive Stop where
  | memory (h : Halt)
  | memsetDst
  | readyListed
  | allListed

structure Halted where
  reason : Stop
  state : ExecuteState

abbrev ExecuteM (α : Type) := Exec Halted ExecuteState α

def check (e : Stop) (c : Prop) [Decidable c] : ExecuteM Unit := fun s =>
  if c then .ok ((), s) else .error ⟨e, s⟩

def onMem {α : Type} (x : MemM α) : ExecuteM α := fun s =>
  match x s.mem with
  | .ok (a, m) => .ok (a, { s with mem := m })
  | .error h => .error ⟨.memory h, s⟩

def writePcb (pcbPtr : ℕ) (f : ProcessPcb → ProcessPcb) : ExecuteM Unit := modify fun s =>
  { s with pcbs := Function.update s.pcbs pcbPtr (f (s.pcbs pcbPtr)) }

def zeroPcb : ProcessPcb where
  status := .running
  priority := 0
  pid := 0
  name := []
  ticks := 0
  elapsedTicks := 0
  fdTable _ := 0
  pgdir := 0
  userprogVaddr := ⟨⟨0, 0⟩, 0⟩
  uMemBlockDesc _ := ⟨0, 0, []⟩
  stackMagic := 0

def allocateNextPid : ExecuteM ℕ := do
  modify fun s => { s with nextPid := (s.nextPid + 1) % 65536 }
  let s ← get
  pure s.nextPid

/-- `memset` refuses the null pointer. A name of more than 15 bytes runs over the fields behind
it, which are all written later. -/
def threadInit (pcbPtr prio : ℕ) (name : List (BitVec 8)) : ExecuteM Unit := do
  check .memsetDst (pcbPtr ≠ 0)
  let s ← get
  writePcb pcbPtr fun _ => { zeroPcb with
    name := name.take 16
    status := if pcbPtr = s.mainThreadPcbPtr then .running else .ready }
  let pid ← allocateNextPid
  writePcb pcbPtr fun p => { p with
    pid := pid
    priority := prio
    elapsedTicks := 0
    ticks := prio
    pgdir := 0
    fdTable := fun i => if i < 3 then i else -1
    stackMagic := 0x00007c00 }

def createStack (pcbPtr function funcArgs : ℕ) : ExecuteM Unit := modify fun s =>
  { s with kernelStacks := threadCreate s.sym (pcbPtr / 4096) function funcArgs s.kernelStacks }

/-- The bytes of a process's virtual bitmap. -/
def vaddrBitmapLen : ℕ := (0xc0000000 - userProgStartVaddr) / 4096 / 8

def clearBitmap (m : MemState) (bits : ℕ) : MemState :=
  { m with bytes := bitmapInit m.bytes ⟨vaddrBitmapLen, bits⟩ }

/-- `bitmap_init` writes through `memset` too. -/
def createUserVaddrBitmap (userProg : ℕ) : ExecuteM Unit := do
  let bitCnts := divRoundUp vaddrBitmapLen 4096
  let bits ← onMem (mallocKernelPages bitCnts)
  writePcb userProg fun p => { p with
    userprogVaddr := ⟨⟨vaddrBitmapLen, bits⟩, userProgStartVaddr⟩ }
  check .memsetDst (bits ≠ 0)
  modify fun s => { s with mem := clearBitmap s.mem bits }

/-- Neither the PCB nor the page directory is checked for the null pointer. -/
def processExecute (filename : ℕ) (name : List (BitVec 8)) : ExecuteM Unit := do
  let process ← onMem (mallocKernelPages 1)
  threadInit process 31 name
  createUserVaddrBitmap process
  let s ← get
  createStack process s.startProcess filename
  let pageDir ← onMem createPageDir
  writePcb process fun p => { p with pgdir := pageDir }
  writePcb process fun p => { p with uMemBlockDesc := blockDesInit p.uMemBlockDesc }
  let s ← get
  let oldStatus := s.intr
  set { s with intr := false }
  let s ← get
  check .readyListed (process ∉ s.readyThreadList)
  set { s with readyThreadList := s.readyThreadList ++ [process] }
  let s ← get
  check .allListed (process ∉ s.allThreadList)
  set { s with allThreadList := s.allThreadList ++ [process] }
  modify fun s => { s with intr := oldStatus }

/-! ## What a caller may expect -/

structure OwnPages (s s' : MemState) (own : List ℕ) : Prop where
  nodup : own.Nodup
  fresh : ∀ p ∈ own, PoolFlag.kernel.Managed p ∧ s.frameOf p = none
  framed : ∀ p ∈ own, ∃ f, s'.frameOf p = some f ∧ Held s' .kernel f ∧ ¬ Held s .kernel f
  unshared : ∀ p ∈ own, ∀ q ∈ own, s'.frameOf p = s'.frameOf q → p = q

/-- A process whose PCB, page directory and virtual bitmap lie on the pages `a`, `d` and from `b`
on is on both lists. -/
structure Placed (s t : ExecuteState) (a d b : ℕ) : Prop where
  ready : t.readyThreadList = s.readyThreadList ++ [4096 * a]
  all : t.allThreadList = s.allThreadList ++ [4096 * a]
  pgdir : (t.pcbs (4096 * a)).pgdir = 4096 * d ∧ 4096 * d ≠ 0
  directory : ∃ f, t.mem.frameOf d = some f ∧ Directory t.mem f
  vaddr : (t.pcbs (4096 * a)).userprogVaddr = ⟨⟨vaddrBitmapLen, 4096 * b⟩, userProgStartVaddr⟩
  vaddr_clear : ∀ i < 8 * vaddrBitmapLen,
    usedBit t.mem.bytes (t.pcbs (4096 * a)).userprogVaddr.vaddrBitmap i = false
  descs : ∀ i < 7, (t.pcbs (4096 * a)).uMemBlockDesc i = ⟨blockSizeOf i, blocksOf i, []⟩
  own : OwnPages s.mem t.mem (a :: d :: List.range' b 23)

def SameLists (s t : ExecuteState) : Prop :=
  t.readyThreadList = s.readyThreadList ∧ t.allThreadList = s.allThreadList

/-- The pages of the PCB and of the bitmap can be had, and then no frame or no page is left. -/
def DirectoryStarved (s : MemState) : Prop :=
  ∃ r₁ r₂, vaddrRun s .kernel 1 = some r₁ ∧
    vaddrRun (setVaddr s .kernel r₁ 1 true) .kernel 23 = some r₂ ∧ 24 ≤ freeCount s .kernel ∧
    (freeCount s .kernel = 24 ∨
      vaddrRun (setVaddr (setVaddr s .kernel r₁ 1 true) .kernel r₂ 23 true) .kernel 1 = none)

/-- The PCBs on the lists lie on mapped pages. -/
structure ExecuteReady (s : ExecuteState) (dirs pages : List ℕ) : Prop where
  mem : KernelReady s.mem dirs pages
  ready_mapped : ∀ a ∈ s.readyThreadList, s.mem.frameOf (a / 4096) ≠ none
  all_mapped : ∀ a ∈ s.allThreadList, s.mem.frameOf (a / 4096) ≠ none

variable {s t : ExecuteState} {m m' m'' : MemState} {dirs pages : List ℕ} (filename : ℕ)
  (name : List (BitVec 8))

/-! ## The parts of a run -/

theorem onMem_bind {α β : Type} {x : MemM α} {f : α → ExecuteM β} {a : α}
    (h : x s.mem = .ok (a, m)) : (onMem x >>= f) s = f a { s with mem := m } := by
  refine bind_of_ok ?_
  simp only [onMem, h]

theorem check_bind {α : Type} {e : Stop} {c : Prop} [Decidable c] (h : c) (f : Unit → ExecuteM α) :
    (check e c >>= f) s = f () s := by
  refine bind_of_ok ?_
  rw [check, if_pos h]

theorem threadInit_runs {a : ℕ} (ha : a ≠ 0) (prio : ℕ) :
    ∃ t, threadInit a prio name s = .ok ((), t) ∧ t.mem = s.mem ∧ SameLists s t := by
  rw [threadInit, check_bind ha]
  exact ⟨_, rfl, rfl, rfl, rfl⟩

theorem bitCnts_eq : divRoundUp vaddrBitmapLen 4096 = 23 := by decide

theorem createUserVaddrBitmap_runs {a b : ℕ} (hb : mallocKernelPages 23 s.mem = .ok (b, m))
    (h0 : b ≠ 0) : ∃ t, createUserVaddrBitmap a s = .ok ((), t) ∧
      t.mem = clearBitmap m b ∧ SameLists s t ∧
      (t.pcbs a).userprogVaddr = ⟨⟨vaddrBitmapLen, b⟩, userProgStartVaddr⟩ := by
  rw [createUserVaddrBitmap, bitCnts_eq, onMem_bind hb, writePcb, modify_bind, check_bind h0]
  refine ⟨_, rfl, rfl, ⟨rfl, rfl⟩, ?_⟩
  simp

theorem createStack_runs (a function funcArgs : ℕ) :
    ∃ t, createStack a function funcArgs s = .ok ((), t) ∧ t.mem = s.mem ∧ SameLists s t ∧
      t.pcbs = s.pcbs := ⟨_, rfl, rfl, ⟨rfl, rfl⟩, rfl⟩

/-! ## The three ways a run ends -/

theorem processExecute_returns {a b d : ℕ} (h₁ : mallocKernelPages 1 s.mem = .ok (a, m))
    (ha : a ≠ 0) (h₂ : mallocKernelPages 23 m = .ok (b, m')) (hb : b ≠ 0)
    (h₃ : createPageDir (clearBitmap m' b) = .ok (d, m'')) (hready : a ∉ s.readyThreadList)
    (hall : a ∉ s.allThreadList) :
    ∃ t, processExecute filename name s = .ok ((), t) ∧ t.mem = m'' ∧
      t.readyThreadList = s.readyThreadList ++ [a] ∧
      t.allThreadList = s.allThreadList ++ [a] ∧ (t.pcbs a).pgdir = d ∧
      (t.pcbs a).userprogVaddr = ⟨⟨vaddrBitmapLen, b⟩, userProgStartVaddr⟩ ∧
      ∀ i < 7, (t.pcbs a).uMemBlockDesc i = ⟨blockSizeOf i, blocksOf i, []⟩ := by
  obtain ⟨t₁, hinit, hmem, hlists⟩ := threadInit_runs (s := { s with mem := m }) name ha 31
  rw [← show t₁.mem = m from hmem] at h₂
  obtain ⟨t₂, hbits, hmem', hlists', hvaddr⟩ := createUserVaddrBitmap_runs (a := a) h₂ hb
  obtain ⟨t₃, hcreate, hmem'', hlists'', hpcbs⟩ :=
    createStack_runs (s := t₂) a t₂.startProcess filename
  rw [← hmem', ← hmem''] at h₃
  have hr : t₃.readyThreadList = s.readyThreadList :=
    hlists''.1.trans (hlists'.1.trans hlists.1)
  have hl : t₃.allThreadList = s.allThreadList := hlists''.2.trans (hlists'.2.trans hlists.2)
  rw [processExecute, onMem_bind h₁, bind_of_ok hinit, bind_of_ok hbits, get_bind,
    bind_of_ok hcreate, onMem_bind h₃]
  simp only [writePcb, modify_bind, get_bind, set_bind]
  rw [check_bind (by rwa [hr])]
  simp only [get_bind, set_bind]
  rw [check_bind (by rwa [hl])]
  refine ⟨_, rfl, rfl, ?_, ?_, ?_, ?_, fun i hi => ?_⟩
  · rw [← hr]
  · rw [← hl]
  · simp
  · simpa [hpcbs] using hvaddr
  · simpa using KernelHeapRuns.blockDesInit_apply _ hi

/-! ## Pages of its own -/

/-- Frames in use stay in use, and mapped kernel pages stay where they are. -/
structure KeepsPages (m m' : MemState) : Prop where
  held : ∀ f, Held m .kernel f → Held m' .kernel f
  kept : ∀ p, PoolFlag.kernel.Managed p → m.frameOf p ≠ none → m'.frameOf p = m.frameOf p

theorem frameOf_ready (h : KernelReady m dirs pages) {p : ℕ} (hp : PoolFlag.kernel.Managed p) :
    m.frameOf p = kernelFrame m.frames p := by
  simp only [PoolFlag.Managed] at hp
  exact h.spaces.frameOf_kernel h.spaces.active (by omega) hp.2

theorem given_keeps {dirs' pages' : List ℕ} {r n : ℕ} (h : KernelReady m dirs pages)
    (h' : KernelReady m' dirs' pages') (hn : 1 ≤ n) (g : Given m m' r n) : KeepsPages m m' where
  held f hf := g.grant.held f ((held_mark hn g.run).mpr hf)
  kept p hp hf := by
    rw [frameOf_ready h hp] at hf ⊢
    rw [frameOf_ready h' hp]
    refine g.grant.old p hp fun hin => hf ?_
    exact (h.awaiting hn g.run).unmapped p hin

theorem given_own {dirs' pages' : List ℕ} {r n : ℕ} (h : KernelReady m dirs pages)
    (h' : KernelReady m' dirs' (List.range' (PoolFlag.kernel.base + r) n ++ pages')) (hn : 1 ≤ n)
    (g : Given m m' r n) : OwnPages m m' (List.range' (PoolFlag.kernel.base + r) n) := by
  have hin : ∀ p ∈ List.range' (PoolFlag.kernel.base + r) n,
      InRange (PoolFlag.kernel.base + r) n p := fun p hp => List.mem_range'_1.mp hp
  have hman : ∀ p ∈ List.range' (PoolFlag.kernel.base + r) n, PoolFlag.kernel.Managed p :=
    fun p hp => g.inRange hn (hin p hp)
  constructor
  case nodup => exact List.nodup_range'
  case fresh =>
    intro p hp
    rw [frameOf_ready h (hman p hp)]
    exact ⟨hman p hp, (h.awaiting hn g.run).unmapped p (hin p hp)⟩
  case framed =>
    intro p hp
    obtain ⟨f, hf, hh, hfree⟩ := g.grant.new p (hin p hp)
    rw [frameOf_ready h' (hman p hp)]
    exact ⟨f, hf, hh, fun h0 => hfree ((held_mark hn g.run).mpr h0)⟩
  case unshared =>
    intro p hp q hq he
    obtain ⟨f, hf, hh, -⟩ := g.grant.new p (hin p hp)
    have h0 := (held_pool hh).1
    rw [frameOf_ready h' (hman p hp), frameOf_ready h' (hman q hq), hf] at he
    exact h'.spaces.page_unshared p (List.mem_append_left _ hp) q (List.mem_append_left _ hq) f
      (by omega) hf he.symm

theorem KeepsPages.trans (k : KeepsPages m m') (k' : KeepsPages m' m'') : KeepsPages m m'' where
  held f hf := k'.held f (k.held f hf)
  kept p hp hf := by
    have he := k.kept p hp hf
    exact (k'.kept p hp (he ▸ hf)).trans he

theorem OwnPages.append {own own' : List ℕ} (k : KeepsPages m m') (k' : KeepsPages m' m'')
    (h : OwnPages m m' own) (h' : OwnPages m' m'' own') : OwnPages m m'' (own ++ own') := by
  have hmapped : ∀ p ∈ own, m'.frameOf p ≠ none := by
    intro p hp
    obtain ⟨f, hf, -⟩ := h.framed p hp
    exact hf ▸ Option.some_ne_none f
  have hstay : ∀ p ∈ own, m''.frameOf p = m'.frameOf p :=
    fun p hp => k'.kept p (h.fresh p hp).1 (hmapped p hp)
  -- a frame of the first allocation is in use when the second one picks its frames
  have hcross : ∀ p ∈ own, ∀ q ∈ own', m''.frameOf p ≠ m''.frameOf q := by
    intro p hp q hq he
    obtain ⟨f, hf, hh, -⟩ := h.framed p hp
    obtain ⟨g, hg, -, hfree⟩ := h'.framed q hq
    rw [hstay p hp, hf, hg, Option.some.injEq] at he
    exact hfree (he ▸ hh)
  constructor
  case nodup =>
    refine List.nodup_append.mpr ⟨h.nodup, h'.nodup, fun p hp q hq he => ?_⟩
    exact hmapped p hp (he ▸ (h'.fresh q hq).2)
  case fresh =>
    intro p hp
    rcases List.mem_append.mp hp with hp | hp
    · exact h.fresh p hp
    · obtain ⟨hm, hnone⟩ := h'.fresh p hp
      refine ⟨hm, ?_⟩
      by_contra hf
      exact hf ((k.kept p hm hf).symm.trans hnone)
  case framed =>
    intro p hp
    rcases List.mem_append.mp hp with hp | hp
    · obtain ⟨f, hf, hh, hfree⟩ := h.framed p hp
      exact ⟨f, (hstay p hp).trans hf, k'.held f hh, hfree⟩
    · obtain ⟨f, hf, hh, hfree⟩ := h'.framed p hp
      exact ⟨f, hf, hh, fun h0 => hfree (k.held f h0)⟩
  case unshared =>
    intro p hp q hq he
    rcases List.mem_append.mp hp with hp | hp <;> rcases List.mem_append.mp hq with hq | hq
    · exact h.unshared p hp q hq ((hstay p hp).symm.trans (he.trans (hstay q hq)))
    · exact (hcross p hp q hq he).elim
    · exact (hcross q hq p hp he.symm).elim
    · exact h'.unshared p hp q hq he

theorem OwnPages.perm {own own' : List ℕ} (h : OwnPages m m' own) (hp : own.Perm own') :
    OwnPages m m' own' where
  nodup := hp.nodup_iff.mp h.nodup
  fresh p hm := h.fresh p (hp.mem_iff.mpr hm)
  framed p hm := h.framed p (hp.mem_iff.mpr hm)
  unshared p hm q hq := h.unshared p (hp.mem_iff.mpr hm) q (hp.mem_iff.mpr hq)

/-! ## What is left for the page directory -/

theorem not_refused {n : ℕ} : ¬ Refused m n ↔
    (∃ r, vaddrRun m .kernel n = some r) ∧ n ≤ freeCount m .kernel := by
  rw [Refused, not_or, not_lt, ← ne_eq, Option.ne_none_iff_exists']

theorem kernelBase_ne (r : ℕ) : 4096 * (PoolFlag.kernel.base + r) ≠ 0 := by
  simp [PoolFlag.base]

theorem kernelBase_page (r : ℕ) : 4096 * (PoolFlag.kernel.base + r) / 4096 =
    PoolFlag.kernel.base + r := by
  omega

/-- The state `m'` in which the page directory is asked for, and what is left in it. -/
structure Prepared (s : ExecuteState) (dirs : List ℕ) (r₁ r₂ : ℕ) (m' : MemState) : Prop where
  pcb : ∃ m m₁, mallocKernelPages 1 s.mem = .ok (4096 * (PoolFlag.kernel.base + r₁), m) ∧
    mallocKernelPages 23 m = .ok (4096 * (PoolFlag.kernel.base + r₂), m₁) ∧
    m' = clearBitmap m₁ (4096 * (PoolFlag.kernel.base + r₂))
  run₁ : vaddrRun s.mem .kernel 1 = some r₁
  run₂ : vaddrRun (setVaddr s.mem .kernel r₁ 1 true) .kernel 23 = some r₂
  run₃ : vaddrRun m' .kernel 1 =
    vaddrRun (setVaddr (setVaddr s.mem .kernel r₁ 1 true) .kernel r₂ 23 true) .kernel 1
  count : freeCount m' .kernel + 24 = freeCount s.mem .kernel
  ready : ∃ pages, KernelReady m' dirs pages
  keeps : KeepsPages s.mem m'
  own : OwnPages s.mem m'
    ((PoolFlag.kernel.base + r₁) :: List.range' (PoolFlag.kernel.base + r₂) 23)

theorem Prepared.unlisted {r₁ r₂ : ℕ} (hp : Prepared s dirs r₁ r₂ m') {L : List ℕ}
    (hl : ∀ a ∈ L, s.mem.frameOf (a / 4096) ≠ none) : 4096 * (PoolFlag.kernel.base + r₁) ∉ L := by
  intro hmem
  refine hl _ hmem ?_
  rw [kernelBase_page]
  exact (hp.own.fresh _ List.mem_cons_self).2

theorem Prepared.bitmap_clear {r₁ r₂ r₃ i : ℕ} (hp : Prepared s dirs r₁ r₂ m')
    (hr₃ : vaddrRun m' .kernel 1 = some r₃) (g₃ : Given m' m'' r₃ 1)
    (hi : i < 8 * vaddrBitmapLen) : usedBit m''.bytes
      ⟨vaddrBitmapLen, 4096 * (PoolFlag.kernel.base + r₂)⟩ i = false := by
  obtain ⟨m, m₁, -, -, hm'⟩ := hp.pcb
  obtain ⟨pages', hready⟩ := hp.ready
  have hlen : vaddrBitmapLen = 94199 := by decide
  have hbase : PoolFlag.kernel.base = 0xc0100 := rfl
  obtain ⟨k, hk⟩ : ∃ k, k = 8 * (4096 * (PoolFlag.kernel.base + r₂)) + i := ⟨_, rfl⟩
  have hpage : k / 8 / 4096 ∈ List.range' (PoolFlag.kernel.base + r₂) 23 := by
    rw [List.mem_range'_1]
    omega
  have hout : ¬ InRange (PoolFlag.kernel.base + r₃) 1 (k / 8 / 4096) := by
    intro hin
    have hnone := (hready.awaiting le_rfl hr₃).unmapped _ hin
    obtain ⟨f, hf, -⟩ := hp.own.framed _ (List.mem_cons_of_mem _ hpage)
    rw [frameOf_ready hready (g₃.inRange le_rfl hin)] at hf
    cases hf.symm.trans hnone
  change memBit m''.bytes (8 * (4096 * (PoolFlag.kernel.base + r₂)) + i) = false
  rw [← hk, g₃.heap le_rfl (by simp only [kernelHeapStart]; omega) hout, hm', clearBitmap,
    memBit_bitmapInit, if_pos]
  simp only [Bitmap.pos]
  omega

theorem Prepared.placed {r₁ r₂ : ℕ} (h : ExecuteReady s dirs pages)
    (hp : Prepared s dirs r₁ r₂ m') (hyes : ¬ Refused m' 1) :
    ¬ DirectoryStarved s.mem ∧
      ∃ t a d b, processExecute filename name s = .ok ((), t) ∧ Placed s t a d b := by
  obtain ⟨m, m₁, h₁, h₂, hm'⟩ := hp.pcb
  obtain ⟨pages', hready⟩ := hp.ready
  obtain ⟨⟨r₃, hr₃⟩, hc₃⟩ := not_refused.mp hyes
  have hcount := hp.count
  constructor
  · rintro ⟨r₁', r₂', hr₁, hr₂, -, hend⟩
    cases hp.run₁.symm.trans hr₁
    cases hp.run₂.symm.trans hr₂
    rcases hend with h24 | hnone
    · omega
    · cases hr₃.symm.trans (hp.run₃.trans hnone)
  · obtain ⟨m₃, f, h₃, hready₃, g₃, hf, hdir⟩ := hready.directory hr₃ hc₃
    have hkeep := given_keeps hready hready₃ le_rfl g₃
    have hown := hp.own.append hp.keeps hkeep (given_own hready hready₃ le_rfl g₃)
    obtain ⟨t, hrun, hmem, hready', hall, hpgdir, hvaddr, hdescs⟩ :=
      processExecute_returns filename name h₁ (kernelBase_ne r₁) h₂ (kernelBase_ne r₂) (hm' ▸ h₃)
        (hp.unlisted h.ready_mapped) (hp.unlisted h.all_mapped)
    refine ⟨t, _, PoolFlag.kernel.base + r₃, PoolFlag.kernel.base + r₂, hrun, hready', hall,
      ⟨hpgdir, kernelBase_ne r₃⟩, ⟨f, hmem ▸ hf, hmem ▸ hdir⟩, hvaddr, ?_, hdescs, ?_⟩
    · intro i hi
      rw [hvaddr, hmem]
      exact hp.bitmap_clear hr₃ g₃ hi
    · rw [hmem]
      refine hown.perm ?_
      rw [List.cons_append]
      exact List.Perm.cons _ List.perm_append_comm

end UserprogExecute
