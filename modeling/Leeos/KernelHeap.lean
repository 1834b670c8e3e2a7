import Leeos.KernelPoolRanges

/-!
# The heap (`sys_malloc` and `sys_free`)

Arenas are page ranges from `malloc_pages`; a header at the start of the first page says which
block class the arena serves. Headers are kept by physical frame and reached through the page
tables, so two pages on one frame share their header. Free lists are lists of block addresses.
`handed` is ghost: the ranges `malloc_pages` gave and `free_pages` has not taken back.
-/
namespace KernelHeap

open ExecRules KernelPools KernelPoolRanges LibStdint

def arenaSize : ℕ := 12

/-- `memDescAddr` is the index of the descriptor, `none` for the null pointer. -/
structure Arena where
  memDescAddr : Option ℕ
  cnt : ℕ
  large : Bool
  deriving DecidableEq

structure MemBlockDesc where
  blockSize : ℕ
  blocksPerArena : ℕ
  freeList : List ℕ
  deriving DecidableEq

structure HeapState where
  mem : MemState
  arenas : ℕ → Arena
  descs : ℕ → MemBlockDesc
  handed : List Range

abbrev HeapM (α : Type) := Exec Halt HeapState α

def liftMem {α : Type} (x : MemM α) : HeapM α := fun s =>
  match x s.mem with
  | .ok (a, m) => .ok (a, { s with mem := m })
  | .error e => .error e

def ensureHeap (a : Assertion) (c : Prop) [Decidable c] : HeapM Unit := ensure (.assertion a) c

def blockDesLoop : ℕ → ℕ → ℕ → (ℕ → MemBlockDesc) → ℕ → MemBlockDesc
  | 0, _, _, descs => descs
  | left + 1, index, capacity, descs =>
    blockDesLoop left (index + 1) (capacity * 2)
      (Function.update descs index ⟨capacity, (4096 - arenaSize) / capacity, []⟩)

def blockDesInit (descs : ℕ → MemBlockDesc) : ℕ → MemBlockDesc := blockDesLoop 7 0 16 descs

def arenaToBlock (arenaPtr blockSize index : ℕ) : ℕ := arenaPtr + arenaSize + index * blockSize

def blockToArena (block : ℕ) : ℕ := block &&& 0xfffff000

def readArena (a : ℕ) : HeapM Arena := do
  let s ← get
  match s.mem.frameOf (a / 4096) with
  | some f => pure (s.arenas f)
  | none => throw (.pageFault a)

def writeArena (a : ℕ) (h : Arena) : HeapM Unit := do
  let s ← get
  match s.mem.frameOf (a / 4096) with
  | some f => set { s with arenas := Function.update s.arenas f h }
  | none => throw (.pageFault a)

/-- `memset(a, 0, left * PAGE_SIZE)` as far as headers go. -/
def clearPages : ℕ → ℕ → HeapM Unit
  | 0, _ => pure ()
  | left + 1, a => do
    writeArena a ⟨none, 0, false⟩
    clearPages left (a + 4096)

/-- `malloc_pages`, which also notes the range. -/
def takePages (PF : PoolFlag) (cnt : ℕ) : HeapM ℕ := do
  let v ← liftMem (mallocPages PF cnt)
  if v = 0 then pure 0
  else
    modify fun s => { s with handed := ⟨PF, v / 4096, cnt⟩ :: s.handed }
    pure v

/-- `free_pages`, which also strikes the range out. -/
def givePages (PF : PoolFlag) (cnt a : ℕ) : HeapM Unit := do
  liftMem (freePages PF cnt a)
  modify fun s => { s with handed := s.handed.erase ⟨PF, a / 4096, cnt⟩ }

def setFreeList (s : HeapState) (d : ℕ) (l : List ℕ) : HeapState :=
  { s with descs := Function.update s.descs d { s.descs d with freeList := l } }

def listAppend (d e : ℕ) : HeapM Unit :=
  modify fun s => setFreeList s d ((s.descs d).freeList ++ [e])

def listRemove (d e : ℕ) : HeapM Unit :=
  modify fun s => setFreeList s d ((s.descs d).freeList.erase e)

/-- The flag and the descriptor set are chosen by the page directory pointer. -/
def threadFlag (s : MemState) : PoolFlag := if s.curr.pgdir = 0 then .kernel else .user

/-- The search for the block class, which ends at index 7 without one. -/
def findDesc (descs : ℕ → MemBlockDesc) (size : ℕ) : ℕ → ℕ → ℕ
  | 0, desIdx => desIdx
  | left + 1, desIdx =>
    if size ≤ (descs desIdx).blockSize then desIdx else findDesc descs size left (desIdx + 1)

/-- The loop that splits a new arena into blocks, `left` of them still to append. -/
def splitArena (d memArena : ℕ) : ℕ → ℕ → HeapM Unit
  | 0, _ => pure ()
  | left + 1, i => do
    let s ← get
    let divideMem := arenaToBlock memArena (s.descs d).blockSize i
    ensureHeap .blockOnList (divideMem ∉ (s.descs d).freeList)
    listAppend d divideMem
    splitArena d memArena left (i + 1)

/-- The block under `if (list_empty(...))`; `false` is its `return 0`. -/
def refill (PF : PoolFlag) (d : ℕ) : HeapM Bool := do
  let memArena ← takePages PF 1
  if memArena = 0 then pure false
  else
    clearPages 1 memArena
    let s ← get
    writeArena memArena ⟨some d, (s.descs d).blocksPerArena, false⟩
    splitArena d memArena (s.descs d).blocksPerArena 0
    pure true

/-- `list_pop` and what follows it. On an empty list `list_pop` would return the list's own
tail, which is no block; a refilled list is never empty. -/
def popBlock (d : ℕ) : HeapM ℕ := do
  let s ← get
  match (s.descs d).freeList with
  | [] => throw (.assertion .popElem)
  | popElem :: rest =>
    set (setFreeList s d rest)
    let memElemArena := blockToArena popElem
    let h ← readArena memElemArena
    writeArena memElemArena { h with cnt := sub32 h.cnt 1 }
    pure popElem

def sysMallocLarge (PF : PoolFlag) (size : ℕ) : HeapM ℕ := do
  let cnt := divRoundUp size 4096
  let newArena ← takePages PF cnt
  if newArena = 0 then pure 0
  else
    clearPages cnt newArena
    writeArena newArena ⟨none, cnt, true⟩
    pure (newArena + arenaSize)

def sysMallocSmall (PF : PoolFlag) (size : ℕ) : HeapM ℕ := do
  let s ← get
  let desIdx := findDesc s.descs size 7 0
  let ready ← if (s.descs desIdx).freeList = [] then refill PF desIdx else pure true
  if ready then popBlock desIdx else pure 0

def sysMalloc (size : ℕ) : HeapM ℕ := do
  let s ← get
  let PF := threadFlag s.mem
  if size > 1024 then sysMallocLarge PF size else sysMallocSmall PF size

/-- The loop that takes all blocks of an arena off the free list. -/
def removeBlocks (d memArena : ℕ) : ℕ → ℕ → HeapM Unit
  | 0, _ => pure ()
  | left + 1, blockIdx => do
    let s ← get
    let block := arenaToBlock memArena (s.descs d).blockSize blockIdx
    ensureHeap .blockNotOnList (block ∈ (s.descs d).freeList)
    listRemove d block
    removeBlocks d memArena left (blockIdx + 1)

def sysFree (ptr : ℕ) : HeapM Unit := do
  let s ← get
  let PF := threadFlag s.mem
  let memArena := blockToArena ptr
  let h ← readArena memArena
  match h.memDescAddr with
  | none => givePages PF h.cnt memArena
  | some d =>
    listAppend d ptr
    let cnt := u32 (h.cnt + 1)
    writeArena memArena { h with cnt := cnt }
    if cnt = (s.descs d).blocksPerArena then
      removeBlocks d memArena (s.descs d).blocksPerArena 0
      givePages PF 1 memArena
    else pure ()

/-- A heap whose descriptors have just been initialised. -/
def freshHeap (m : MemState) (arenas : ℕ → Arena) (descs : ℕ → MemBlockDesc) : HeapState :=
  ⟨m, arenas, blockDesInit descs, []⟩

end KernelHeap
