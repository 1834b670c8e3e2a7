import Leeos.UserprogIsolation

/-!
# System calls (`userprog/syscall-init.c`, `system_call_handler` in `kernel/kernel.asm`)

The handler of `int 0x80` calls the table entry that `eax` names and passes it `ebx`, `ecx` and
`edx`. Neither the number nor the arguments are checked: numbers behind the registered functions
call a null entry or whatever the words behind the table hold, and `sys_free` takes any argument
for a block. The headers and list nodes of a process lie in its own pages, among the bytes that
its instructions can write.
-/
namespace UserprogSyscalls

open ExecRules KernelPools KernelPoolInvariant KernelPoolRanges KernelHeap KernelHeapAccounts
  KernelHeapSteps KernelHeapCalls UserprogIsolation LibStdint

structure Registers where
  eax : BitVec 32
  ebx : BitVec 32
  ecx : BitVec 32
  edx : BitVec 32
  deriving DecidableEq

/-- The functions that `syscall_table_init` registers. -/
inductive Handler where
  | sysGetPid
  | sysWrite
  | sysMalloc
  | sysFree
  deriving DecidableEq, Repr

inductive SyscallNumber where
  | sysGetpid
  | sysWrite
  | sysMalloc
  | sysFree
  deriving DecidableEq, Repr

def SyscallNumber.code : SyscallNumber → ℕ
  | .sysGetpid => 0
  | .sysWrite => 1
  | .sysMalloc => 2
  | .sysFree => 3

def systemcallNumber : ℕ := 32

def register (table : ℕ → Option Handler) (n : SyscallNumber) (f : Handler) : ℕ → Option Handler :=
  Function.update table n.code (some f)

def syscallTableInit (table : ℕ → Option Handler) : ℕ → Option Handler :=
  let table := register table .sysGetpid .sysGetPid
  let table := register table .sysWrite .sysWrite
  let table := register table .sysMalloc .sysMalloc
  register table .sysFree .sysFree

/-- The table lies in the kernel's zeroed data. -/
def syscallTable : ℕ → Option Handler := syscallTableInit fun _ => none

/-- The word that `[syscall_table + eax * 4]` reads, whose address has 32 bits. -/
def entryIndex (eax : BitVec 32) : ℕ := (4 * eax).toNat / 4

/-- The function that is called, if it is one of the registered ones. The words behind the table
are those of `behind`. -/
def callee (behind : ℕ → Option Handler) (eax : BitVec 32) : Option Handler :=
  if entryIndex eax < systemcallNumber then syscallTable (entryIndex eax)
  else behind (entryIndex eax)

/-- What the calls of one process read and write; `text` are the bytes that its addresses show,
`none` without a page. The headers and lists of the heap are kept as what they mean. -/
structure Machine where
  heap : HeapState
  pid : ℕ
  text : ℕ → Option (BitVec 8)
  screen : List (BitVec 8)

inductive SyscallHalt where
  | heap (h : Halt)
  | readFault (a : ℕ)
  | unterminated
  | strNull
  | notRegistered (index : ℕ)
  deriving DecidableEq, Repr

abbrev SyscallM (α : Type) := Exec SyscallHalt Machine α

def liftHeap {α : Type} (x : HeapM α) : SyscallM α := fun s =>
  match x s.heap with
  | .ok (a, h) => .ok (a, { s with heap := h })
  | .error e => .error (.heap e)

/-- The bytes in front of the zero byte, as `putStr` and `strlen` walk over them. -/
def readStr (text : ℕ → Option (BitVec 8)) : ℕ → ℕ → Except SyscallHalt (List (BitVec 8))
  | 0, _ => .error .unterminated
  | left + 1, a =>
    match text a with
    | none => .error (.readFault a)
    | some c => if c = 0 then .ok [] else (c :: ·) <$> readStr text left (u32 (a + 1))

def sysGetPid : SyscallM ℕ := do
  let s ← get
  pure s.pid

/-- `strlen` comes after the output, and so does its assertion. -/
def sysWrite (str : ℕ) : SyscallM ℕ := do
  let s ← get
  match readStr s.text (2 ^ 32) str with
  | .error e => throw e
  | .ok bytes =>
    set { s with screen := s.screen ++ bytes }
    ensure .strNull (str ≠ 0)
    pure bytes.length

/-- `sys_free` returns nothing, and `eax` then holds what it left there. -/
def call (f : Handler) (r : Registers) : SyscallM (Option ℕ) :=
  match f with
  | .sysGetPid => do
    let pid ← sysGetPid
    pure (some pid)
  | .sysWrite => do
    let len ← sysWrite r.ebx.toNat
    pure (some len)
  | .sysMalloc => do
    let p ← liftHeap (KernelHeap.sysMalloc r.ebx.toNat)
    pure (some p)
  | .sysFree => do
    liftHeap (KernelHeap.sysFree r.ebx.toNat)
    pure none

def systemCallHandler (behind : ℕ → Option Handler) (r : Registers) : SyscallM (Option ℕ) :=
  match callee behind r.eax with
  | some f => call f r
  | none => throw (.notRegistered (entryIndex r.eax))

def InOwnPage (h : HeapState) (a : ℕ) : Prop :=
  PoolFlag.user.Managed (a / 4096) ∧ h.mem.frameOf (a / 4096) ≠ none

/-- The byte belongs to the header of an arena or to the link of a free block. -/
def Bookkeeping (h : HeapState) (a : ℕ) : Prop :=
  (∃ R ∈ h.handed, 4096 * R.page ≤ a ∧ a < 4096 * R.page + arenaSize) ∨
    ∃ d < 7, ∃ e ∈ listsOf h d, e ≤ a ∧ a < e + 8

/-- The instructions of the process write into its own pages, clear of the headers and links. -/
def StoreFits (h : HeapState) (touched : ℕ → Prop) : Prop :=
  ∀ a, touched a → InOwnPage h a ∧ ¬ Bookkeeping h a

variable {behind : ℕ → Option Handler} {s t : Machine} {L : List Live} {r : Registers}
  {result : Option ℕ}

end UserprogSyscalls
