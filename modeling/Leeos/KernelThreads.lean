import Leeos.ExecRules
import Leeos.LibStdint
import Mathlib.Data.List.Basic
import Mathlib.Logic.Function.Basic

/-!
# Threads, the scheduler and semaphores (`thread/thread.c`, `thread/sync.c`)

A thread is named by the page its PCB lies on, and its `general_tag` stands for it in the ready
list and in the waiter lists. `kernelStacks` holds what a switched-out thread returns to from
`switch_to`; it is `none` while the thread runs code of its own. A step is one call up to the
next switch, or the return of a thread that has just been switched in: both run with interrupts
off. Pids, names and kernel stacks are left out; `pid_lock` is one of the semaphores.
-/
namespace KernelThreads

open ExecRules LibStdint

inductive TaskStatus where
  | running
  | ready
  | blocked
  | waiting
  | hanging
  | died
  deriving DecidableEq, Repr

/-- `blocked`, `waiting` or `hanging`, as the assertions of `thread_lock` and `thread_unlock` ask. -/
def TaskStatus.Locked (st : TaskStatus) : Prop := st = .blocked ∨ st = .waiting ∨ st = .hanging

instance (st : TaskStatus) : Decidable st.Locked :=
  inferInstanceAs (Decidable (st = .blocked ∨ st = .waiting ∨ st = .hanging))

structure Pcb where
  status : TaskStatus
  priority : ℕ
  ticks : ℕ
  elapsedTicks : ℕ
  pgdir : ℕ
  stackMagic : ℕ

structure Semaphore where
  value : ℕ
  waiter : List ℕ

/-- Who called `thread_lock`. -/
inductive Caller where
  | code
  | idle
  | semDown (sem : ℕ) (oldStatus : Bool)
  deriving DecidableEq, Repr

inductive Frame where
  | kernelThread
  | iret
  | threadLock (oldStatus : Bool) (caller : Caller)
  | threadYield (oldStatus : Bool)
  deriving DecidableEq, Repr

/-- `phyOf` is `addr_virtual_to_phy` on page directories. `downs` and `ups` are ghost: the
completed calls of `sem_down` and `sem_up`. -/
structure ThreadState where
  pcbs : ℕ → Pcb
  kernelStacks : ℕ → Option Frame
  curr : ℕ
  intr : Bool
  readyThreadList : List ℕ
  allThreadList : List ℕ
  idleThread : ℕ
  sems : ℕ → Semaphore
  ticks : ℕ
  cr3 : ℕ
  esp0 : ℕ
  phyOf : ℕ → ℕ
  downs : ℕ → ℕ
  ups : ℕ → ℕ

/-- The assertions, and the two reports that stop the machine as well. -/
inductive ThreadAssertion where
  | threadStartReady
  | threadStartAll
  | scheduleIntrOff
  | scheduleNotReady
  | scheduleNonEmpty
  | threadLockStatus
  | threadUnlockStatus
  | threadUnlockNotReady
  | blockedListIsReadyList
  | threadYieldNotReady
  | semIsInWaiter
  | semDownValue
  | semUpZero
  | semUpOne
  | stackMagic
  deriving DecidableEq, Repr

abbrev ThreadM (α : Type) := Exec ThreadAssertion ThreadState α

def ThreadState.setPcb (s : ThreadState) (t : ℕ) (p : Pcb) : ThreadState :=
  { s with pcbs := Function.update s.pcbs t p }

def ThreadState.setStatus (s : ThreadState) (t : ℕ) (st : TaskStatus) : ThreadState :=
  s.setPcb t { s.pcbs t with status := st }

def ThreadState.setSem (s : ThreadState) (sem : ℕ) (x : Semaphore) : ThreadState :=
  { s with sems := Function.update s.sems sem x }

def ThreadState.setStack (s : ThreadState) (t : ℕ) (frame : Option Frame) : ThreadState :=
  { s with kernelStacks := Function.update s.kernelStacks t frame }

def pcbAddr (t : ℕ) : ℕ := 4096 * t

/-- The address of `general_tag`, 68 bytes into the PCB. -/
def generalTag (t : ℕ) : ℕ := pcbAddr t + 68

def intrDisable : ThreadM Bool := do
  let s ← get
  set { s with intr := false }
  pure s.intr

def intrSetStatus (status : Bool) : ThreadM Unit := modify fun s => { s with intr := status }

def pageDirActivate (t : ℕ) : ThreadM Unit := modify fun s =>
  { s with cr3 := if (s.pcbs t).pgdir ≠ 0 then s.phyOf (s.pcbs t).pgdir else 0x100000 }

def processActivate (t : ℕ) : ThreadM Unit := do
  pageDirActivate t
  modify fun s => if (s.pcbs t).pgdir ≠ 0 then { s with esp0 := pcbAddr t + 4096 } else s

/-- The running thread leaves `frame` on its stack. -/
def switchTo (frame : Frame) (next : ℕ) : ThreadM Unit := modify fun s =>
  { s.setStack s.curr (some frame) with curr := next }

def threadUnlock (t : ℕ) : ThreadM Unit := do
  let oldStatus ← intrDisable
  let s ← get
  let status := (s.pcbs t).status
  ensure .threadUnlockStatus status.Locked
  if status ≠ .ready then
    ensure .threadUnlockNotReady (t ∉ s.readyThreadList)
    ensure .blockedListIsReadyList (t ∉ s.readyThreadList)
    set { s.setStatus t .ready with readyThreadList := t :: s.readyThreadList }
  else pure ()
  intrSetStatus oldStatus

/-- The time slice of a running thread is over. -/
def requeue : ThreadM Unit := do
  let s ← get
  if (s.pcbs s.curr).status = .running then
    ensure .scheduleNotReady (s.curr ∉ s.readyThreadList)
    let p := s.pcbs s.curr
    set { s.setPcb s.curr { p with ticks := p.priority, status := .ready } with
      readyThreadList := s.readyThreadList ++ [s.curr] }
  else pure ()

def wakeIdle : ThreadM Unit := do
  let s ← get
  if s.readyThreadList = [] then threadUnlock s.idleThread else pure ()

def runNext (frame : Frame) : ThreadM Unit := do
  let s ← get
  match s.readyThreadList with
  | [] => throw .scheduleNonEmpty
  | next :: rest =>
    set { s.setStatus next .running with readyThreadList := rest }
    processActivate next
    switchTo frame next

def schedule (frame : Frame) : ThreadM Unit := do
  let s ← get
  ensure .scheduleIntrOff (s.intr = false)
  requeue
  wakeIdle
  runNext frame

def threadLock (status : TaskStatus) (caller : Caller) : ThreadM Unit := do
  let oldStatus ← intrDisable
  ensure .threadLockStatus status.Locked
  modify fun s => s.setStatus s.curr status
  schedule (.threadLock oldStatus caller)

/-- `elem_find` is given the PCB instead of its tag here. -/
def threadYield : ThreadM Unit := do
  let oldStatus ← intrDisable
  let s ← get
  ensure .threadYieldNotReady (pcbAddr s.curr ∉ s.readyThreadList.map generalTag)
  set { s.setStatus s.curr .ready with readyThreadList := s.readyThreadList ++ [s.curr] }
  schedule (.threadYield oldStatus)

/-- What `thread_start` and `process_execute` share: the new thread joins both lists. -/
def addThread (t : ℕ) (p : Pcb) : ThreadM Unit := do
  modify fun s => (s.setPcb t p).setStack t (some .kernelThread)
  let s ← get
  ensure .threadStartReady (t ∉ s.readyThreadList)
  set { s with readyThreadList := s.readyThreadList ++ [t] }
  let s ← get
  ensure .threadStartAll (t ∉ s.allThreadList)
  set { s with allThreadList := s.allThreadList ++ [t] }

/-- `thread_init` of a thread that is not the main one. Both fields have 8 bits. -/
def threadInit (prio : ℕ) : Pcb := ⟨.ready, u8 prio, u8 prio, 0, 0, 0x00007c00⟩

def threadStart (pcb prio : ℕ) : ThreadM Unit := addThread pcb (threadInit prio)

def processExecute (pcb pgdir : ℕ) : ThreadM Unit := do
  let oldStatus ← intrDisable
  addThread pcb { threadInit 31 with pgdir := pgdir }
  intrSetStatus oldStatus

/-- One turn of the loop of `sem_down`, from the test on. -/
def semDownLoop (sem : ℕ) (oldStatus : Bool) : ThreadM Unit := do
  let s ← get
  let x := s.sems sem
  if x.value = 0 then
    ensure .semIsInWaiter (s.curr ∉ x.waiter)
    set (s.setSem sem { x with waiter := x.waiter ++ [s.curr] })
    threadLock .blocked (.semDown sem oldStatus)
  else
    set { s.setSem sem { x with value := u8 (x.value + 255) } with
      downs := Function.update s.downs sem (s.downs sem + 1) }
    ensure .semDownValue (u8 (x.value + 255) = 0)
    intrSetStatus oldStatus

def semDown (sem : ℕ) : ThreadM Unit := do
  let oldStatus ← intrDisable
  semDownLoop sem oldStatus

/-- `list_pop` of the waiters, if there are any, and `thread_unlock` of the one popped. -/
def wakeWaiter (sem : ℕ) : ThreadM Unit := do
  let s ← get
  match (s.sems sem).waiter with
  | [] => pure ()
  | popthread :: rest =>
    set (s.setSem sem { s.sems sem with waiter := rest })
    threadUnlock popthread

def semUp (sem : ℕ) : ThreadM Unit := do
  let oldStatus ← intrDisable
  let s ← get
  ensure .semUpZero ((s.sems sem).value = 0)
  wakeWaiter sem
  let s ← get
  let value := u8 ((s.sems sem).value + 1)
  set { s.setSem sem { s.sems sem with value := value } with
    ups := Function.update s.ups sem (s.ups sem + 1) }
  ensure .semUpOne (value = 1)
  intrSetStatus oldStatus

/-- The timer interrupt: the gate turns interrupts off, `iret` turns them on again. -/
def intrTimerHandler : ThreadM Unit := do
  let s ← get
  let p := s.pcbs s.curr
  ensure .stackMagic (p.stackMagic = 0x00007c00)
  set { s.setPcb s.curr { p with elapsedTicks := (p.elapsedTicks + 1) % 2 ^ 32 } with
    intr := false, ticks := (s.ticks + 1) % 2 ^ 32 }
  let s ← get
  let p := s.pcbs s.curr
  if p.ticks = 0 then schedule .iret
  else
    set (s.setPcb s.curr { p with ticks := p.ticks - 1 })
    intrSetStatus true

/-- The return into a thread that was switched out; `idle` goes on with `sti` and `hlt`. -/
def resume : ThreadM Unit := do
  let s ← get
  match s.kernelStacks s.curr with
  | none => pure ()
  | some frame =>
    set (s.setStack s.curr none)
    match frame with
    | .kernelThread => intrSetStatus true
    | .iret => intrSetStatus true
    | .threadYield oldStatus => intrSetStatus oldStatus
    | .threadLock oldStatus caller =>
      intrSetStatus oldStatus
      match caller with
      | .code => pure ()
      | .idle => intrSetStatus true
      | .semDown sem oldStatus => semDownLoop sem oldStatus

/-! ## Steps -/

inductive ThreadOp where
  | resume
  | intrSet (status : Bool)
  | threadStart (pcb prio : ℕ)
  | processExecute (pcb pgdir : ℕ)
  | threadYield
  | threadLock (status : TaskStatus)
  | threadUnlock (t : ℕ)
  | semDown (sem : ℕ)
  | semUp (sem : ℕ)
  | timer
  | idleLoop
  deriving DecidableEq, Repr

def runOp : ThreadOp → ThreadM Unit
  | .resume => resume
  | .intrSet status => intrSetStatus status
  | .threadStart pcb prio => threadStart pcb prio
  | .processExecute pcb pgdir => processExecute pcb pgdir
  | .threadYield => threadYield
  | .threadLock status => threadLock status .code
  | .threadUnlock t => threadUnlock t
  | .semDown sem => semDown sem
  | .semUp sem => semUp sem
  | .timer => intrTimerHandler
  | .idleLoop => threadLock .blocked .idle

/-- The running thread executes code of its own. -/
def Executing (s : ThreadState) : Prop := s.kernelStacks s.curr = none

/-- `idle` runs nothing but its loop, new PCBs lie on pages of their own, `sem_up` is called on a
semaphore of value 0 only (also by interrupt handlers, on whatever thread), and `thread_unlock`
is called on threads that their own `thread_lock` put to sleep. -/
def Allowed (s : ThreadState) : ThreadOp → Prop
  | .resume => ¬ Executing s
  | .intrSet _ => Executing s ∧ s.curr ≠ s.idleThread
  | .threadStart pcb _ => Executing s ∧ s.curr ≠ s.idleThread ∧ pcb ∉ s.allThreadList
  | .processExecute pcb _ => Executing s ∧ s.curr ≠ s.idleThread ∧ pcb ∉ s.allThreadList
  | .threadYield => Executing s ∧ s.curr ≠ s.idleThread
  | .threadLock status => Executing s ∧ s.curr ≠ s.idleThread ∧ status.Locked
  | .threadUnlock t => Executing s ∧ t ∈ s.allThreadList ∧ t ≠ s.idleThread ∧
      (s.pcbs t).status.Locked ∧ ∀ sem, t ∉ (s.sems sem).waiter
  | .semDown _ => Executing s ∧ s.curr ≠ s.idleThread
  | .semUp sem => Executing s ∧ (s.sems sem).value = 0
  | .timer => Executing s ∧ s.intr = true
  | .idleLoop => Executing s ∧ s.curr = s.idleThread

def ThreadStep (s s' : ThreadState) : Prop := ∃ op, Allowed s op ∧ runOp op s = .ok ((), s')

def makeMainThread : ThreadM Unit := modify fun s =>
  { s.setPcb s.curr ⟨.running, 31, 31, 0, 0, 0x00007c00⟩ with allThreadList := s.allThreadList ++ [s.curr] }

/-- `thread_start(idle, 0, "idle", 10)` on page `idle`. -/
def systemThreadInit (idle : ℕ) : ThreadM Unit := do
  modify fun s => { s with allThreadList := [], readyThreadList := [] }
  makeMainThread
  threadStart idle 10
  modify fun s => { s with idleThread := idle }

/-- What holds when `system_thread_init` is called: the main thread executes, and semaphores
that will be initialised to 0 or 1 have that value. -/
structure Booted (s : ThreadState) : Prop where
  executing : Executing s
  sem_value : ∀ sem, (s.sems sem).value ≤ 1
  sem_waiter : ∀ sem, (s.sems sem).waiter = []
  downs_zero : ∀ sem, s.downs sem = 0
  ups_zero : ∀ sem, s.ups sem = 0

/-- The state that `system_thread_init` leaves. -/
def ThreadStart (s : ThreadState) : Prop :=
  ∃ s₀ idle, Booted s₀ ∧ idle ≠ s₀.curr ∧ systemThreadInit idle s₀ = .ok ((), s)

end KernelThreads
