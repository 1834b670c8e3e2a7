import Leeos.KernelThreadRules
import Leeos.KernelThreadRuns

/-!
# The I/O queue (`device/ioqueue.c`)

`ioq_getchar` and `ioq_putchar` run with interrupts off and give up the CPU only where they
sleep: in `lock_acquire` on `io_lock`, or in `ioq_wait`, which holds it. `calls` says where in
which call a thread sleeps. `ioq_wakeup(ioq->consumer)` hands over the PCB where the address of
the slot is asked for, so `*waiter` is the PCB's first word, the saved stack pointer, and
`thread_unlock` reads the stack as a PCB: the word it takes for the status is the `ebx` that
`switch_to` saved.
-/
namespace DeviceIoqueue

open ExecRules KernelThreads KernelThreadRules KernelThreadQueues KernelThreadInvariant
  KernelThreadRuns LibStdint

def bufSize : ℕ := 64

def ioSem : ℕ := 1

structure Ioqueue where
  holder : Option ℕ
  holderRepeatNum : ℕ
  producer : Option ℕ
  consumer : Option ℕ
  buf : ℕ → BitVec 8
  head : ℕ
  tail : ℕ

inductive IoqCall where
  | getchar
  | putchar (byte : BitVec 8)
  deriving DecidableEq, Repr

inductive IoqPoint where
  | lockAcquire
  | ioqWait
  deriving DecidableEq, Repr

/-- What `switch_to` left of the thread that a wake-up is meant for: its stack pointer and the
word above it. -/
structure SavedStack where
  esp : ℕ
  ebx : ℕ
  deriving DecidableEq, Repr

/-- `result` is what a thread's last `ioq_getchar` returned. `strayReady` are the addresses on
the ready list that are no PCB's tag, `lostStacks` the PCBs whose saved stack pointer was set
to 0. -/
structure IoqState where
  threads : ThreadState
  ioq : Ioqueue
  calls : ℕ → Option (IoqPoint × IoqCall)
  result : ℕ → BitVec 8
  strayReady : List ℕ
  lostStacks : List ℕ

inductive IoqAssertion where
  | thread (a : ThreadAssertion)
  | intrOff
  | waiterNull
  | waiterSet
  | repeatZero
  | holder
  deriving DecidableEq, Repr

abbrev IoqM (α : Type) := Exec IoqAssertion IoqState α

def liftThread (x : ThreadM Unit) : IoqM Unit := fun s =>
  match x s.threads with
  | .ok ((), t) => .ok ((), { s with threads := t })
  | .error e => .error (.thread e)

def nextPos (pos : ℕ) : ℕ := (pos + 1) % bufSize

def ioqueueIsFull (q : Ioqueue) : Bool := nextPos q.head == q.tail

def ioqueueIsEmpty (q : Ioqueue) : Bool := q.head == q.tail

/-- The loop condition of the call is false. -/
def CanServe (q : Ioqueue) : IoqCall → Prop
  | .getchar => ioqueueIsEmpty q = false
  | .putchar _ => ioqueueIsFull q = false

instance (q : Ioqueue) (call : IoqCall) : Decidable (CanServe q call) := by
  cases call <;> exact inferInstanceAs (Decidable (_ = false))

/-- The slot the call waits in, and the slot it wakes. -/
def Ioqueue.own (q : Ioqueue) : IoqCall → Option ℕ
  | .getchar => q.consumer
  | .putchar _ => q.producer

def Ioqueue.other (q : Ioqueue) : IoqCall → Option ℕ
  | .getchar => q.producer
  | .putchar _ => q.consumer

def Ioqueue.setOwn (q : Ioqueue) (call : IoqCall) (t : ℕ) : Ioqueue :=
  match call with
  | .getchar => { q with consumer := some t }
  | .putchar _ => { q with producer := some t }

def ioqWait (call : IoqCall) : IoqM Unit := do
  let s ← get
  let t := s.threads.curr
  ensure .waiterNull (s.ioq.own call = none)
  set { s with ioq := s.ioq.setOwn call t
               calls := Function.update s.calls t (some (.ioqWait, call)) }
  liftThread (threadLock .blocked .code)

/-- What follows `sem_down` of `lock_acquire`, unless thread `t` sleeps in it. -/
def lockTaken (t : ℕ) (call : IoqCall) : IoqM Unit := do
  let s ← get
  if s.threads.kernelStacks t = none then
    set { s with ioq := { s.ioq with holder := some t } }
    ensure .repeatZero (s.ioq.holderRepeatNum = 0)
    modify fun s => { s with ioq := { s.ioq with holderRepeatNum := 1 } }
    ioqWait call
  else set { s with calls := Function.update s.calls t (some (.lockAcquire, call)) }

def lockAndWait (call : IoqCall) : IoqM Unit := do
  let s ← get
  let t := s.threads.curr
  if s.ioq.holder ≠ some t then
    liftThread (semDown ioSem)
    lockTaken t call
  else
    set { s with ioq := { s.ioq with holderRepeatNum := (s.ioq.holderRepeatNum + 1) % 2 ^ 32 } }
    ioqWait call

def lockRelease : IoqM Unit := do
  let s ← get
  ensure .holder (s.ioq.holder = some s.threads.curr)
  if s.ioq.holderRepeatNum > 1 then
    set { s with ioq := { s.ioq with holderRepeatNum := s.ioq.holderRepeatNum - 1 } }
  else
    set { s with ioq := { s.ioq with holder := none, holderRepeatNum := 0 } }
    liftThread (semUp ioSem)

/-- `ioq_wakeup` on the PCB `waiter` instead of the slot. -/
def ioqWakeup (waiter : ℕ) (saved : SavedStack) : IoqM Unit := do
  ensure .waiterSet (saved.esp ≠ 0)
  ensure (.thread .threadUnlockStatus) (saved.ebx = 2 ∨ saved.ebx = 3 ∨ saved.ebx = 4)
  modify fun s => { s with strayReady := (saved.esp + 68) :: s.strayReady
                           lostStacks := waiter :: s.lostStacks }

def transfer (call : IoqCall) (s : IoqState) : IoqState :=
  let t := s.threads.curr
  match call with
  | .getchar => { s with result := Function.update s.result t (s.ioq.buf s.ioq.tail)
                         ioq := { s.ioq with tail := nextPos s.ioq.tail } }
  | .putchar byte => { s with ioq := { s.ioq with
      buf := Function.update s.ioq.buf s.ioq.head byte, head := nextPos s.ioq.head } }

/-- One turn of the loop and, when the queue can serve the call, the rest of it. The source tests
the slot after the transfer, which does not touch it; `ioqueue_is_full` asserts as well. -/
def ioqTurn (call : IoqCall) (saved : SavedStack) : IoqM Unit := do
  let s ← get
  ensure .intrOff (call = .getchar ∨ s.threads.intr = false)
  if CanServe s.ioq call then
    set { transfer call s with calls := Function.update s.calls s.threads.curr none }
    match s.ioq.other call with
    | none => pure ()
    | some waiter => ioqWakeup waiter saved
  else lockAndWait call

def ioqEnter (call : IoqCall) (saved : SavedStack) : IoqM Unit := do
  let s ← get
  ensure .intrOff (s.threads.intr = false)
  ioqTurn call saved

/-- The return into a thread that was switched out, through the call it sleeps in. -/
def ioqResume (saved : SavedStack) : IoqM Unit := do
  let s ← get
  let t := s.threads.curr
  liftThread resume
  match s.calls t with
  | none => pure ()
  | some (.lockAcquire, call) => lockTaken t call
  | some (.ioqWait, call) =>
    lockRelease
    ioqTurn call saved

/-! ## Steps -/

inductive IoqOp where
  | thread (op : ThreadOp)
  | enter (call : IoqCall) (saved : SavedStack)
  | resume (saved : SavedStack)
  deriving DecidableEq, Repr

def runIoqOp : IoqOp → IoqM Unit
  | .thread op => liftThread (runOp op)
  | .enter call saved => ioqEnter call saved
  | .resume saved => ioqResume saved

/-- What other code does to threads: it leaves `io_lock` and the threads alone that sleep in the
queue's calls. -/
def Unrelated (s : IoqState) : ThreadOp → Prop
  | .resume => False
  | .semDown sem | .semUp sem => sem ≠ ioSem
  | .threadUnlock t => s.calls t = none
  | _ => True

/-- The calls are entered with interrupts off, on the idle thread only from the keyboard's
interrupt and with room in the queue. A ready list with a stray address is not followed on. -/
def IoqAllowed (s : IoqState) : IoqOp → Prop
  | .thread op => s.strayReady = [] ∧ Allowed s.threads op ∧ Unrelated s op
  | .enter call _ => s.strayReady = [] ∧ Executing s.threads ∧ s.threads.intr = false ∧
      (s.threads.curr = s.threads.idleThread → CanServe s.ioq call)
  | .resume _ => s.strayReady = [] ∧ ¬ Executing s.threads

def IoqStep (s s' : IoqState) : Prop := ∃ op, IoqAllowed s op ∧ runIoqOp op s = .ok ((), s')

structure IoqStart (s : IoqState) : Prop where
  threads : ThreadStart s.threads
  kernelStacks : ∀ t, t ∉ s.threads.allThreadList → s.threads.kernelStacks t = none
  sem : s.threads.sems ioSem = ⟨1, []⟩
  holder : s.ioq.holder = none
  holderRepeatNum : s.ioq.holderRepeatNum = 0
  producer : s.ioq.producer = none
  consumer : s.ioq.consumer = none
  head : s.ioq.head = 0
  tail : s.ioq.tail = 0
  calls : ∀ t, s.calls t = none
  strayReady : s.strayReady = []

/-- The call gets or puts a byte and finds a thread recorded that it should wake. -/
def FindsWaiter (s : IoqState) (op : IoqOp) (waiter : ℕ) : Prop :=
  ∃ call saved, op = .enter call saved ∧ CanServe s.ioq call ∧ s.ioq.other call = some waiter

/-- A step that does not find a recorded thread. -/
def QuietStep (s s' : IoqState) : Prop :=
  ∃ op, IoqAllowed s op ∧ runIoqOp op s = .ok ((), s') ∧ ∀ waiter, ¬ FindsWaiter s op waiter

/-- Threads are recorded while they wait, and no thread sleeps on a queue that can serve it. -/
structure Served (s : IoqState) : Prop where
  consumer : ∀ t, s.ioq.consumer = some t → s.calls t = some (.ioqWait, .getchar) ∧
    (s.threads.pcbs t).status = .blocked ∧ ioqueueIsEmpty s.ioq = true
  producer : ∀ t, s.ioq.producer = some t → (∃ byte, s.calls t = some (.ioqWait, .putchar byte)) ∧
    (s.threads.pcbs t).status = .blocked ∧ ioqueueIsFull s.ioq = true
  sleepers : ∀ t point call, s.calls t = some (point, call) →
    (s.threads.pcbs t).status = .blocked ∧ ¬ CanServe s.ioq call

/-- The recorded thread, and no other, becomes READY, and its slot is cleared. -/
structure WakesExactly (waiter : ℕ) (call : IoqCall) (s s' : IoqState) : Prop where
  slot : s'.ioq.other call = none
  threads : s'.threads = { s.threads.setStatus waiter .ready with
    readyThreadList := waiter :: s.threads.readyThreadList }

/-! ## Threads that sleep in the queue's calls are left alone -/

/-- The threads of `A` sleep, outside all waiter lists but that of `io_lock`, which is `x`, and
thread `c` runs. -/
structure Asleep (A : ℕ → Prop) (x : Semaphore) (c : ℕ) (s : ThreadState) : Prop where
  sem : s.sems ioSem = x
  curr : s.curr = c
  live : ∀ t, A t → t ∈ s.allThreadList
  not_idle : ¬ A s.idleThread
  blocked : ∀ t, A t → (s.pcbs t).status = .blocked
  not_ready : ∀ t ∈ s.readyThreadList, ¬ A t
  not_waiter : ∀ sem ≠ ioSem, ∀ t ∈ (s.sems sem).waiter, ¬ A t
  frames : ∀ t o o', s.kernelStacks t = some (.threadLock o (.semDown ioSem o')) → A t

/-- Nor does one of them run. -/
def Dormant (A : ℕ → Prop) (x : Semaphore) (s : ThreadState) : Prop :=
  Asleep A x s.curr s ∧ ¬ A s.curr

variable {A : ℕ → Prop} {x : Semaphore} {c : ℕ} {s s' : ThreadState}

/-- The frame is not one in `sem_down` of `io_lock`. -/
def FrameElsewhere (frame : Frame) : Prop := ∀ o o', frame ≠ .threadLock o (.semDown ioSem o')

theorem Asleep.intr (h : Asleep A x c s) (status : Bool) :
    Asleep A x c { s with intr := status } := { h with }

theorem Asleep.setPcb (h : Asleep A x c s) {t : ℕ} (ht : ¬ A t) (p : Pcb) {ready : List ℕ}
    (hr : ∀ u ∈ ready, ¬ A u) :
    Asleep A x c { s.setPcb t p with readyThreadList := ready } :=
  { h with
    blocked := fun u hu => by
      have hne : u ≠ t := fun e => ht (e ▸ hu)
      simpa [ThreadState.setPcb, hne] using h.blocked u hu
    not_ready := hr }

theorem Asleep.setStack (h : Asleep A x c s) {t : ℕ} {frame : Option Frame}
    (hf : A t ∨ ∀ f, frame = some f → FrameElsewhere f) : Asleep A x c (s.setStack t frame) :=
  { h with
    frames := fun u o o' hu => by
      by_cases hut : u = t
      · subst hut
        simp only [ThreadState.setStack, Function.update_self] at hu
        exact hf.resolve_right fun hf => hf _ hu o o' rfl
      · simp only [ThreadState.setStack, Function.update_of_ne hut] at hu
        exact h.frames u o o' hu }

theorem Asleep.setIoSem (h : Asleep A x c s) (y : Semaphore) :
    Asleep A y c (s.setSem ioSem y) := by
  refine { h with sem := ?_, not_waiter := ?_ }
  · simp [ThreadState.setSem]
  · intro sem hne t ht
    apply h.not_waiter sem hne t
    simpa [ThreadState.setSem, hne] using ht

theorem Asleep.setSem (h : Asleep A x c s) {sem : ℕ} (hs : sem ≠ ioSem) {y : Semaphore}
    (hy : ∀ t ∈ y.waiter, ¬ A t) : Asleep A x c (s.setSem sem y) :=
  { h with
    sem := by simpa [ThreadState.setSem, hs.symm] using h.sem
    not_waiter := fun sem' hs' t ht => by
      by_cases he : sem' = sem
      · subst he
        simp only [ThreadState.setSem, Function.update_self] at ht
        exact hy t ht
      · simp only [ThreadState.setSem, Function.update_of_ne he] at ht
        exact h.not_waiter sem' hs' t ht }

theorem ignoresIntr_asleep : IgnoresIntr (Asleep A x c) := fun _ status h => h.intr status

theorem threadUnlock_asleep {t : ℕ} (ht : ¬ A t) :
    Triple (Asleep A x c) (threadUnlock t) fun _ s' => Asleep A x c s' := by
  refine threadUnlock_rule ignoresIntr_asleep fun v hv => hv.setPcb ht _ fun u hu => ?_
  rcases List.mem_cons.mp hu with rfl | hu
  · exact ht
  · exact hv.not_ready u hu

theorem Asleep.append (h : Asleep A x c s) {t : ℕ} (ht : ¬ A t) :
    ∀ u ∈ s.readyThreadList ++ [t], ¬ A u := by
  intro u hu
  rcases List.mem_append.mp hu with hu | hu
  · exact h.not_ready u hu
  · exact List.mem_singleton.mp hu ▸ ht

theorem requeue_asleep : Triple (Asleep A x c) requeue fun _ s' => Asleep A x c s' := by
  refine requeue_rule (fun v hv hrun => ?_) fun _ hv => hv
  have hcurr : ¬ A v.curr := fun hc => by
    rw [hv.blocked _ hc] at hrun
    cases hrun
  exact hv.setPcb hcurr _ (hv.append hcurr)

theorem wakeIdle_asleep : Triple (Asleep A x c) wakeIdle fun _ s' => Asleep A x c s' :=
  wakeIdle_rule fun _ hv _ => (threadUnlock_asleep hv.not_idle).of_state hv

theorem runNext_dormant {frame : Frame} (hf : FrameElsewhere frame ∨ A c) :
    Triple (Asleep A x c) (runNext frame) fun _ s' => Dormant A x s' := by
  refine runNext_rule (N := fun next w => Asleep A x c w ∧ ¬ A next) ?_ ?_ ?_
  · intro v next rest hv hn
    have hmem : ∀ u ∈ next :: rest, ¬ A u := hn ▸ hv.not_ready
    exact ⟨hv.setPcb (hmem next List.mem_cons_self) _
      fun u hu => hmem u (List.mem_cons_of_mem next hu), hmem next List.mem_cons_self⟩
  · exact fun next w _ _ hw => ⟨{ hw.1 with }, hw.2⟩
  · rintro next w ⟨hw, hnext⟩
    have hset : Asleep A x c (w.setStack w.curr (some frame)) := by
      apply hw.setStack
      rcases hf with hf | hc
      · exact Or.inr fun f he => Option.some.inj he ▸ hf
      · exact Or.inl (hw.curr ▸ hc)
    exact ⟨{ hset with curr := rfl }, hnext⟩

theorem schedule_dormant {frame : Frame} (hf : FrameElsewhere frame ∨ A c) :
    Triple (Asleep A x c) (schedule frame) fun _ s' => Dormant A x s' :=
  schedule_rule requeue_asleep wakeIdle_asleep (runNext_dormant hf)

theorem threadLock_dormant {status : TaskStatus} {caller : Caller} (hc : ¬ A c)
    (hf : ∀ o, FrameElsewhere (.threadLock o caller)) :
    Triple (Asleep A x c) (threadLock status caller) fun _ s' => Dormant A x s' :=
  threadLock_rule ignoresIntr_asleep
    (fun _ hw => hw.setPcb (hw.curr ▸ hc) _ hw.not_ready)
    fun oldStatus => schedule_dormant (Or.inl (hf oldStatus))

theorem threadYield_dormant (hc : ¬ A c) :
    Triple (Asleep A x c) threadYield fun _ s' => Dormant A x s' := by
  refine threadYield_rule ignoresIntr_asleep (fun v hv => ?_)
    fun _ => schedule_dormant (Or.inl fun o o' => by simp)
  have hcv : ¬ A v.curr := hv.curr ▸ hc
  exact hv.setPcb hcv _ (hv.append hcv)

theorem semDownLoop_dormant {sem : ℕ} {oldStatus : Bool} (hs : sem ≠ ioSem) (hc : ¬ A c) :
    Triple (Asleep A x c) (semDownLoop sem oldStatus) fun _ s' => Dormant A x s' := by
  refine semDownLoop_rule (fun v hv _ => ?_) fun v hv _ => ?_
  · refine Triple.of_state (P := Asleep A x c) (threadLock_dormant hc fun o o₁ o₂ => ?_) ?_
    · simp [hs]
    · refine hv.setSem hs fun t ht => ?_
      rcases List.mem_append.mp ht with ht | ht
      · exact hv.not_waiter sem hs t ht
      · exact List.mem_singleton.mp ht ▸ hv.curr ▸ hc
  · have hset : Asleep A x c (v.setSem sem { v.sems sem with
        value := u8 ((v.sems sem).value + 255) }) := hv.setSem hs (hv.not_waiter sem hs)
    exact ⟨{ hset with curr := rfl }, hv.curr ▸ hc⟩

theorem semUp_asleep {sem : ℕ} (hs : sem ≠ ioSem) :
    Triple (Asleep A x c) (semUp sem) fun _ s' => Asleep A x c s' := by
  refine semUp_rule ignoresIntr_asleep (wakeWaiter_rule fun v t rest hv hw => ?_) fun v hv => ?_
  · have hmem : ∀ u ∈ t :: rest, ¬ A u := hw ▸ hv.not_waiter sem hs
    refine Triple.of_state (P := Asleep A x c)
      (threadUnlock_asleep (hmem t List.mem_cons_self)) ?_
    exact hv.setSem hs fun u hu => hmem u (List.mem_cons_of_mem t hu)
  · have hset : Asleep A x c (v.setSem sem { v.sems sem with
        value := u8 ((v.sems sem).value + 1) }) := hv.setSem hs (hv.not_waiter sem hs)
    exact { hset with }

theorem addThread_asleep {t : ℕ} (p : Pcb) (ht : ¬ A t) :
    Triple (Asleep A x c) (addThread t p) fun _ s' => Asleep A x c s' := by
  refine addThread_rule fun v hv => ?_
  have hp : Asleep A x c ((v.setPcb t p).setStack t (some .kernelThread)) :=
    (hv.setPcb ht p hv.not_ready).setStack (Or.inr fun f hf o o' => by cases hf; simp)
  exact { hp with
    live := fun u hu => List.mem_append_left _ (hp.live u hu)
    not_ready := hv.append ht }

theorem intrTimerHandler_dormant (hc : ¬ A c) :
    Triple (Asleep A x c) intrTimerHandler fun _ s' => Dormant A x s' := by
  have hcounted : ∀ v, Asleep A x c v → Asleep A x c (counted v) := by
    intro v hv
    have hset := hv.setPcb (hv.curr ▸ hc) { v.pcbs v.curr with
      elapsedTicks := ((v.pcbs v.curr).elapsedTicks + 1) % 2 ^ 32 } hv.not_ready
    exact { hset with }
  refine intrTimerHandler_rule (fun v hv _ => ?_) fun v hv _ => ?_
  · exact Triple.of_state (P := Asleep A x c) (schedule_dormant (Or.inl fun o o' => by simp))
      (hcounted v hv)
  · have hw := hcounted v hv
    have hset := hw.setPcb (hw.curr ▸ hc) { (counted v).pcbs (counted v).curr with
      ticks := (v.pcbs v.curr).ticks - 1 } hw.not_ready
    exact ⟨{ hset with curr := rfl }, hw.curr ▸ hc⟩

/-- The return of a thread that is not among the sleeping ones. -/
theorem resume_dormant (hc : ¬ A c) :
    Triple (Asleep A x c) resume fun _ s' => Dormant A x s' := by
  have hback : ∀ v status, Asleep A x c v →
      Asleep A x c { v.setStack v.curr none with intr := status } := by
    intro v status hv
    refine Asleep.intr ?_ status
    exact hv.setStack (Or.inr fun f hf => by cases hf)
  refine resume_rule (fun v hv _ => ?_) (fun v status hv => ?_)
    fun v oldStatus sem oldStatus' hv hf => ?_
  · exact ⟨{ hv with curr := rfl }, hv.curr ▸ hc⟩
  · exact ⟨{ hback v status hv with curr := rfl }, hv.curr ▸ hc⟩
  · have hs : sem ≠ ioSem := fun e =>
      hc (hv.curr ▸ hv.frames v.curr oldStatus oldStatus' (e ▸ hf))
    exact (semDownLoop_dormant hs hc).of_state (hback v oldStatus hv)

/-- What other code does leaves the sleeping threads asleep. -/
theorem unrelated_dormant {q : IoqState} {op : ThreadOp} (hd : Dormant A x q.threads)
    (ha : Allowed q.threads op) (hu : Unrelated q op) (hA : ∀ t, A t → q.calls t ≠ none)
    (hrun : runOp op q.threads = .ok ((), s')) : Dormant A x s' := by
  obtain ⟨h, hc⟩ := hd
  have hpost : ∀ {y : ThreadM Unit}, y q.threads = .ok ((), s') →
      Triple (Asleep A x q.threads.curr) y (fun _ v => Asleep A x q.threads.curr v) →
      Dormant A x s' := fun hy ht => by
    have := ht _ () s' h hy
    exact ⟨{ this with curr := rfl }, this.curr ▸ hc⟩
  cases op with
  | resume => exact absurd hu id
  | intrSet status => exact hpost hrun (intrSetStatus_rule ignoresIntr_asleep status)
  | threadStart pcb prio =>
    exact hpost hrun (addThread_asleep _ fun hp => ha.2.2 (h.live pcb hp))
  | processExecute pcb pgdir =>
    refine hpost hrun ((intrDisable_rule ignoresIntr_asleep).bind fun oldStatus => ?_)
    exact (addThread_asleep _ fun hp => ha.2.2 (h.live pcb hp)).bind fun _ =>
      intrSetStatus_rule ignoresIntr_asleep oldStatus
  | threadYield => exact threadYield_dormant hc _ () s' h hrun
  | threadLock status => exact threadLock_dormant hc (fun o o₁ o₂ => by simp) _ () s' h hrun
  | threadUnlock t => exact hpost hrun (threadUnlock_asleep fun ht => hA t ht hu)
  | semDown sem =>
    have hdown : Triple (Asleep A x q.threads.curr) (semDown sem) fun _ s' => Dormant A x s' :=
      (intrDisable_rule ignoresIntr_asleep).bind fun oldStatus => semDownLoop_dormant hu hc
    exact hdown _ () s' h hrun
  | semUp sem => exact hpost hrun (semUp_asleep hu)
  | timer => exact intrTimerHandler_dormant hc _ () s' h hrun
  | idleLoop => exact threadLock_dormant hc (fun o o₁ o₂ => by simp) _ () s' h hrun

/-! ## A thread goes to sleep in a call -/

/-- Thread `c` runs and is on no list but that of all threads, and perhaps behind `io_lock`. -/
structure Awake (c : ℕ) (s : ThreadState) : Prop where
  live : c ∈ s.allThreadList
  not_idle : c ≠ s.idleThread
  not_ready : c ∉ s.readyThreadList
  not_waiter : ∀ sem ≠ ioSem, c ∉ (s.sems sem).waiter

theorem awake_of_schedInv {init : ℕ → ℕ} (h : SchedInv init s) (hi : s.curr ≠ s.idleThread) :
    Awake s.curr s where
  live := h.settled.cpu_live
  not_idle := hi
  not_ready := by
    refine h.settled.not_ready (t := s.curr) ?_
    have : (roster s).status s.curr = .running := h.curr_running
    rw [this]
    decide
  not_waiter := fun sem _ => h.not_waiter sem

theorem threadLock_sleeps {caller : Caller} (h : Asleep A x c s) (hc : Awake c s)
    (hrun : threadLock .blocked caller s = .ok ((), s')) :
    Dormant (fun t => A t ∨ t = c) x s' := by
  simp only [threadLock, intrDisable, get_bind, bind_assoc, set_bind, pure_bind,
    ensure_bind_ok_iff, modify_bind] at hrun
  refine schedule_dormant (Or.inr (Or.inr rfl)) _ () s' ?_ hrun.2
  obtain rfl := h.curr
  exact {
    sem := h.sem
    curr := rfl
    live := by
      rintro t (ht | rfl)
      · exact h.live t ht
      · exact hc.live
    not_idle := by
      rintro (ht | he)
      · exact h.not_idle ht
      · exact hc.not_idle he.symm
    blocked := by
      intro t ht
      by_cases he : t = s.curr
      · subst he
        simp [ThreadState.setStatus, ThreadState.setPcb]
      · simpa [ThreadState.setStatus, ThreadState.setPcb, he] using
          h.blocked t (ht.resolve_right he)
    not_ready := by
      rintro t ht (ha | rfl)
      · exact h.not_ready t ht ha
      · exact hc.not_ready ht
    not_waiter := by
      rintro sem hs t ht (ha | rfl)
      · exact h.not_waiter sem hs t ht ha
      · exact hc.not_waiter sem hs ht
    frames := fun t o o' ht => Or.inl (h.frames t o o' ht) }

/-! ## The lock, the slots and the sleeping threads -/

/-- The threads that sleep in a call of the queue. -/
def Sleeping (s : IoqState) (t : ℕ) : Prop := s.calls t ≠ none

structure Free (s : IoqState) : Prop where
  holder : s.ioq.holder = none
  holderRepeatNum : s.ioq.holderRepeatNum = 0
  producer : s.ioq.producer = none
  consumer : s.ioq.consumer = none
  calls : ∀ t, s.calls t = none
  dormant : Dormant (Sleeping s) ⟨1, []⟩ s.threads

/-- Thread `t` sleeps in `ioq_wait` with `io_lock`, all others behind the lock, and the queue
can serve none of them. -/
structure Waiting (t : ℕ) (call : IoqCall) (s : IoqState) : Prop where
  waits : s.calls t = some (.ioqWait, call)
  holder : s.ioq.holder = some t
  own : s.ioq.own call = some t
  other : s.ioq.other call = none
  unserved : ∀ u point call', s.calls u = some (point, call') → ¬ CanServe s.ioq call'
  dormant : ∃ ws, Dormant (Sleeping s) ⟨0, ws⟩ s.threads

structure IoqInv (init : ℕ → ℕ) (s : IoqState) : Prop where
  sched : SchedInv init s.threads
  mode : Free s ∨ ∃ t call, Waiting t call s

variable {init : ℕ → ℕ} {q r : IoqState} {call : IoqCall}

theorem IoqInv.curr_awake (h : IoqInv init q) : q.calls q.threads.curr = none := by
  rcases h.mode with hf | ⟨t, call, hw⟩
  · exact hf.calls _
  · obtain ⟨ws, -, hc⟩ := hw.dormant
    simpa [Sleeping] using hc

theorem liftThread_ok {y : ThreadM Unit} (hrun : liftThread y q = .ok ((), r)) :
    ∃ t, y q.threads = .ok ((), t) ∧ r = { q with threads := t } := by
  rw [liftThread] at hrun
  split at hrun
  case h_1 t ht =>
    cases hrun
    exact ⟨t, ht, rfl⟩
  case h_2 => cases hrun

theorem dormant_congr {B : ℕ → Prop} (h : Dormant A x s) (hB : ∀ t, B t ↔ A t) :
    Dormant B x s := by
  have he : B = A := funext fun t => propext (hB t)
  exact he ▸ h

theorem Waiting.threads (h : Waiting c call q) {t : ThreadState}
    (hd : ∀ ws, Dormant (Sleeping q) ⟨0, ws⟩ q.threads → Dormant (Sleeping q) ⟨0, ws⟩ t) :
    Waiting c call { q with threads := t } :=
  ⟨h.waits, h.holder, h.own, h.other, h.unserved, h.dormant.imp hd⟩

theorem IoqInv.threads (h : IoqInv init q) {t : ThreadState} (hs : SchedInv init t)
    (hd : ∀ x, Dormant (Sleeping q) x q.threads → Dormant (Sleeping q) x t) :
    IoqInv init { q with threads := t } := by
  refine ⟨hs, ?_⟩
  rcases h.mode with hf | ⟨c, call, hw⟩
  · exact Or.inl ⟨hf.holder, hf.holderRepeatNum, hf.producer, hf.consumer, hf.calls, hd _ hf.dormant⟩
  · exact Or.inr ⟨c, call, hw.threads fun ws => hd _⟩

theorem thread_keeps (h : IoqInv init q) {op : ThreadOp} (ha : Allowed q.threads op)
    (hu : Unrelated q op) (hrun : runIoqOp (.thread op) q = .ok ((), r)) : IoqInv init r := by
  obtain ⟨t, ht, rfl⟩ := liftThread_ok hrun
  obtain ⟨t', ht', hs⟩ := step_spec h.sched ha
  rw [ht] at ht'
  cases ht'
  exact h.threads hs fun x hd => unrelated_dormant hd ha hu (fun _ hA => hA) ht

/-- A thread that comes back is in no call of the queue. -/
theorem resume_keeps (h : IoqInv init q) {saved : SavedStack}
    (hrun : ioqResume saved q = .ok ((), r)) : IoqInv init r := by
  have hcalls := h.curr_awake
  rw [ioqResume, get_bind] at hrun
  obtain ⟨_, w, hw, hrun⟩ := bind_ok_iff.mp hrun
  simp only [hcalls] at hrun
  cases hrun
  obtain ⟨t, ht, rfl⟩ := liftThread_ok hw
  obtain ⟨t', ht', hs⟩ := resume_spec h.sched
  rw [ht] at ht'
  cases ht'
  exact h.threads hs fun x hd => resume_dormant hd.2 _ () t hd.1 ht

theorem ioqEnter_ok {saved : SavedStack} (hrun : ioqEnter call saved q = .ok ((), r)) :
    if CanServe q.ioq call then
      ((match q.ioq.other call with
        | none => pure ()
        | some waiter => ioqWakeup waiter saved) : IoqM Unit)
        { transfer call q with calls := Function.update q.calls q.threads.curr none } =
          .ok ((), r)
    else lockAndWait call q = .ok ((), r) := by
  rw [ioqEnter, get_bind] at hrun
  obtain ⟨-, hrun⟩ := ensure_bind_ok_iff.mp hrun
  rw [ioqTurn, get_bind] at hrun
  obtain ⟨-, hrun⟩ := ensure_bind_ok_iff.mp hrun
  split
  case isTrue hs =>
    rw [if_pos hs] at hrun
    exact hrun
  case isFalse hs =>
    rw [if_neg hs] at hrun
    exact hrun

/-- Who can be served while others cannot is of the other kind, and would wake them. -/
theorem other_eq_own {i : Ioqueue} {call' : IoqCall} (h : ¬ CanServe i call)
    (h' : CanServe i call') : i.other call' = i.own call := by
  cases call <;> cases call'
  · exact absurd h' h
  · rfl
  · rfl
  · exact absurd h' h

theorem serve_keeps (h : IoqInv init q) {saved : SavedStack} (hs : CanServe q.ioq call)
    (hq : q.ioq.other call = none) (hrun : ioqEnter call saved q = .ok ((), r)) :
    IoqInv init r := by
  have hr := ioqEnter_ok hrun
  rw [if_pos hs, hq] at hr
  cases hr
  rcases h.mode with hf | ⟨t, call', hw⟩
  · have hcalls : Function.update q.calls q.threads.curr none = q.calls := by
      rw [← hf.calls q.threads.curr, Function.update_eq_self]
    refine ⟨?_, Or.inl ?_⟩
    · cases call <;> exact h.sched
    · rw [hcalls]
      cases call <;> exact ⟨hf.holder, hf.holderRepeatNum, hf.producer, hf.consumer, hf.calls,
        hf.dormant⟩
  · have := other_eq_own (hw.unserved t _ _ hw.waits) hs
    rw [hq, hw.own] at this
    cases this

theorem canServe_congr {i j : Ioqueue} (hh : j.head = i.head) (ht : j.tail = i.tail) :
    CanServe j call ↔ CanServe i call := by
  cases call <;> simp [CanServe, ioqueueIsEmpty, ioqueueIsFull, hh, ht]

theorem semDown_free (hv : s.sems ioSem = ⟨1, []⟩) : semDown ioSem s =
    .ok ((), { s.setSem ioSem ⟨0, []⟩ with
      downs := Function.update s.downs ioSem (s.downs ioSem + 1) }) := by
  simp only [semDown, semDownLoop, intrDisable, get_bind, bind_assoc, set_bind, pure_bind, hv,
    Nat.one_ne_zero, if_false]
  rw [ensure_bind_of_true (by rw [hv]; decide)]
  rfl

theorem semDown_busy {ws : List ℕ} (hv : s.sems ioSem = ⟨0, ws⟩)
    (hrun : semDown ioSem s = .ok ((), s')) :
    threadLock .blocked (.semDown ioSem s.intr)
      (({ s with intr := false } : ThreadState).setSem ioSem ⟨0, ws ++ [s.curr]⟩) =
        .ok ((), s') := by
  simp only [semDown, semDownLoop, intrDisable, get_bind, bind_assoc, set_bind, pure_bind, hv,
    if_true, ensure_bind_ok_iff] at hrun
  exact hrun.2

theorem sleeping_update {p : IoqPoint × IoqCall} {calls : ℕ → Option (IoqPoint × IoqCall)}
    (u : ℕ) : Function.update calls c (some p) u ≠ none ↔ calls u ≠ none ∨ u = c := by
  by_cases hu : u = c
  · subst hu
    simp
  · simp [hu]

theorem lockAndWait_down (h : SchedInv init q.threads) (hx : Executing q.threads)
    (hi : q.threads.curr ≠ q.threads.idleThread) (hh : q.ioq.holder ≠ some q.threads.curr)
    (hrun : lockAndWait call q = .ok ((), r)) :
    ∃ t, semDown ioSem q.threads = .ok ((), t) ∧ SchedInv init t ∧
      lockTaken q.threads.curr call { q with threads := t } = .ok ((), r) := by
  rw [lockAndWait, get_bind, if_pos hh] at hrun
  obtain ⟨_, w, hdown, hrest⟩ := bind_ok_iff.mp hrun
  obtain ⟨t, ht, rfl⟩ := liftThread_ok hdown
  obtain ⟨t', ht', hsched⟩ := semDown_spec h hx hi ioSem
  cases ht.symm.trans ht'
  exact ⟨t, ht, hsched, hrest⟩

theorem first_sleeps (h : SchedInv init q.threads) (hf : Free q) (hx : Executing q.threads)
    (hi : q.threads.curr ≠ q.threads.idleThread) (hs : ¬ CanServe q.ioq call)
    (hrun : lockAndWait call q = .ok ((), r)) :
    SchedInv init r.threads ∧ Waiting q.threads.curr call r := by
  obtain ⟨hd, hcurr⟩ := hf.dormant
  obtain ⟨t₁, ht₁, hsched₁, hrun⟩ := lockAndWait_down h hx hi (by simp [hf.holder]) hrun
  rw [semDown_free hd.sem] at ht₁
  have hstack : t₁.kernelStacks q.threads.curr = none := by
    cases ht₁
    exact hx
  have hcurr₁ : t₁.curr = q.threads.curr := by
    cases ht₁
    rfl
  have hidle₁ : t₁.curr ≠ t₁.idleThread := by
    cases ht₁
    exact hi
  have hd₁ : Asleep (Sleeping q) ⟨0, []⟩ t₁.curr t₁ := by
    cases ht₁
    exact { hd.setIoSem ⟨0, []⟩ with }
  rw [lockTaken, get_bind, if_pos hstack, set_bind] at hrun
  obtain ⟨-, hrun⟩ := ensure_bind_ok_iff.mp hrun
  rw [modify_bind, ioqWait, get_bind] at hrun
  obtain ⟨-, hrun⟩ := ensure_bind_ok_iff.mp hrun
  rw [set_bind] at hrun
  obtain ⟨t₂, ht₂, rfl⟩ := liftThread_ok hrun
  have hlock : ∃ t', threadLock .blocked .code t₁ = .ok ((), t') ∧ SchedInv init t' :=
    threadLock_spec hsched₁ (show t₁.kernelStacks t₁.curr = none from hcurr₁ ▸ hstack) (Or.inl rfl)
      (fun e => absurd e hidle₁) (by simp)
  obtain ⟨t', ht', hsched₂⟩ := hlock
  rw [ht₂] at ht'
  cases ht'
  have hdorm := threadLock_sleeps hd₁ (awake_of_schedInv hsched₁ hidle₁) ht₂
  refine ⟨hsched₂, ?_⟩
  rw [← hcurr₁]
  constructor
  case waits => simp
  case holder => cases call <;> simp [Ioqueue.setOwn, hcurr₁]
  case own => cases call <;> rfl
  case other =>
    cases call
    · exact hf.producer
    · exact hf.consumer
  case unserved =>
    intro u point call' hu
    by_cases huc : u = t₁.curr
    · subst huc
      simp only [Function.update_self, Option.some.injEq, Prod.mk.injEq] at hu
      obtain ⟨-, rfl⟩ := hu
      refine fun hc => hs ((canServe_congr ?_ ?_).mp hc)
      all_goals cases call <;> rfl
    · simp only [Function.update_of_ne huc, hf.calls] at hu
      cases hu
  case dormant => exact ⟨[], dormant_congr hdorm fun u => sleeping_update u⟩

theorem later_sleeps {t : ℕ} {call' : IoqCall} (h : SchedInv init q.threads) (hw : Waiting t call' q)
    (hx : Executing q.threads) (hi : q.threads.curr ≠ q.threads.idleThread)
    (hs : ¬ CanServe q.ioq call) (hrun : lockAndWait call q = .ok ((), r)) :
    SchedInv init r.threads ∧ Waiting t call' r := by
  obtain ⟨ws, hd, hcurr⟩ := hw.dormant
  have hne : q.threads.curr ≠ t := by
    intro he
    refine hcurr ?_
    rw [Sleeping, he, hw.waits]
    simp
  have hholder : q.ioq.holder ≠ some q.threads.curr := by
    rw [hw.holder]
    simpa using hne.symm
  obtain ⟨t₁, ht₁, hsched₁, hrun⟩ := lockAndWait_down h hx hi hholder hrun
  have hlock := semDown_busy hd.sem ht₁
  have hawake : Awake q.threads.curr (({ q.threads with intr := false } : ThreadState).setSem ioSem
      ⟨0, ws ++ [q.threads.curr]⟩) := by
    obtain ⟨h₁, h₂, h₃, h₄⟩ := awake_of_schedInv h hi
    refine ⟨h₁, h₂, h₃, fun sem hne => ?_⟩
    simpa [ThreadState.setSem, hne] using h₄ sem hne
  have hd₁ : Asleep (Sleeping q) ⟨0, ws ++ [q.threads.curr]⟩ q.threads.curr
      (({ q.threads with intr := false } : ThreadState).setSem ioSem
        ⟨0, ws ++ [q.threads.curr]⟩) :=
    (hd.intr false).setIoSem ⟨0, ws ++ [q.threads.curr]⟩
  have hdorm := threadLock_sleeps hd₁ hawake hlock
  have hcpu : q.threads.curr ≠ t₁.curr := fun e => hdorm.2 (Or.inr e.symm)
  have hstack : t₁.kernelStacks q.threads.curr ≠ none :=
    hsched₁.settled.parked q.threads.curr (hdorm.1.live _ (Or.inr rfl)) hcpu
  rw [lockTaken, get_bind, if_neg hstack] at hrun
  cases hrun
  refine ⟨hsched₁, ?_⟩
  constructor
  case waits => simpa [Function.update_of_ne hne.symm] using hw.waits
  case holder => exact hw.holder
  case own => exact hw.own
  case other => exact hw.other
  case unserved =>
    intro u point call'' hu
    by_cases huc : u = q.threads.curr
    · subst huc
      simp only [Function.update_self, Option.some.injEq, Prod.mk.injEq] at hu
      obtain ⟨-, rfl⟩ := hu
      exact hs
    · simp only [Function.update_of_ne huc] at hu
      exact hw.unserved u point call'' hu
  case dormant => exact ⟨_, dormant_congr hdorm fun u => sleeping_update u⟩

theorem enter_keeps (h : IoqInv init q) {saved : SavedStack}
    (ha : IoqAllowed q (.enter call saved)) (hq : ∀ w, ¬ FindsWaiter q (.enter call saved) w)
    (hrun : ioqEnter call saved q = .ok ((), r)) : IoqInv init r := by
  by_cases hs : CanServe q.ioq call
  · have hnone : q.ioq.other call = none := by
      cases ho : q.ioq.other call with
      | none => rfl
      | some w => exact absurd ⟨call, saved, rfl, hs, ho⟩ (hq w)
    exact serve_keeps h hs hnone hrun
  · have hr := ioqEnter_ok hrun
    rw [if_neg hs] at hr
    obtain ⟨-, hx, -, hidle⟩ := ha
    have hi : q.threads.curr ≠ q.threads.idleThread := fun e => hs (hidle e)
    rcases h.mode with hf | ⟨t, call', hw⟩
    · obtain ⟨hsched, hwait⟩ := first_sleeps h.sched hf hx hi hs hr
      exact ⟨hsched, Or.inr ⟨_, _, hwait⟩⟩
    · obtain ⟨hsched, hwait⟩ := later_sleeps h.sched hw hx hi hs hr
      exact ⟨hsched, Or.inr ⟨_, _, hwait⟩⟩

/-! ## Runs -/

theorem ioqInv_start (h : IoqStart q) :
    IoqInv (fun sem => (q.threads.sems sem).value) q := by
  have hsched := schedInv_start h.threads
  have hnone : ∀ t, ¬ Sleeping q t := fun t ht => ht (h.calls t)
  refine ⟨hsched, Or.inl ⟨h.holder, h.holderRepeatNum, h.producer, h.consumer, h.calls, ?_, ?_⟩⟩
  · exact {
      sem := h.sem
      curr := rfl
      live := fun t ht => absurd ht (hnone t)
      not_idle := hnone _
      blocked := fun t ht => absurd ht (hnone t)
      not_ready := fun t _ => hnone t
      not_waiter := fun _ _ t _ => hnone t
      frames := fun t o o' ht => by
        obtain ⟨s₀, idle, hb, hi, hrun⟩ := h.threads
        have hr := systemThreadInit_roster hi hrun
        have hall : q.threads.allThreadList = [s₀.curr, idle] := congrArg Roster.all hr
        have hst : q.threads.kernelStacks = Function.update s₀.kernelStacks idle (some .kernelThread) :=
          congrArg Roster.kernelStacks hr
        have hex : s₀.kernelStacks s₀.curr = none := hb.executing
        by_cases hm : t ∈ q.threads.allThreadList
        · rw [hall] at hm
          rw [hst] at ht
          rcases List.mem_pair.mp hm with rfl | rfl
          · simp [hi.symm, hex] at ht
          · simp at ht
        · simp [h.kernelStacks t hm] at ht }
  · exact hnone _

theorem ioqInv_step (h : IoqInv init q) (hstep : QuietStep q r) : IoqInv init r := by
  obtain ⟨op, ha, hrun, hq⟩ := hstep
  cases op with
  | thread op => exact thread_keeps h ha.2.1 ha.2.2 hrun
  | enter call saved => exact enter_keeps h ha hq hrun
  | resume saved => exact resume_keeps h hrun

theorem served_of_inv (h : IoqInv init q) : Served q := by
  rcases h.mode with hf | ⟨t, call, hw⟩
  · refine ⟨fun t ht => ?_, fun t ht => ?_, fun t point call ht => ?_⟩
    · rw [hf.consumer] at ht
      cases ht
    · rw [hf.producer] at ht
      cases ht
    · rw [hf.calls] at ht
      cases ht
  · obtain ⟨ws, hd, -⟩ := hw.dormant
    have hblocked : ∀ u p, q.calls u = some p → (q.threads.pcbs u).status = .blocked := by
      intro u p hu
      refine hd.blocked u ?_
      rw [Sleeping, hu]
      simp
    refine ⟨fun u hu => ?_, fun u hu => ?_, fun u point call' hu => ?_⟩
    · cases call with
      | getchar =>
        obtain rfl : u = t := Option.some.inj (hu.symm.trans hw.own)
        refine ⟨hw.waits, hblocked _ _ hw.waits, ?_⟩
        simpa [CanServe] using hw.unserved _ _ _ hw.waits
      | putchar byte =>
        have : q.ioq.consumer = none := hw.other
        rw [this] at hu
        cases hu
    · cases call with
      | getchar =>
        have : q.ioq.producer = none := hw.other
        rw [this] at hu
        cases hu
      | putchar byte =>
        obtain rfl : u = t := Option.some.inj (hu.symm.trans hw.own)
        refine ⟨⟨byte, hw.waits⟩, hblocked _ _ hw.waits, ?_⟩
        simpa [CanServe] using hw.unserved _ _ _ hw.waits
    · exact ⟨hblocked _ _ hu, hw.unserved u point call' hu⟩

theorem wakeup_keeps_slot {saved : SavedStack} {waiter : ℕ} (hs : CanServe q.ioq call)
    (ho : q.ioq.other call = some waiter) (hrun : ioqEnter call saved q = .ok ((), r)) :
    r.ioq.other call = some waiter := by
  have hr := ioqEnter_ok hrun
  rw [if_pos hs, ho] at hr
  obtain ⟨-, hr⟩ := ensure_bind_ok_iff.mp hr
  obtain ⟨-, hr⟩ := ensure_bind_ok_iff.mp hr
  cases hr
  cases call <;> exact ho

/-- As long as no call finds a recorded thread to wake, threads are recorded exactly while they
wait, and no thread sleeps on a queue that can serve it; a call that finds one does not wake it. -/
theorem ioqueue_served (h : Reachable IoqStart QuietStep q) :
    Served q ∧ ∀ op waiter, FindsWaiter q op waiter → ∀ r, runIoqOp op q = .ok ((), r) →
      ∃ call saved, op = .enter call saved ∧ ¬ WakesExactly waiter call q r := by
  refine ⟨?_, ?_⟩
  · obtain ⟨q₀, h₀, hrun⟩ := h
    have hinv : IoqInv (fun sem => (q₀.threads.sems sem).value) q := by
      induction hrun with
      | refl => exact ioqInv_start h₀
      | tail _ hk ih => exact ioqInv_step ih hk
    exact served_of_inv hinv
  · rintro op waiter ⟨call, saved, rfl, hs, ho⟩ r hrun
    refine ⟨call, saved, rfl, fun hw => ?_⟩
    have := wakeup_keeps_slot hs ho hrun
    rw [hw.slot] at this
    cases this

/-! ## A consumer that is never woken -/

def ioqAllowedNow (s : IoqState) : IoqOp → Bool
  | .thread (.threadStart pcb _) => s.strayReady.isEmpty && (s.threads.kernelStacks s.threads.curr).isNone &&
      s.threads.curr != s.threads.idleThread && decide (pcb ∉ s.threads.allThreadList)
  | .thread (.intrSet _) => s.strayReady.isEmpty && (s.threads.kernelStacks s.threads.curr).isNone &&
      s.threads.curr != s.threads.idleThread
  | .thread .idleLoop => s.strayReady.isEmpty && (s.threads.kernelStacks s.threads.curr).isNone &&
      s.threads.curr == s.threads.idleThread
  | .enter _ _ => s.strayReady.isEmpty && (s.threads.kernelStacks s.threads.curr).isNone &&
      !s.threads.intr && s.threads.curr != s.threads.idleThread
  | .resume _ => s.strayReady.isEmpty && (s.threads.kernelStacks s.threads.curr).isSome
  | _ => false

theorem ioqAllowed_of_now {s : IoqState} {op : IoqOp} (h : ioqAllowedNow s op = true) :
    IoqAllowed s op := by
  cases op with
  | thread op =>
    cases op <;> simp [ioqAllowedNow, IoqAllowed, Allowed, Executing, Unrelated] at h ⊢ <;> grind
  | enter call saved =>
    simp [ioqAllowedNow, IoqAllowed, Executing] at h ⊢
    grind
  | resume saved =>
    simp [ioqAllowedNow, IoqAllowed, Executing] at h ⊢
    grind

/-- Also, no thread is recorded in either slot. -/
def quietNow (s : IoqState) (op : IoqOp) : Bool :=
  ioqAllowedNow s op && s.ioq.producer.isNone && s.ioq.consumer.isNone

theorem quietNow_step (s s' : IoqState) (op : IoqOp) (h : quietNow s op = true)
    (hrun : runIoqOp op s = .ok ((), s')) : QuietStep s s' := by
  simp only [quietNow, Bool.and_eq_true, Option.isNone_iff_eq_none] at h
  refine ⟨op, ioqAllowed_of_now h.1.1, hrun, ?_⟩
  rintro waiter ⟨call, saved, rfl, -, ho⟩
  cases call with
  | getchar => exact absurd (h.1.2.symm.trans ho) (by simp)
  | putchar byte => exact absurd (h.2.symm.trans ho) (by simp)

def ioqInit (s : ThreadState) : IoqState :=
  ⟨s, ⟨none, 0, none, none, fun _ => 0#8, 0, 0⟩, fun _ => none, fun _ => 0#8, [], []⟩

def ioqRun (fits : IoqState → IoqOp → Bool) (ops : List IoqOp) : Option IoqState :=
  match systemThreadInit 2 bootState with
  | .ok (_, s) => runs runIoqOp fits ops (ioqInit s)
  | .error _ => none

theorem ioqRun_reaches {fits : IoqState → IoqOp → Bool} {ops : List IoqOp}
    {step : IoqState → IoqState → Prop}
    (hstep : ∀ s s' op, fits s op = true → runIoqOp op s = .ok ((), s') → step s s')
    (hrun : ioqRun fits ops = some q) : Reachable IoqStart step q := by
  rw [ioqRun] at hrun
  split at hrun
  case h_1 s hs =>
    refine ⟨ioqInit s, ?_, runs_reaches hstep hrun⟩
    have hstart : ThreadStart s := ⟨bootState, 2, booted_bootState, by decide, hs⟩
    cases hs
    refine ⟨hstart, fun t ht => ?_, rfl, rfl, rfl, rfl, rfl, rfl, rfl, fun _ => rfl, rfl⟩
    have hne : t ≠ 2 := fun e => ht (by subst e; exact List.mem_cons_of_mem _ List.mem_cons_self)
    exact Function.update_of_ne hne _ _
  case h_2 => cases hrun

theorem ioqueue_served_consumer : ∃ q, q.ioq.consumer = some 1 ∧ Served q ∧
    ∀ op waiter, FindsWaiter q op waiter → ∀ r, runIoqOp op q = .ok ((), r) →
      ∃ call saved, op = .enter call saved ∧ ¬ WakesExactly waiter call q r := by
  have hrun : (ioqRun quietNow [.thread (.threadStart 3 31), .enter .getchar ⟨0, 0⟩]).any
      (fun s => s.ioq.consumer == some 1) = true := by decide +kernel
  obtain ⟨q, hq, hval⟩ := (Option.any_eq_true _ _).mp hrun
  exact ⟨q, beq_iff_eq.mp hval, ioqueue_served (ioqRun_reaches quietNow_step hq)⟩

/-- The main thread starts thread 3 and waits for a byte; then thread 3 runs. -/
def consumerRun : List IoqOp :=
  [.thread (.threadStart 3 31), .enter .getchar ⟨0, 0⟩, .resume ⟨0, 0⟩, .thread .idleLoop,
    .resume ⟨0, 0⟩, .thread (.intrSet false)]

/-- Thread 3 puts a byte. With a saved `ebx` of 2 the consumer sleeps on and stays recorded, and
with 0 the assertion of `thread_unlock` fails. -/
theorem consumer_not_woken : ∃ q, Reachable IoqStart IoqStep q ∧ q.ioq.consumer = some 1 ∧
    (∃ r, IoqAllowed q (.enter (.putchar 0x61#8) ⟨0x1f00, 2⟩) ∧
      runIoqOp (.enter (.putchar 0x61#8) ⟨0x1f00, 2⟩) q = .ok ((), r) ∧ ¬ Served r) ∧
    runIoqOp (.enter (.putchar 0x61#8) ⟨0x1f00, 0⟩) q =
      .error (.thread .threadUnlockStatus) := by
  have hrun : (ioqRun ioqAllowedNow consumerRun).any (fun s => s.ioq.consumer == some 1 &&
      ioqAllowedNow s (.enter (.putchar 0x61#8) ⟨0x1f00, 2⟩) &&
      yields (runIoqOp (.enter (.putchar 0x61#8) ⟨0x1f00, 2⟩)) s (fun _ r =>
        r.ioq.consumer == some 1 && !ioqueueIsEmpty r.ioq) &&
      match runIoqOp (.enter (.putchar 0x61#8) ⟨0x1f00, 0⟩) s with
      | .ok _ => false
      | .error e => e == .thread .threadUnlockStatus) = true := by decide +kernel
  obtain ⟨q, hq, hval⟩ := (Option.any_eq_true _ _).mp hrun
  simp only [Bool.and_eq_true, beq_iff_eq] at hval
  obtain ⟨⟨⟨hc, hallow⟩, hput⟩, hhalt⟩ := hval
  obtain ⟨_, r, hr, hslot⟩ := yields_iff.mp hput
  simp only [Bool.and_eq_true, beq_iff_eq, Bool.not_eq_true'] at hslot
  have hreach : Reachable IoqStart IoqStep q :=
    ioqRun_reaches (fun s s' op h hrun => ⟨op, ioqAllowed_of_now h, hrun⟩) hq
  refine ⟨q, hreach, hc, ⟨r, ioqAllowed_of_now hallow, hr, fun hs => ?_⟩, ?_⟩
  · have := (hs.consumer 1 hslot.1).2.2
    rw [hslot.2] at this
    cases this
  · split at hhalt
    case h_1 => cases hhalt
    case h_2 e he => rw [he, beq_iff_eq.mp hhalt]

end DeviceIoqueue
