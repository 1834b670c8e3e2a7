import Leeos.KernelThreadQueues

/-!
# The scheduler invariant

The faithful operations make the moves of the roster, so each of them keeps `SchedInv`, and none
of their assertions fails. `schedule` is called with the invariant half restored: its rule asks
for `Settled` of the roster in which the caller's frame is already on its stack.
-/
namespace KernelThreadInvariant

open ExecRules KernelThreads KernelThreadQueues LibStdint

def roster (s : ThreadState) : Roster :=
  { status := fun t => (s.pcbs t).status
    magic := fun t => (s.pcbs t).stackMagic
    all := s.allThreadList
    ready := s.readyThreadList
    cpu := s.curr
    idle := s.idleThread
    kernelStacks := s.kernelStacks
    sems := s.sems
    downs := s.downs
    ups := s.ups }

structure SchedInv (init : ℕ → ℕ) (s : ThreadState) : Prop where
  settled : Settled init (roster s)
  curr_running : (s.pcbs s.curr).status = .running
  attended : ∀ sem, Attended (roster s) sem

/-- What holds when `schedule frame` is called. -/
structure Leaving (init : ℕ → ℕ) (frame : Frame) (s : ThreadState) : Prop where
  settled : Settled init ((roster s).park (some frame))
  attended : ∀ sem, Attended ((roster s).park (some frame)) sem

variable {init : ℕ → ℕ} {s : ThreadState}

@[simp] theorem roster_status (t : ℕ) : (roster s).status t = (s.pcbs t).status := rfl

theorem statusOf_setPcb (t : ℕ) (p : Pcb) :
    (fun u => ((s.setPcb t p).pcbs u).status) =
      Function.update (fun u => (s.pcbs u).status) t p.status := by
  funext u
  by_cases hu : u = t
  · simp [ThreadState.setPcb, hu]
  · simp [ThreadState.setPcb, hu]

theorem magicOf_setPcb (t : ℕ) (p : Pcb) :
    (fun u => ((s.setPcb t p).pcbs u).stackMagic) =
      Function.update (fun u => (s.pcbs u).stackMagic) t p.stackMagic := by
  funext u
  by_cases hu : u = t
  · simp [ThreadState.setPcb, hu]
  · simp [ThreadState.setPcb, hu]

theorem magic_kept (t : ℕ) : Function.update (fun u => (s.pcbs u).stackMagic) t
    (s.pcbs t).stackMagic = fun u => (s.pcbs u).stackMagic :=
  Function.update_eq_self t _

theorem roster_setStatus (t : ℕ) (st : TaskStatus) :
    roster (s.setStatus t st) =
      { roster s with status := Function.update (roster s).status t st } := by
  simp only [roster, ThreadState.setStatus, statusOf_setPcb, magicOf_setPcb, magic_kept]
  rfl

theorem roster_setReady (t : ℕ) (ready : List ℕ) :
    roster { s.setStatus t .ready with readyThreadList := ready } =
      (roster s).enqueue t ready := by
  simp only [roster, ThreadState.setStatus, statusOf_setPcb, magicOf_setPcb, magic_kept]
  rfl

/-- Changes of the fields that no list or status depends on. -/
theorem roster_setPcb_of_status (t : ℕ) (p : Pcb) (h : p.status = (s.pcbs t).status)
    (hm : p.stackMagic = (s.pcbs t).stackMagic) : roster (s.setPcb t p) = roster s := by
  have hst : Function.update (fun u => (s.pcbs u).status) t p.status =
      fun u => (s.pcbs u).status := by
    rw [h]
    exact Function.update_eq_self t _
  simp only [roster, statusOf_setPcb, hst, magicOf_setPcb, hm, magic_kept]
  rfl

theorem SchedInv.congr (h : SchedInv init s) {s' : ThreadState} (hr : roster s' = roster s) :
    SchedInv init s' := by
  have hc : s'.curr = s.curr := congrArg Roster.cpu hr
  have hst : (roster s').status s'.curr = (roster s).status s.curr := by rw [hr, hc]
  exact ⟨hr ▸ h.settled, hst.trans h.curr_running, fun sem => hr ▸ h.attended sem⟩

/-! ## `thread_unlock` and `schedule` -/

theorem threadUnlock_ok {t : ℕ} (hst : (s.pcbs t).status.Locked) (hr : t ∉ s.readyThreadList) :
    threadUnlock t s =
      .ok ((), { s.setStatus t .ready with readyThreadList := t :: s.readyThreadList }) := by
  have hne : (s.pcbs t).status ≠ .ready := by
    rcases hst with h | h | h <;> simp [h]
  have hrun : threadUnlock t s =
      (if (s.pcbs t).status ≠ .ready then do
        ensure .threadUnlockNotReady (t ∉ s.readyThreadList)
        ensure .blockedListIsReadyList (t ∉ s.readyThreadList)
        set { ({ s with intr := false } : ThreadState).setStatus t .ready with
          readyThreadList := t :: s.readyThreadList }
        intrSetStatus s.intr
      else intrSetStatus s.intr : ThreadM Unit) { s with intr := false } := by
    simp only [threadUnlock, intrDisable, get_bind, bind_assoc, set_bind, pure_bind,
      ensure_bind_of_true hst]
  rw [hrun, if_pos hne, ensure_bind_of_true hr, ensure_bind_of_true hr]
  rfl

theorem requeue_running (hr : (s.pcbs s.curr).status = .running)
    (hready : s.curr ∉ s.readyThreadList) :
    requeue s = .ok ((), { s.setPcb s.curr { s.pcbs s.curr with
        ticks := (s.pcbs s.curr).priority, status := .ready } with
      readyThreadList := s.readyThreadList ++ [s.curr] }) := by
  simp only [requeue, get_bind, if_pos hr, ensure_bind_of_true hready]
  rfl

theorem requeue_other (hr : (s.pcbs s.curr).status ≠ .running) :
    requeue s = .ok ((), s) := by
  simp only [requeue, get_bind, if_neg hr]
  rfl

theorem wakeIdle_empty (he : s.readyThreadList = [])
    (hb : (s.pcbs s.idleThread).status = .blocked) :
    wakeIdle s = .ok ((), { s.setStatus s.idleThread .ready with
      readyThreadList := s.idleThread :: s.readyThreadList }) := by
  simp only [wakeIdle, get_bind, if_pos he]
  exact threadUnlock_ok (Or.inl hb) (by simp [he])

theorem wakeIdle_other (he : s.readyThreadList ≠ []) : wakeIdle s = .ok ((), s) := by
  simp only [wakeIdle, get_bind, if_neg he]
  rfl

theorem Leaving.requeue {frame : Frame} (h : Leaving init frame s) :
    ∃ s₁, requeue s = .ok ((), s₁) ∧ Leaving init frame s₁ ∧
      (s₁.pcbs s₁.curr).status ≠ .running := by
  by_cases hr : (s.pcbs s.curr).status = .running
  · have hready : s.curr ∉ s.readyThreadList := h.settled.not_ready (t := s.curr) (by
      simp [Roster.park, hr])
    refine ⟨_, requeue_running hr hready, ?_, by simp [ThreadState.setPcb]⟩
    have hroster : ∀ p : Pcb, p.status = .ready →
        p.stackMagic = (s.pcbs s.curr).stackMagic →
        roster { s.setPcb s.curr p with readyThreadList := s.readyThreadList ++ [s.curr] } =
          (roster s).enqueue s.curr (s.readyThreadList ++ [s.curr]) := by
      intro p hp hm
      simp only [roster, statusOf_setPcb, hp, magicOf_setPcb, hm, magic_kept]
      rfl
    have hpark := hroster { s.pcbs s.curr with
      ticks := (s.pcbs s.curr).priority, status := .ready } rfl rfl
    constructor
    · rw [hpark]
      exact h.settled.enqueue List.perm_append_comm
        h.settled.cpu_live (by simp [Roster.park, hr])
        fun sem => h.settled.not_waiter (by simp [Roster.park, hr])
    · intro sem
      rw [hpark]
      exact (h.attended sem).enqueue
  · exact ⟨s, requeue_other hr, h, hr⟩

theorem Leaving.wakeIdle {frame : Frame} (h : Leaving init frame s)
    (hcpu : (s.pcbs s.curr).status ≠ .running) :
    ∃ s₂, wakeIdle s = .ok ((), s₂) ∧ Leaving init frame s₂ ∧
      (s₂.pcbs s₂.curr).status ≠ .running ∧ s₂.readyThreadList ≠ [] := by
  by_cases he : s.readyThreadList = []
  · have hb : (s.pcbs s.idleThread).status = .blocked := h.settled.idle_blocked hcpu he
    have hroster : roster { s.setStatus s.idleThread .ready with
        readyThreadList := s.idleThread :: s.readyThreadList } =
          (roster s).enqueue s.idleThread (s.idleThread :: s.readyThreadList) :=
      roster_setReady s.idleThread _
    refine ⟨_, wakeIdle_empty he hb, ?_, ?_, by simp⟩
    · constructor
      · rw [hroster]
        exact h.settled.enqueue (List.Perm.refl (s.idleThread :: s.readyThreadList))
          h.settled.idle_live
          (by simp [Roster.park, hb]) fun sem => h.settled.idle_not_waiter
      · intro sem
        rw [hroster]
        exact (h.attended sem).enqueue
    · by_cases hic : s.curr = s.idleThread
      · simp [ThreadState.setStatus, ThreadState.setPcb, hic]
      · simpa [ThreadState.setStatus, ThreadState.setPcb, hic] using hcpu
  · exact ⟨s, wakeIdle_other he, h, hcpu, he⟩

theorem runNext_ok {frame : Frame} {next : ℕ} {rest : List ℕ}
    (hn : s.readyThreadList = next :: rest) :
    ∃ s₃, runNext frame s = .ok ((), s₃) ∧
      roster s₃ = ((roster s).park (some frame)).dispatch next rest := by
  have hrun : runNext frame s = (do
      processActivate next
      switchTo frame next : ThreadM Unit)
        { s.setStatus next .running with readyThreadList := rest } := by
    simp only [runNext, get_bind, hn, set_bind]
  refine ⟨_, hrun.trans rfl, ?_⟩
  simp only [roster, ThreadState.setStack]
  split <;> simp only [ThreadState.setStatus, statusOf_setPcb, magicOf_setPcb, magic_kept] <;> rfl

theorem Leaving.runNext {frame : Frame} (h : Leaving init frame s)
    (hcpu : (s.pcbs s.curr).status ≠ .running) (hne : s.readyThreadList ≠ []) :
    ∃ s₃, runNext frame s = .ok ((), s₃) ∧ SchedInv init s₃ := by
  obtain ⟨next, rest, hn⟩ := List.exists_cons_of_ne_nil hne
  obtain ⟨s₃, hrun, hroster⟩ := @runNext_ok s frame next rest hn
  refine ⟨s₃, hrun, ⟨?_, ?_, ?_⟩⟩
  · rw [hroster]
    exact h.settled.dispatch hn hcpu (by simp [Roster.park])
  · have hc : s₃.curr = next := congrArg Roster.cpu hroster
    have hst : (roster s₃).status s₃.curr = .running := by
      rw [hroster, hc]
      simp [Roster.dispatch]
    exact hst
  · intro sem
    rw [hroster]
    exact (h.attended sem).dispatch

/-- `schedule` finds a thread to run, and the thread it switches to is the one RUNNING. -/
theorem schedule_spec {frame : Frame} (h : Leaving init frame s) (hi : s.intr = false) :
    ∃ s', schedule frame s = .ok ((), s') ∧ SchedInv init s' := by
  obtain ⟨s₁, hrun₁, h₁, hcpu₁⟩ := h.requeue
  obtain ⟨s₂, hrun₂, h₂, hcpu₂, hne₂⟩ := h₁.wakeIdle hcpu₁
  obtain ⟨s₃, hrun₃, h₃⟩ := h₂.runNext hcpu₂ hne₂
  refine ⟨s₃, ?_, h₃⟩
  simp only [schedule, get_bind, ensure_bind_of_true hi]
  rw [bind_of_ok hrun₁, bind_of_ok hrun₂]
  exact hrun₃

/-! ## One rule for each call -/

theorem SchedInv.not_waiter (h : SchedInv init s) (sem : ℕ) : s.curr ∉ (s.sems sem).waiter :=
  h.settled.not_waiter (by simp [h.curr_running, roster])

/-- A running thread may leave any frame behind that does not wait for a semaphore. -/
theorem SchedInv.leaving (h : SchedInv init s) (hx : Executing s) {frame : Frame}
    (hf : ∀ sem, ¬ ((roster s).park (some frame)).InSemDown sem s.curr) :
    Leaving init frame s := by
  constructor
  · exact h.settled.park (fun sem => h.not_waiter sem) fun _ sem => hf sem
  · intro sem
    apply (h.attended sem).park
    rintro ⟨o, o', ho⟩
    have hnone : s.kernelStacks s.curr = none := hx
    have hsome : s.kernelStacks s.curr = some (.threadLock o (.semDown sem o')) := ho
    simp [hnone] at hsome

theorem intrSet_spec (h : SchedInv init s) (status : Bool) :
    ∃ s', intrSetStatus status s = .ok ((), s') ∧ SchedInv init s' :=
  ⟨_, rfl, h.congr rfl⟩

theorem intrTimerHandler_spec (h : SchedInv init s) (hx : Executing s) :
    ∃ s', intrTimerHandler s = .ok ((), s') ∧ SchedInv init s' := by
  let s₁ : ThreadState :=
    { s.setPcb s.curr { s.pcbs s.curr with
        elapsedTicks := ((s.pcbs s.curr).elapsedTicks + 1) % 2 ^ 32 } with
      intr := false, ticks := (s.ticks + 1) % 2 ^ 32 }
  have hroster : roster s₁ = roster s :=
    roster_setPcb_of_status s.curr { s.pcbs s.curr with
      elapsedTicks := ((s.pcbs s.curr).elapsedTicks + 1) % 2 ^ 32 } rfl rfl
  have h₁ : SchedInv init s₁ := h.congr hroster
  have hrun : intrTimerHandler s = (do
      if (s₁.pcbs s₁.curr).ticks = 0 then schedule .iret
      else
        set (s₁.setPcb s₁.curr { s₁.pcbs s₁.curr with ticks := (s₁.pcbs s₁.curr).ticks - 1 })
        intrSetStatus true : ThreadM Unit) s₁ := by
    have hmagic : (s.pcbs s.curr).stackMagic = 0x00007c00 := h.settled.magic _ h.settled.cpu_live
    rw [intrTimerHandler, get_bind, ensure_bind_of_true hmagic]
    rfl
  rw [hrun]
  by_cases ht : (s₁.pcbs s₁.curr).ticks = 0
  · rw [if_pos ht]
    apply schedule_spec _ rfl
    apply h₁.leaving hx
    rintro sem ⟨o, o', ho⟩
    simp [Roster.park, roster] at ho
  · rw [if_neg ht, set_bind]
    exact intrSet_spec (h₁.congr (roster_setPcb_of_status s₁.curr { s₁.pcbs s₁.curr with
      ticks := (s₁.pcbs s₁.curr).ticks - 1 } rfl rfl)) true

theorem threadLock_spec (h : SchedInv init s) (hx : Executing s) {st : TaskStatus}
    {caller : Caller} (hst : st.Locked) (hi : s.curr = s.idleThread → st = .blocked)
    (hc : ∀ sem o, caller ≠ .semDown sem o) :
    ∃ s', threadLock st caller s = .ok ((), s') ∧ SchedInv init s' := by
  let s₁ : ThreadState := ({ s with intr := false } : ThreadState).setStatus s.curr st
  have hrun : threadLock st caller s = schedule (.threadLock s.intr caller) s₁ := by
    simp only [threadLock, intrDisable, get_bind, bind_assoc, set_bind, pure_bind,
      ensure_bind_of_true hst, modify_bind]
    rfl
  have hroster : roster s₁ = (roster s).sleep st := roster_setStatus s.curr st
  have hl : Leaving init (.threadLock s.intr caller) s := by
    apply h.leaving hx
    rintro sem ⟨o, o', ho⟩
    have : caller = .semDown sem o' := by
      simp only [Roster.park, roster, Function.update_self, Option.some.injEq,
        Frame.threadLock.injEq] at ho
      exact ho.2
    exact hc sem o' this
  rw [hrun]
  refine schedule_spec ⟨?_, fun sem => ?_⟩ rfl
  · rw [hroster]
    exact hl.settled.sleep hst h.curr_running hi
  · rw [hroster]
    apply (hl.attended sem).sleep
    rintro ⟨o, o', ho⟩
    simp only [Roster.park, roster, Function.update_self, Option.some.injEq,
        Frame.threadLock.injEq] at ho
    exact hc sem o' ho.2

theorem threadYield_spec (h : SchedInv init s) (hx : Executing s) :
    ∃ s', threadYield s = .ok ((), s') ∧ SchedInv init s' := by
  have htag : pcbAddr s.curr ∉ s.readyThreadList.map generalTag := by
    intro hm
    obtain ⟨t, -, ht⟩ := List.mem_map.mp hm
    simp only [generalTag, pcbAddr] at ht
    omega
  let s₁ : ThreadState :=
    { ({ s with intr := false } : ThreadState).setStatus s.curr .ready with
      readyThreadList := s.readyThreadList ++ [s.curr] }
  have hrun : threadYield s = schedule (.threadYield s.intr) s₁ := by
    simp only [threadYield, intrDisable, get_bind, bind_assoc, set_bind, pure_bind,
      ensure_bind_of_true htag]
    rfl
  have hroster : roster s₁ = (roster s).enqueue s.curr (s.readyThreadList ++ [s.curr]) := by
    simp only [s₁, roster_setReady]
    rfl
  have hl : Leaving init (.threadYield s.intr) s := by
    apply h.leaving hx
    rintro sem ⟨o, o', ho⟩
    simp [Roster.park, roster] at ho
  rw [hrun]
  refine schedule_spec ⟨?_, fun sem => ?_⟩ rfl
  · rw [hroster]
    exact hl.settled.enqueue List.perm_append_comm
      hl.settled.cpu_live (by simp [Roster.park, h.curr_running]) fun sem => h.not_waiter sem
  · rw [hroster]
    exact (hl.attended sem).enqueue

theorem threadUnlock_spec (h : SchedInv init s) {t : ℕ} (ht : t ∈ s.allThreadList)
    (hst : (s.pcbs t).status.Locked) (hw : ∀ sem, t ∉ (s.sems sem).waiter) :
    ∃ s', threadUnlock t s = .ok ((), s') ∧ SchedInv init s' ∧
      roster s' = (roster s).enqueue t (t :: s.readyThreadList) := by
  have hne : (s.pcbs t).status ≠ .ready ∧ (s.pcbs t).status ≠ .running := by
    rcases hst with e | e | e <;> simp [e]
  have hroster : roster { s.setStatus t .ready with readyThreadList := t :: s.readyThreadList } =
      (roster s).enqueue t (t :: s.readyThreadList) := roster_setReady t _
  refine ⟨_, threadUnlock_ok hst (h.settled.not_ready hne.1), ⟨?_, ?_, ?_⟩, hroster⟩
  · rw [hroster]
    exact h.settled.enqueue (List.Perm.refl _) ht hne.1 hw
  · have htc : s.curr ≠ t := by
      rintro rfl
      exact hne.2 h.curr_running
    simpa [ThreadState.setStatus, ThreadState.setPcb, htc] using h.curr_running
  · intro sem
    rw [hroster]
    exact (h.attended sem).enqueue

theorem addThread_spec (h : SchedInv init s) {t : ℕ} {p : Pcb} (ht : t ∉ s.allThreadList)
    (hp : p.status = .ready) (hm : p.stackMagic = 0x00007c00) :
    ∃ s', addThread t p s = .ok ((), s') ∧ SchedInv init s' := by
  have hr : t ∉ s.readyThreadList := fun hr => ht ((h.settled.ready_iff t).mp hr).1
  let s' : ThreadState := { (s.setPcb t p).setStack t (some .kernelThread) with
    readyThreadList := s.readyThreadList ++ [t], allThreadList := s.allThreadList ++ [t] }
  have hrun : addThread t p s = .ok ((), s') := by
    simp only [addThread, modify_bind, get_bind]
    rw [ensure_bind_of_true (by exact hr), set_bind, get_bind, ensure_bind_of_true (by exact ht)]
    rfl
  have hroster : roster s' = (roster s).join t := by
    simp only [roster, s', ThreadState.setStack, statusOf_setPcb, magicOf_setPcb, hp, hm]
    rfl
  refine ⟨s', hrun, ⟨?_, ?_, ?_⟩⟩
  · rw [hroster]
    exact h.settled.join ht
  · have htc : s.curr ≠ t := by
      rintro rfl
      exact ht h.settled.cpu_live
    have : (s'.pcbs s'.curr).status = (s.pcbs s.curr).status := by
      simp [s', ThreadState.setStack, ThreadState.setPcb, htc]
    exact this.trans h.curr_running
  · intro sem
    rw [hroster]
    exact (h.attended sem).join ht

theorem processExecute_spec (h : SchedInv init s) {t pgdir : ℕ} (ht : t ∉ s.allThreadList) :
    ∃ s', processExecute t pgdir s = .ok ((), s') ∧ SchedInv init s' := by
  have h₁ : SchedInv init { s with intr := false } := h.congr rfl
  obtain ⟨s', hrun, h'⟩ := addThread_spec h₁ (p := { threadInit 31 with pgdir := pgdir }) ht rfl rfl
  refine ⟨{ s' with intr := s.intr }, ?_, h'.congr rfl⟩
  simp only [processExecute, intrDisable, get_bind, bind_assoc, set_bind, pure_bind]
  rw [bind_of_ok hrun]
  rfl

/-! ## Semaphores -/

/-- The running thread is in `sem_down` of `sem`, before the test: a waker may count on it. -/
structure Testing (init : ℕ → ℕ) (sem : ℕ) (s : ThreadState) : Prop where
  settled : Settled init (roster s)
  curr_running : (s.pcbs s.curr).status = .running
  attended : ∀ sem', sem' ≠ sem → Attended (roster s) sem'
  executing : Executing s
  not_idle : s.curr ≠ s.idleThread

theorem Testing.not_waiter {sem : ℕ} (h : Testing init sem s) (sem' : ℕ) :
    s.curr ∉ (s.sems sem').waiter :=
  h.settled.not_waiter (by simp [h.curr_running, roster])

theorem SchedInv.testing (h : SchedInv init s) (hx : Executing s) (hi : s.curr ≠ s.idleThread)
    (sem : ℕ) : Testing init sem s :=
  ⟨h.settled, h.curr_running, fun sem' _ => h.attended sem', hx, hi⟩

theorem Testing.congr {sem : ℕ} (h : Testing init sem s) {s' : ThreadState}
    (hr : roster s' = roster s) : Testing init sem s' := by
  have hc : s'.curr = s.curr := congrArg Roster.cpu hr
  have hst : (roster s').status s'.curr = (roster s).status s.curr := by rw [hr, hc]
  have hx : (roster s').kernelStacks s'.curr = (roster s).kernelStacks s.curr := by rw [hr, hc]
  have hi : s'.idleThread = s.idleThread := congrArg Roster.idle hr
  exact ⟨hr ▸ h.settled, hst.trans h.curr_running, fun sem' hs => hr ▸ h.attended sem' hs,
    hx.trans h.executing, hc ▸ hi ▸ h.not_idle⟩

theorem Testing.wait {sem : ℕ} (h : Testing init sem s) (oldStatus : Bool)
    (hv : (s.sems sem).value = 0) :
    ∃ s', threadLock .blocked (.semDown sem oldStatus) (s.setSem sem
        { s.sems sem with waiter := (s.sems sem).waiter ++ [s.curr] }) = .ok ((), s') ∧
      SchedInv init s' := by
  let s₁ : ThreadState := ({ s.setSem sem { s.sems sem with
    waiter := (s.sems sem).waiter ++ [s.curr] } with intr := false } : ThreadState).setStatus
      s.curr .blocked
  have hrun : threadLock .blocked (.semDown sem oldStatus) (s.setSem sem
      { s.sems sem with waiter := (s.sems sem).waiter ++ [s.curr] }) =
        schedule (.threadLock s.intr (.semDown sem oldStatus)) s₁ := by
    simp only [threadLock, intrDisable, get_bind, bind_assoc, set_bind, pure_bind]
    rfl
  let frame : Frame := .threadLock s.intr (.semDown sem oldStatus)
  have hroster : (roster s₁).park (some frame) = ((roster s).park (some frame)).await sem := by
    simp only [s₁, roster_setStatus]
    rfl
  have hf : ((roster s).park (some frame)).InSemDown sem s.curr :=
    ⟨s.intr, oldStatus, by simp [Roster.park, roster, frame]⟩
  have hpark : Settled init ((roster s).park (some frame)) :=
    h.settled.park h.not_waiter fun e => absurd e h.not_idle
  rw [hrun]
  refine schedule_spec ⟨?_, fun sem' => ?_⟩ rfl
  · exact hroster ▸ hpark.await h.curr_running h.not_idle hf
  · have ha : sem' ≠ sem → Attended ((roster s).park (some frame)) sem' := by
      intro hs
      apply (h.attended sem' hs).park
      rintro ⟨o, o', ho⟩
      have hnone : s.kernelStacks s.curr = none := h.executing
      simp [roster, hnone] at ho
    exact hroster ▸ Attended.await ha hv hf

/-- The thread takes the unit, and the assertion after it holds. -/
theorem Testing.take {sem : ℕ} (h : Testing init sem s) (hv : (s.sems sem).value ≠ 0) :
    u8 ((s.sems sem).value + 255) = 0 ∧
      ∀ b, SchedInv init { s.setSem sem { s.sems sem with value := 0 } with
        downs := Function.update s.downs sem (s.downs sem + 1), intr := b } := by
  have hone : (s.sems sem).value = 1 := by
    have := h.settled.value_le sem
    simp only [roster] at this
    omega
  refine ⟨by rw [hone]; rfl, fun b => ⟨?_, h.curr_running, fun sem' => ?_⟩⟩
  · exact @Settled.take init (roster s) sem h.settled hone
  · exact Attended.take (r := roster s) fun hs => h.attended sem' hs

theorem semDownLoop_spec {sem : ℕ} (h : Testing init sem s) (oldStatus : Bool) :
    ∃ s', semDownLoop sem oldStatus s = .ok ((), s') ∧ SchedInv init s' := by
  by_cases hv : (s.sems sem).value = 0
  · have hrun : semDownLoop sem oldStatus s = threadLock .blocked (.semDown sem oldStatus)
        (s.setSem sem { s.sems sem with waiter := (s.sems sem).waiter ++ [s.curr] }) := by
      simp only [semDownLoop, get_bind, if_pos hv, ensure_bind_of_true (h.not_waiter sem),
        set_bind]
    rw [hrun]
    exact h.wait oldStatus hv
  · obtain ⟨hz, ht⟩ := h.take hv
    refine ⟨_, ?_, ht oldStatus⟩
    simp only [semDownLoop, get_bind, if_neg hv, set_bind, ensure_bind_of_true hz]
    rw [hz]
    rfl

theorem semDown_spec (h : SchedInv init s) (hx : Executing s) (hi : s.curr ≠ s.idleThread)
    (sem : ℕ) : ∃ s', semDown sem s = .ok ((), s') ∧ SchedInv init s' := by
  have h₁ : Testing init sem { s with intr := false } := (h.testing hx hi sem).congr rfl
  obtain ⟨s', hrun, h'⟩ := semDownLoop_spec h₁ s.intr
  exact ⟨s', hrun, h'⟩

/-- One waiter, if there is one, is taken off the list and made READY. -/
theorem wakeWaiter_spec {sem : ℕ} (h : SchedInv init s) (hv : (s.sems sem).value = 0) :
    ∃ s', wakeWaiter sem s = .ok ((), s') ∧ SchedInv init s' ∧ (s'.sems sem).value = 0 ∧
      ((s'.sems sem).waiter = [] ∨ ∃ t, Woken (roster s') sem t) := by
  cases hw : (s.sems sem).waiter with
  | nil => exact ⟨s, by simp [wakeWaiter, hw], h, hv, Or.inl hw⟩
  | cons t rest =>
    have hmem : t ∈ (s.sems sem).waiter := by simp [hw]
    let s₁ := s.setSem sem { s.sems sem with waiter := rest }
    have hpop : (roster s₁) = (roster s).pop sem rest := rfl
    have h₁ : SchedInv init s₁ :=
      ⟨h.settled.pop (t := t) hw, h.curr_running, fun sem' => (h.attended sem').pop hv⟩
    have hb : (s.pcbs t).status = .blocked := h.settled.waiter_blocked sem t hmem
    have hnot : ∀ sem', t ∉ (s₁.sems sem').waiter := by
      intro sem' ht
      by_cases hs : sem' = sem
      · subst hs
        have hn := List.nodup_cons.mp (hw ▸ h.settled.waiter_nodup sem')
        exact hn.1 (by simpa [s₁, ThreadState.setSem] using ht)
      · have ht' : t ∈ (s.sems sem').waiter := by
          simpa [s₁, ThreadState.setSem, hs] using ht
        exact hs (h.settled.waiter_apart ht' hmem)
    obtain ⟨s', hrun, h', hroster⟩ := threadUnlock_spec h₁ (h.settled.waiter_live sem t hmem)
      (Or.inl hb) hnot
    have hsems : s'.sems = s₁.sems := congrArg Roster.sems hroster
    have hrun' : wakeWaiter sem s = .ok ((), s') := by
      simp only [wakeWaiter, get_bind, hw]
      exact hrun
    refine ⟨s', hrun', h', by simp [hsems, s₁, ThreadState.setSem, hv], Or.inr ⟨t, ?_⟩⟩
    have hf := h.settled.waiter_frame sem t hmem
    rw [hroster, hpop]
    exact ⟨h.settled.waiter_live sem t hmem, hf, by
      have := hnot sem
      exact this, by simp [Roster.enqueue]⟩

theorem semUp_spec {sem : ℕ} (h : SchedInv init s) (hv : (s.sems sem).value = 0) :
    ∃ s', semUp sem s = .ok ((), s') ∧ SchedInv init s' := by
  have h₀ : SchedInv init { s with intr := false } := h.congr rfl
  obtain ⟨s₁, hrun, h₁, hv₁, hw⟩ := wakeWaiter_spec h₀ hv
  have hone : u8 ((s₁.sems sem).value + 1) = 1 := by
    rw [hv₁]
    rfl
  refine ⟨{ s₁.setSem sem { s₁.sems sem with value := 1 } with
    ups := Function.update s₁.ups sem (s₁.ups sem + 1), intr := s.intr }, ?_, ?_, h₁.curr_running,
    fun sem' => ?_⟩
  · simp only [semUp, intrDisable, get_bind, bind_assoc, set_bind, pure_bind,
      ensure_bind_of_true hv]
    rw [bind_of_ok hrun]
    simp only [get_bind, set_bind, ensure_bind_of_true hone]
    rw [hone]
    rfl
  · exact @Settled.post init (roster s₁) sem h₁.settled hv₁
  · exact (h₁.attended sem').post hw

/-! ## The return of a thread that was switched out -/

theorem resume_spec (h : SchedInv init s) :
    ∃ s', resume s = .ok ((), s') ∧ SchedInv init s' := by
  cases hf : s.kernelStacks s.curr with
  | none => exact ⟨s, by simp [resume, hf], h⟩
  | some frame =>
    let s₁ := s.setStack s.curr none
    have hset : Settled init (roster s₁) :=
      h.settled.park (fun sem => h.not_waiter sem) fun _ sem hs => by
        obtain ⟨o, o', ho⟩ := hs
        simp [Roster.park, roster] at ho
    -- the other threads attend to what this one's frame does not name
    have hatt : ∀ sem, ¬ (roster s).InSemDown sem s.curr → Attended (roster s₁) sem :=
      fun sem hn => (h.attended sem).park hn
    have hall : (∀ sem, ¬ (roster s).InSemDown sem s.curr) → SchedInv init s₁ :=
      fun hn => ⟨hset, h.curr_running, fun sem => hatt sem (hn sem)⟩
    have hother : ∀ b : Bool, (∀ sem, ¬ (roster s).InSemDown sem s.curr) →
        ∃ s', intrSetStatus b s₁ = .ok ((), s') ∧ SchedInv init s' :=
      fun b hn => intrSet_spec (hall hn) b
    have hin : ∀ sem, (roster s).InSemDown sem s.curr →
        ∃ o o', frame = .threadLock o (.semDown sem o') := by
      rintro sem ⟨o, o', ho⟩
      have : s.kernelStacks s.curr = some (.threadLock o (.semDown sem o')) := ho
      exact ⟨o, o', Option.some.inj (hf.symm.trans this)⟩
    cases frame with
    | kernelThread =>
      simp only [resume, get_bind, hf, set_bind]
      exact hother true fun sem hs => by simpa using hin sem hs
    | iret =>
      simp only [resume, get_bind, hf, set_bind]
      exact hother true fun sem hs => by simpa using hin sem hs
    | threadYield oldStatus =>
      simp only [resume, get_bind, hf, set_bind]
      exact hother oldStatus fun sem hs => by simpa using hin sem hs
    | threadLock oldStatus caller =>
      cases caller with
      | code =>
        simp only [resume, get_bind, hf, set_bind]
        exact hother oldStatus fun sem hs => by simpa using hin sem hs
      | idle =>
        simp only [resume, get_bind, hf, set_bind]
        exact hother true fun sem hs => by simpa using hin sem hs
      | semDown sem o' =>
        have hfr : (roster s).InSemDown sem s.curr := ⟨oldStatus, o', hf⟩
        have ht : Testing init sem s₁ := by
          refine ⟨hset, h.curr_running, fun sem' hs => ?_, by simp [s₁, Executing,
            ThreadState.setStack], ?_⟩
          · exact hatt sem' fun hf' => hs (InSemDown_unique hf' hfr)
          · intro e
            have hi : s.curr = s.idleThread := e
            exact h.settled.idle_frame sem (hi ▸ hfr : (roster s).InSemDown sem s.idleThread)
        simp only [resume, get_bind, hf, set_bind]
        exact semDownLoop_spec (s := { s₁ with intr := oldStatus }) (ht.congr rfl) o'

/-- Every call that a thread may make returns, and keeps the invariant. -/
theorem step_spec (h : SchedInv init s) {op : ThreadOp} (ha : Allowed s op) :
    ∃ s', runOp op s = .ok ((), s') ∧ SchedInv init s' := by
  cases op with
  | resume => exact resume_spec h
  | intrSet status => exact intrSet_spec h status
  | threadStart pcb prio => exact addThread_spec h ha.2.2 rfl rfl
  | processExecute pcb pgdir => exact processExecute_spec h ha.2.2
  | threadYield => exact threadYield_spec h ha.1
  | threadLock status =>
    exact threadLock_spec h ha.1 ha.2.2 (fun e => absurd e ha.2.1) (by simp)
  | threadUnlock t =>
    obtain ⟨s', hrun, h', -⟩ := threadUnlock_spec h ha.2.1 ha.2.2.2.1 ha.2.2.2.2
    exact ⟨s', hrun, h'⟩
  | semDown sem => exact semDown_spec h ha.1 ha.2 sem
  | semUp sem => exact semUp_spec h ha.2
  | timer => exact intrTimerHandler_spec h ha.1
  | idleLoop => exact threadLock_spec h ha.1 (Or.inl rfl) (fun _ => rfl) (by simp)

end KernelThreadInvariant
