import Leeos.KernelThreads

/-!
# Rules for the calls of the scheduler

Each rule takes a property of states over one call of `thread/thread.c` or `thread/sync.c`. It
asks for what the call itself writes, and for the rules of the calls it makes, so that a proof
about all calls says how the property fares under each of these writes once.
-/
namespace KernelThreadRules

open ExecRules KernelThreads LibStdint

variable {P R S : ThreadState → Prop} {Q : Unit → ThreadState → Prop} {s : ThreadState}

/-- The interrupt flag does not matter. -/
def IgnoresIntr (P : ThreadState → Prop) : Prop := ∀ v status, P v → P { v with intr := status }

theorem intrSetStatus_rule (hi : IgnoresIntr P) (status : Bool) :
    Triple P (intrSetStatus status) fun _ v => P v :=
  triple_modify fun v hv => hi v status hv

theorem intrDisable_rule (hi : IgnoresIntr P) : Triple P intrDisable fun _ v => P v :=
  triple_get_bind fun v hv => triple_set_bind (triple_pure_state (hi v false hv))

theorem threadUnlock_rule {t : ℕ} (hi : IgnoresIntr P) (hready : ∀ v, P v →
      P { v.setStatus t .ready with readyThreadList := t :: v.readyThreadList }) :
    Triple P (threadUnlock t) fun _ v => P v := by
  refine (intrDisable_rule hi).bind fun oldStatus => triple_get_bind fun v hv => ?_
  refine triple_ensure_bind fun _ => ?_
  dsimp only
  split
  · refine triple_ensure_bind fun _ => triple_ensure_bind fun _ => triple_set_bind ?_
    exact (intrSetStatus_rule hi oldStatus).of_state (hready v hv)
  · exact (intrSetStatus_rule hi oldStatus).of_state hv

/-! ## `schedule` -/

theorem requeue_rule
    (hover : ∀ v, P v → (v.pcbs v.curr).status = .running →
      R { v.setPcb v.curr { v.pcbs v.curr with
          ticks := (v.pcbs v.curr).priority, status := .ready } with
        readyThreadList := v.readyThreadList ++ [v.curr] })
    (hother : ∀ v, P v → R v) : Triple P requeue fun _ v => R v := by
  refine triple_get_bind fun v hv => ?_
  split
  case isTrue hrun => exact triple_ensure_bind fun _ => triple_set (hover v hv hrun)
  case isFalse => exact triple_pure_state (hother v hv)

theorem wakeIdle_rule (hidle : ∀ v, P v → v.readyThreadList = [] →
      Triple (· = v) (threadUnlock v.idleThread) fun _ u => P u) :
    Triple P wakeIdle fun _ v => P v := by
  refine triple_get_bind fun v hv => ?_
  split
  case isTrue hempty => exact hidle v hv hempty
  case isFalse => exact triple_pure_state hv

theorem processActivate_rule {t : ℕ} (hload : ∀ v cr3 esp0, P v →
      P { v with cr3 := cr3, esp0 := esp0 }) :
    Triple P (processActivate t) fun _ v => P v := by
  refine Triple.bind (Q := fun _ v => P v) (triple_modify fun v hv => hload v _ v.esp0 hv)
    fun _ => triple_modify fun v hv => ?_
  split
  · exact hload v v.cr3 _ hv
  · exact hv

theorem runNext_rule {frame : Frame} {N : ℕ → ThreadState → Prop}
    (hnext : ∀ v next rest, P v → v.readyThreadList = next :: rest →
      N next { v.setStatus next .running with readyThreadList := rest })
    (hload : ∀ next v cr3 esp0, N next v → N next { v with cr3 := cr3, esp0 := esp0 })
    (hswitch : ∀ next v, N next v →
      Q () { v.setStack v.curr (some frame) with curr := next }) :
    Triple P (runNext frame) Q := by
  refine triple_get_bind fun v hv => ?_
  split
  · exact triple_throw
  · rename_i next rest hready
    refine triple_set_bind (Triple.bind ?_ fun _ => triple_modify (hswitch next))
    exact (processActivate_rule (hload next)).of_state (hnext v next rest hv hready)

theorem schedule_rule {frame : Frame} (hrequeue : Triple P requeue fun _ v => R v)
    (hwake : Triple R wakeIdle fun _ v => S v) (hnext : Triple S (runNext frame) Q) :
    Triple P (schedule frame) Q := by
  refine triple_get_bind fun v hv => triple_ensure_bind fun _ => ?_
  exact Triple.bind (hrequeue.of_state hv) fun _ => hwake.bind fun _ => hnext

theorem threadLock_rule {status : TaskStatus} {caller : Caller} (hi : IgnoresIntr P)
    (hlock : ∀ v, P v → P (v.setStatus v.curr status))
    (hschedule : ∀ oldStatus, Triple P (schedule (.threadLock oldStatus caller)) Q) :
    Triple P (threadLock status caller) Q := by
  refine (intrDisable_rule hi).bind fun oldStatus => triple_ensure_bind fun _ => ?_
  exact Triple.bind (Q := fun _ v => P v) (triple_modify hlock) fun _ => hschedule oldStatus

theorem threadYield_rule (hi : IgnoresIntr P)
    (hyield : ∀ v, P v →
      P { v.setStatus v.curr .ready with readyThreadList := v.readyThreadList ++ [v.curr] })
    (hschedule : ∀ oldStatus, Triple P (schedule (.threadYield oldStatus)) Q) :
    Triple P threadYield Q := by
  refine (intrDisable_rule hi).bind fun oldStatus => triple_get_bind fun v hv =>
    triple_ensure_bind fun _ => triple_set_bind ?_
  exact (hschedule oldStatus).of_state (hyield v hv)

/-- The state in which the timer interrupt looks at the slice. -/
def counted (s : ThreadState) : ThreadState :=
  { s.setPcb s.curr { s.pcbs s.curr with
      elapsedTicks := ((s.pcbs s.curr).elapsedTicks + 1) % 2 ^ 32 } with
    intr := false, ticks := (s.ticks + 1) % 2 ^ 32 }

@[simp] theorem counted_slice (s : ThreadState) :
    ((counted s).pcbs (counted s).curr).ticks = (s.pcbs s.curr).ticks := by
  simp [counted, ThreadState.setPcb]

theorem intrTimerHandler_rule
    (hover : ∀ v, P v → (v.pcbs v.curr).ticks = 0 → Triple (· = counted v) (schedule .iret) Q)
    (htick : ∀ v, P v → (v.pcbs v.curr).ticks ≠ 0 →
      Q () { (counted v).setPcb (counted v).curr { (counted v).pcbs (counted v).curr with
        ticks := (v.pcbs v.curr).ticks - 1 } with intr := true }) :
    Triple P intrTimerHandler Q := by
  refine triple_get_bind fun v hv => triple_ensure_bind fun _ => triple_set_bind ?_
  refine triple_get_bind fun w hw => ?_
  obtain rfl : w = counted v := hw
  dsimp only
  rw [counted_slice]
  split
  case isTrue hzero => exact hover v hv hzero
  case isFalse hpos => exact triple_set_bind (triple_modify fun w hw => hw ▸ htick v hv hpos)

/-! ## New threads and semaphores -/

theorem addThread_rule {t : ℕ} {p : Pcb}
    (hnew : ∀ v, P v → R { (v.setPcb t p).setStack t (some .kernelThread) with
      readyThreadList := v.readyThreadList ++ [t], allThreadList := v.allThreadList ++ [t] }) :
    Triple P (addThread t p) fun _ v => R v := by
  intro v a u hv hrun
  simp only [addThread, modify_bind, get_bind] at hrun
  obtain ⟨-, hrun⟩ := ensure_bind_ok_iff.mp hrun
  rw [set_bind, get_bind] at hrun
  obtain ⟨-, hrun⟩ := ensure_bind_ok_iff.mp hrun
  cases hrun
  exact hnew v hv

theorem wakeWaiter_rule {sem : ℕ}
    (hpop : ∀ v popthread rest, P v → (v.sems sem).waiter = popthread :: rest →
      Triple (· = v.setSem sem { v.sems sem with waiter := rest }) (threadUnlock popthread)
        fun _ u => P u) :
    Triple P (wakeWaiter sem) fun _ v => P v := by
  refine triple_get_bind fun v hv => ?_
  split
  · exact triple_pure_state hv
  · rename_i popthread rest hw
    exact triple_set_bind (hpop v popthread rest hv hw)

theorem semUp_rule {sem : ℕ} (hi : IgnoresIntr P)
    (hwake : Triple P (wakeWaiter sem) fun _ v => P v)
    (hup : ∀ v, P v → P { v.setSem sem { v.sems sem with
        value := u8 ((v.sems sem).value + 1) } with
      ups := Function.update v.ups sem (v.ups sem + 1) }) :
    Triple P (semUp sem) fun _ v => P v := by
  refine (intrDisable_rule hi).bind fun oldStatus => triple_get_bind fun v hv =>
    triple_ensure_bind fun _ => ?_
  refine Triple.bind (hwake.of_state hv) fun _ => ?_
  refine triple_get_bind fun w hw => triple_set_bind (triple_ensure_bind fun _ => ?_)
  exact (intrSetStatus_rule hi oldStatus).of_state (hup w hw)

theorem semDownLoop_rule {sem : ℕ} {oldStatus : Bool}
    (hwait : ∀ v, P v → (v.sems sem).value = 0 →
      Triple (· = v.setSem sem { v.sems sem with waiter := (v.sems sem).waiter ++ [v.curr] })
        (threadLock .blocked (.semDown sem oldStatus)) Q)
    (htake : ∀ v, P v → (v.sems sem).value ≠ 0 →
      Q () { v.setSem sem { v.sems sem with value := u8 ((v.sems sem).value + 255) } with
        downs := Function.update v.downs sem (v.downs sem + 1), intr := oldStatus }) :
    Triple P (semDownLoop sem oldStatus) Q := by
  refine triple_get_bind fun v hv => ?_
  dsimp only
  split
  case isTrue hzero => exact triple_ensure_bind fun _ => triple_set_bind (hwait v hv hzero)
  case isFalse hpos =>
    refine triple_set_bind (triple_ensure_bind fun _ => triple_modify fun w hw => ?_)
    exact hw ▸ htake v hv hpos

theorem semDown_eq (sem : ℕ) (s : ThreadState) :
    semDown sem s = semDownLoop sem s.intr { s with intr := false } := rfl

theorem resume_semDown {oldStatus oldStatus' : Bool} {sem : ℕ}
    (hf : s.kernelStacks s.curr = some (.threadLock oldStatus (.semDown sem oldStatus'))) :
    resume s = semDownLoop sem oldStatus' { s.setStack s.curr none with intr := oldStatus } := by
  rw [resume, get_bind]
  simp only [hf]
  rfl

/-- The thread runs on in code of its own, returns to it, or goes on in `sem_down`. -/
theorem resume_rule (hstay : ∀ v, P v → v.kernelStacks v.curr = none → Q () v)
    (hback : ∀ v status, P v → Q () { v.setStack v.curr none with intr := status })
    (hdown : ∀ v oldStatus sem oldStatus', P v →
      v.kernelStacks v.curr = some (.threadLock oldStatus (.semDown sem oldStatus')) →
      Triple (· = { v.setStack v.curr none with intr := oldStatus })
        (semDownLoop sem oldStatus') Q) : Triple P resume Q := by
  intro v a u hv hrun
  cases hf : v.kernelStacks v.curr with
  | none =>
    rw [resume, get_bind, hf] at hrun
    cases hrun
    exact hstay v hv hf
  | some frame =>
    match frame with
    | .threadLock oldStatus (.semDown sem oldStatus') =>
      rw [resume_semDown hf] at hrun
      exact hdown v oldStatus sem oldStatus' hv hf _ () u rfl hrun
    | .kernelThread | .iret | .threadYield _ | .threadLock _ .code | .threadLock _ .idle =>
      rw [resume, get_bind] at hrun
      simp only [hf] at hrun
      cases hrun
      exact hback v _ hv

end KernelThreadRules
