import Leeos.KernelThreadRules
import Leeos.KernelThreadRuns

/-!
# Sleeping (`device/timer.c`, and `busy_wait` in `device/ide.c`)

A thread that sleeps reads `ticks`, and tests it until the loop of `ticks_to_sleep` ends. Between
two of its steps the timer may interrupt it, and other threads may run. `counted` is ghost: the
timer interrupts since the call.
-/
namespace DeviceTimer

open ExecRules KernelThreads KernelThreadRules LibStdint
open KernelThreadRuns (bootState booted_bootState)
open Relation (ReflTransGen)

/-- Milliseconds between two timer interrupts, `1000 / IRQ0_FREQUENCY`. -/
def frequency : ℕ := 1000 / 100

def mtimeSleep (mSeconds : ℕ) : ℕ := divRoundUp mSeconds frequency

def elapsed (ticks startTicks : ℕ) : ℕ := (ticks % 2 ^ 32 + 2 ^ 32 - startTicks % 2 ^ 32) % 2 ^ 32

inductive SleepPc where
  | start (sleepTicks : ℕ)
  | test (startTicks sleepTicks : ℕ)
  | yielded (startTicks sleepTicks : ℕ)
  | returned
  deriving DecidableEq, Repr

/-- `when` says at what number of elapsed ticks the condition is tested. -/
inductive TicksToSleep (when : ℕ → ℕ → Prop) (s : ThreadState) :
    SleepPc → SleepPc → ThreadState → Prop
  | read {k : ℕ} : TicksToSleep when s (.start k) (.test s.ticks k) s
  | leave {b k : ℕ} : when k (elapsed s.ticks b) → ¬ elapsed s.ticks b > k →
      TicksToSleep when s (.test b k) .returned s
  | yield {b k : ℕ} {t : ThreadState} : when k (elapsed s.ticks b) → elapsed s.ticks b > k →
      threadYield s = .ok ((), t) → TicksToSleep when s (.test b k) (.yielded b k) t
  | back {b k : ℕ} : TicksToSleep when s (.yielded b k) (.test b k) s

inductive BusyPc where
  | loop (timeLimit : ℕ)
  | body (timeLimit : ℕ)
  | sleeping (timeLimit : ℕ) (pc : SleepPc)
  | done (result : Bool)
  deriving DecidableEq, Repr

/-- `time_limit -= 10 >= 0` takes off the value of the comparison. -/
def countdown (timeLimit : ℕ) : ℕ := (timeLimit + 2 ^ 16 - (10 ≥ 0 : Bool).toNat) % 2 ^ 16

/-- `status` holds of the values that the status register may show. -/
inductive BusyWait (when : ℕ → ℕ → Prop) (status : BitVec 8 → Prop) (s : ThreadState) :
    BusyPc → BusyPc → ThreadState → Prop
  | next {n : ℕ} : countdown n ≠ 0 → BusyWait when status s (.loop n) (.body (countdown n)) s
  | giveUp {n : ℕ} : countdown n = 0 → BusyWait when status s (.loop n) (.done false) s
  | ready {n : ℕ} {x y : BitVec 8} : status x → x &&& 0x80 = 0 → status y →
      BusyWait when status s (.body n) (.done (y &&& 0x8 ≠ 0)) s
  | busy {n : ℕ} {x : BitVec 8} : status x → x &&& 0x80 ≠ 0 →
      BusyWait when status s (.body n) (.sleeping n (.start (mtimeSleep 10))) s
  | sleep {n : ℕ} {pc pc' : SleepPc} {t : ThreadState} : TicksToSleep when s pc pc' t →
      BusyWait when status s (.sleeping n pc) (.sleeping n pc') t
  | awake {n : ℕ} : BusyWait when status s (.sleeping n .returned) (.loop n) s

structure World (π : Type) where
  threads : ThreadState
  pc : π
  counted : ℕ

/-- What may happen while the thread is in the call, besides its own steps. -/
def Interrupt (op : ThreadOp) : Prop := op = .timer ∨ op = .resume ∨ ∃ sem, op = .semUp sem

def timerTicks (op : ThreadOp) : ℕ := if op = .timer then 1 else 0

/-- The thread `me` goes on with its call, or anything else happens. -/
inductive Step {π : Type} (own : ThreadState → π → π → ThreadState → Prop) (me : ℕ) :
    World π → World π → Prop
  | own {w : World π} {pc : π} {t : ThreadState} : Executing w.threads → w.threads.curr = me →
      own w.threads w.pc pc t → Step own me w ⟨t, pc, w.counted⟩
  | other {w : World π} {op : ThreadOp} {t : ThreadState} : Allowed w.threads op →
      (w.threads.curr = me → Interrupt op) → runOp op w.threads = .ok ((), t) →
      Step own me w ⟨t, w.pc, w.counted + timerTicks op⟩

def anyTime (_ _ : ℕ) : Prop := True

/-- Not before the ticks to sleep have been counted. -/
def late (sleepTicks elapsed : ℕ) : Prop := sleepTicks ≤ elapsed

/-- In no run of the call from `s` does `mtime_sleep` return too early. -/
def SleepsEnough (when : ℕ → ℕ → Prop) (mSeconds : ℕ) (s : ThreadState) : Prop :=
  ∀ w, ReflTransGen (Step (TicksToSleep when) s.curr) ⟨s, .start (mtimeSleep mSeconds), 0⟩ w →
    w.pc = .returned → (mSeconds + 9) / 10 ≤ w.counted

def staysBusy (x : BitVec 8) : Prop := x &&& 0x80 ≠ 0

/-- In no run does `busy_wait` give up on a disk that stays busy before 30000 ms. -/
def WaitsEnough (when : ℕ → ℕ → Prop) (s : ThreadState) : Prop :=
  ∀ w, ReflTransGen (Step (BusyWait when staysBusy) s.curr) ⟨s, .loop (30 * 1000), 0⟩ w →
    w.pc = .done false → 30000 / 10 ≤ w.counted

variable {when : ℕ → ℕ → Prop} {s t : ThreadState} {n k b m : ℕ} {pc pc' : SleepPc}
  {op : ThreadOp}

/-! ## Who counts the ticks -/

theorem ignoresIntr_ticks : IgnoresIntr (·.ticks = n) := fun _ _ h => h

theorem intrSetStatus_ticks (status : Bool) :
    Triple (·.ticks = n) (intrSetStatus status) fun _ s => s.ticks = n :=
  intrSetStatus_rule ignoresIntr_ticks status

theorem threadUnlock_ticks (u : ℕ) :
    Triple (·.ticks = n) (threadUnlock u) fun _ s => s.ticks = n :=
  threadUnlock_rule ignoresIntr_ticks fun _ h => h

theorem schedule_ticks (frame : Frame) :
    Triple (·.ticks = n) (schedule frame) fun _ s => s.ticks = n := by
  refine schedule_rule (R := (·.ticks = n)) (S := (·.ticks = n)) ?_ ?_ ?_
  · exact requeue_rule (fun _ h _ => h) fun _ h => h
  · exact wakeIdle_rule fun v hv _ => (threadUnlock_ticks v.idleThread).of_state hv
  · exact runNext_rule (N := fun _ s => s.ticks = n) (fun _ _ _ h _ => h)
      (fun _ _ _ _ h => h) fun _ _ h => h

theorem threadLock_ticks (status : TaskStatus) (caller : Caller) :
    Triple (·.ticks = n) (threadLock status caller) fun _ s => s.ticks = n :=
  threadLock_rule ignoresIntr_ticks (fun _ h => h) fun _ => schedule_ticks _

theorem threadYield_ticks : Triple (·.ticks = n) threadYield fun _ s => s.ticks = n :=
  threadYield_rule ignoresIntr_ticks (fun _ h => h) fun _ => schedule_ticks _

theorem addThread_ticks (u : ℕ) (p : Pcb) :
    Triple (·.ticks = n) (addThread u p) fun _ s => s.ticks = n :=
  addThread_rule fun _ h => h

theorem processExecute_ticks (u pgdir : ℕ) :
    Triple (·.ticks = n) (processExecute u pgdir) fun _ s => s.ticks = n :=
  (intrDisable_rule ignoresIntr_ticks).bind fun _ =>
    (addThread_ticks _ _).bind fun _ => intrSetStatus_ticks _

theorem semDownLoop_ticks (sem : ℕ) (oldStatus : Bool) :
    Triple (·.ticks = n) (semDownLoop sem oldStatus) fun _ s => s.ticks = n :=
  semDownLoop_rule (fun _ hv _ => (threadLock_ticks _ _).of_state hv) fun _ h _ => h

theorem semUp_ticks (sem : ℕ) : Triple (·.ticks = n) (semUp sem) fun _ s => s.ticks = n := by
  refine semUp_rule ignoresIntr_ticks ?_ fun _ h => h
  exact wakeWaiter_rule fun _ t _ hv _ => (threadUnlock_ticks t).of_state hv

theorem resume_ticks : Triple (·.ticks = n) resume fun _ s => s.ticks = n :=
  resume_rule (fun _ h _ => h) (fun _ _ h => h) fun _ _ _ _ hv _ =>
    (semDownLoop_ticks _ _).of_state hv

theorem timer_ticks :
    Triple (·.ticks = n) intrTimerHandler fun _ s => s.ticks = (n + 1) % 2 ^ 32 := by
  have hcounted : ∀ v : ThreadState, v.ticks = n → (counted v).ticks = (n + 1) % 2 ^ 32 := by
    rintro v rfl
    rfl
  refine intrTimerHandler_rule (fun v hv _ => ?_) fun v hv _ => hcounted v hv
  exact (schedule_ticks _).of_state (hcounted v hv)

/-- The counter is advanced by the timer interrupt, and by nothing else. -/
theorem runOp_ticks (hrun : runOp op s = .ok ((), t)) :
    t.ticks % 2 ^ 32 = (s.ticks + timerTicks op) % 2 ^ 32 := by
  have hkept : ∀ {x : ThreadM Unit}, (Triple (·.ticks = s.ticks) x fun _ t => t.ticks = s.ticks) →
      x s = .ok ((), t) → t.ticks % 2 ^ 32 = (s.ticks + 0) % 2 ^ 32 := by
    intro x hx hrun
    rw [hx s () t rfl hrun, Nat.add_zero]
  cases op with
  | resume => exact hkept resume_ticks hrun
  | intrSet status => exact hkept (intrSetStatus_ticks status) hrun
  | threadStart pcb prio => exact hkept (addThread_ticks _ _) hrun
  | processExecute pcb pgdir => exact hkept (processExecute_ticks _ _) hrun
  | threadYield => exact hkept threadYield_ticks hrun
  | threadLock status => exact hkept (threadLock_ticks _ _) hrun
  | threadUnlock u => exact hkept (threadUnlock_ticks u) hrun
  | semDown sem => exact hkept ((intrDisable_rule ignoresIntr_ticks).bind fun _ =>
      semDownLoop_ticks _ _) hrun
  | semUp sem => exact hkept (semUp_ticks sem) hrun
  | timer =>
    rw [timer_ticks s () t rfl hrun, Nat.mod_mod]
    rfl
  | idleLoop => exact hkept (threadLock_ticks _ _) hrun

/-! ## A sleep whose tests come late -/

/-- In a sleep of `k` ticks that began when `b` had been counted, those counted since the reading of
`ticks` are the ones it has advanced by. -/
def Slept (k b : ℕ) (s : ThreadState) (counted : ℕ) : SleepPc → Prop
  | .start k' => k' = k ∧ b ≤ counted
  | .test first k' => k' = k ∧ ∃ c, b + c ≤ counted ∧ s.ticks % 2 ^ 32 = (first + c) % 2 ^ 32
  | .yielded first k' => k' = k ∧ ∃ c, b + c ≤ counted ∧ s.ticks % 2 ^ 32 = (first + c) % 2 ^ 32
  | .returned => b + k ≤ counted

theorem elapsed_eq {ticks first c : ℕ} (h : ticks % 2 ^ 32 = (first + c) % 2 ^ 32) :
    elapsed ticks first = c % 2 ^ 32 := by
  rw [elapsed]
  omega

theorem slept_own (h : TicksToSleep late s pc pc' t) (hs : Slept k b s n pc) :
    Slept k b t n pc' := by
  cases h with
  | read => exact ⟨hs.1, 0, hs.2, rfl⟩
  | leave hlate hend =>
    obtain ⟨rfl, c, hc, hticks⟩ := hs
    rw [late, elapsed_eq hticks] at hlate
    have hle := Nat.mod_le c (2 ^ 32)
    rw [Slept]
    omega
  | yield _ _ hrun =>
    obtain ⟨hk, c, hc, hticks⟩ := hs
    refine ⟨hk, c, hc, ?_⟩
    rwa [threadYield_ticks s () t rfl hrun]
  | back => exact hs

theorem slept_other (hrun : runOp op s = .ok ((), t)) (hs : Slept k b s n pc) :
    Slept k b t (n + timerTicks op) pc := by
  have hticks := runOp_ticks hrun
  cases pc with
  | start => exact ⟨hs.1, by have hle := hs.2; omega⟩
  | test first k' =>
    obtain ⟨hk, c, hc, hfirst⟩ := hs
    exact ⟨hk, c + timerTicks op, by omega, by omega⟩
  | yielded first k' =>
    obtain ⟨hk, c, hc, hfirst⟩ := hs
    exact ⟨hk, c + timerTicks op, by omega, by omega⟩
  | returned => exact Nat.le_add_right_of_le hs

theorem mtimeSleep_eq (hm : m + 9 < 2 ^ 32) : mtimeSleep m = (m + 9) / 10 := by
  rw [mtimeSleep, divRoundUp, frequency, u32_of_lt (by omega)]
  rfl

theorem slept_run {me : ℕ} {w w' : World SleepPc}
    (h : ReflTransGen (Step (TicksToSleep late) me) w w')
    (hs : Slept k b w.threads w.counted w.pc) : Slept k b w'.threads w'.counted w'.pc := by
  induction h with
  | refl => exact hs
  | tail _ hstep ih =>
    cases hstep with
    | own _ _ hown => exact slept_own hown ih
    | other _ _ hrun => exact slept_other hrun ih

theorem sleepsEnough_late (hm : m + 9 < 2 ^ 32) : SleepsEnough late m s := by
  intro w hw hret
  have hinv : Slept (mtimeSleep m) 0 w.threads w.counted w.pc :=
    slept_run hw ⟨rfl, Nat.le_refl 0⟩
  rw [hret, Slept, Nat.zero_add, mtimeSleep_eq hm] at hinv
  exact hinv

/-! ## Waiting with such sleeps -/

/-- Each turn of the loop of `busy_wait` has counted at least one tick. -/
def Waited (s : ThreadState) (counted : ℕ) : BusyPc → Prop
  | .loop left => 0 < left ∧ left ≤ 30000 ∧ 30000 ≤ left + counted
  | .body left => 0 < left ∧ left ≤ 30000 ∧ 30000 ≤ left + 1 + counted
  | .sleeping left pc => 0 < left ∧ left ≤ 30000 ∧
      ∃ b, 30000 ≤ left + 1 + b ∧ Slept 1 b s counted pc
  | .done result => result = false → 29999 ≤ counted

theorem countdown_eq {left : ℕ} (h : 0 < left) (hle : left ≤ 30000) :
    countdown left = left - 1 := by
  have hone : (10 ≥ 0 : Bool).toNat = 1 := rfl
  rw [countdown, hone]
  omega

theorem waited_own {pc pc' : BusyPc} (h : BusyWait late staysBusy s pc pc' t)
    (hs : Waited s n pc) : Waited t n pc' := by
  cases h with
  | next hne =>
    obtain ⟨hpos, hle, hsum⟩ := hs
    rw [countdown_eq hpos hle] at hne ⊢
    exact ⟨by omega, by omega, by omega⟩
  | giveUp hz =>
    obtain ⟨hpos, hle, hsum⟩ := hs
    rw [countdown_eq hpos hle] at hz
    intro _
    omega
  | ready hbusy hready => exact absurd hready hbusy
  | busy => exact ⟨hs.1, hs.2.1, n, hs.2.2, rfl, Nat.le_refl n⟩
  | sleep hown =>
    obtain ⟨hpos, hle, b, hb, hslept⟩ := hs
    exact ⟨hpos, hle, b, hb, slept_own hown hslept⟩
  | awake =>
    obtain ⟨hpos, hle, b, hb, hslept⟩ := hs
    rw [Slept] at hslept
    exact ⟨hpos, hle, by omega⟩

theorem waited_other {pc : BusyPc} (hrun : runOp op s = .ok ((), t)) (hs : Waited s n pc) :
    Waited t (n + timerTicks op) pc := by
  cases pc with
  | loop left => exact ⟨hs.1, hs.2.1, by have hsum := hs.2.2; omega⟩
  | body left => exact ⟨hs.1, hs.2.1, by have hsum := hs.2.2; omega⟩
  | sleeping left pc =>
    obtain ⟨hpos, hle, b, hb, hslept⟩ := hs
    exact ⟨hpos, hle, b, hb, slept_other hrun hslept⟩
  | done result => exact fun hfalse => Nat.le_add_right_of_le (hs hfalse)

theorem waited_run {me : ℕ} {w w' : World BusyPc}
    (h : ReflTransGen (Step (BusyWait late staysBusy) me) w w')
    (hs : Waited w.threads w.counted w.pc) : Waited w'.threads w'.counted w'.pc := by
  induction h with
  | refl => exact hs
  | tail _ hstep ih =>
    cases hstep with
    | own _ _ hown => exact waited_own hown ih
    | other _ _ hrun => exact waited_other hrun ih

theorem waitsEnough_late : WaitsEnough late s := by
  intro w hw hdone
  have hinv : Waited w.threads w.counted w.pc :=
    waited_run hw ⟨by decide, Nat.le_refl _, Nat.le_refl _⟩
  rw [hdone, Waited] at hinv
  have hcount := hinv rfl
  omega

/-! ## The sleeps of the code -/

theorem sleep_at_once (hs : Executing s) (k n : ℕ) :
    ReflTransGen (Step (TicksToSleep anyTime) s.curr) ⟨s, .start k, n⟩ ⟨s, .returned, n⟩ := by
  have hzero : elapsed s.ticks s.ticks = 0 := by
    rw [elapsed]
    omega
  have hleave : TicksToSleep anyTime s (.test s.ticks k) .returned s := by
    apply TicksToSleep.leave trivial
    rw [hzero]
    exact Nat.not_lt_zero k
  have hread : Step (TicksToSleep anyTime) s.curr ⟨s, .start k, n⟩ ⟨s, .test s.ticks k, n⟩ :=
    Step.own hs rfl .read
  exact (ReflTransGen.single hread).tail (Step.own hs rfl hleave)

theorem sleepsEnough_iff (hs : Executing s) (hm : m + 9 < 2 ^ 32) :
    SleepsEnough anyTime m s ↔ m = 0 := by
  constructor
  · intro h
    have hnone := h _ (sleep_at_once hs _ 0) rfl
    dsimp only at hnone
    omega
  · rintro rfl w _ _
    exact Nat.zero_le _

theorem sleep_inside {w w' : World SleepPc} (left : ℕ)
    (h : ReflTransGen (Step (TicksToSleep when) k) w w') :
    ReflTransGen (Step (BusyWait when staysBusy) k)
      ⟨w.threads, .sleeping left w.pc, w.counted⟩
      ⟨w'.threads, .sleeping left w'.pc, w'.counted⟩ := by
  induction h with
  | refl => exact .refl
  | tail _ hstep ih =>
    apply ih.tail
    cases hstep with
    | own hexec hcurr hown => exact Step.own hexec hcurr (.sleep hown)
    | other hallow hint hrun => exact Step.other hallow hint hrun

/-- All turns of the loop may pass without a tick. -/
theorem busyWait_at_once (hs : Executing s) (n : ℕ) {left : ℕ} (hpos : 0 < left)
    (hle : left ≤ 30000) :
    ReflTransGen (Step (BusyWait anyTime staysBusy) s.curr) ⟨s, .loop left, n⟩
      ⟨s, .done false, n⟩ := by
  induction left with
  | zero => cases hpos
  | succ left ih =>
    by_cases hlast : left = 0
    case pos =>
      have hend : BusyWait anyTime staysBusy s (.loop (left + 1)) (.done false) s := by
        rw [hlast]
        exact .giveUp rfl
      exact ReflTransGen.single (Step.own hs rfl hend)
    have hcount : countdown (left + 1) = left := countdown_eq (Nat.succ_pos left) hle
    have hnext : BusyWait anyTime staysBusy s (.loop (left + 1)) (.body (countdown (left + 1))) s :=
      .next (by rwa [hcount])
    rw [hcount] at hnext
    have hbusy : BusyWait anyTime staysBusy s (.body left)
        (.sleeping left (.start (mtimeSleep 10))) s :=
      .busy (x := 0x80) (by rw [staysBusy]; decide) (by decide)
    have hbegin : Step (BusyWait anyTime staysBusy) s.curr ⟨s, .loop (left + 1), n⟩
        ⟨s, .body left, n⟩ := Step.own hs rfl hnext
    have hturn := ((ReflTransGen.single hbegin).tail (Step.own hs rfl hbusy)).trans
      (sleep_inside left (sleep_at_once hs (mtimeSleep 10) n))
    exact (hturn.tail (Step.own hs rfl .awake)).trans (ih (by omega) (by omega))

theorem not_waitsEnough (hs : Executing s) : ¬ WaitsEnough anyTime s := by
  intro h
  have hnone := h _ (busyWait_at_once hs 0 (by decide) (by decide)) rfl
  dsimp only at hnone
  omega

/-- From every call the runs of `mtime_sleep` are long enough exactly for 0 milliseconds, and those
of `busy_wait` are not; with tests that come late both are. -/
theorem sleeps_enough_iff (hs : Executing s) (hm : m + 9 < 2 ^ 32) :
    (SleepsEnough anyTime m s ↔ m = 0) ∧ ¬ WaitsEnough anyTime s ∧
    SleepsEnough late m s ∧ WaitsEnough late s :=
  ⟨sleepsEnough_iff hs hm, not_waitsEnough hs, sleepsEnough_late hm, waitsEnough_late⟩

/-- The main thread sleeps right after the boot. -/
theorem sleeps_enough_boot : SleepsEnough anyTime 0 bootState ∧
    ¬ SleepsEnough anyTime 10 bootState ∧ SleepsEnough late 10 bootState ∧
    WaitsEnough late bootState := by
  have hs : Executing bootState := booted_bootState.executing
  obtain ⟨hzero, -, -, -⟩ := sleeps_enough_iff (m := 0) hs (by decide)
  obtain ⟨hten, -, hlate, hwait⟩ := sleeps_enough_iff (m := 10) hs (by decide)
  exact ⟨hzero.mpr rfl, fun h => absurd (hten.mp h) (by decide), hlate, hwait⟩

theorem sleep_returns_early : ∃ s, ThreadStart s ∧ Executing s ∧ ¬ SleepsEnough anyTime 10 s ∧
    ¬ WaitsEnough anyTime s := by
  have hinit : yields (systemThreadInit 2) bootState (fun _ s => (s.kernelStacks s.curr).isNone) =
    true := by decide +kernel
  obtain ⟨⟨⟩, s, hrun, hnone⟩ := yields_iff.mp hinit
  have hs : Executing s := Option.isNone_iff_eq_none.mp hnone
  refine ⟨s, ⟨bootState, 2, booted_bootState, by decide, hrun⟩, hs, ?_, not_waitsEnough hs⟩
  intro h
  exact absurd ((sleepsEnough_iff hs (by decide)).mp h) (by decide)

end DeviceTimer
