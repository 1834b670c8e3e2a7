import Leeos.KernelAddressSpaces
import Leeos.KernelThreadRules

/-!
# Time slices (`device/timer.c`, `schedule` in `thread/thread.c`)

A `Pace` is what the slices depend on. Only the timer interrupt counts a slice down, and only
`schedule` fills one up, when it takes the CPU from a thread that would run on; a thread that
blocks, yields or is woken keeps what is left of its slice.
-/
namespace KernelTimeSlices

open ExecRules KernelThreads KernelThreadRules KernelThreadInvariant KernelThreadRuns LibStdint
open KernelAddressSpaces (CallsSchedule)

structure Pace where
  ticks : ℕ → ℕ
  priority : ℕ → ℕ
  all : List ℕ
  curr : ℕ

def pace (s : ThreadState) : Pace :=
  ⟨fun t => (s.pcbs t).ticks, fun t => (s.pcbs t).priority, s.allThreadList, s.curr⟩

/-- A new thread begins with a full slice. -/
def Pace.join (p : Pace) (t prio : ℕ) : Pace :=
  { p with
    ticks := Function.update p.ticks t prio
    priority := Function.update p.priority t prio
    all := p.all ++ [t] }

def Pace.tick (p : Pace) : Pace :=
  { p with ticks := Function.update p.ticks p.curr (p.ticks p.curr - 1) }

def Pace.refill (p : Pace) : Pace :=
  { p with ticks := Function.update p.ticks p.curr (p.priority p.curr) }

def Pace.switch (p : Pace) (next : ℕ) : Pace := { p with curr := next }

def Pace.Bounded (p : Pace) : Prop := ∀ t ∈ p.all, p.ticks t ≤ p.priority t

/-- The pace is `p`, and under the condition `h` another thread heads the ready list. -/
structure At (p : Pace) (h : Prop) (s : ThreadState) : Prop where
  pace_eq : pace s = p
  rival : h → ∃ next rest, s.readyThreadList = next :: rest ∧ next ≠ p.curr

def Switched (p : Pace) (h : Prop) (s : ThreadState) : Prop :=
  ∃ next, (pace s = p.switch next ∨ pace s = p.refill.switch next) ∧ (h → next ≠ p.curr)

/-- Calls of one thread, none of which runs into `schedule`. -/
inductive Slice : ThreadState → List ThreadOp → ThreadState → Prop where
  | nil (s) : Slice s [] s
  | cons {s s' u op ops} : Allowed s op → ¬ CallsSchedule s op → runOp op s = .ok ((), s') →
      Slice s' ops u → Slice s (op :: ops) u

/-- Calls before each of which the thread has the CPU while others are ready. -/
inductive Holds (t : ℕ) : ThreadState → List ThreadOp → Prop where
  | nil (s) : Holds t s []
  | cons {s s' op ops} : s.curr = t → s.readyThreadList ≠ [] → Allowed s op →
      runOp op s = .ok ((), s') → Holds t s' ops → Holds t s (op :: ops)

/-- Slices are no longer than priorities, the running thread sees at most its priority and one
more timer interrupts up to the next call of `schedule` (which is `op`, the last one), and the
same number as long as it has the CPU while others are ready. -/
structure SlicesBounded (s : ThreadState) : Prop where
  ticks_le : ∀ t ∈ s.allThreadList, (s.pcbs t).ticks ≤ (s.pcbs t).priority
  until_schedule : ∀ ops u op, Slice s ops u →
    (ops ++ [op]).count ThreadOp.timer ≤ (s.pcbs s.curr).priority + 1
  holding : ∀ ops, Holds s.curr s ops → ops.count .timer ≤ (s.pcbs s.curr).priority + 1

variable {p : Pace} {h : Prop} {s s' : ThreadState} {op : ThreadOp}

/-! ## The moves of a pace -/

theorem Pace.Bounded.join (hb : p.Bounded) (t prio : ℕ) : (p.join t prio).Bounded := by
  intro u hu
  by_cases he : u = t
  · simp [Pace.join, he]
  · have hu' : u ∈ p.all := by simpa [Pace.join, he] using hu
    simpa [Pace.join, he] using hb u hu'

theorem Pace.Bounded.tick (hb : p.Bounded) : p.tick.Bounded := by
  intro u hu
  by_cases he : u = p.curr
  · subst he
    have hle := hb p.curr hu
    simp only [Pace.tick, Function.update_self]
    omega
  · simpa [Pace.tick, he] using hb u hu

theorem Pace.Bounded.refill (hb : p.Bounded) : p.refill.Bounded := by
  intro u hu
  by_cases he : u = p.curr
  · simp [Pace.refill, he]
  · simpa [Pace.refill, he] using hb u hu

theorem Pace.Bounded.switch (hb : p.Bounded) (next : ℕ) : (p.switch next).Bounded := hb

theorem Switched.bounded (hs : Switched p h s) (hb : p.Bounded) : (pace s).Bounded := by
  obtain ⟨next, he | he, -⟩ := hs
  · rw [he]
    exact hb.switch next
  · rw [he]
    exact hb.refill.switch next

/-! ## What the calls do to the pace -/

theorem pace_setPcb (s : ThreadState) (t : ℕ) (q : Pcb) : pace (s.setPcb t q) =
    { pace s with
      ticks := Function.update (pace s).ticks t q.ticks
      priority := Function.update (pace s).priority t q.priority } := by
  simp only [pace, ThreadState.setPcb]
  congr 1
  · funext u
    by_cases hu : u = t
    · simp [hu]
    · simp [hu]
  · funext u
    by_cases hu : u = t
    · simp [hu]
    · simp [hu]

theorem pace_setStatus (s : ThreadState) (t : ℕ) (status : TaskStatus) :
    pace (s.setStatus t status) = pace s := by
  rw [ThreadState.setStatus, pace_setPcb]
  simp [pace]

theorem ignoresIntr_pace : IgnoresIntr (pace · = p) := fun _ _ hv => hv

theorem threadUnlock_pace (t : ℕ) :
    Triple (pace · = p) (threadUnlock t) fun _ s' => pace s' = p :=
  threadUnlock_rule ignoresIntr_pace fun v hv => (pace_setStatus v t .ready).trans hv

theorem semUp_pace (sem : ℕ) : Triple (pace · = p) (semUp sem) fun _ s' => pace s' = p := by
  refine semUp_rule ignoresIntr_pace ?_ fun _ hv => hv
  exact wakeWaiter_rule fun _ t _ hv _ => (threadUnlock_pace t).of_state hv

theorem addThread_pace (t : ℕ) {q : Pcb} {prio : ℕ} (hticks : q.ticks = prio)
    (hprio : q.priority = prio) :
    Triple (pace · = p) (addThread t q) fun _ s' => pace s' = p.join t prio := by
  refine addThread_rule fun v hv => ?_
  have hset := pace_setPcb v t q
  rw [hticks, hprio] at hset
  subst hv
  calc pace _ = { pace (v.setPcb t q) with all := v.allThreadList ++ [t] } := rfl
    _ = (pace v).join t prio := by rw [hset]; rfl

/-! ## `schedule` -/

theorem ignoresIntr_at : IgnoresIntr (At p h) := fun _ _ hv => ⟨hv.pace_eq, hv.rival⟩

theorem At.append (hs : At p h s) {q : Pace} (hq : pace s' = q) (hcurr : q.curr = p.curr) {t : ℕ}
    (hready : s'.readyThreadList = s.readyThreadList ++ [t]) : At q h s' := by
  refine ⟨hq, fun hc => ?_⟩
  obtain ⟨next, rest, he, hne⟩ := hs.rival hc
  exact ⟨next, rest ++ [t], by simp [hready, he], hcurr ▸ hne⟩

theorem requeue_pace : Triple (At p h) requeue fun _ s' => At p h s' ∨ At p.refill h s' := by
  refine requeue_rule (fun v hv _ => Or.inr ?_) fun _ => Or.inl
  have hrefill : pace (v.setPcb v.curr { v.pcbs v.curr with
      ticks := (v.pcbs v.curr).priority, status := .ready }) = p.refill := by
    obtain rfl := hv.pace_eq
    rw [pace_setPcb]
    simp [Pace.refill, pace]
  exact hv.append hrefill rfl rfl

theorem wakeIdle_pace : Triple (At p h) wakeIdle fun _ s' => At p h s' := by
  refine wakeIdle_rule fun v hv hempty => ?_
  have hno : ¬ h := by
    intro hc
    obtain ⟨next, rest, hready, -⟩ := hv.rival hc
    rw [hempty] at hready
    cases hready
  refine ((threadUnlock_pace (p := p) _).of_state hv.pace_eq).weaken (fun _ hw => hw) ?_
  exact fun _ w hw => ⟨hw, fun hc => absurd hc hno⟩

theorem runNext_pace (frame : Frame) : Triple (At p h) (runNext frame)
    fun _ s' => ∃ next, pace s' = p.switch next ∧ (h → next ≠ p.curr) := by
  refine runNext_rule (N := fun next w => pace w = p ∧ (h → next ≠ p.curr)) ?_ ?_ ?_
  · intro v next rest hv hready
    refine ⟨(pace_setStatus v next .running).trans hv.pace_eq, fun hc => ?_⟩
    obtain ⟨next', rest', hready', hne⟩ := hv.rival hc
    rw [hready] at hready'
    cases hready'
    exact hne
  · exact fun _ _ _ _ hw => hw
  · rintro next w ⟨rfl, hne⟩
    exact ⟨next, rfl, hne⟩

theorem schedule_pace (frame : Frame) :
    Triple (At p h) (schedule frame) fun _ s' => Switched p h s' := by
  have hwake : Triple (fun v => At p h v ∨ At p.refill h v) wakeIdle
      fun _ s' => At p h s' ∨ At p.refill h s' := by
    rintro v a w (hv | hv) hrun
    · exact Or.inl (wakeIdle_pace v a w hv hrun)
    · exact Or.inr (wakeIdle_pace v a w hv hrun)
  refine schedule_rule requeue_pace hwake ?_
  rintro v a w (hv | hv) hrun
  · obtain ⟨next, he, hne⟩ := runNext_pace frame v a w hv hrun
    exact ⟨next, Or.inl he, hne⟩
  · obtain ⟨next, he, hne⟩ := runNext_pace frame v a w hv hrun
    exact ⟨next, Or.inr he, hne⟩

theorem threadLock_pace (status : TaskStatus) (caller : Caller) :
    Triple (At p h) (threadLock status caller) fun _ s' => Switched p h s' :=
  threadLock_rule ignoresIntr_at
    (fun v hv => ⟨(pace_setStatus v v.curr status).trans hv.pace_eq, hv.rival⟩)
    fun _ => schedule_pace _

theorem threadYield_pace : Triple (At p h) threadYield fun _ s' => Switched p h s' :=
  threadYield_rule ignoresIntr_at
    (fun v hv => hv.append ((pace_setStatus v v.curr .ready).trans hv.pace_eq) rfl rfl)
    fun _ => schedule_pace _

theorem semDownLoop_switch {sem : ℕ} {oldStatus : Bool} :
    Triple (fun v => At p h v ∧ (v.sems sem).value = 0) (semDownLoop sem oldStatus)
      fun _ s' => Switched p h s' := by
  refine semDownLoop_rule (fun v hv _ => ?_) fun v hv hne => absurd hv.2 hne
  exact (threadLock_pace _ _).of_state ⟨hv.1.pace_eq, hv.1.rival⟩

theorem semDownLoop_pace {sem : ℕ} {oldStatus : Bool} :
    Triple (fun v => pace v = p ∧ (v.sems sem).value ≠ 0) (semDownLoop sem oldStatus)
      fun _ s' => pace s' = p :=
  semDownLoop_rule (fun _ hv hzero => absurd hzero hv.2) fun _ hv _ => hv.1

/-- The counters of the timer interrupt are no part of the pace. -/
theorem pace_counted (s : ThreadState) : pace (counted s) = pace s := by
  refine (pace_setPcb s s.curr _ : _ = _).trans ?_
  simp [pace]

theorem timer_switch (ht : (s.pcbs s.curr).ticks = 0) (hs : At p h s) :
    Triple (· = s) intrTimerHandler fun _ s' => Switched p h s' := by
  refine intrTimerHandler_rule (fun v hv _ => ?_) fun v hv hne => absurd ht (hv ▸ hne)
  subst hv
  exact (schedule_pace .iret).of_state ⟨(pace_counted v).trans hs.pace_eq, hs.rival⟩

theorem pace_tick (s : ThreadState) : pace (s.setPcb s.curr
    { s.pcbs s.curr with ticks := (s.pcbs s.curr).ticks - 1 }) = (pace s).tick := by
  rw [pace_setPcb]
  simp [Pace.tick, pace]

theorem timer_pace (ht : (s.pcbs s.curr).ticks ≠ 0) :
    Triple (· = s) intrTimerHandler fun _ s' => pace s' = (pace s).tick := by
  refine intrTimerHandler_rule (fun v hv hzero => absurd (hv ▸ hzero) ht) fun v hv _ => ?_
  subst hv
  rw [← counted_slice]
  exact (pace_tick (counted v)).trans (congrArg Pace.tick (pace_counted v))

/-! ## What a step does -/

theorem runOp_switch (hready : s.curr ∉ s.readyThreadList) (hc : CallsSchedule s op)
    (hrun : runOp op s = .ok ((), s')) : Switched (pace s) (s.readyThreadList ≠ []) s' := by
  have hs : At (pace s) (s.readyThreadList ≠ []) s := by
    refine ⟨rfl, fun hne => ?_⟩
    obtain ⟨next, rest, he⟩ := List.exists_cons_of_ne_nil hne
    exact ⟨next, rest, he, fun hcurr => hready (he ▸ hcurr ▸ List.mem_cons_self)⟩
  cases op with
  | threadYield => exact threadYield_pace s () s' hs hrun
  | threadLock status => exact threadLock_pace _ _ s () s' hs hrun
  | idleLoop => exact threadLock_pace _ _ s () s' hs hrun
  | semDown sem =>
    rw [runOp, semDown_eq] at hrun
    exact semDownLoop_switch { s with intr := false } () s' ⟨⟨hs.pace_eq, hs.rival⟩, hc⟩ hrun
  | timer => exact timer_switch hc hs s () s' rfl hrun
  | resume =>
    obtain ⟨oldStatus, sem, oldStatus', hf, hv⟩ := hc
    rw [runOp, resume_semDown hf] at hrun
    exact semDownLoop_switch { s.setStack s.curr none with intr := oldStatus } () s'
      ⟨⟨hs.pace_eq, hs.rival⟩, hv⟩ hrun
  | _ => exact absurd hc id

theorem resume_pace (hc : ¬ CallsSchedule s .resume) :
    Triple (· = s) resume fun _ s' => pace s' = pace s := by
  refine resume_rule (fun v hv _ => hv ▸ rfl) (fun v status hv => hv ▸ rfl)
    fun v oldStatus sem oldStatus' hv hf => ?_
  subst hv
  exact semDownLoop_pace.of_state ⟨rfl, fun hv => hc ⟨oldStatus, sem, oldStatus', hf, hv⟩⟩

theorem processExecute_pace (pcb pgdir : ℕ) :
    Triple (pace · = p) (processExecute pcb pgdir) fun _ s' => pace s' = p.join pcb 31 :=
  (intrDisable_rule ignoresIntr_pace).bind fun _ =>
    (addThread_pace pcb rfl rfl).bind fun _ => intrSetStatus_rule ignoresIntr_pace _

theorem runOp_continue (ha : Allowed s op) (hc : ¬ CallsSchedule s op)
    (hrun : runOp op s = .ok ((), s')) :
    op = .timer ∧ (s.pcbs s.curr).ticks ≠ 0 ∧ pace s' = (pace s).tick ∨
      op ≠ .timer ∧ (pace s' = pace s ∨
        ∃ t prio, t ∉ s.allThreadList ∧ pace s' = (pace s).join t prio) := by
  cases op with
  | timer => exact Or.inl ⟨rfl, hc, timer_pace hc s () s' rfl hrun⟩
  | resume => exact Or.inr ⟨by simp, Or.inl (resume_pace hc s () s' rfl hrun)⟩
  | intrSet status =>
    exact Or.inr ⟨by simp, Or.inl (intrSetStatus_rule ignoresIntr_pace status s () s' rfl hrun)⟩
  | threadStart pcb prio =>
    exact Or.inr ⟨by simp, Or.inr ⟨pcb, u8 prio, ha.2.2,
      @addThread_pace (pace s) pcb _ (u8 prio) rfl rfl s () s' rfl hrun⟩⟩
  | processExecute pcb pgdir =>
    exact Or.inr ⟨by simp, Or.inr ⟨pcb, 31, ha.2.2,
      processExecute_pace pcb pgdir s () s' rfl hrun⟩⟩
  | threadUnlock t => exact Or.inr ⟨by simp, Or.inl (threadUnlock_pace t s () s' rfl hrun)⟩
  | semDown sem =>
    rw [runOp, semDown_eq] at hrun
    exact Or.inr ⟨by simp, Or.inl
      (semDownLoop_pace { s with intr := false } () s' ⟨rfl, hc⟩ hrun)⟩
  | semUp sem => exact Or.inr ⟨by simp, Or.inl (semUp_pace sem s () s' rfl hrun)⟩
  | _ => exact absurd trivial hc

/-! ## Slices -/

section

variable {init : ℕ → ℕ} {ops : List ThreadOp} {u : ThreadState}

theorem curr_not_ready (hi : SchedInv init s) : s.curr ∉ s.readyThreadList :=
  hi.settled.not_ready (by simp [hi.curr_running])

theorem continue_spec (hi : SchedInv init s) (ha : Allowed s op) (hc : ¬ CallsSchedule s op)
    (hrun : runOp op s = .ok ((), s')) :
    s'.curr = s.curr ∧ (s'.pcbs s.curr).priority = (s.pcbs s.curr).priority ∧
      [op].count .timer + (s'.pcbs s.curr).ticks = (s.pcbs s.curr).ticks := by
  have hat : ∀ q : Pace, pace s' = q → s'.curr = q.curr ∧
      (s'.pcbs s.curr).priority = q.priority s.curr ∧ (s'.pcbs s.curr).ticks = q.ticks s.curr := by
    rintro q rfl
    exact ⟨rfl, rfl, rfl⟩
  rcases runOp_continue ha hc hrun with ⟨rfl, hne, he⟩ | ⟨hne, he | ⟨t, prio, ht, he⟩⟩
  · obtain ⟨hcurr, hprio, hticks⟩ := hat _ he
    have htick : (pace s).tick.ticks s.curr = (s.pcbs s.curr).ticks - 1 := by
      simp [Pace.tick, pace]
    refine ⟨hcurr, hprio, ?_⟩
    rw [hticks, htick, List.count_singleton_self]
    omega
  · obtain ⟨hcurr, hprio, hticks⟩ := hat _ he
    refine ⟨hcurr, hprio, ?_⟩
    rw [hticks, List.count_eq_zero.mpr fun hm => hne (List.mem_singleton.mp hm).symm, Nat.zero_add]
    rfl
  · obtain ⟨hcurr, hprio, hticks⟩ := hat _ he
    have hold : s.curr ≠ t := fun hct => ht (hct ▸ hi.settled.cpu_live)
    refine ⟨hcurr, ?_, ?_⟩
    · rw [hprio]
      simp [Pace.join, pace, hold]
    · rw [hticks, List.count_eq_zero.mpr fun hm => hne (List.mem_singleton.mp hm).symm]
      simp [Pace.join, pace, hold]

theorem slice_spec (h : Slice s ops u) (hi : SchedInv init s) :
    u.curr = s.curr ∧ (u.pcbs s.curr).priority = (s.pcbs s.curr).priority ∧
      ops.count .timer + (u.pcbs s.curr).ticks = (s.pcbs s.curr).ticks := by
  induction h with
  | nil => exact ⟨rfl, rfl, Nat.zero_add _⟩
  | @cons s s' u op ops ha hc hrun _ ih =>
    obtain ⟨hcurr, hprio, hticks⟩ := continue_spec hi ha hc hrun
    obtain ⟨hcurr', hprio', hticks'⟩ := ih (schedInv_step hi ⟨op, ha, hrun⟩)
    rw [hcurr] at hcurr' hprio' hticks'
    refine ⟨hcurr', hprio'.trans hprio, ?_⟩
    rw [← List.singleton_append, List.count_append]
    omega

/-- While others are ready, a call of `schedule` takes the CPU away. -/
theorem holds_slice {t : ℕ} (h : Holds t s ops) (hi : SchedInv init s) (hs : s.curr = t) :
    ∃ ops' u, Slice s ops' u ∧ (ops = ops' ∨ ∃ op, ops = ops' ++ [op]) := by
  induction h with
  | nil s => exact ⟨[], s, .nil s, Or.inl rfl⟩
  | @cons s s' op ops _ hready ha hrun hrest ih =>
    by_cases hc : CallsSchedule s op
    · have hnil : ops = [] := by
        cases hrest with
        | nil => rfl
        | cons hback =>
          obtain ⟨next, he, hne⟩ := runOp_switch (curr_not_ready hi) hc hrun
          have hcurr : s'.curr = next := by
            rcases he with he | he <;> exact congrArg Pace.curr he
          exact absurd (hcurr.symm.trans (hback.trans hs.symm)) (hne hready)
      exact ⟨[], s, .nil s, Or.inr ⟨op, by rw [hnil]; rfl⟩⟩
    · have hcurr := (continue_spec hi ha hc hrun).1
      obtain ⟨ops', u, hslice, he⟩ := ih (schedInv_step hi ⟨op, ha, hrun⟩) (hcurr.trans hs)
      refine ⟨op :: ops', u, .cons ha hc hrun hslice, ?_⟩
      rcases he with rfl | ⟨last, rfl⟩
      · exact Or.inl rfl
      · exact Or.inr ⟨last, rfl⟩

/-! ## Runs -/

theorem bounded_start (h : ThreadStart s) : (pace s).Bounded := by
  obtain ⟨s₀, idle, -, -, hrun⟩ := h
  have hinit : Triple (fun _ => True) (systemThreadInit idle) fun _ s => (pace s).Bounded := by
    refine Triple.bind (Q := fun _ v => v.allThreadList = []) (triple_modify fun _ _ => rfl)
      fun _ => ?_
    refine Triple.bind (Q := fun _ v => (pace v).Bounded) (triple_modify fun v hv => ?_)
      fun _ => ?_
    · intro t ht
      have he : t = v.curr := by simpa [pace, hv] using ht
      simp [pace, ThreadState.setPcb, he]
    · refine Triple.bind (Q := fun _ v => (pace v).Bounded) (fun v a w hv hrun => ?_)
        fun _ => triple_modify fun _ hv => hv
      have hpace : pace w = (pace v).join idle (u8 10) :=
        @addThread_pace (pace v) idle _ (u8 10) rfl rfl v a w rfl hrun
      change (pace w).Bounded
      exact hpace ▸ hv.join idle _
  exact hinit s₀ () s trivial hrun

theorem bounded_step (hi : SchedInv init s) (hb : (pace s).Bounded) (hstep : ThreadStep s s') :
    (pace s').Bounded := by
  obtain ⟨op, ha, hrun⟩ := hstep
  by_cases hc : CallsSchedule s op
  · exact (runOp_switch (curr_not_ready hi) hc hrun).bounded hb
  · rcases runOp_continue ha hc hrun with ⟨-, -, he⟩ | ⟨-, he | ⟨t, prio, -, he⟩⟩
    · exact he ▸ hb.tick
    · exact he ▸ hb
    · exact he ▸ hb.join t prio

theorem bounded_run {s₀ : ThreadState} (h₀ : ThreadStart s₀)
    (h : Relation.ReflTransGen ThreadStep s₀ s) : (pace s).Bounded := by
  induction h with
  | refl => exact bounded_start h₀
  | tail hrun hstep ih => exact bounded_step (schedInv_run h₀ hrun) ih hstep

end

/-- In every run, whatever threads there are and however they block, yield and wake each other. -/
theorem slices_bounded (h : Reachable ThreadStart ThreadStep s) : SlicesBounded s := by
  obtain ⟨s₀, h₀, hrun⟩ := h
  have hi := schedInv_run h₀ hrun
  have hb := bounded_run h₀ hrun
  have hslice : ∀ ops u op, Slice s ops u →
      (ops ++ [op]).count ThreadOp.timer ≤ (s.pcbs s.curr).priority + 1 := by
    intro ops u op hs
    have hle : (s.pcbs s.curr).ticks ≤ (s.pcbs s.curr).priority := hb s.curr hi.settled.cpu_live
    have hsum := (slice_spec hs hi).2.2
    have hlast : [op].count ThreadOp.timer ≤ 1 := List.count_le_length
    rw [List.count_append]
    omega
  refine ⟨hb, hslice, fun ops hh => ?_⟩
  obtain ⟨ops', u, hs, rfl | ⟨op, rfl⟩⟩ := holds_slice hh hi rfl
  · have hle := hslice ops u .resume hs
    rw [List.count_append] at hle
    exact Nat.le_trans (Nat.le_add_right _ _) hle
  · exact hslice ops' u op hs

/-- After the run in which thread 4 raises a semaphore. -/
theorem slices_bounded_steal : ∃ s, s.curr = 4 ∧ SlicesBounded s := by
  obtain ⟨s₀, s, h₀, h, -, -, hc⟩ := stealState_spec
  exact ⟨s, hc, slices_bounded ⟨s₀, h₀, h⟩⟩

/-- The main thread has priority 31: the interrupt after the 31st takes the CPU away. -/
example : ∀ k ∈ [31, 32], yields (do
      systemThreadInit 2
      (List.replicate k intrTimerHandler).forM id) bootState
    (fun _ s => s.curr == if k = 31 then 1 else 2) = true := by
  decide +kernel

end KernelTimeSlices
