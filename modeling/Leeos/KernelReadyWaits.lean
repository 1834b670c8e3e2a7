import Leeos.KernelTimeSlices
import Mathlib.Algebra.Order.BigOperators.Group.Finset

/-!
# How long a ready thread waits (`schedule`, `thread_unlock` in `thread/thread.c`)

`thread_unlock` puts a thread in front of the ready list, so that threads that wake each other
overtake one that is ready. They do so on what is left of their slices: a slice is only filled up
when its thread goes to the end of the list, and from there it does not overtake any more.
-/
namespace KernelReadyWaits

open ExecRules KernelThreads KernelThreadRules KernelThreadInvariant KernelThreadRuns
open KernelTimeSlices (curr_not_ready)

/-! ## What others may take -/

/-- For each thread that is not in the list, the rest of its slice and the interrupt behind it. -/
def debt (ticks : ℕ → ℕ) (all behind : List ℕ) : ℕ :=
  ∑ u ∈ all.toFinset \ behind.toFinset, (ticks u + 1)

section

variable {ticks ticks' : ℕ → ℕ} {all all' behind behind' : List ℕ} {x : ℕ}

theorem mem_ahead {u : ℕ} : u ∈ all.toFinset \ behind.toFinset ↔ u ∈ all ∧ u ∉ behind := by
  simp

theorem debt_le (h : ∀ u ∈ all', u ∉ behind' → u ∈ all ∧ u ∉ behind ∧ ticks' u = ticks u) :
    debt ticks' all' behind' ≤ debt ticks all behind := by
  have heq : debt ticks' all' behind' = ∑ u ∈ all'.toFinset \ behind'.toFinset, (ticks u + 1) := by
    refine Finset.sum_congr rfl fun u hu => ?_
    obtain ⟨ha, hb⟩ := mem_ahead.mp hu
    rw [(h u ha hb).2.2]
  rw [heq]
  refine Finset.sum_le_sum_of_subset fun u hu => ?_
  obtain ⟨ha, hb⟩ := mem_ahead.mp hu
  exact mem_ahead.mpr ⟨(h u ha hb).1, (h u ha hb).2.1⟩

theorem debt_lt (hx : x ∈ all) (hx' : x ∉ behind)
    (h : ∀ u ∈ all', u ∉ behind' → u ≠ x → u ∈ all ∧ u ∉ behind ∧ ticks' u = ticks u)
    (hless : x ∉ behind' → ticks' x < ticks x) :
    debt ticks' all' behind' < debt ticks all behind := by
  have hrest : debt ticks' all' (x :: behind') ≤ debt ticks all (x :: behind) := by
    refine debt_le fun u ha hb => ?_
    rw [List.mem_cons, not_or] at hb
    obtain ⟨hu, hub, ht⟩ := h u ha hb.2 hb.1
    exact ⟨hu, by simp [hb.1, hub], ht⟩
  have hsplit : ∀ (f : ℕ → ℕ) (l b : List ℕ), x ∈ l → x ∉ b →
      debt f l b = f x + 1 + debt f l (x :: b) := by
    intro f l b hl hb
    have hset : l.toFinset \ (x :: b).toFinset = (l.toFinset \ b.toFinset).erase x := by
      ext u
      simp
      tauto
    rw [debt, debt, hset]
    exact (Finset.add_sum_erase _ _ (mem_ahead.mpr ⟨hl, hb⟩)).symm
  rw [hsplit ticks all behind hx hx']
  by_cases hin : x ∈ all' ∧ x ∉ behind'
  · have := hless hin.2
    rw [hsplit ticks' all' behind' hin.1 hin.2]
    omega
  · have hsame : debt ticks' all' behind' ≤ debt ticks' all' (x :: behind') := by
      refine debt_le fun u ha hb => ⟨ha, ?_, rfl⟩
      have hne : u ≠ x := by
        rintro rfl
        exact hin ⟨ha, hb⟩
      simp [hne, hb]
    omega

end

/-! ## The place in the list -/

def ticksOf (s : ThreadState) : ℕ → ℕ := fun u => (s.pcbs u).ticks

/-- `t` is in the ready list, and those that are not behind it owe at most `n` interrupts. -/
def Waits (t n : ℕ) (s : ThreadState) : Prop :=
  ∃ front back, s.readyThreadList = front ++ t :: back ∧
    debt (ticksOf s) s.allThreadList (t :: back) ≤ n

/-- `t` has got the CPU, or waits on. -/
def Served (t n : ℕ) (s : ThreadState) : Prop := s.curr = t ∨ Waits t n s

/-- Calls after none of which thread `t` has the CPU. -/
inductive Overlooks (t : ℕ) : ThreadState → List ThreadOp → Prop where
  | nil (s) : Overlooks t s []
  | cons {s s' op ops} : Allowed s op → runOp op s = .ok ((), s') → s'.curr ≠ t →
      Overlooks t s' ops → Overlooks t s (op :: ops)

variable {t n : ℕ} {s s' : ThreadState} {op : ThreadOp}

/-- Threads that come in front pay for themselves, and those that come behind need not. -/
theorem Waits.write (h : Waits t n s) (pre post : List ℕ)
    (hready : s'.readyThreadList = pre ++ s.readyThreadList ++ post)
    (hticks : ∀ u ∈ s'.allThreadList, u ∉ post →
      u ∈ s.allThreadList ∧ ticksOf s' u = ticksOf s u) : Waits t n s' := by
  obtain ⟨front, back, hs, hdebt⟩ := h
  refine ⟨pre ++ front, back ++ post, by simp [hready, hs], ?_⟩
  refine Nat.le_trans (debt_le fun u ha hb => ?_) hdebt
  rw [← List.cons_append, List.mem_append, not_or] at hb
  obtain ⟨hu, ht⟩ := hticks u ha hb.2
  exact ⟨hu, hb.1, ht⟩

theorem Waits.same (h : Waits t n s) (hready : s'.readyThreadList = s.readyThreadList)
    (hall : s'.allThreadList = s.allThreadList) (hticks : ∀ u, ticksOf s' u = ticksOf s u) :
    Waits t n s' :=
  h.write [] [] (by simp [hready]) fun u hu _ => ⟨hall ▸ hu, hticks u⟩

theorem ticksOf_setStatus (s : ThreadState) (u : ℕ) (status : TaskStatus) (v : ℕ) :
    ticksOf (s.setStatus u status) v = ticksOf s v := by
  by_cases hv : v = u
  · simp [ticksOf, ThreadState.setStatus, ThreadState.setPcb, hv]
  · simp [ticksOf, ThreadState.setStatus, ThreadState.setPcb, hv]

theorem ignoresIntr_waits : IgnoresIntr (Waits t n) := fun _ _ hv => hv

theorem threadUnlock_waits (u : ℕ) : Triple (Waits t n) (threadUnlock u) fun _ v => Waits t n v :=
  threadUnlock_rule ignoresIntr_waits fun v hv =>
    hv.write [u] [] (by simp) fun w hw _ =>
      ⟨hw, ticksOf_setStatus v u .ready w⟩

theorem requeue_waits : Triple (Waits t n) requeue fun _ v => Waits t n v := by
  refine requeue_rule (fun v hv _ => ?_) fun v hv => hv
  refine hv.write [] [v.curr] (by simp) fun u hu hpost => ?_
  have hne : u ≠ v.curr := by simpa using hpost
  exact ⟨hu, by simp [ticksOf, ThreadState.setPcb, hne]⟩

theorem wakeIdle_waits : Triple (Waits t n) wakeIdle fun _ v => Waits t n v := by
  refine wakeIdle_rule fun v hv hempty => ?_
  obtain ⟨front, back, hready, -⟩ := hv
  rw [hempty] at hready
  simp at hready

theorem runNext_waits (frame : Frame) : Triple (Waits t n) (runNext frame)
    fun _ v => Served t n v := by
  refine runNext_rule (N := fun next v => next = t ∨ Waits t n v) ?_ ?_ ?_
  · rintro v next rest ⟨front, back, hready, hdebt⟩ hcons
    rw [hready] at hcons
    cases front with
    | nil => exact Or.inl (List.cons.inj hcons).1.symm
    | cons f front =>
      right
      refine ⟨front, back, (List.cons.inj hcons).2.symm, ?_⟩
      refine Nat.le_trans (debt_le fun u ha hb => ⟨ha, hb, ?_⟩) hdebt
      exact ticksOf_setStatus v next .running u
  · exact fun _ _ _ _ hv => hv
  · rintro next v (rfl | hv)
    · exact Or.inl rfl
    · exact Or.inr hv

theorem schedule_waits (frame : Frame) :
    Triple (Waits t n) (schedule frame) fun _ v => Served t n v :=
  schedule_rule requeue_waits wakeIdle_waits (runNext_waits frame)

theorem threadLock_waits (status : TaskStatus) (caller : Caller) :
    Triple (Waits t n) (threadLock status caller) fun _ v => Served t n v :=
  threadLock_rule ignoresIntr_waits
    (fun v hv => hv.same rfl rfl (ticksOf_setStatus v v.curr status)) fun _ => schedule_waits _

theorem threadYield_waits : Triple (Waits t n) threadYield fun _ v => Served t n v :=
  threadYield_rule ignoresIntr_waits
    (fun v hv => hv.write [] [v.curr] (by simp) fun u hu _ =>
      ⟨hu, ticksOf_setStatus v v.curr .ready u⟩) fun _ => schedule_waits _

theorem addThread_waits (u : ℕ) (p : Pcb) :
    Triple (Waits t n) (addThread u p) fun _ v => Waits t n v := by
  refine addThread_rule fun v hv => ?_
  refine hv.write [] [u] (by simp) fun w hw hpost => ?_
  have hne : w ≠ u := by simpa using hpost
  refine ⟨by simpa [hne] using hw, ?_⟩
  simp [ticksOf, ThreadState.setPcb, ThreadState.setStack, hne]

theorem semUp_waits (sem : ℕ) : Triple (Waits t n) (semUp sem) fun _ v => Waits t n v :=
  semUp_rule ignoresIntr_waits
    (wakeWaiter_rule fun _ u _ hv _ => (threadUnlock_waits u).of_state hv) fun _ hv => hv

theorem semDownLoop_waits (sem : ℕ) (oldStatus : Bool) :
    Triple (Waits t n) (semDownLoop sem oldStatus) fun _ v => Served t n v :=
  semDownLoop_rule (fun _ hv _ => (threadLock_waits _ _).of_state hv) fun _ hv _ => Or.inr hv

theorem resume_waits : Triple (Waits t n) resume fun _ v => Served t n v :=
  resume_rule (fun _ hv _ => Or.inr hv) (fun _ _ hv => Or.inr hv)
    fun _ _ sem oldStatus hv _ => (semDownLoop_waits sem oldStatus).of_state hv

/-! ## The timer -/

section

variable {init : ℕ → ℕ} {ops : List ThreadOp}

theorem Waits.pay (hi : SchedInv init s) (h : Waits t n s) (post : List ℕ)
    (s' : ThreadState)
    (hready : s'.readyThreadList = s.readyThreadList ++ post)
    (hall : s'.allThreadList = s.allThreadList)
    (hticks : ∀ u, u ≠ s.curr → ticksOf s' u = ticksOf s u)
    (hless : s.curr ∉ post → ticksOf s' s.curr < ticksOf s s.curr) :
    ∃ m, m + 1 ≤ n ∧ Waits t m s' := by
  obtain ⟨front, back, hs, hdebt⟩ := h
  have hfree : s.curr ∉ t :: back := fun hin =>
    curr_not_ready hi (hs ▸ List.mem_append_right front hin)
  refine ⟨_, ?_, front, back ++ post, by simp [hready, hs], Nat.le_refl _⟩
  refine Nat.le_trans (Nat.succ_le_of_lt ?_) hdebt
  refine debt_lt (x := s.curr) hi.settled.cpu_live hfree (fun u ha hb hu => ?_) fun hb => ?_
  · rw [← List.cons_append, List.mem_append, not_or] at hb
    exact ⟨hall ▸ ha, hb.1, hticks u hu⟩
  · rw [← List.cons_append, List.mem_append, not_or] at hb
    exact hless hb.2

theorem ticksOf_counted (s : ThreadState) (u : ℕ) : ticksOf (counted s) u = ticksOf s u := by
  by_cases hu : u = s.curr
  · simp [ticksOf, counted, ThreadState.setPcb, hu]
  · simp [ticksOf, counted, ThreadState.setPcb, hu]

/-- Each interrupt takes a tick from the running thread, or puts it at the end of the list. -/
theorem timer_waits (hi : SchedInv init s) (h : Waits t n s) :
    Triple (· = s) intrTimerHandler fun _ v => ∃ m, m + 1 ≤ n ∧ Served t m v := by
  refine intrTimerHandler_rule (fun v hv _ => ?_) fun v hv hne => ?_
  · subst hv
    have hrun : ((counted v).pcbs (counted v).curr).status = .running := by
      have hr := hi.curr_running
      simpa [counted, ThreadState.setPcb] using hr
    have hready : (counted v).curr ∉ (counted v).readyThreadList :=
      curr_not_ready (s := v) hi
    obtain ⟨m, hm, hpaid⟩ := h.pay hi [v.curr]
      { (counted v).setPcb (counted v).curr { (counted v).pcbs (counted v).curr with
          ticks := ((counted v).pcbs (counted v).curr).priority, status := .ready } with
        readyThreadList := (counted v).readyThreadList ++ [(counted v).curr] } rfl rfl
      (fun u hu => by
        rw [← ticksOf_counted v u]
        have hu' : u ≠ (counted v).curr := hu
        simp [ticksOf, ThreadState.setPcb, hu'])
      fun hb => absurd (List.mem_singleton.mpr rfl) hb
    have hrequeue : Triple (· = counted v) requeue fun _ w => Waits t m w := by
      rintro w a u rfl hrun'
      rw [requeue_running hrun hready] at hrun'
      cases hrun'
      exact hpaid
    have hschedule := schedule_rule hrequeue wakeIdle_waits (runNext_waits .iret)
    exact hschedule.weaken (fun _ hw => hw) fun _ _ hw => ⟨m, hm, hw⟩
  · subst hv
    obtain ⟨m, hm, hpaid⟩ := h.pay hi []
      { (counted v).setPcb (counted v).curr { (counted v).pcbs (counted v).curr with
        ticks := (v.pcbs v.curr).ticks - 1 } with intr := true }
      (by simp [counted, ThreadState.setPcb]) rfl
      (fun u hu => by
        rw [← ticksOf_counted v u]
        have hu' : u ≠ (counted v).curr := hu
        simp [ticksOf, ThreadState.setPcb, hu'])
      fun _ => by
        have hpos : 0 < (v.pcbs v.curr).ticks := Nat.pos_of_ne_zero hne
        have hself : (counted v).curr = v.curr := rfl
        simp only [ticksOf, ThreadState.setPcb, hself, Function.update_self]
        omega
    exact ⟨m, hm, Or.inr hpaid⟩

/-! ## Runs -/

/-- Every call but the timer interrupt leaves what others may take as it is. -/
theorem runOp_waits (hop : op ≠ .timer) (h : Waits t n s) (hrun : runOp op s = .ok ((), s')) :
    Served t n s' := by
  cases op with
  | timer => exact absurd rfl hop
  | resume => exact resume_waits s () s' h hrun
  | intrSet status => exact Or.inr (intrSetStatus_rule ignoresIntr_waits status s () s' h hrun)
  | threadStart pcb prio => exact Or.inr (addThread_waits pcb _ s () s' h hrun)
  | processExecute pcb pgdir =>
    have hexec : Triple (Waits t n) (processExecute pcb pgdir) fun _ v => Waits t n v :=
      (intrDisable_rule ignoresIntr_waits).bind fun _ =>
        (addThread_waits pcb _).bind fun _ => intrSetStatus_rule ignoresIntr_waits _
    exact Or.inr (hexec s () s' h hrun)
  | threadYield => exact threadYield_waits s () s' h hrun
  | threadLock status => exact threadLock_waits status .code s () s' h hrun
  | threadUnlock u => exact Or.inr (threadUnlock_waits u s () s' h hrun)
  | semDown sem =>
    rw [runOp, semDown_eq] at hrun
    exact semDownLoop_waits sem s.intr { s with intr := false } () s' h hrun
  | semUp sem => exact Or.inr (semUp_waits sem s () s' h hrun)
  | idleLoop => exact threadLock_waits .blocked .idle s () s' h hrun

theorem overlooks_le (ho : Overlooks t s ops) (hi : SchedInv init s) (h : Waits t n s) :
    ops.count .timer ≤ n := by
  induction ho generalizing n with
  | nil => exact Nat.zero_le n
  | @cons s s' op ops ha hrun hcurr _ ih =>
    have hi' := schedInv_step hi ⟨op, ha, hrun⟩
    by_cases hop : op = .timer
    · subst hop
      obtain ⟨m, hm, hserved⟩ := timer_waits hi h s () s' rfl hrun
      have hle := ih hi' (hserved.resolve_left hcurr)
      rw [List.count_cons_self]
      omega
    · have hle := ih hi' ((runOp_waits hop h hrun).resolve_left hcurr)
      rwa [List.count_cons_of_ne hop]

end

/-- However threads block, wake each other and are created, a ready thread has the CPU after at
most as many timer interrupts as the threads that are not behind it have ticks left, and one more
for each: at most the priorities of all other threads, and one more for each. -/
theorem ready_thread_served {ops : List ThreadOp} (front back : List ℕ)
    (h : Reachable ThreadStart ThreadStep s) (hready : s.readyThreadList = front ++ t :: back)
    (ho : Overlooks t s ops) :
    ops.count .timer ≤ debt (ticksOf s) s.allThreadList (t :: back) ∧
      debt (ticksOf s) s.allThreadList (t :: back) ≤
        ∑ u ∈ s.allThreadList.toFinset.erase t, ((s.pcbs u).priority + 1) := by
  have hbounded := (KernelTimeSlices.slices_bounded h).ticks_le
  obtain ⟨s₀, h₀, hrun⟩ := h
  refine ⟨overlooks_le ho (schedInv_run h₀ hrun) ⟨front, back, hready, Nat.le_refl _⟩, ?_⟩
  calc debt (ticksOf s) s.allThreadList (t :: back)
      ≤ ∑ u ∈ s.allThreadList.toFinset.erase t, (ticksOf s u + 1) := by
        refine Finset.sum_le_sum_of_subset fun u hu => ?_
        obtain ⟨ha, hb⟩ := mem_ahead.mp hu
        rw [List.mem_cons, not_or] at hb
        exact Finset.mem_erase.mpr ⟨hb.1, List.mem_toFinset.mpr ha⟩
    _ ≤ ∑ u ∈ s.allThreadList.toFinset.erase t, ((s.pcbs u).priority + 1) := by
        refine Finset.sum_le_sum fun u hu => Nat.add_le_add_right ?_ 1
        exact hbounded u (List.mem_toFinset.mp (Finset.mem_of_mem_erase hu))

/-- The idle thread is ready behind the main thread, which is 31 ticks of priority ahead. -/
theorem ready_thread_served_idle : ∃ s : ThreadState, s.readyThreadList = [2] ∧
    Overlooks 2 s [.intrSet true, .timer] ∧
    [ThreadOp.intrSet true, .timer].count .timer ≤ debt (ticksOf s) s.allThreadList [2] ∧
      debt (ticksOf s) s.allThreadList [2] ≤
        ∑ u ∈ s.allThreadList.toFinset.erase 2, ((s.pcbs u).priority + 1) := by
  have hstart : ∃ s, systemThreadInit 2 bootState = .ok ((), s) ∧ s.readyThreadList = [2] ∧
      Overlooks 2 s [.intrSet true, .timer] :=
    ⟨_, rfl, rfl, .cons ⟨rfl, by decide⟩ rfl (by decide)
      (.cons ⟨rfl, rfl⟩ rfl (by decide) (.nil _))⟩
  obtain ⟨s, hs, hready, ho⟩ := hstart
  have hreach : Reachable ThreadStart ThreadStep s :=
    .refl ⟨bootState, 2, booted_bootState, by decide, hs⟩
  exact ⟨s, hready, ho, ready_thread_served [] [] hreach hready ho⟩

end KernelReadyWaits
