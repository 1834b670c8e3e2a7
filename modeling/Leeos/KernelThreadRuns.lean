import Leeos.KernelThreadInvariant

/-!
# Runs of the scheduler

Every state that runs from `system_thread_init` reach satisfies `SchedInv`. What the invariant
says about the lists, the CPU and the wake-ups is read off here.
-/
namespace KernelThreadRuns

open ExecRules KernelThreads KernelThreadQueues KernelThreadInvariant

variable {s s₀ : ThreadState}

theorem systemThreadInit_roster {idle : ℕ} (hi : idle ≠ s₀.curr)
    (hrun : systemThreadInit idle s₀ = .ok ((), s)) :
    roster s =
      { status := Function.update (Function.update (roster s₀).status s₀.curr .running) idle .ready
        magic := Function.update (Function.update (roster s₀).magic s₀.curr 0x00007c00) idle
          0x00007c00
        all := [s₀.curr, idle]
        ready := [idle]
        cpu := s₀.curr
        idle := idle
        kernelStacks := Function.update s₀.kernelStacks idle (some .kernelThread)
        sems := s₀.sems
        downs := s₀.downs
        ups := s₀.ups } := by
  simp only [systemThreadInit, makeMainThread, threadStart, addThread, modify_bind, bind_assoc,
    get_bind] at hrun
  rw [ensure_bind_of_true (by exact List.not_mem_nil), set_bind, get_bind,
    ensure_bind_of_true (by simpa [ThreadState.setStack, ThreadState.setPcb] using hi),
    set_bind] at hrun
  cases hrun
  simp only [roster, ThreadState.setStack, statusOf_setPcb, magicOf_setPcb]
  rfl

theorem schedInv_start (h : ThreadStart s) :
    SchedInv (fun sem => (s.sems sem).value) s := by
  obtain ⟨s₀, idle, hb, hi, hrun⟩ := h
  have hr := systemThreadInit_roster hi hrun
  have hsems : s.sems = s₀.sems := congrArg Roster.sems hr
  have hcurr : s.curr = s₀.curr := congrArg Roster.cpu hr
  have hwait : ∀ sem, ((roster s).sems sem).waiter = [] := by
    intro sem
    rw [hr]
    exact hb.sem_waiter sem
  have hstatus : (roster s).status s₀.curr = .running := by
    rw [hr]
    simp [Ne.symm hi]
  have hidle : (roster s).status idle = .ready := by
    rw [hr]
    simp
  have hframe : s.kernelStacks idle = some .kernelThread := by
    have : (roster s).kernelStacks idle = some .kernelThread := by
      rw [hr]
      simp
    exact this
  have hall : (roster s).all = [s₀.curr, idle] := by rw [hr]
  have hready : (roster s).ready = [idle] := by rw [hr]
  have hcpu : (roster s).cpu = s₀.curr := by rw [hr]
  have hid : (roster s).idle = idle := by rw [hr]
  refine ⟨?_, hcurr ▸ hstatus, fun sem _ hne => absurd (hwait sem) hne⟩
  constructor
  case all_nodup => simp [hall, Ne.symm hi]
  case cpu_live => simp [hall, hcpu]
  case idle_live => simp [hall, hid]
  case running_cpu =>
    intro t ht hrt
    rw [hall] at ht
    rcases List.mem_pair.mp ht with rfl | rfl
    · exact hcpu.symm
    · rw [hidle] at hrt
      cases hrt
  case ready_nodup => simp [hready]
  case ready_iff =>
    intro t
    rw [hready, hall, List.mem_singleton, List.mem_pair]
    constructor
    · rintro rfl
      exact ⟨Or.inr rfl, hidle⟩
    · rintro ⟨rfl | rfl, hrt⟩
      · rw [hstatus] at hrt
        cases hrt
      · rfl
  case idle_status => exact Or.inr (Or.inl (hid ▸ hidle))
  case idle_frame =>
    rintro sem ⟨o, o', ho⟩
    have : s.kernelStacks idle = some (.threadLock o (.semDown sem o')) := hid ▸ ho
    rw [hframe] at this
    cases this
  case waiter_nodup => simp [hwait]
  case waiter_live => simp [hwait]
  case waiter_blocked => simp [hwait]
  case waiter_frame => simp [hwait]
  case parked =>
    intro t ht htc
    rw [hall] at ht
    rcases List.mem_pair.mp ht with rfl | rfl
    · exact absurd hcpu.symm htc
    · simp [roster, hframe]
  case magic =>
    intro t ht
    rw [hall] at ht
    rw [hr]
    rcases List.mem_pair.mp ht with rfl | rfl
    · simp [Ne.symm hi]
    · simp
  case value_le =>
    intro sem
    rw [hr]
    exact hb.sem_value sem
  case balance =>
    intro sem
    have hd : (roster s).downs sem = 0 := by
      rw [hr]
      exact hb.downs_zero sem
    have hu : (roster s).ups sem = 0 := by
      rw [hr]
      exact hb.ups_zero sem
    rw [hd, hu]
    rfl

theorem schedInv_step {init : ℕ → ℕ} {s' : ThreadState} (h : SchedInv init s)
    (hstep : ThreadStep s s') : SchedInv init s' := by
  obtain ⟨op, ha, hrun⟩ := hstep
  obtain ⟨t, ht, h'⟩ := step_spec h ha
  rw [hrun] at ht
  cases ht
  exact h'

theorem schedInv_run (h₀ : ThreadStart s₀) (h : Relation.ReflTransGen ThreadStep s₀ s) :
    SchedInv (fun sem => (s₀.sems sem).value) s := by
  induction h with
  | refl => exact schedInv_start h₀
  | tail _ hstep ih => exact schedInv_step ih hstep

/-- Statuses and lists agree, and every thread is in at most one place. -/
structure Scheduled (s : ThreadState) : Prop where
  running_iff : ∀ t, t = s.curr ↔ t ∈ s.allThreadList ∧ (s.pcbs t).status = .running
  ready_iff : ∀ t, t ∈ s.readyThreadList ↔ t ∈ s.allThreadList ∧ (s.pcbs t).status = .ready
  ready_nodup : s.readyThreadList.Nodup
  waiter_blocked : ∀ sem, ∀ t ∈ (s.sems sem).waiter,
    t ∈ s.allThreadList ∧ (s.pcbs t).status = .blocked
  waiter_nodup : ∀ sem, (s.sems sem).waiter.Nodup
  waiter_not_ready : ∀ sem, ∀ t ∈ (s.sems sem).waiter, t ∉ s.readyThreadList
  waiter_apart : ∀ sem sem' t, t ∈ (s.sems sem).waiter → t ∈ (s.sems sem').waiter → sem = sem'
  idle_blocked : s.readyThreadList = [] → s.curr ≠ s.idleThread →
    (s.pcbs s.idleThread).status = .blocked

theorem scheduled_of_schedInv {init : ℕ → ℕ} (h : SchedInv init s) : Scheduled s where
  running_iff := by
    intro t
    constructor
    · rintro rfl
      exact ⟨h.settled.cpu_live, h.curr_running⟩
    · rintro ⟨ht, hr⟩
      exact h.settled.running_cpu t ht hr
  ready_iff := h.settled.ready_iff
  ready_nodup := h.settled.ready_nodup
  waiter_blocked := fun sem t ht =>
    ⟨h.settled.waiter_live sem t ht, h.settled.waiter_blocked sem t ht⟩
  waiter_nodup := h.settled.waiter_nodup
  waiter_not_ready := fun sem t (ht : t ∈ (s.sems sem).waiter) => h.settled.waiter_not_ready ht
  waiter_apart := fun sem sem' t ht ht' => h.settled.waiter_apart ht ht'
  idle_blocked := by
    intro he hi
    rcases h.settled.idle_status with hr | hr | hr
    · exact absurd (h.settled.running_cpu _ h.settled.idle_live hr).symm hi
    · have : s.idleThread ∈ s.readyThreadList :=
        (h.settled.ready_iff _).mpr ⟨h.settled.idle_live, hr⟩
      simp [he] at this
    · exact hr

/-- In every run the lists are exact, and no call that may come next meets a failing assertion. -/
theorem scheduler_sound (h : Reachable ThreadStart ThreadStep s) :
    Scheduled s ∧ ∀ op, Allowed s op → ∃ s', runOp op s = .ok ((), s') := by
  obtain ⟨s₀, h₀, hrun⟩ := h
  have hinv := schedInv_run h₀ hrun
  refine ⟨scheduled_of_schedInv hinv, fun op ha => ?_⟩
  obtain ⟨s', hs', -⟩ := step_spec hinv ha
  exact ⟨s', hs'⟩

/-- While a unit is free and threads sleep, a woken thread is on its way to test the value, and
no more calls of `sem_down` have completed than units were there. -/
theorem no_wakeup_lost (h₀ : ThreadStart s₀) (h : Relation.ReflTransGen ThreadStep s₀ s)
    (sem : ℕ) :
    ((s.sems sem).value = 1 → (s.sems sem).waiter ≠ [] → ∃ t, Woken (roster s) sem t) ∧
      s.downs sem ≤ (s₀.sems sem).value + s.ups sem := by
  have hinv := schedInv_run h₀ h
  refine ⟨hinv.attended sem, ?_⟩
  have hb : (s.sems sem).value + s.downs sem = (s₀.sems sem).value + s.ups sem :=
    hinv.settled.balance sem
  omega

/-! ## A run in which a unit is free while a thread sleeps -/

/-- A machine about to call `system_thread_init`: semaphore 0 starts at 0, the others at 1. -/
def bootState : ThreadState where
  pcbs := fun _ => ⟨.ready, 0, 0, 0, 0, 0⟩
  kernelStacks := fun _ => none
  curr := 1
  intr := false
  readyThreadList := []
  allThreadList := []
  idleThread := 0
  sems := fun sem => ⟨if sem = 0 then 0 else 1, []⟩
  ticks := 0
  cr3 := 0x100000
  esp0 := 0
  phyOf := fun a => a
  downs := fun _ => 0
  ups := fun _ => 0

theorem booted_bootState : Booted bootState where
  executing := rfl
  sem_value := by
    intro sem
    simp only [bootState]
    split <;> decide
  sem_waiter := fun _ => rfl
  downs_zero := fun _ => rfl
  ups_zero := fun _ => rfl

/-- The calls that need no thought about semaphores. -/
def allowedNow (s : ThreadState) : ThreadOp → Bool
  | .resume => (s.kernelStacks s.curr).isSome
  | .threadStart pcb _ => (s.kernelStacks s.curr).isNone && s.curr != s.idleThread &&
      decide (pcb ∉ s.allThreadList)
  | .semDown _ => (s.kernelStacks s.curr).isNone && s.curr != s.idleThread
  | .semUp sem => (s.kernelStacks s.curr).isNone && (s.sems sem).value == 0
  | .idleLoop => (s.kernelStacks s.curr).isNone && s.curr == s.idleThread
  | _ => false

theorem allowedNow_step (s s' : ThreadState) (op : ThreadOp) (h : allowedNow s op = true)
    (hrun : runOp op s = .ok ((), s')) : ThreadStep s s' := by
  refine ⟨op, ?_, hrun⟩
  cases op <;> simp [allowedNow, Allowed, Executing] at h ⊢ <;> grind

/-- The main thread and thread 3 wait for semaphore 0; thread 4 raises it. -/
def stealRun : List ThreadOp :=
  [.threadStart 3 31, .threadStart 4 31, .semDown 0, .resume, .idleLoop, .resume, .semDown 0,
    .resume, .semUp 0]

def stealState : Option (ThreadState × ThreadState) :=
  match systemThreadInit 2 bootState with
  | .ok (_, s) => (runs runOp allowedNow stealRun s).map fun t => (s, t)
  | .error _ => none

theorem stealState_spec : ∃ s₀ s, ThreadStart s₀ ∧ Relation.ReflTransGen ThreadStep s₀ s ∧
    (s.sems 0).value = 1 ∧ (s.sems 0).waiter = [3] ∧ s.curr = 4 := by
  have hrun : stealState.any (fun x => (x.2.sems 0).value == 1 && (x.2.sems 0).waiter == [3] &&
      x.2.curr == 4) = true := by decide +kernel
  obtain ⟨x, hx, hval⟩ := (Option.any_eq_true _ _).mp hrun
  simp only [Bool.and_eq_true, beq_iff_eq] at hval
  rw [stealState] at hx
  split at hx
  case h_1 s₀ hs₀ =>
    obtain ⟨s, hs, rfl⟩ := Option.map_eq_some_iff.mp hx
    exact ⟨s₀, s, ⟨bootState, 2, booted_bootState, by decide, hs₀⟩,
      runs_reaches allowedNow_step hs, hval.1.1, hval.1.2, hval.2⟩
  case h_2 => cases hx

theorem scheduler_sound_steal : ∃ s, (s.sems 0).waiter = [3] ∧ s.curr = 4 ∧
    Scheduled s ∧ ∀ op, Allowed s op → ∃ s', runOp op s = .ok ((), s') := by
  obtain ⟨s₀, s, h₀, h, -, hw, hc⟩ := stealState_spec
  exact ⟨s, hw, hc, scheduler_sound ⟨s₀, h₀, h⟩⟩

theorem no_wakeup_lost_steal : ∃ s, (s.sems 0).value = 1 ∧ (s.sems 0).waiter = [3] ∧
    ∃ t, Woken (roster s) 0 t := by
  obtain ⟨s₀, s, h₀, h, hv, hw, -⟩ := stealState_spec
  exact ⟨s, hv, hw, (no_wakeup_lost h₀ h 0).1 hv (by simp [hw])⟩

end KernelThreadRuns
