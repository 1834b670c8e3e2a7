import Leeos.KernelThreadRules
import Leeos.KernelThreadRuns

/-!
# The address space of the running thread (`userprog/process.c`, `fs/inode.c`)

`schedule` loads CR3 and the ring-0 stack from the PCB it switches to. `inode_open` and
`inode_close` set the caller's `pgdir` to 0 around `sys_malloc` and `sys_free`, so that these
work on the kernel heap, and put it back afterwards without loading CR3. A thread is inside such
a window while `keepPgdir` holds its local variable of that name.
-/
namespace KernelAddressSpaces

open ExecRules KernelThreads KernelThreadRules KernelThreadInvariant KernelThreadRuns

def kernelPoolLock : ℕ := 1

structure SpaceState where
  threads : ThreadState
  keepPgdir : ℕ → Option ℕ

abbrev SpaceM (α : Type) := Exec ThreadAssertion SpaceState α

def liftThread (x : ThreadM Unit) : SpaceM Unit := fun s =>
  match x s.threads with
  | .ok ((), t) => .ok ((), { s with threads := t })
  | .error e => .error e

def setPgdir (s : ThreadState) (t pgdir : ℕ) : ThreadState :=
  s.setPcb t { s.pcbs t with pgdir := pgdir }

def hidePgdir : SpaceM Unit := modify fun s =>
  let currProg := s.threads.curr
  { threads := setPgdir s.threads currProg 0
    keepPgdir := Function.update s.keepPgdir currProg (some (s.threads.pcbs currProg).pgdir) }

def restorePgdir : SpaceM Unit := modify fun s =>
  let currProg := s.threads.curr
  { threads := setPgdir s.threads currProg ((s.keepPgdir currProg).getD 0)
    keepPgdir := Function.update s.keepPgdir currProg none }

inductive SpaceOp where
  | thread (op : ThreadOp)
  | hidePgdir
  | restorePgdir
  deriving DecidableEq, Repr

def runSpaceOp : SpaceOp → SpaceM Unit
  | .thread op => liftThread (runOp op)
  | .hidePgdir => hidePgdir
  | .restorePgdir => restorePgdir

/-- What happens to threads inside `sys_malloc` and `sys_free`: the pool's lock is taken and
released, interrupts are switched, and interrupt handlers run. -/
def InAllocator : ThreadOp → Prop
  | .resume | .timer | .intrSet _ | .semUp _ => True
  | .semDown sem => sem = kernelPoolLock
  | _ => False

def SpaceAllowed (s : SpaceState) : SpaceOp → Prop
  | .thread op => Allowed s.threads op ∧ (s.keepPgdir s.threads.curr ≠ none → InAllocator op)
  | .hidePgdir => Executing s.threads ∧ s.threads.curr ≠ s.threads.idleThread ∧
      s.keepPgdir s.threads.curr = none
  | .restorePgdir => Executing s.threads ∧ s.keepPgdir s.threads.curr ≠ none

def SpaceStep (s s' : SpaceState) : Prop :=
  ∃ op, SpaceAllowed s op ∧ runSpaceOp op s = .ok ((), s')

def SpaceStart (s : SpaceState) : Prop :=
  ThreadStart s.threads ∧ (s.threads.pcbs s.threads.curr).pgdir = 0 ∧ ∀ t, s.keepPgdir t = none

/-- A process that runs outside the windows runs in its own address space. -/
def Activated (s : SpaceState) : Prop :=
  s.keepPgdir s.threads.curr = none → (s.threads.pcbs s.threads.curr).pgdir ≠ 0 →
    s.threads.cr3 = s.threads.phyOf (s.threads.pcbs s.threads.curr).pgdir ∧
    s.threads.esp0 = pcbAddr s.threads.curr + 4096

def CallsSchedule (s : ThreadState) : ThreadOp → Prop
  | .threadYield | .threadLock _ | .idleLoop => True
  | .semDown sem => (s.sems sem).value = 0
  | .timer => (s.pcbs s.curr).ticks = 0
  | .resume => ∃ oldStatus sem oldStatus',
      s.kernelStacks s.curr = some (.threadLock oldStatus (.semDown sem oldStatus')) ∧
      (s.sems sem).value = 0
  | _ => False

/-- A step in which no thread is switched out inside a window. -/
def CalmStep (s s' : SpaceState) : Prop :=
  ∃ op, SpaceAllowed s op ∧ runSpaceOp op s = .ok ((), s') ∧
    ∀ op', op = .thread op' → CallsSchedule s.threads op' → s.keepPgdir s.threads.curr = none

/-! ## What the calls do to page directories, CR3 and the ring-0 stack -/

/-- No live thread gets another page directory. -/
structure KeptDirs (s s' : ThreadState) : Prop where
  phyOf : s'.phyOf = s.phyOf
  live : ∀ t ∈ s.allThreadList, t ∈ s'.allThreadList
  pgdir : ∀ t ∈ s.allThreadList, (s'.pcbs t).pgdir = (s.pcbs t).pgdir

structure Kept (s s' : ThreadState) : Prop extends KeptDirs s s' where
  curr : s'.curr = s.curr
  cr3 : s'.cr3 = s.cr3
  esp0 : s'.esp0 = s.esp0

/-- The registers fit the running thread's page directory. -/
def Active (s : ThreadState) : Prop := (s.pcbs s.curr).pgdir ≠ 0 →
  s.cr3 = s.phyOf (s.pcbs s.curr).pgdir ∧ s.esp0 = pcbAddr s.curr + 4096

variable {s s' u : ThreadState}

theorem KeptDirs.trans (h : KeptDirs s s') (h' : KeptDirs s' u) : KeptDirs s u where
  phyOf := h'.phyOf.trans h.phyOf
  live := fun t ht => h'.live t (h.live t ht)
  pgdir := fun t ht => (h'.pgdir t (h.live t ht)).trans (h.pgdir t ht)

theorem Kept.refl (s : ThreadState) : Kept s s :=
  ⟨⟨rfl, fun _ h => h, fun _ _ => rfl⟩, rfl, rfl, rfl⟩

theorem Kept.trans (h : Kept s s') (h' : Kept s' u) : Kept s u where
  toKeptDirs := h.toKeptDirs.trans h'.toKeptDirs
  curr := h'.curr.trans h.curr
  cr3 := h'.cr3.trans h.cr3
  esp0 := h'.esp0.trans h.esp0

/-- A PCB is replaced by one with the same page directory. -/
theorem pgdir_setPcb (t : ℕ) (p : Pcb) (h : p.pgdir = (s.pcbs t).pgdir) (v : ℕ) :
    ((s.setPcb t p).pcbs v).pgdir = (s.pcbs v).pgdir := by
  by_cases hv : v = t
  · subst hv
    simp [ThreadState.setPcb, h]
  · simp [ThreadState.setPcb, hv]

theorem pgdir_setStatus (s : ThreadState) (t : ℕ) (status : TaskStatus) (v : ℕ) :
    ((s.setStatus t status).pcbs v).pgdir = (s.pcbs v).pgdir := by
  apply pgdir_setPcb
  rfl

theorem Kept.congr (h : Kept s s') (hp : ∀ t, (u.pcbs t).pgdir = (s'.pcbs t).pgdir)
    (hphy : u.phyOf = s'.phyOf) (hall : u.allThreadList = s'.allThreadList)
    (hc : u.curr = s'.curr) (hr : u.cr3 = s'.cr3) (he : u.esp0 = s'.esp0) : Kept s u :=
  h.trans ⟨⟨hphy, fun _ ht => hall ▸ ht, fun t _ => hp t⟩, hc, hr, he⟩

theorem ignoresIntr_kept : IgnoresIntr (Kept s) :=
  fun _ _ h => h.congr (fun _ => rfl) rfl rfl rfl rfl rfl

theorem threadUnlock_kept (t : ℕ) :
    Triple (Kept s) (threadUnlock t) fun _ s' => Kept s s' :=
  threadUnlock_rule ignoresIntr_kept fun v hv =>
    hv.congr (pgdir_setStatus v t _) rfl rfl rfl rfl rfl

theorem requeue_kept : Triple (Kept s) requeue fun _ s' => Kept s s' := by
  refine requeue_rule (fun v hv _ => ?_) fun _ hv => hv
  refine hv.congr (fun u => ?_) rfl rfl rfl rfl rfl
  apply pgdir_setPcb
  rfl

theorem wakeIdle_kept : Triple (Kept s) wakeIdle fun _ s' => Kept s s' :=
  wakeIdle_rule fun _ hv _ => (threadUnlock_kept _).of_state hv

theorem runNext_active (frame : Frame) :
    Triple (KeptDirs s) (runNext frame) fun _ s' => KeptDirs s s' ∧ Active s' := by
  refine triple_get_bind fun v hv => ?_
  split
  · exact triple_throw
  · rename_i next rest _
    have hset : Kept v { v.setStatus next .running with readyThreadList := rest } :=
      (Kept.refl v).congr (pgdir_setStatus v next _) rfl rfl rfl rfl rfl
    refine triple_set_bind fun w _ t hw hrun => ?_
    subst hw
    cases hrun
    refine ⟨⟨?_, ?_, ?_⟩, ?_⟩
    · simp only [ThreadState.setStack]
      split <;> exact hv.phyOf
    · simp only [ThreadState.setStack]
      split <;> exact hv.live
    · intro t ht
      have := (hset.pgdir t (hv.live t ht)).trans (hv.pgdir t ht)
      simp only [ThreadState.setStack]
      split <;> exact this
    · intro hne
      simp only [ThreadState.setStack] at hne ⊢
      split at hne
      case isTrue hp =>
        rw [if_pos hp]
        exact ⟨if_pos hp, rfl⟩
      case isFalse hp => exact absurd hne hp

/-- `schedule` loads the registers for the thread it switches to. -/
theorem schedule_active (frame : Frame) :
    Triple (Kept s) (schedule frame) fun _ s' => KeptDirs s s' ∧ Active s' :=
  schedule_rule requeue_kept wakeIdle_kept
    ((runNext_active frame).weaken (fun _ hw => hw.toKeptDirs) fun _ _ h => h)

theorem threadLock_active (status : TaskStatus) (caller : Caller) :
    Triple (Kept s) (threadLock status caller) fun _ s' => KeptDirs s s' ∧ Active s' :=
  threadLock_rule ignoresIntr_kept
    (fun w hw => hw.congr (pgdir_setStatus w w.curr _) rfl rfl rfl rfl rfl)
    fun _ => schedule_active _

theorem threadYield_active :
    Triple (Kept s) threadYield fun _ s' => KeptDirs s s' ∧ Active s' :=
  threadYield_rule ignoresIntr_kept
    (fun v hv => hv.congr (pgdir_setStatus v v.curr _) rfl rfl rfl rfl rfl)
    fun _ => schedule_active _

theorem addThread_kept {t : ℕ} (p : Pcb) (ht : t ∉ s.allThreadList) :
    Triple (· = s) (addThread t p) fun _ s' => Kept s s' := by
  refine addThread_rule fun v hv => ?_
  subst hv
  refine ⟨⟨rfl, fun u hu => List.mem_append_left _ hu, fun u hu => ?_⟩, rfl, rfl, rfl⟩
  have hne : u ≠ t := fun e => ht (e ▸ hu)
  simp [ThreadState.setStack, ThreadState.setPcb, hne]

theorem semDownLoop_active {sem : ℕ} {oldStatus : Bool} (h : Kept s s')
    (hv : (s'.sems sem).value = 0) {u : ThreadState}
    (hrun : semDownLoop sem oldStatus s' = .ok ((), u)) : KeptDirs s u ∧ Active u := by
  have hloop : Triple (fun v => Kept s v ∧ (v.sems sem).value = 0) (semDownLoop sem oldStatus)
      fun _ u => KeptDirs s u ∧ Active u := by
    refine semDownLoop_rule (fun v hv _ => ?_) fun v hv hne => absurd hv.2 hne
    exact (threadLock_active _ _).of_state (hv.1.congr (fun _ => rfl) rfl rfl rfl rfl rfl)
  exact hloop s' () u ⟨h, hv⟩ hrun

theorem semDownLoop_kept {sem : ℕ} {oldStatus : Bool} (h : Kept s s')
    (hv : (s'.sems sem).value ≠ 0) {u : ThreadState}
    (hrun : semDownLoop sem oldStatus s' = .ok ((), u)) : Kept s u := by
  have hloop : Triple (fun v => Kept s v ∧ (v.sems sem).value ≠ 0) (semDownLoop sem oldStatus)
      fun _ u => Kept s u :=
    semDownLoop_rule (fun v hv hzero => absurd hzero hv.2) fun v hv _ =>
      hv.1.congr (fun _ => rfl) rfl rfl rfl rfl rfl
  exact hloop s' () u ⟨h, hv⟩ hrun

theorem semUp_kept (sem : ℕ) : Triple (Kept s) (semUp sem) fun _ s' => Kept s s' := by
  refine semUp_rule ignoresIntr_kept (wakeWaiter_rule fun v t rest hv _ => ?_) fun v hv => ?_
  · exact (threadUnlock_kept t).of_state (hv.congr (fun _ => rfl) rfl rfl rfl rfl rfl)
  · exact hv.congr (fun _ => rfl) rfl rfl rfl rfl rfl

theorem counted_kept (s : ThreadState) : Kept s (counted s) := by
  refine (Kept.refl s).congr (fun u => ?_) rfl rfl rfl rfl rfl
  apply pgdir_setPcb
  rfl

theorem intrTimerHandler_active (ht : (s.pcbs s.curr).ticks = 0) :
    Triple (· = s) intrTimerHandler fun _ s' => KeptDirs s s' ∧ Active s' := by
  refine intrTimerHandler_rule (fun v hv _ => ?_) fun v hv hne => absurd ht (hv ▸ hne)
  subst hv
  exact (schedule_active _).of_state (counted_kept v)

theorem intrTimerHandler_kept (ht : (s.pcbs s.curr).ticks ≠ 0) :
    Triple (· = s) intrTimerHandler fun _ s' => Kept s s' := by
  refine intrTimerHandler_rule (fun v hv hzero => absurd (hv ▸ hzero) ht) fun v hv _ => ?_
  subst hv
  refine (counted_kept v).congr (fun u => ?_) rfl rfl rfl rfl rfl
  apply pgdir_setPcb
  rfl

theorem kept_intr (status : Bool) : Kept s { s with intr := status } :=
  (Kept.refl s).congr (fun _ => rfl) rfl rfl rfl rfl rfl

theorem kept_entered (status : Bool) :
    Kept s { s.setStack s.curr none with intr := status } :=
  (Kept.refl s).congr (fun _ => rfl) rfl rfl rfl rfl rfl

theorem runOp_active {op : ThreadOp} (hc : CallsSchedule s op)
    (hrun : runOp op s = .ok ((), s')) : KeptDirs s s' ∧ Active s' := by
  cases op with
  | threadYield => exact threadYield_active s () s' (Kept.refl s) hrun
  | threadLock status => exact threadLock_active _ _ s () s' (Kept.refl s) hrun
  | idleLoop => exact threadLock_active _ _ s () s' (Kept.refl s) hrun
  | semDown sem =>
    rw [runOp, semDown_eq] at hrun
    exact semDownLoop_active (kept_intr false) hc hrun
  | timer => exact intrTimerHandler_active hc s () s' rfl hrun
  | resume =>
    obtain ⟨oldStatus, sem, oldStatus', hf, hv⟩ := hc
    rw [runOp, resume_semDown hf] at hrun
    exact semDownLoop_active (kept_entered oldStatus) hv hrun
  | _ => exact absurd hc id

theorem resume_kept (hc : ¬ CallsSchedule s .resume) (hrun : resume s = .ok ((), s')) :
    Kept s s' := by
  have hresume : Triple (· = s) resume fun _ s' => Kept s s' := by
    refine resume_rule (fun v hv _ => hv ▸ Kept.refl v) (fun v status hv => hv ▸ kept_entered status)
      fun v oldStatus sem oldStatus' hv hf => ?_
    subst hv
    have hv : (v.sems sem).value ≠ 0 := fun hv => hc ⟨oldStatus, sem, oldStatus', hf, hv⟩
    rintro w a u rfl hrun
    exact semDownLoop_kept (kept_entered oldStatus) hv hrun
  exact hresume s () s' rfl hrun

theorem processExecute_kept {pcb : ℕ} (pgdir : ℕ) (ht : pcb ∉ s.allThreadList)
    (hrun : processExecute pcb pgdir s = .ok ((), s')) : Kept s s' := by
  simp only [processExecute, intrDisable, get_bind, bind_assoc, set_bind, pure_bind] at hrun
  obtain ⟨_, w, hadd, hset⟩ := bind_ok_iff.mp hrun
  have hw : Kept { s with intr := false } w :=
    @addThread_kept { s with intr := false } pcb _ ht _ () w rfl hadd
  exact intrSetStatus_rule ignoresIntr_kept _ w () s' ((kept_intr false).trans hw) hset

theorem runOp_kept {op : ThreadOp} (ha : Allowed s op) (hc : ¬ CallsSchedule s op)
    (hrun : runOp op s = .ok ((), s')) : Kept s s' := by
  cases op with
  | resume => exact resume_kept hc hrun
  | intrSet status => exact intrSetStatus_rule ignoresIntr_kept status s () s' (Kept.refl s) hrun
  | threadStart pcb prio => exact addThread_kept _ ha.2.2 s () s' rfl hrun
  | processExecute pcb pgdir => exact processExecute_kept pgdir ha.2.2 hrun
  | threadUnlock t => exact threadUnlock_kept t s () s' (Kept.refl s) hrun
  | semDown sem =>
    rw [runOp, semDown_eq] at hrun
    exact semDownLoop_kept (kept_intr false) hc hrun
  | semUp sem => exact semUp_kept sem s () s' (Kept.refl s) hrun
  | timer => exact intrTimerHandler_kept hc s () s' rfl hrun
  | _ => exact absurd trivial hc

/-! ## Runs -/

/-- The page directory a process owns, also while the PCB hides it. -/
def home (s : SpaceState) (t : ℕ) : ℕ := (s.keepPgdir t).getD (s.threads.pcbs t).pgdir

/-- The registers fit the running thread, and no other thread is inside a window. -/
structure SpaceInv (init : ℕ → ℕ) (s : SpaceState) : Prop where
  sched : SchedInv init s.threads
  home : home s s.threads.curr ≠ 0 →
    s.threads.cr3 = s.threads.phyOf (home s s.threads.curr) ∧
    s.threads.esp0 = pcbAddr s.threads.curr + 4096
  outside : ∀ t ≠ s.threads.curr, s.keepPgdir t = none

variable {init : ℕ → ℕ} {x y : SpaceState}

theorem SpaceInv.activated (h : SpaceInv init x) : Activated x := by
  intro hk hne
  have hhome : KernelAddressSpaces.home x x.threads.curr =
      (x.threads.pcbs x.threads.curr).pgdir := by
    rw [KernelAddressSpaces.home, hk, Option.getD_none]
  have := h.home
  rw [hhome] at this
  exact this hne

theorem roster_setPgdir (s : ThreadState) (t pgdir : ℕ) : roster (setPgdir s t pgdir) = roster s :=
  roster_setPcb_of_status t _ rfl rfl

theorem SpaceInv.hide (h : SpaceInv init x) (hk : x.keepPgdir x.threads.curr = none)
    (hrun : hidePgdir x = .ok ((), y)) : SpaceInv init y := by
  cases hrun
  refine ⟨h.sched.congr (roster_setPgdir _ _ _), ?_, ?_⟩
  · have hold := h.home
    simp only [KernelAddressSpaces.home, hk, Option.getD_none] at hold
    simpa [KernelAddressSpaces.home, setPgdir, ThreadState.setPcb] using hold
  · intro t ht
    have ht : t ≠ x.threads.curr := ht
    simpa [ht] using h.outside t ht

theorem SpaceInv.restore (h : SpaceInv init x) (hk : x.keepPgdir x.threads.curr ≠ none)
    (hrun : restorePgdir x = .ok ((), y)) : SpaceInv init y := by
  obtain ⟨d, hd⟩ := Option.ne_none_iff_exists'.mp hk
  cases hrun
  refine ⟨h.sched.congr (roster_setPgdir _ _ _), ?_, ?_⟩
  · have hold := h.home
    simp only [KernelAddressSpaces.home, hd, Option.getD_some] at hold
    simpa [KernelAddressSpaces.home, setPgdir, ThreadState.setPcb, hd] using hold
  · intro t ht
    have ht : t ≠ x.threads.curr := ht
    simpa [ht] using h.outside t ht

theorem SpaceInv.thread (h : SpaceInv init x) {op : ThreadOp} (ha : Allowed x.threads op)
    (hcalm : CallsSchedule x.threads op → x.keepPgdir x.threads.curr = none) {t : ThreadState}
    (hrun : runOp op x.threads = .ok ((), t)) : SpaceInv init { x with threads := t } := by
  obtain ⟨t', ht', hsched⟩ := step_spec h.sched ha
  rw [hrun] at ht'
  cases ht'
  have hcpu : x.threads.curr ∈ x.threads.allThreadList := h.sched.settled.cpu_live
  by_cases hc : CallsSchedule x.threads op
  · obtain ⟨-, hact⟩ := runOp_active hc hrun
    have hnone : ∀ u, x.keepPgdir u = none := fun u => by
      by_cases hu : u = x.threads.curr
      · exact hu ▸ hcalm hc
      · exact h.outside u hu
    refine ⟨hsched, ?_, fun u _ => hnone u⟩
    simp only [KernelAddressSpaces.home, hnone, Option.getD_none]
    exact hact
  · have hk := runOp_kept ha hc hrun
    refine ⟨hsched, ?_, fun u hu => h.outside u (hk.curr ▸ hu)⟩
    have hhome : KernelAddressSpaces.home { x with threads := t } t.curr =
        KernelAddressSpaces.home x x.threads.curr := by
      simp only [KernelAddressSpaces.home, hk.curr, hk.pgdir _ hcpu]
    rw [hhome, hk.cr3, hk.esp0, hk.phyOf, hk.curr]
    exact h.home

theorem spaceInv_step (h : SpaceInv init x) (hstep : CalmStep x y) : SpaceInv init y := by
  obtain ⟨op, ha, hrun, hcalm⟩ := hstep
  cases op with
  | thread op =>
    simp only [runSpaceOp, liftThread] at hrun
    split at hrun
    case h_1 t ht =>
      cases hrun
      exact h.thread ha.1 (hcalm op rfl) ht
    case h_2 => cases hrun
  | hidePgdir => exact h.hide ha.2.2 hrun
  | restorePgdir => exact h.restore ha.2 hrun

/-- In every run in which no thread is switched out inside a window, a process outside the
windows runs on its own page directory and its own ring-0 stack. -/
theorem process_activated (h : Reachable SpaceStart CalmStep x) : Activated x := by
  obtain ⟨x₀, ⟨hstart, hpgdir, hkeep⟩, hrun⟩ := h
  have hinv : SpaceInv (fun sem => (x₀.threads.sems sem).value) x := by
    induction hrun with
    | refl =>
      refine ⟨schedInv_start hstart, fun hne => ?_, fun t _ => hkeep t⟩
      exact absurd (by simpa [home, hkeep] using hpgdir) hne
    | tail _ hk ih => exact spaceInv_step ih hk
  exact hinv.activated

/-! ## A process that waits for the pool's lock inside the window -/

def spaceAllowedNow (s : SpaceState) : SpaceOp → Bool
  | .thread .resume => (s.threads.kernelStacks s.threads.curr).isSome
  | .thread (.semDown sem) => (s.threads.kernelStacks s.threads.curr).isNone &&
      s.threads.curr != s.threads.idleThread && sem == kernelPoolLock
  | .thread (.semUp sem) => (s.threads.kernelStacks s.threads.curr).isNone &&
      (s.threads.sems sem).value == 0
  | .thread (.processExecute pcb _) => (s.threads.kernelStacks s.threads.curr).isNone &&
      s.threads.curr != s.threads.idleThread && decide (pcb ∉ s.threads.allThreadList) &&
      (s.keepPgdir s.threads.curr).isNone
  | .thread .threadYield => (s.threads.kernelStacks s.threads.curr).isNone &&
      s.threads.curr != s.threads.idleThread && (s.keepPgdir s.threads.curr).isNone
  | .thread .idleLoop => (s.threads.kernelStacks s.threads.curr).isNone &&
      s.threads.curr == s.threads.idleThread && (s.keepPgdir s.threads.curr).isNone
  | .hidePgdir => (s.threads.kernelStacks s.threads.curr).isNone &&
      s.threads.curr != s.threads.idleThread && (s.keepPgdir s.threads.curr).isNone
  | .restorePgdir => (s.threads.kernelStacks s.threads.curr).isNone &&
      (s.keepPgdir s.threads.curr).isSome
  | _ => false

theorem spaceAllowed_of_now {s : SpaceState} {op : SpaceOp} (h : spaceAllowedNow s op = true) :
    SpaceAllowed s op := by
  cases op with
  | thread op =>
    cases op <;> simp [spaceAllowedNow, SpaceAllowed, Allowed, Executing, InAllocator] at h ⊢ <;>
      grind
  | hidePgdir =>
    simp [spaceAllowedNow, SpaceAllowed, Executing] at h ⊢
    grind
  | restorePgdir =>
    simp [spaceAllowedNow, SpaceAllowed, Executing] at h ⊢
    grind

/-- Also, a thread inside the window finds the semaphore up. -/
def calmNow (s : SpaceState) (op : SpaceOp) : Bool :=
  spaceAllowedNow s op && ((s.keepPgdir s.threads.curr).isNone || match op with
    | .thread (.semDown sem) => (s.threads.sems sem).value != 0
    | .thread (.semUp _) | .restorePgdir => true
    | _ => false)

theorem calmNow_step (s s' : SpaceState) (op : SpaceOp) (h : calmNow s op = true)
    (hrun : runSpaceOp op s = .ok ((), s')) : CalmStep s s' := by
  simp only [calmNow, Bool.and_eq_true, Bool.or_eq_true] at h
  refine ⟨op, spaceAllowed_of_now h.1, hrun, fun op' he hc => ?_⟩
  subst he
  rcases h.2 with hk | hk
  · exact Option.isNone_iff_eq_none.mp hk
  · cases op' <;> simp [CallsSchedule] at hk hc
    exact absurd hc hk

/-- The state after `ops`, if they run through, with the state that `system_thread_init` leaves. -/
def spaceRun (fits : SpaceState → SpaceOp → Bool) (ops : List SpaceOp) :
    Option (SpaceState × SpaceState) :=
  match systemThreadInit 2 bootState with
  | .ok (_, s) => (runs runSpaceOp fits ops ⟨s, fun _ => none⟩).map fun t =>
      (⟨s, fun _ => none⟩, t)
  | .error _ => none

theorem spaceRun_reaches {fits : SpaceState → SpaceOp → Bool} {ops : List SpaceOp}
    {step : SpaceState → SpaceState → Prop}
    (hstep : ∀ s s' op, fits s op = true → runSpaceOp op s = .ok ((), s') → step s s')
    (hrun : spaceRun fits ops = some (x, y)) : Reachable SpaceStart step y := by
  rw [spaceRun] at hrun
  split at hrun
  case h_1 s hs =>
    obtain ⟨t, ht, he⟩ := Option.map_eq_some_iff.mp hrun
    cases he
    have hpg : (s.pcbs s.curr).pgdir = 0 := by
      cases hs
      rfl
    exact ⟨⟨s, fun _ => none⟩,
      ⟨⟨bootState, 2, booted_bootState, by decide, hs⟩, hpg, fun _ => rfl⟩, runs_reaches hstep ht⟩
  case h_2 => cases hrun

/-- Process 3 opens an inode while the pool's lock is free. -/
def openRun : List SpaceOp :=
  [.thread (.processExecute 3 0xc0105000), .thread .threadYield, .thread .resume,
    .thread .idleLoop, .thread .resume, .hidePgdir, .thread (.semDown 1), .thread (.semUp 1),
    .restorePgdir]

theorem process_activated_after_open : ∃ x, x.threads.curr = 3 ∧
    (x.threads.pcbs 3).pgdir = 0xc0105000 ∧ Activated x := by
  have hrun : (spaceRun calmNow openRun).any (fun r => r.2.threads.curr == 3 &&
      (r.2.threads.pcbs 3).pgdir == 0xc0105000) = true := by decide +kernel
  obtain ⟨r, hr, hval⟩ := (Option.any_eq_true _ _).mp hrun
  simp only [Bool.and_eq_true, beq_iff_eq] at hval
  exact ⟨r.2, hval.1, hval.2, process_activated (spaceRun_reaches calmNow_step hr)⟩

/-- The main thread holds `kernel_pool.lock` while process 3 is created and opens an inode. -/
def windowRun : List SpaceOp :=
  [.thread (.semDown 1), .thread (.processExecute 3 0xc0105000), .thread .threadYield,
    .thread .resume, .thread .idleLoop, .thread .resume, .hidePgdir, .thread (.semDown 1),
    .thread .resume, .thread (.semUp 1), .thread .threadYield, .thread .resume,
    .thread (.semUp 1), .restorePgdir]

/-- It comes back on the kernel's page directory and keeps it when the window is over. -/
theorem window_loses_address_space : ¬ ∀ x, Reachable SpaceStart SpaceStep x → Activated x := by
  have hrun : (spaceRun spaceAllowedNow windowRun).any (fun r => r.2.threads.curr == 3 &&
      (r.2.keepPgdir 3).isNone && (r.2.threads.pcbs 3).pgdir == 0xc0105000 &&
      r.2.threads.cr3 == 0x100000 && r.2.threads.phyOf 0xc0105000 == 0xc0105000) = true := by
    decide +kernel
  obtain ⟨r, hr, hval⟩ := (Option.any_eq_true _ _).mp hrun
  simp only [Bool.and_eq_true, beq_iff_eq, Option.isNone_iff_eq_none] at hval
  obtain ⟨⟨⟨⟨hc, hk⟩, hp⟩, hcr⟩, hphy⟩ := hval
  intro hall
  have hreach : Reachable SpaceStart SpaceStep r.2 :=
    spaceRun_reaches (fun s s' op h hrun => ⟨op, spaceAllowed_of_now h, hrun⟩) hr
  have hact := hall r.2 hreach (hc ▸ hk) (by rw [hc, hp]; decide)
  rw [hc, hp, hcr, hphy] at hact
  exact absurd hact.1 (by decide)

end KernelAddressSpaces
