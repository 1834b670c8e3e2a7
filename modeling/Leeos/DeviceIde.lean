import Leeos.FsDisk
import Leeos.KernelLockCallers

/-!
# The disk channel (`device/ide.c`)

`ide_read` and `ide_write` hold the channel's lock, issue a command for up to 256 sectors at a time
and wait for its interrupt in `sem_down` on `disk_done_sem`. The body of `sem_down` and the handler
run with interrupts off and are one statement each; everywhere else an interrupt may come, whether
the disk was asked for it or not. What goes through the ports is left out.
-/
namespace DeviceIde

open ExecRules KernelLockCallers LibStdint
open KernelLocks (LockState LockEvent LockAssertion LockInit freeLock)
open FsDisk (maxLba)

/-- `ide_write` if `write`, `ide_read` otherwise. -/
structure IdeCall where
  write : Bool
  lba : ℕ
  secCnt : ℕ
  deriving DecidableEq, Repr

/-- The statement a thread executes next; `secDone` is the loop's counter. -/
inductive Stage where
  | idle
  | acquiring (c : IdeCall)
  | selectDisk (c : IdeCall)
  | loop (c : IdeCall) (secDone : ℕ)
  | expect (c : IdeCall) (secDone : ℕ)
  | outCommand (c : IdeCall) (secDone : ℕ)
  | semDown (c : IdeCall) (secDone : ℕ)
  | asleep (c : IdeCall) (secDone : ℕ)
  | busyWait (c : IdeCall) (secDone : ℕ)
  | transfer (c : IdeCall) (secDone : ℕ)
  | releasing
  deriving DecidableEq, Repr

inductive ChannelEvent where
  | cmdOut
  | accepted
  | semDown
  deriving DecidableEq, Repr

/-- `doneValue` and `waiter` are those of `disk_done_sem`; `trace` is ghost. -/
structure IdeState where
  lock : LockState
  expectionInterrupt : Bool
  doneValue : ℕ
  waiter : List ℕ
  stage : ℕ → Stage
  trace : List ChannelEvent

inductive IdeAssertion where
  | lock (a : LockAssertion)
  | maxLba
  | secCnt
  | selectSector
  /-- The report that the disk has failed. -/
  | busyWait
  | semIsInWaiter
  | semDownValue
  | semUpZero
  | semUpOne
  | threadUnlockStatus
  deriving DecidableEq, Repr

abbrev IdeM := Exec IdeAssertion IdeState Unit

def IdeState.goto (s : IdeState) (t : ℕ) (st : Stage) : IdeState :=
  { s with stage := Function.update s.stage t st }

def lockStatement (t : ℕ) (e : LockEvent) (after : LockState → Stage) : IdeM :=
  onLock IdeState.lock (fun s l => { s.goto t (after l) with lock := l }) .lock e

def secOp (c : IdeCall) (secDone : ℕ) : ℕ :=
  if c.secCnt - secDone ≥ 256 then 256 else c.secCnt - secDone

def nextChunk (c : IdeCall) (secDone : ℕ) : Stage := .loop c (u32 (secDone + secOp c secDone))

/-- `sem_down` of `disk_done_sem`, from a test of the value up to the next switch. -/
def semDown (t : ℕ) (c : IdeCall) (secDone : ℕ) : IdeM := do
  let s ← get
  if s.doneValue = 0 then
    ensure .semIsInWaiter (t ∉ s.waiter)
    set { s.goto t (.asleep c secDone) with waiter := s.waiter ++ [t] }
  else
    ensure .semDownValue (u8 (s.doneValue + 255) = 0)
    set { s.goto t (if c.write then nextChunk c secDone else .busyWait c secDone) with
      doneValue := u8 (s.doneValue + 255)
      trace := s.trace ++ [ChannelEvent.semDown] }

/-- The statement at which thread `t` stands; `ready` is what `busy_wait` returns. -/
def execute (t : ℕ) (ready : Bool) : IdeM := do
  let s ← get
  match s.stage t with
  | .idle => pure ()
  | .acquiring c =>
    lockStatement t (.execute t) fun l => if Returned l t then .selectDisk c else .acquiring c
  | .selectDisk c => set (s.goto t (.loop c 0))
  | .loop c secDone =>
    if secDone < c.secCnt then
      ensure .selectSector (u32 (c.lba + secDone) ≤ maxLba)
      set (s.goto t (.expect c secDone))
    else lockStatement t (.release t) fun _ => .releasing
  | .expect c secDone =>
    set { s.goto t (.outCommand c secDone) with
      expectionInterrupt := true
      trace := s.trace ++ [ChannelEvent.cmdOut] }
  | .outCommand c secDone =>
    set (s.goto t (if c.write then .busyWait c secDone else .semDown c secDone))
  | .semDown c secDone => semDown t c secDone
  | .asleep c secDone => semDown t c secDone
  | .busyWait c secDone =>
    ensure .busyWait (ready = true)
    set (s.goto t (.transfer c secDone))
  | .transfer c secDone =>
    set (s.goto t (if c.write then .semDown c secDone else nextChunk c secDone))
  | .releasing =>
    lockStatement t (.execute t) fun l => if Returned l t then .idle else .releasing

/-- The call, up to the first statement of `lock_acquire`. -/
def call (t : ℕ) (c : IdeCall) : IdeM := do
  ensure .maxLba (c.lba ≤ maxLba)
  ensure .secCnt (c.secCnt > 0)
  lockStatement t (.acquire t) fun _ => .acquiring c

def Stage.isAsleep : Stage → Bool
  | .asleep _ _ => true
  | _ => false

/-- `thread_unlock` of the first waiter. -/
def wakeFirst : IdeM := do
  let s ← get
  match s.waiter with
  | [] => pure ()
  | t :: rest =>
    ensure .threadUnlockStatus ((s.stage t).isAsleep = true)
    set { s with waiter := rest }

def semUp : IdeM := do
  let s ← get
  ensure .semUpZero (s.doneValue = 0)
  wakeFirst
  modify fun s => { s with doneValue := u8 (s.doneValue + 1) }
  let s ← get
  ensure .semUpOne (s.doneValue = 1)

def intrHdHandler : IdeM := do
  let s ← get
  if s.expectionInterrupt then
    set { s with expectionInterrupt := false, trace := s.trace ++ [ChannelEvent.accepted] }
    semUp
  else pure ()

inductive IdeEvent where
  | call (t : ℕ) (c : IdeCall)
  | execute (t : ℕ) (ready : Bool)
  | interrupt
  deriving DecidableEq, Repr

def happens : IdeEvent → IdeM
  | .call t c => call t c
  | .execute t ready => execute t ready
  | .interrupt => intrHdHandler

/-- A thread waits for the unit of the lock, and to be taken off the list of waiters. -/
def Enabled (s : IdeState) : IdeEvent → Prop
  | .call t _ => s.stage t = .idle
  | .execute t _ => s.stage t ≠ .idle ∧ (s.lock.pc t = .semDown → s.lock.value ≠ 0) ∧
      t ∉ s.waiter
  | .interrupt => True

instance (s : IdeState) (e : IdeEvent) : Decidable (Enabled s e) := by
  cases e <;> simp only [Enabled] <;> infer_instance

def IdeStep (s s' : IdeState) : Prop := ∃ e, Enabled s e ∧ happens e s = .ok ((), s')

/-- After `ide_init`, before any thread uses the channel. -/
structure IdeStart (s : IdeState) : Prop where
  lock : LockInit s.lock
  expectionInterrupt : s.expectionInterrupt = false
  doneValue : s.doneValue = 0
  waiter : s.waiter = []
  stage : ∀ t, s.stage t = .idle
  trace : s.trace = []

/-- Commands, their interrupts and the waits for them, one after the other. -/
def rounds (n : ℕ) : List ChannelEvent :=
  (List.replicate n [.cmdOut, .accepted, .semDown]).flatten

structure ChannelSound (s : IdeState) : Prop where
  value_le : s.doneValue ≤ 1
  handler_ok : ∃ s', intrHdHandler s = .ok ((), s')
  matched : ∃ n, s.trace <+: rounds n
  free : s.lock.holder = none → s.expectionInterrupt = false ∧ s.doneValue = 0

/-! ## The invariant -/

variable {s s' : IdeState} {t u : ℕ} {c : IdeCall} {d : ℕ}

def Stage.place : Stage → LockPlace
  | .idle => .outside
  | .acquiring _ => .acquiring
  | .releasing => .releasing
  | _ => .inside

/-- A command has been issued, and not been waited for. -/
def Stage.pending : Stage → Bool
  | .outCommand _ _ | .semDown _ _ | .asleep _ _ => true
  | .busyWait c _ | .transfer c _ => c.write
  | _ => false

theorem place_of_pending {st : Stage} (h : st.pending = true) : st.place = .inside := by
  cases st <;> first | rfl | cases h

structure Channel (s : IdeState) (expects : Bool) (value : ℕ) (waiter : List ℕ)
    (round : List ChannelEvent) : Prop where
  expects : s.expectionInterrupt = expects
  value : s.doneValue = value
  waiter : s.waiter = waiter
  trace : ∃ n, s.trace = rounds n ++ round

structure Quiet (s : IdeState) : Prop where
  channel : Channel s false 0 [] []
  none : ∀ t, (s.stage t).pending = false

def sleepers (t : ℕ) (st : Stage) : List ℕ := if st.isAsleep then [t] else []

/-- The command of thread `t` is pending, and its interrupt has come or has not come. -/
structure Pending (s : IdeState) (t : ℕ) : Prop where
  channel : Channel s true 0 (sleepers t (s.stage t)) [.cmdOut] ∨
    Channel s false 1 [] [.cmdOut, .accepted]
  pending : (s.stage t).pending = true
  others : ∀ u, u ≠ t → (s.stage u).pending = false

structure IdeInv (s : IdeState) : Prop where
  locked : Callers s.lock fun t => (s.stage t).place
  phase : Quiet s ∨ ∃ t, Pending s t

theorem ideInv_start (h : IdeStart s) : IdeInv s where
  locked := Callers.start h.lock fun t => by rw [h.stage t]; rfl
  phase := Or.inl
    { channel := ⟨h.expectionInterrupt, h.doneValue, h.waiter, 0, by rw [h.trace]; rfl⟩
      none := fun t => by rw [h.stage t]; rfl }

theorem rounds_succ (n : ℕ) : rounds n ++ [.cmdOut, .accepted, .semDown] = rounds (n + 1) := by
  rw [rounds, rounds, List.replicate_succ', List.flatten_append]
  rfl

/-! ## The statements of a thread -/

/-- A thread that moves on with its command as pending as before, and is not woken up. -/
theorem phase_move {st : Stage} {l : LockState} (h : Quiet s ∨ ∃ u, Pending s u)
    (hp : st.pending = (s.stage t).pending) (hsleep : st.isAsleep = (s.stage t).isAsleep) :
    Quiet { s.goto t st with lock := l } ∨ ∃ u, Pending { s.goto t st with lock := l } u := by
  have hpend : ∀ u, (Function.update s.stage t st u).pending = (s.stage u).pending := by
    intro u
    by_cases hu : u = t
    · subst hu
      rw [Function.update_self, hp]
    · rw [Function.update_of_ne hu]
  have hslept : ∀ u, sleepers u (Function.update s.stage t st u) = sleepers u (s.stage u) := by
    intro u
    by_cases hu : u = t
    · subst hu
      rw [Function.update_self, sleepers, sleepers, hsleep]
    · rw [Function.update_of_ne hu]
  rcases h with h | ⟨u, h⟩
  · exact Or.inl ⟨⟨h.channel.expects, h.channel.value, h.channel.waiter, h.channel.trace⟩,
      fun v => (hpend v).trans (h.none v)⟩
  · refine Or.inr ⟨u, ?_, (hpend u).trans h.pending, fun v hv => (hpend v).trans (h.others v hv)⟩
    rcases h.channel with hc | hc
    · exact Or.inl ⟨hc.expects, hc.value, hc.waiter.trans (hslept u).symm, hc.trace⟩
    · exact Or.inr ⟨hc.expects, hc.value, hc.waiter, hc.trace⟩

theorem lockStatement_inv {e : LockEvent} {after : LockState → Stage} (h : IdeInv s)
    (hlock : ∃ l, KernelLocks.next e s.lock = .ok ((), l) ∧
      Callers l (Function.update (fun u => (s.stage u).place) t (after l).place))
    (hst : (s.stage t).pending = false)
    (hafter : ∀ l, (after l).pending = false ∧ (after l).isAsleep = false)
    (hrun : lockStatement t e after s = .ok ((), s')) : IdeInv s' := by
  obtain ⟨l, hl, rfl⟩ := onLock_ok hrun
  have hc := Callers.of_next hlock hl
  have hawake : (s.stage t).isAsleep = false := by
    cases hs : s.stage t with
    | asleep c d => simp [hs, Stage.pending] at hst
    | _ => rfl
  exact ⟨hc.enter, phase_move h.phase ((hafter l).1.trans hst.symm)
    ((hafter l).2.trans hawake.symm)⟩

theorem goto_inv {st : Stage} (h : IdeInv s) (hplace : st.place = (s.stage t).place)
    (hpend : st.pending = (s.stage t).pending) (hsleep : st.isAsleep = (s.stage t).isAsleep) :
    IdeInv (s.goto t st) :=
  ⟨h.locked.goOn hplace, phase_move h.phase hpend hsleep⟩

theorem quiet_of_inside (h : IdeInv s) (ht : (s.stage t).place = .inside)
    (hp : (s.stage t).pending = false) : Quiet s := by
  rcases h.phase with hq | ⟨u, hu⟩
  · exact hq
  · have hut := h.locked.unique (Or.inl (place_of_pending hu.pending)) (Or.inl ht)
    subst hut
    exact absurd hu.pending (by simp [hp])

theorem pending_of_stage (h : IdeInv s) (hp : (s.stage t).pending = true) : Pending s t := by
  rcases h.phase with hq | ⟨u, hu⟩
  · exact absurd hp (by simp [hq.none t])
  · have hut : t = u := by
      by_contra hne
      exact absurd hp (by simp [hu.others t hne])
    exact hut ▸ hu

theorem expect_inv (h : IdeInv s) (ht : s.stage t = .expect c d) :
    IdeInv { s.goto t (.outCommand c d) with
      expectionInterrupt := true
      trace := s.trace ++ [ChannelEvent.cmdOut] } := by
  have hq : Quiet s := quiet_of_inside h (by rw [ht]; rfl) (by rw [ht]; rfl)
  obtain ⟨n, hn⟩ := hq.channel.trace
  have hself : (s.goto t (.outCommand c d)).stage t = .outCommand c d := Function.update_self ..
  refine ⟨h.locked.goOn (by rw [ht]; rfl), Or.inr ⟨t, Or.inl
    ⟨rfl, hq.channel.value, ?_, n, ?_⟩, ?_, fun u hu => ?_⟩⟩
  · exact hq.channel.waiter.trans (by rw [hself]; rfl)
  · rw [hn, List.append_nil]
  · rw [hself]
    rfl
  · exact (congrArg Stage.pending (Function.update_of_ne hu _ _)).trans (hq.none u)

theorem sleep_inv (h : IdeInv s) (hp : (s.stage t).pending = true) (hv : s.doneValue = 0)
    (hw : t ∉ s.waiter) :
    IdeInv { s.goto t (.asleep c d) with waiter := s.waiter ++ [t] } := by
  obtain ⟨hch, -, hothers⟩ := pending_of_stage h hp
  have hself : (s.goto t (.asleep c d)).stage t = .asleep c d := Function.update_self ..
  refine ⟨h.locked.goOn (place_of_pending hp).symm, Or.inr ⟨t, ?_, ?_, fun u hu => ?_⟩⟩
  · rcases hch with hc | hc
    · refine Or.inl ⟨hc.expects, hc.value, ?_, hc.trace⟩
      have hnil : s.waiter = [] := by
        rw [hc.waiter, sleepers] at hw ⊢
        split at hw
        · simp at hw
        · next hne => rw [if_neg hne]
      rw [hself, hnil]
      rfl
    · exact absurd hc.value (by omega)
  · rw [hself]
    rfl
  · exact (congrArg Stage.pending (Function.update_of_ne hu _ _)).trans (hothers u hu)

/-- The interrupt has come, and `sem_down` takes its unit. -/
theorem down_inv {st : Stage} (h : IdeInv s) (hp : (s.stage t).pending = true)
    (hv : s.doneValue ≠ 0) (hplace : st.place = .inside) (hst : st.pending = false) :
    IdeInv { s.goto t st with
      doneValue := u8 (s.doneValue + 255)
      trace := s.trace ++ [ChannelEvent.semDown] } := by
  obtain ⟨hch, -, hothers⟩ := pending_of_stage h hp
  refine ⟨h.locked.goOn (hplace.trans (place_of_pending hp).symm), Or.inl ⟨?_, fun u => ?_⟩⟩
  · rcases hch with hc | hc
    · exact absurd hc.value hv
    · obtain ⟨n, hn⟩ := hc.trace
      refine ⟨hc.expects, ?_, hc.waiter, n + 1, ?_⟩
      · simp only [hc.value]
        rfl
      · simp only [hn, List.append_assoc, List.append_nil]
        exact rounds_succ n
  · by_cases hu : u = t
    · subst hu
      exact (congrArg Stage.pending (Function.update_self ..)).trans hst
    · exact (congrArg Stage.pending (Function.update_of_ne hu _ _)).trans (hothers u hu)

theorem semDown_inv (h : IdeInv s) (hp : (s.stage t).pending = true)
    (hrun : semDown t c d s = .ok ((), s')) : IdeInv s' := by
  rw [semDown, get_bind] at hrun
  by_cases hv : s.doneValue = 0
  · rw [if_pos hv] at hrun
    obtain ⟨hw, hrun⟩ := ensure_bind_ok_iff.mp hrun
    cases hrun
    exact sleep_inv h hp hv hw
  · rw [if_neg hv] at hrun
    obtain ⟨-, hrun⟩ := ensure_bind_ok_iff.mp hrun
    cases hrun
    apply down_inv h hp hv
    · split <;> rfl
    · split
      · rfl
      · next hc => simpa [Stage.pending] using hc

theorem execute_inv {ready : Bool} (h : IdeInv s) (he : Enabled s (.execute t ready))
    (hrun : execute t ready s = .ok ((), s')) : IdeInv s' := by
  obtain ⟨hidle, hwait, -⟩ := he
  rw [execute, get_bind] at hrun
  cases ht : s.stage t with
  | idle => exact absurd ht hidle
  | acquiring c =>
    simp only [ht] at hrun
    obtain ⟨l, hl, hc⟩ := h.locked.execute_acquiring (t := t) (by rw [ht]; rfl) hwait
    refine lockStatement_inv h ⟨l, hl, ?_⟩ (by rw [ht]; rfl) (fun l => ?_) hrun
    · rwa [apply_ite Stage.place]
    · split <;> exact ⟨rfl, rfl⟩
  | selectDisk c =>
    simp only [ht] at hrun
    cases hrun
    exact goto_inv h (by rw [ht]; rfl) (by rw [ht]; rfl) (by rw [ht]; rfl)
  | loop c d =>
    simp only [ht] at hrun
    by_cases hd : d < c.secCnt
    · rw [if_pos hd] at hrun
      obtain ⟨-, hrun⟩ := ensure_bind_ok_iff.mp hrun
      cases hrun
      exact goto_inv h (by rw [ht]; rfl) (by rw [ht]; rfl) (by rw [ht]; rfl)
    · rw [if_neg hd] at hrun
      exact lockStatement_inv h (h.locked.release (by rw [ht]; rfl)) (by rw [ht]; rfl)
        (fun l => ⟨rfl, rfl⟩) hrun
  | expect c d =>
    simp only [ht] at hrun
    cases hrun
    exact expect_inv h ht
  | outCommand c d =>
    simp only [ht] at hrun
    cases hrun
    by_cases hc : c.write = true
    · rw [if_pos hc]
      exact goto_inv h (by rw [ht]; rfl) (by rw [ht]; exact hc) (by rw [ht]; rfl)
    · rw [if_neg hc]
      exact goto_inv h (by rw [ht]; rfl) (by rw [ht]; rfl) (by rw [ht]; rfl)
  | semDown c d =>
    simp only [ht] at hrun
    exact semDown_inv h (by rw [ht]; rfl) hrun
  | asleep c d =>
    simp only [ht] at hrun
    exact semDown_inv h (by rw [ht]; rfl) hrun
  | busyWait c d =>
    simp only [ht] at hrun
    obtain ⟨-, hrun⟩ := ensure_bind_ok_iff.mp hrun
    cases hrun
    exact goto_inv h (by rw [ht]; rfl) (by rw [ht]; rfl) (by rw [ht]; rfl)
  | transfer c d =>
    simp only [ht] at hrun
    cases hrun
    by_cases hc : c.write = true
    · rw [if_pos hc]
      exact goto_inv h (by rw [ht]; rfl) (by rw [ht]; exact hc.symm) (by rw [ht]; rfl)
    · rw [if_neg hc]
      have hread : c.write = false := by simpa using hc
      exact goto_inv h (by rw [ht]; rfl) (by rw [ht]; exact hread.symm) (by rw [ht]; rfl)
  | releasing =>
    simp only [ht] at hrun
    obtain ⟨l, hl, hc⟩ := h.locked.execute_releasing (t := t) (by rw [ht]; rfl)
    refine lockStatement_inv h ⟨l, hl, ?_⟩ (by rw [ht]; rfl) (fun l => ?_) hrun
    · rwa [apply_ite Stage.place]
    · split <;> exact ⟨rfl, rfl⟩

theorem call_inv (h : IdeInv s) (ht : s.stage t = .idle) (hrun : call t c s = .ok ((), s')) :
    IdeInv s' := by
  obtain ⟨-, hrun⟩ := ensure_bind_ok_iff.mp hrun
  obtain ⟨-, hrun⟩ := ensure_bind_ok_iff.mp hrun
  exact lockStatement_inv h (h.locked.acquire (by rw [ht]; rfl)) (by rw [ht]; rfl)
    (fun l => ⟨rfl, rfl⟩) hrun

/-! ## The handler -/

theorem wakeFirst_sleepers (hw : s.waiter = sleepers t (s.stage t)) :
    wakeFirst s = .ok ((), { s with waiter := [] }) := by
  rw [wakeFirst, get_bind]
  by_cases hs : (s.stage t).isAsleep = true
  · rw [sleepers, if_pos hs] at hw
    simp only [hw]
    rw [ensure_bind_of_true hs]
    rfl
  · rw [sleepers, if_neg hs] at hw
    simp only [hw]
    rw [← hw]
    rfl

theorem semUp_zero (hv : s.doneValue = 0) (hw : s.waiter = sleepers t (s.stage t)) :
    semUp s = .ok ((), { s with waiter := [], doneValue := 1 }) := by
  rw [semUp, get_bind, ensure_bind_of_true hv, bind_of_ok (wakeFirst_sleepers hw), modify_bind,
    get_bind]
  simp only [hv]
  rfl

theorem wakeFirst_keeps (h : wakeFirst s = .ok ((), s')) :
    s'.expectionInterrupt = s.expectionInterrupt ∧ s'.doneValue = s.doneValue := by
  rw [wakeFirst, get_bind] at h
  cases hw : s.waiter with
  | nil =>
    simp only [hw] at h
    cases h
    exact ⟨rfl, rfl⟩
  | cons t rest =>
    simp only [hw] at h
    obtain ⟨-, h⟩ := ensure_bind_ok_iff.mp h
    cases h
    exact ⟨rfl, rfl⟩

theorem handler_channel (h : intrHdHandler s = .ok ((), s')) : s'.expectionInterrupt = false ∧
    s'.doneValue = if s.expectionInterrupt then s.doneValue + 1 else s.doneValue := by
  rw [intrHdHandler, get_bind] at h
  by_cases he : s.expectionInterrupt = true
  · rw [if_pos he, set_bind, semUp, get_bind] at h
    obtain ⟨hzero, h⟩ := ensure_bind_ok_iff.mp h
    obtain ⟨⟨⟩, u, hwake, h⟩ := bind_ok_iff.mp h
    obtain ⟨hexpects, hvalue⟩ := wakeFirst_keeps hwake
    rw [modify_bind, get_bind] at h
    obtain ⟨hone, h⟩ := ensure_ok_iff.mp h
    cases h
    refine ⟨hexpects, ?_⟩
    rw [if_pos he, show s.doneValue = 0 from hzero]
    exact hone
  · rw [if_neg he] at h
    cases h
    exact ⟨Bool.eq_false_iff.mpr he, (if_neg he).symm⟩

/-- Whatever the interrupt is, the handler returns, and the invariant holds on. -/
theorem handler_spec (h : IdeInv s) :
    ∃ s', intrHdHandler s = .ok ((), s') ∧ IdeInv s' := by
  have hquiet : s.expectionInterrupt = false → intrHdHandler s = .ok ((), s) := by
    intro he
    rw [intrHdHandler, get_bind, he]
    rfl
  rcases h.phase with hq | ⟨t, hch, hp, hothers⟩
  · exact ⟨s, hquiet hq.channel.expects, h⟩
  · rcases hch with hc | hc
    · have hrun : intrHdHandler s = .ok ((), { s with
          expectionInterrupt := false, waiter := [], doneValue := 1
          trace := s.trace ++ [ChannelEvent.accepted] }) := by
        rw [intrHdHandler, get_bind, if_pos hc.expects, set_bind]
        exact semUp_zero hc.value hc.waiter
      refine ⟨_, hrun, h.locked, Or.inr ⟨t, Or.inr ⟨rfl, rfl, rfl, ?_⟩, hp, hothers⟩⟩
      obtain ⟨n, hn⟩ := hc.trace
      exact ⟨n, by simp only [hn, List.append_assoc]; rfl⟩
    · exact ⟨s, hquiet hc.expects, h⟩

/-! ## Runs -/

theorem step_inv (h : IdeInv s) (hs : IdeStep s s') : IdeInv s' := by
  obtain ⟨e, he, hrun⟩ := hs
  cases e with
  | call t c => exact call_inv h he hrun
  | execute t ready => exact execute_inv h he hrun
  | interrupt =>
    obtain ⟨s'', hok, hinv⟩ := handler_spec h
    obtain rfl : s' = s'' := by
      have heq := hrun.symm.trans hok
      cases heq
      rfl
    exact hinv

theorem prefix_rounds (n : ℕ) {round : List ChannelEvent}
    (h : round <+: [.cmdOut, .accepted, .semDown]) : rounds n ++ round <+: rounds (n + 1) := by
  rw [← rounds_succ]
  exact (List.prefix_append_right_inj _).mpr h

theorem channelSound_of_ideInv (h : IdeInv s) : ChannelSound s where
  value_le := by
    rcases h.phase with hq | ⟨t, hch, -, -⟩
    · have := hq.channel.value
      omega
    · rcases hch with hc | hc
      · have := hc.value
        omega
      · have := hc.value
        omega
  handler_ok := by
    obtain ⟨s', hok, -⟩ := handler_spec h
    exact ⟨s', hok⟩
  matched := by
    have hchannel : ∃ e v w, ∃ round, round <+: [.cmdOut, .accepted, .semDown] ∧
        Channel s e v w round := by
      rcases h.phase with hq | ⟨t, hch, -, -⟩
      · exact ⟨_, _, _, _, List.nil_prefix, hq.channel⟩
      · rcases hch with hc | hc
        · exact ⟨_, _, _, _, ⟨_, rfl⟩, hc⟩
        · exact ⟨_, _, _, _, ⟨_, rfl⟩, hc⟩
    obtain ⟨e, v, w, round, hpre, hc⟩ := hchannel
    obtain ⟨n, hn⟩ := hc.trace
    exact ⟨n + 1, hn ▸ prefix_rounds n hpre⟩
  free := by
    intro hfree
    rcases h.phase with hq | ⟨t, -, hp, -⟩
    · exact ⟨hq.channel.expects, hq.channel.value⟩
    · have hheld := h.locked.holder (place_of_pending hp)
      rw [hfree] at hheld
      cases hheld

/-- In every run, with interrupts at any point: the semaphore keeps to one unit, the handler never
fails, and every command gets one interrupt and one `sem_down` before the next. -/
theorem channel_sound (h : Reachable IdeStart IdeStep s) : ChannelSound s :=
  channelSound_of_ideInv (reachable_invariant IdeInv h (fun _ => ideInv_start) fun _ _ => step_inv)

/-! ## A read and a write -/

def ideState : IdeState := ⟨freeLock, false, 0, [], fun _ => .idle, []⟩

theorem ideStart_ideState : IdeStart ideState :=
  ⟨KernelLocks.lockInit_freeLock, rfl, rfl, rfl, fun _ => rfl, rfl⟩

/-- Thread 0 sleeps for its interrupt, thread 1 gets its own before it waits, and two interrupts
come that nobody has asked for. -/
def busyChannel : List IdeEvent :=
  .interrupt :: .call 0 ⟨false, 0, 1⟩ :: List.replicate 10 (.execute 0 true) ++
    .call 1 ⟨true, 9, 1⟩ :: .interrupt :: .interrupt :: List.replicate 10 (.execute 0 true) ++
    List.replicate 9 (.execute 1 true) ++ .interrupt :: List.replicate 10 (.execute 1 true)

theorem channel_sound_two_threads : ∃ s : IdeState, s.trace = rounds 2 ∧ s.lock.holder = none ∧
    ChannelSound s := by
  have hrun : (runs happens (fun s e => decide (Enabled s e)) busyChannel ideState).map
      (fun s => (s.trace, s.lock.holder, s.stage 0, s.stage 1)) =
      some (rounds 2, none, .idle, .idle) := by
    decide +kernel
  obtain ⟨s, hs, hval⟩ := Option.map_eq_some_iff.mp hrun
  simp only [Prod.mk.injEq] at hval
  have hreach : Relation.ReflTransGen IdeStep ideState s :=
    runs_reaches (fun _ _ e hf hc => ⟨e, of_decide_eq_true hf, hc⟩) hs
  exact ⟨s, hval.1, hval.2.1, channel_sound ⟨ideState, ideStart_ideState, hreach⟩⟩

end DeviceIde
