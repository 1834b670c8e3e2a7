import Leeos.KernelLockCallers
import Mathlib.Data.Finset.Card

/-!
# Thread numbers (`allocate_next_pid` in `thread/thread.c`)

`next_pid` is incremented with `pid_lock` held and read after the lock has been released. Any number
of threads create threads and processes, and a switch may come between any two statements, those of
`lock_acquire` and `lock_release` included.
-/
namespace KernelPids

open ExecRules KernelLockCallers
open KernelLocks (LockState LockEvent LockAssertion LockInit freeLock)

/-- Where a thread is in `allocate_next_pid`. -/
inductive Stage where
  | idle
  | acquiring
  | holding
  | incremented
  | releasing
  | released
  deriving DecidableEq, Repr

/-- `created` counts the calls, and `pids` are the numbers they have returned. -/
structure PidState where
  lock : LockState
  nextPid : ℕ
  stage : ℕ → Stage
  created : ℕ
  pids : List ℕ

abbrev PidM := Exec LockAssertion PidState Unit

def PidState.goto (s : PidState) (t : ℕ) (st : Stage) : PidState :=
  { s with stage := Function.update s.stage t st }

def lockStatement (t : ℕ) (e : LockEvent) (after : LockState → Stage) : PidM :=
  onLock PidState.lock (fun s l => { s.goto t (after l) with lock := l }) id e

/-- `pid_t` has 16 bits. -/
def incrementPid (t : ℕ) : PidM := modify fun s =>
  { s.goto t .incremented with nextPid := (s.nextPid + 1) % 2 ^ 16 }

def returnPid (t : ℕ) : PidM := modify fun s =>
  { s.goto t .idle with pids := s.nextPid :: s.pids }

/-- The statement at which thread `t` stands. -/
def execute (t : ℕ) : PidM := do
  let s ← get
  match s.stage t with
  | .idle => pure ()
  | .acquiring =>
    lockStatement t (.execute t) fun l => if Returned l t then .holding else .acquiring
  | .holding => incrementPid t
  | .incremented => lockStatement t (.release t) fun _ => .releasing
  | .releasing =>
    lockStatement t (.execute t) fun l => if Returned l t then .released else .releasing
  | .released => returnPid t

/-- The call of `allocate_next_pid`, up to the first statement of `lock_acquire`. -/
def call (t : ℕ) : PidM := do
  modify fun s => { s with created := s.created + 1 }
  lockStatement t (.acquire t) fun _ => .acquiring

inductive PidEvent where
  | call (t : ℕ)
  | execute (t : ℕ)
  deriving DecidableEq, Repr

def happens : PidEvent → PidM
  | .call t => call t
  | .execute t => execute t

/-- A thread waits in `sem_down` for a unit. -/
def Enabled (s : PidState) : PidEvent → Prop
  | .call t => s.stage t = .idle
  | .execute t => s.stage t ≠ .idle ∧ (s.lock.pc t = .semDown → s.lock.value ≠ 0)

instance (s : PidState) (e : PidEvent) : Decidable (Enabled s e) := by
  cases e <;> simp only [Enabled] <;> infer_instance

def PidStep (s s' : PidState) : Prop := ∃ e, Enabled s e ∧ happens e s = .ok ((), s')

/-- No thread increments `next_pid` while another has released the lock and not read yet. -/
def Orderly (s : PidState) : PidEvent → Prop
  | .call _ => True
  | .execute t => s.stage t = .holding → ∀ u, s.stage u ≠ .released

def OrderlyStep (s s' : PidState) : Prop :=
  ∃ e, Orderly s e ∧ Enabled s e ∧ happens e s = .ok ((), s')

/-- Before the first thread is created. -/
structure PidStart (s : PidState) : Prop where
  lock : LockInit s.lock
  nextPid : s.nextPid = 0
  stage : ∀ t, s.stage t = .idle
  created : s.created = 0
  pids : s.pids = []

/-! ## The invariant -/

variable {s s' : PidState} {t u : ℕ}

def Stage.place : Stage → LockPlace
  | .idle | .released => .outside
  | .acquiring => .acquiring
  | .holding | .incremented => .inside
  | .releasing => .releasing

def PidState.Locked (s : PidState) : Prop := Callers s.lock fun t => (s.stage t).place

/-- A call that has not incremented yet. -/
def Stage.waiting : Stage → Bool
  | .acquiring | .holding => true
  | _ => false

/-- A call that has incremented and not read yet. -/
def Stage.counting : Stage → Bool
  | .incremented | .releasing | .released => true
  | _ => false

/-- Below the limit of the counter: the number that is read next is new. -/
structure Counted (s : PidState) : Prop where
  waiting : ∃ w : Finset ℕ, (∀ t, t ∈ w ↔ (s.stage t).waiting = true) ∧
    s.nextPid + w.card = s.created
  below : ∀ p ∈ s.pids, p ≤ s.nextPid
  nodup : s.pids.Nodup
  one : ∀ t u, (s.stage t).counting = true → (s.stage u).counting = true → t = u
  fresh : ∀ t, (s.stage t).counting = true → s.nextPid ∉ s.pids

structure PidInv (s : PidState) : Prop where
  locked : s.Locked
  counted : s.created < 2 ^ 16 → Counted s

theorem pidInv_start (h : PidStart s) : PidInv s where
  locked := Callers.start h.lock fun t => by rw [h.stage t]; rfl
  counted := fun _ =>
    { waiting := ⟨∅, fun t => by simp [h.stage t, Stage.waiting], by simp [h.nextPid, h.created]⟩
      below := by simp [h.pids]
      nodup := by simp [h.pids]
      one := fun t u ht => by simp [h.stage t, Stage.counting] at ht
      fresh := fun t ht => by simp [h.stage t, Stage.counting] at ht }

/-- A thread that moves on in the lock does not touch the counter. -/
theorem Counted.move {l : LockState} {st : Stage} (h : Counted s)
    (hw : st.waiting = (s.stage t).waiting) (hc : st.counting = (s.stage t).counting) :
    Counted { s.goto t st with lock := l } := by
  have hwait : ∀ u, (Function.update s.stage t st u).waiting = (s.stage u).waiting := by
    intro u
    by_cases hu : u = t
    · subst hu
      rw [Function.update_self, hw]
    · rw [Function.update_of_ne hu]
  have hcount : ∀ u, (Function.update s.stage t st u).counting = (s.stage u).counting := by
    intro u
    by_cases hu : u = t
    · subst hu
      rw [Function.update_self, hc]
    · rw [Function.update_of_ne hu]
  obtain ⟨w, hmem, hsum⟩ := h.waiting
  constructor
  · exact ⟨w, fun u => by simp only [PidState.goto, hwait, hmem], hsum⟩
  · exact h.below
  · exact h.nodup
  · intro u v hu hv
    simp only [PidState.goto, hcount] at hu hv
    exact h.one u v hu hv
  · intro u hu
    simp only [PidState.goto, hcount] at hu
    exact h.fresh u hu

theorem lockStatement_inv {e : LockEvent} {after : LockState → Stage} (h : PidInv s)
    (hlock : ∃ l, KernelLocks.next e s.lock = .ok ((), l) ∧
      Callers l (Function.update (fun u => (s.stage u).place) t (after l).place))
    (hflags : ∀ l, (after l).waiting = (s.stage t).waiting ∧
      (after l).counting = (s.stage t).counting)
    (hrun : lockStatement t e after s = .ok ((), s')) : PidInv s' := by
  obtain ⟨l, hl, rfl⟩ := onLock_ok hrun
  have hc := Callers.of_next hlock hl
  exact ⟨hc.enter, fun hlt => (h.counted hlt).move (hflags l).1 (hflags l).2⟩

theorem call_inv (h : PidInv s) (ht : s.stage t = .idle)
    (hrun : call t s = .ok ((), s')) : PidInv s' := by
  rw [call, modify_bind] at hrun
  obtain ⟨l, hl, rfl⟩ := onLock_ok hrun
  have hout : (s.stage t).place = .outside := by rw [ht]; rfl
  have hcallers := Callers.of_next (h.locked.acquire hout) hl
  refine ⟨hcallers.enter, fun hlt => ?_⟩
  have hc := h.counted (show s.created < 2 ^ 16 by
    have : s.created + 1 < 2 ^ 16 := hlt
    omega)
  obtain ⟨w, hmem, hsum⟩ := hc.waiting
  have hnew : t ∉ w := by simp [hmem, ht, Stage.waiting]
  have hcount : ∀ u, ((Function.update s.stage t .acquiring) u).counting = true →
      (s.stage u).counting = true := by
    intro u hu
    by_cases hut : u = t
    · subst hut
      simp [Stage.counting] at hu
    · rwa [Function.update_of_ne hut] at hu
  constructor
  · refine ⟨insert t w, fun u => ?_, ?_⟩
    · by_cases hu : u = t
      · subst hu
        simp [PidState.goto, Stage.waiting]
      · simp [PidState.goto, hu, hmem]
    · rw [Finset.card_insert_of_notMem hnew]
      exact (Nat.add_assoc _ _ 1).symm.trans (congrArg (· + 1) hsum)
  · exact hc.below
  · exact hc.nodup
  · exact fun u v hu hv => hc.one u v (hcount u hu) (hcount v hv)
  · exact fun u hu => hc.fresh u (hcount u hu)

theorem incrementPid_inv (h : PidInv s) (ht : s.stage t = .holding)
    (hord : ∀ u, s.stage u ≠ .released) (hrun : incrementPid t s = .ok ((), s')) : PidInv s' := by
  rw [incrementPid, modify_apply] at hrun
  cases hrun
  have hlocked : (s.goto t .incremented).Locked := h.locked.goOn (by rw [ht]; rfl)
  refine ⟨hlocked, fun hlt => ?_⟩
  have hc := h.counted hlt
  obtain ⟨w, hmem, hsum⟩ := hc.waiting
  have hin : t ∈ w := by simp [hmem, ht, Stage.waiting]
  have hcard := Finset.card_erase_add_one hin
  have hnowrap : (s.nextPid + 1) % 2 ^ 16 = s.nextPid + 1 := by
    apply Nat.mod_eq_of_lt
    have : s.created < 2 ^ 16 := hlt
    omega
  have hself : (s.stage t).place.Passed := by
    rw [ht]
    exact Or.inl rfl
  -- the lock and the condition keep all others from between the increment and the read
  have halone : ∀ u, ((Function.update s.stage t .incremented) u).counting = true → u = t := by
    intro u hu
    by_contra hne
    rw [Function.update_of_ne hne] at hu
    cases hst : s.stage u with
    | incremented => exact hne (h.locked.unique (by rw [hst]; exact Or.inl rfl) hself)
    | releasing => exact hne (h.locked.unique (by rw [hst]; exact Or.inr rfl) hself)
    | released => exact hord u hst
    | idle => simp [hst, Stage.counting] at hu
    | acquiring => simp [hst, Stage.counting] at hu
    | holding => simp [hst, Stage.counting] at hu
  constructor
  · refine ⟨w.erase t, fun u => ?_, ?_⟩
    · by_cases hu : u = t
      · subst hu
        simp [PidState.goto, Stage.waiting]
      · simp [PidState.goto, hu, hmem]
    · simp only [PidState.goto, hnowrap]
      omega
  · intro p hp
    have := hc.below p hp
    simp only [hnowrap]
    omega
  · exact hc.nodup
  · exact fun u v hu hv => (halone u hu).trans (halone v hv).symm
  · intro u _ hp
    simp only [hnowrap] at hp
    have := hc.below _ hp
    omega

theorem returnPid_inv (h : PidInv s) (ht : s.stage t = .released)
    (hrun : returnPid t s = .ok ((), s')) : PidInv s' := by
  rw [returnPid, modify_apply] at hrun
  cases hrun
  have hlocked : (s.goto t .idle).Locked := h.locked.goOn (by rw [ht]; rfl)
  refine ⟨hlocked, fun hlt => ?_⟩
  have hc := h.counted hlt
  have hself : (s.stage t).counting = true := by
    rw [ht]
    rfl
  have hnone : ∀ u, ¬ ((Function.update s.stage t .idle) u).counting = true := by
    intro u hu
    by_cases hut : u = t
    · subst hut
      simp [Stage.counting] at hu
    · rw [Function.update_of_ne hut] at hu
      exact hut (hc.one u t hu hself)
  obtain ⟨w, hmem, hsum⟩ := hc.waiting
  constructor
  · refine ⟨w, fun u => ?_, hsum⟩
    by_cases hu : u = t
    · subst hu
      simp [PidState.goto, hmem, ht, Stage.waiting]
    · simp [PidState.goto, hu, hmem]
  · intro p hp
    rcases List.mem_cons.mp hp with rfl | hp
    · exact le_rfl
    · exact hc.below p hp
  · exact List.nodup_cons.mpr ⟨hc.fresh t hself, hc.nodup⟩
  · exact fun u v hu => absurd hu (hnone u)
  · exact fun u hu => absurd hu (hnone u)

theorem execute_inv (h : PidInv s) (hord : Orderly s (.execute t)) (he : Enabled s (.execute t))
    (hrun : execute t s = .ok ((), s')) : PidInv s' := by
  obtain ⟨hidle, hwait⟩ := he
  rw [execute, get_bind] at hrun
  cases ht : s.stage t with
  | idle => exact absurd ht hidle
  | acquiring =>
    simp only [ht] at hrun
    obtain ⟨l, hl, hc⟩ := h.locked.execute_acquiring (t := t) (by rw [ht]; rfl) hwait
    refine lockStatement_inv h ⟨l, hl, ?_⟩ (fun l => ?_) hrun
    · rwa [apply_ite Stage.place]
    · rw [ht]
      split <;> exact ⟨rfl, rfl⟩
  | holding =>
    simp only [ht] at hrun
    exact incrementPid_inv h ht (hord ht) hrun
  | incremented =>
    simp only [ht] at hrun
    refine lockStatement_inv h (h.locked.release (by rw [ht]; rfl)) (fun l => ?_) hrun
    rw [ht]
    exact ⟨rfl, rfl⟩
  | releasing =>
    simp only [ht] at hrun
    obtain ⟨l, hl, hc⟩ := h.locked.execute_releasing (t := t) (by rw [ht]; rfl)
    refine lockStatement_inv h ⟨l, hl, ?_⟩ (fun l => ?_) hrun
    · rwa [apply_ite Stage.place]
    · rw [ht]
      split <;> exact ⟨rfl, rfl⟩
  | released =>
    simp only [ht] at hrun
    exact returnPid_inv h ht hrun

theorem step_inv (h : PidInv s) (hs : OrderlyStep s s') : PidInv s' := by
  obtain ⟨e, hord, he, hrun⟩ := hs
  cases e with
  | call t => exact call_inv h he hrun
  | execute t => exact execute_inv h hord he hrun

/-- As long as nobody increments while another has released the lock and not read yet, fewer than
65536 creations get numbers of their own. -/
theorem pids_differ (h : Reachable PidStart OrderlyStep s) (hc : s.created < 2 ^ 16) :
    s.pids.Nodup := by
  have hinv := reachable_invariant PidInv h (fun _ => pidInv_start) fun _ _ => step_inv
  exact (hinv.counted hc).nodup

/-! ## Two creators -/

def pidState : PidState := ⟨freeLock, 0, fun _ => .idle, 0, []⟩

theorem pidStart_pidState : PidStart pidState :=
  ⟨KernelLocks.lockInit_freeLock, rfl, fun _ => rfl, rfl, rfl⟩

def PidEvent.thread : PidEvent → ℕ
  | .call t | .execute t => t

theorem happens_frame {e : PidEvent} (h : happens e s = .ok ((), s')) (hu : u ≠ e.thread) :
    s'.stage u = s.stage u := by
  have hlock : ∀ {r : PidState} {t : ℕ} {e : LockEvent} {after : LockState → Stage}, u ≠ t →
      lockStatement t e after r = .ok ((), s') → s'.stage u = r.stage u := by
    intro r t e after hu hrun
    obtain ⟨l, -, rfl⟩ := onLock_ok hrun
    exact Function.update_of_ne hu ..
  cases e with
  | call t =>
    simp only [happens, call, modify_bind] at h
    exact (hlock hu h).trans rfl
  | execute t =>
    simp only [happens, execute, get_bind] at h
    cases ht : s.stage t with
    | idle =>
      simp only [ht] at h
      cases h
      rfl
    | acquiring =>
      simp only [ht] at h
      exact hlock hu h
    | holding =>
      simp only [ht] at h
      cases h
      exact Function.update_of_ne hu ..
    | incremented =>
      simp only [ht] at h
      exact hlock hu h
    | releasing =>
      simp only [ht] at h
      exact hlock hu h
    | released =>
      simp only [ht] at h
      cases h
      exact Function.update_of_ne hu ..

/-- Thread 1 comes as far as `sem_down` while thread 0 has the lock. -/
def waitingRun : List PidEvent :=
  .call 0 :: List.replicate 5 (.execute 0) ++ [.call 1, .execute 1] ++
    List.replicate 9 (.execute 0) ++ List.replicate 13 (.execute 1)

def orderlyOfTwo (s : PidState) (e : PidEvent) : Bool :=
  decide (Enabled s e ∧ e.thread < 2 ∧
    (s.stage e.thread = .holding → s.stage 0 ≠ .released ∧ s.stage 1 ≠ .released))

theorem orderlyOfTwo_step {e : PidEvent} (hrest : ∀ u, 2 ≤ u → s.stage u = .idle)
    (hf : orderlyOfTwo s e = true) (h : happens e s = .ok ((), s')) :
    (∀ u, 2 ≤ u → s'.stage u = .idle) ∧ OrderlyStep s s' := by
  obtain ⟨he, htwo, hnone⟩ := of_decide_eq_true hf
  refine ⟨fun u hu => (happens_frame h (by omega)).trans (hrest u hu), e, ?_, he, h⟩
  cases e with
  | call t => trivial
  | execute t =>
    intro ht u hu
    rcases Nat.lt_or_ge u 2 with hlt | hge
    · obtain rfl | rfl : u = 0 ∨ u = 1 := by omega
      · exact (hnone ht).1 hu
      · exact (hnone ht).2 hu
    · rw [hrest u hge] at hu
      cases hu

theorem pids_differ_two : ∃ s : PidState, s.pids = [2, 1] ∧ s.pids.Nodup := by
  have hrun : (runs happens orderlyOfTwo waitingRun pidState).map
      (fun s => (s.pids, s.created)) = some ([2, 1], 2) := by
    decide +kernel
  obtain ⟨s, hs, hval⟩ := Option.map_eq_some_iff.mp hrun
  obtain ⟨hpids, hcreated⟩ := Prod.mk.inj hval
  have hreach := runs_reaches_of (fun s => ∀ u, 2 ≤ u → s.stage u = .idle)
    (fun _ _ _ => orderlyOfTwo_step) (fun _ _ => rfl) hs
  exact ⟨s, hpids, pids_differ ⟨pidState, pidStart_pidState, hreach⟩ (by rw [hcreated]; decide)⟩

/-- Thread 1 increments between the `lock_release` of thread 0 and its read. -/
theorem pid_twice : ¬ ∀ s, Reachable PidStart PidStep s → s.created < 2 ^ 16 → s.pids.Nodup := by
  intro h
  have hrun : (runs happens (fun s e => decide (Enabled s e))
      (.call 0 :: List.replicate 13 (.execute 0) ++ .call 1 :: List.replicate 14 (.execute 1) ++
        [.execute 0]) pidState).map (fun s => (s.pids, s.created)) = some ([2, 2], 2) := by
    decide +kernel
  obtain ⟨s, hs, hval⟩ := Option.map_eq_some_iff.mp hrun
  obtain ⟨hpids, hcreated⟩ := Prod.mk.inj hval
  have hreach : Relation.ReflTransGen PidStep pidState s :=
    runs_reaches (fun _ _ e hf hc => ⟨e, of_decide_eq_true hf, hc⟩) hs
  have hnodup := h s ⟨pidState, pidStart_pidState, hreach⟩ (by rw [hcreated]; decide)
  rw [hpids] at hnodup
  exact absurd hnodup (by decide)

end KernelPids
