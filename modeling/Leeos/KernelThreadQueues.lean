import Leeos.KernelThreads

/-!
# Status, ready list and waiter lists

What the scheduler is for, without its code: a status for each thread, one list of the threads
that may be given the CPU, one list for each semaphore, and moves that change a status together
with the list that goes with it. `Settled` is what every move keeps.
-/
namespace KernelThreadQueues

open KernelThreads

structure Roster where
  status : ℕ → TaskStatus
  magic : ℕ → ℕ
  all : List ℕ
  ready : List ℕ
  cpu : ℕ
  idle : ℕ
  kernelStacks : ℕ → Option Frame
  sems : ℕ → Semaphore
  downs : ℕ → ℕ
  ups : ℕ → ℕ

namespace Roster

def InSemDown (r : Roster) (sem t : ℕ) : Prop :=
  ∃ oldStatus oldStatus', r.kernelStacks t = some (.threadLock oldStatus (.semDown sem oldStatus'))

/-- `ready` is the ready list with `t` put in at some place. -/
def enqueue (r : Roster) (t : ℕ) (ready : List ℕ) : Roster :=
  { r with status := Function.update r.status t .ready, ready := ready }

def sleep (r : Roster) (st : TaskStatus) : Roster :=
  { r with status := Function.update r.status r.cpu st }

def await (r : Roster) (sem : ℕ) : Roster :=
  { r.sleep .blocked with
    sems := Function.update r.sems sem
      { r.sems sem with waiter := (r.sems sem).waiter ++ [r.cpu] } }

def park (r : Roster) (frame : Option Frame) : Roster :=
  { r with kernelStacks := Function.update r.kernelStacks r.cpu frame }

def dispatch (r : Roster) (next : ℕ) (rest : List ℕ) : Roster :=
  { r with status := Function.update r.status next .running, ready := rest, cpu := next }

def join (r : Roster) (t : ℕ) : Roster :=
  { r with
    status := Function.update r.status t .ready
    magic := Function.update r.magic t 0x00007c00
    ready := r.ready ++ [t]
    all := r.all ++ [t]
    kernelStacks := Function.update r.kernelStacks t (some .kernelThread) }

def take (r : Roster) (sem : ℕ) : Roster :=
  { r with
    sems := Function.update r.sems sem { r.sems sem with value := 0 }
    downs := Function.update r.downs sem (r.downs sem + 1) }

def pop (r : Roster) (sem : ℕ) (rest : List ℕ) : Roster :=
  { r with sems := Function.update r.sems sem { r.sems sem with waiter := rest } }

def post (r : Roster) (sem : ℕ) : Roster :=
  { r with
    sems := Function.update r.sems sem { r.sems sem with value := 1 }
    ups := Function.update r.ups sem (r.ups sem + 1) }

end Roster

/-- `init` is the value each semaphore starts with. -/
structure Settled (init : ℕ → ℕ) (r : Roster) : Prop where
  all_nodup : r.all.Nodup
  cpu_live : r.cpu ∈ r.all
  idle_live : r.idle ∈ r.all
  running_cpu : ∀ t ∈ r.all, r.status t = .running → t = r.cpu
  ready_nodup : r.ready.Nodup
  ready_iff : ∀ t, t ∈ r.ready ↔ t ∈ r.all ∧ r.status t = .ready
  idle_status : r.status r.idle = .running ∨ r.status r.idle = .ready ∨ r.status r.idle = .blocked
  idle_frame : ∀ sem, ¬ r.InSemDown sem r.idle
  waiter_nodup : ∀ sem, (r.sems sem).waiter.Nodup
  waiter_live : ∀ sem, ∀ t ∈ (r.sems sem).waiter, t ∈ r.all
  waiter_blocked : ∀ sem, ∀ t ∈ (r.sems sem).waiter, r.status t = .blocked
  waiter_frame : ∀ sem, ∀ t ∈ (r.sems sem).waiter, r.InSemDown sem t
  parked : ∀ t ∈ r.all, t ≠ r.cpu → r.kernelStacks t ≠ none
  magic : ∀ t ∈ r.all, r.magic t = 0x00007c00
  value_le : ∀ sem, (r.sems sem).value ≤ 1
  balance : ∀ sem, (r.sems sem).value + r.downs sem = init sem + r.ups sem

/-- `t` was popped from the waiters of `sem` and made READY, and has not tested the value since. -/
structure Woken (r : Roster) (sem t : ℕ) : Prop where
  live : t ∈ r.all
  frame : r.InSemDown sem t
  popped : t ∉ (r.sems sem).waiter
  status : r.status t = .ready ∨ r.status t = .running

/-- While a unit is free, the waiters do not sleep unattended. -/
def Attended (r : Roster) (sem : ℕ) : Prop :=
  (r.sems sem).value = 1 → (r.sems sem).waiter ≠ [] → ∃ t, Woken r sem t

variable {init : ℕ → ℕ} {r : Roster} {sem t : ℕ}

theorem InSemDown_unique {sem' : ℕ} (h : r.InSemDown sem t) (h' : r.InSemDown sem' t) :
    sem = sem' := by
  obtain ⟨o, o', ho⟩ := h
  obtain ⟨p, p', hp⟩ := h'
  rw [ho] at hp
  cases hp
  rfl

/-- The waiter lists have no thread in common: a thread waits where its stack says. -/
theorem Settled.waiter_apart (h : Settled init r) {sem' : ℕ} (ht : t ∈ (r.sems sem).waiter)
    (ht' : t ∈ (r.sems sem').waiter) : sem = sem' :=
  InSemDown_unique (h.waiter_frame sem t ht) (h.waiter_frame sem' t ht')

theorem Settled.waiter_not_ready (h : Settled init r) (ht : t ∈ (r.sems sem).waiter) :
    t ∉ r.ready := by
  intro hr
  have hb := h.waiter_blocked sem t ht
  rw [((h.ready_iff t).mp hr).2] at hb
  cases hb

theorem Settled.not_waiter (h : Settled init r) (hb : r.status t ≠ .blocked) :
    t ∉ (r.sems sem).waiter := fun ht => hb (h.waiter_blocked sem t ht)

theorem Settled.not_ready (h : Settled init r) (hb : r.status t ≠ .ready) : t ∉ r.ready :=
  fun ht => hb ((h.ready_iff t).mp ht).2

theorem Settled.idle_blocked (h : Settled init r) (hcpu : r.status r.cpu ≠ .running)
    (he : r.ready = []) : r.status r.idle = .blocked := by
  rcases h.idle_status with hi | hi | hi
  · exact absurd (h.running_cpu _ h.idle_live hi ▸ hi) hcpu
  · have := (h.ready_iff r.idle).mpr ⟨h.idle_live, hi⟩
    simp [he] at this
  · exact hi

theorem Settled.idle_not_waiter (h : Settled init r) : r.idle ∉ (r.sems sem).waiter :=
  fun ht => h.idle_frame sem (h.waiter_frame sem _ ht)

/-! ## The moves keep it -/

theorem Settled.enqueue (h : Settled init r) {ready : List ℕ} (hp : ready.Perm (t :: r.ready))
    (ht : t ∈ r.all) (hst : r.status t ≠ .ready) (hw : ∀ sem, t ∉ (r.sems sem).waiter) :
    Settled init (r.enqueue t ready) := by
  refine { h with running_cpu := ?_, ready_nodup := ?_, ready_iff := ?_, idle_status := ?_,
                  waiter_blocked := ?_ }
  · intro u hu hr
    by_cases hut : u = t
    · simp [Roster.enqueue, hut] at hr
    · exact h.running_cpu u hu (by simpa [Roster.enqueue, hut] using hr)
  · exact hp.nodup_iff.mpr (List.nodup_cons.mpr ⟨h.not_ready hst, h.ready_nodup⟩)
  · intro u
    by_cases hut : u = t
    · simp [Roster.enqueue, hp.mem_iff, hut, ht]
    · simp [Roster.enqueue, hp.mem_iff, hut, h.ready_iff]
  · by_cases hit : r.idle = t
    · simp [Roster.enqueue, hit]
    · simpa [Roster.enqueue, hit] using h.idle_status
  · intro sem u hu
    have hut : u ≠ t := fun e => hw sem (e ▸ hu)
    simpa [Roster.enqueue, hut] using h.waiter_blocked sem u hu

theorem Attended.enqueue (h : Attended r sem) {ready : List ℕ} :
    Attended (r.enqueue t ready) sem := by
  intro hv hw
  obtain ⟨u, hu⟩ := h hv hw
  refine ⟨u, hu.live, hu.frame, hu.popped, ?_⟩
  by_cases hut : u = t
  · simp [Roster.enqueue, hut]
  · simpa [Roster.enqueue, hut] using hu.status

theorem Settled.sleep (h : Settled init r) {st : TaskStatus} (hst : st.Locked)
    (hr : r.status r.cpu = .running) (hi : r.cpu = r.idle → st = .blocked) :
    Settled init (r.sleep st) := by
  have hne : st ≠ .running ∧ st ≠ .ready := by
    rcases hst with rfl | rfl | rfl <;> decide
  refine { h with running_cpu := ?_, ready_iff := ?_, idle_status := ?_, waiter_blocked := ?_ }
  · intro u hu hru
    by_cases huc : u = r.cpu
    · exact huc
    · exact h.running_cpu u hu (by simpa [Roster.sleep, huc] using hru)
  · intro u
    by_cases huc : u = r.cpu
    · simp [Roster.sleep, huc, hne.2, h.ready_iff, hr]
    · simp [Roster.sleep, huc, h.ready_iff]
  · by_cases hic : r.idle = r.cpu
    · simp [Roster.sleep, hic, hi hic.symm]
    · simpa [Roster.sleep, hic] using h.idle_status
  · intro sem u hu
    have huc : u ≠ r.cpu := by
      rintro rfl
      exact h.not_waiter (by simp [hr]) hu
    simpa [Roster.sleep, huc] using h.waiter_blocked sem u hu

theorem Attended.sleep (h : Attended r sem) {st : TaskStatus} (hf : ¬ r.InSemDown sem r.cpu) :
    Attended (r.sleep st) sem := by
  intro hv hw
  obtain ⟨u, hu⟩ := h hv hw
  have huc : u ≠ r.cpu := by
    rintro rfl
    exact hf hu.frame
  exact ⟨u, hu.live, hu.frame, hu.popped, by simpa [Roster.sleep, huc] using hu.status⟩

theorem Settled.await (h : Settled init r) (hr : r.status r.cpu = .running)
    (hi : r.cpu ≠ r.idle) (hf : r.InSemDown sem r.cpu) : Settled init (r.await sem) := by
  have hs : Settled init (r.sleep .blocked) :=
    h.sleep (Or.inl rfl) hr fun e => absurd e hi
  have hc : ∀ sem', r.cpu ∉ (r.sems sem').waiter := fun sem' => h.not_waiter (by simp [hr])
  have hmem : ∀ sem' u, u ∈ ((r.await sem).sems sem').waiter →
      u ∈ (r.sems sem').waiter ∨ u = r.cpu ∧ sem' = sem := by
    intro sem' u hu
    by_cases hss : sem' = sem
    · subst hss
      simpa [Roster.await] using hu
    · exact Or.inl (by simpa [Roster.await, hss] using hu)
  refine { hs with waiter_nodup := ?_, waiter_live := ?_, waiter_blocked := ?_,
                   waiter_frame := ?_, value_le := ?_, balance := ?_ }
  · intro sem'
    by_cases hss : sem' = sem
    · subst hss
      simp only [Roster.await, Function.update_self]
      apply List.nodup_append.mpr ⟨h.waiter_nodup sem', by simp, ?_⟩
      intro u hu v hv e
      rw [e, List.mem_singleton.mp hv] at hu
      exact hc sem' hu
    · simpa [Roster.await, hss] using h.waiter_nodup sem'
  · intro sem' u hu
    rcases hmem sem' u hu with hu | ⟨rfl, -⟩
    · exact h.waiter_live sem' u hu
    · exact h.cpu_live
  · intro sem' u hu
    rcases hmem sem' u hu with hu | ⟨rfl, -⟩
    · exact hs.waiter_blocked sem' u hu
    · simp [Roster.await, Roster.sleep]
  · intro sem' u hu
    rcases hmem sem' u hu with hu | ⟨rfl, rfl⟩
    · exact h.waiter_frame sem' u hu
    · exact hf
  · intro sem'
    have := h.value_le sem'
    by_cases hss : sem' = sem
    · subst hss
      simpa [Roster.await] using this
    · simpa [Roster.await, hss] using this
  · intro sem'
    have := h.balance sem'
    by_cases hss : sem' = sem
    · subst hss
      simpa [Roster.await, Roster.sleep] using this
    · simpa [Roster.await, Roster.sleep, hss] using this

theorem Attended.await {sem' : ℕ} (h : sem' ≠ sem → Attended r sem')
    (hv : (r.sems sem).value = 0) (hf : r.InSemDown sem r.cpu) :
    Attended (r.await sem) sem' := by
  by_cases hss : sem' = sem
  · subst hss
    intro hv'
    simp [Roster.await, hv] at hv'
  · have hs : Attended (r.sleep .blocked) sem' :=
      (h hss).sleep fun hf' => hss (InSemDown_unique hf' hf)
    intro hv' hw
    have hsem : (r.await sem).sems sem' = (r.sleep .blocked).sems sem' := by
      simp [Roster.await, Roster.sleep, hss]
    obtain ⟨u, hu⟩ := hs (hsem ▸ hv') (hsem ▸ hw)
    exact ⟨u, hu.live, hu.frame, hsem ▸ hu.popped, hu.status⟩

theorem Settled.park (h : Settled init r) {frame : Option Frame}
    (hw : ∀ sem, r.cpu ∉ (r.sems sem).waiter)
    (hi : r.cpu = r.idle → ∀ sem, ¬ (r.park frame).InSemDown sem r.cpu) :
    Settled init (r.park frame) := by
  refine { h with idle_frame := ?_, waiter_frame := ?_, parked := ?_ }
  · intro sem hf
    by_cases hic : r.cpu = r.idle
    · exact hi hic sem (hic ▸ hf)
    · exact h.idle_frame sem
        (by simpa [Roster.InSemDown, Roster.park, Ne.symm hic] using hf)
  · intro sem u hu
    have huc : u ≠ r.cpu := by
      rintro rfl
      exact hw sem hu
    simpa [Roster.InSemDown, Roster.park, huc] using h.waiter_frame sem u hu
  · intro u hu huc
    simpa [Roster.park, show u ≠ r.cpu from huc] using h.parked u hu huc

theorem Attended.park (h : Attended r sem) {frame : Option Frame}
    (hf : ¬ r.InSemDown sem r.cpu) : Attended (r.park frame) sem := by
  intro hv hw
  obtain ⟨u, hu⟩ := h hv hw
  have huc : u ≠ r.cpu := by
    rintro rfl
    exact hf hu.frame
  exact ⟨u, hu.live, by simpa [Roster.InSemDown, Roster.park, huc] using hu.frame, hu.popped,
    hu.status⟩

theorem Settled.dispatch (h : Settled init r) {next : ℕ} {rest : List ℕ}
    (hn : r.ready = next :: rest) (hcpu : r.status r.cpu ≠ .running)
    (hpark : r.kernelStacks r.cpu ≠ none) : Settled init (r.dispatch next rest) := by
  have hnext := (h.ready_iff next).mp (by simp [hn])
  have hnodup := List.nodup_cons.mp (hn ▸ h.ready_nodup)
  refine { h with cpu_live := hnext.1, running_cpu := ?_, ready_nodup := hnodup.2,
                  ready_iff := ?_, idle_status := ?_, waiter_blocked := ?_, parked := ?_ }
  · intro u hu hr
    by_cases hun : u = next
    · exact hun
    · have := h.running_cpu u hu (by simpa [Roster.dispatch, hun] using hr)
      subst this
      exact absurd (by simpa [Roster.dispatch, hun] using hr) hcpu
  · intro u
    by_cases hun : u = next
    · simp [Roster.dispatch, hun, hnodup.1]
    · simpa [Roster.dispatch, hun, hn] using h.ready_iff u
  · by_cases hin : r.idle = next
    · simp [Roster.dispatch, hin]
    · simpa [Roster.dispatch, hin] using h.idle_status
  · intro sem u hu
    have hun : u ≠ next := by
      rintro rfl
      exact h.not_waiter (by simp [hnext.2]) hu
    simpa [Roster.dispatch, hun] using h.waiter_blocked sem u hu
  · intro u hu _
    by_cases huc : u = r.cpu
    · simpa [Roster.dispatch, huc] using hpark
    · exact h.parked u hu huc

theorem Attended.dispatch (h : Attended r sem) {next : ℕ} {rest : List ℕ} :
    Attended (r.dispatch next rest) sem := by
  intro hv hw
  obtain ⟨u, hu⟩ := h hv hw
  refine ⟨u, hu.live, hu.frame, hu.popped, ?_⟩
  by_cases hun : u = next
  · simp [Roster.dispatch, hun]
  · simpa [Roster.dispatch, hun] using hu.status

theorem Settled.join (h : Settled init r) (ht : t ∉ r.all) : Settled init (r.join t) := by
  have hne : ∀ u ∈ r.all, u ≠ t := fun u hu e => ht (e ▸ hu)
  refine { h with all_nodup := ?_, cpu_live := ?_, idle_live := ?_, running_cpu := ?_,
                  ready_nodup := ?_, ready_iff := ?_, idle_status := ?_, idle_frame := ?_,
                  waiter_live := ?_, waiter_blocked := ?_, waiter_frame := ?_, parked := ?_,
                  magic := ?_ }
  · exact List.nodup_append.mpr ⟨h.all_nodup, by simp, by simpa using hne⟩
  · exact List.mem_append_left _ h.cpu_live
  · exact List.mem_append_left _ h.idle_live
  · intro u hu hr
    by_cases hut : u = t
    · simp [Roster.join, hut] at hr
    · exact h.running_cpu u (by simpa [Roster.join, hut] using hu)
        (by simpa [Roster.join, hut] using hr)
  · have hr : t ∉ r.ready := fun hr => ht ((h.ready_iff t).mp hr).1
    apply List.nodup_append.mpr ⟨h.ready_nodup, by simp, ?_⟩
    intro u hu v hv e
    rw [List.mem_singleton.mp hv] at e
    exact hr (e ▸ hu)
  · intro u
    by_cases hut : u = t
    · simp [Roster.join, hut]
    · simpa [Roster.join, hut] using h.ready_iff u
  · simpa [Roster.join, hne _ h.idle_live] using h.idle_status
  · intro sem hf
    exact h.idle_frame sem
      (by simpa [Roster.InSemDown, Roster.join, hne _ h.idle_live] using hf)
  · intro sem u hu
    exact List.mem_append_left _ (h.waiter_live sem u hu)
  · intro sem u hu
    simpa [Roster.join, hne u (h.waiter_live sem u hu)] using h.waiter_blocked sem u hu
  · intro sem u hu
    simpa [Roster.InSemDown, Roster.join, hne u (h.waiter_live sem u hu)]
      using h.waiter_frame sem u hu
  · intro u hu huc
    by_cases hut : u = t
    · simp [Roster.join, hut]
    · simpa [Roster.join, hut] using h.parked u (by simpa [Roster.join, hut] using hu) huc
  · intro u hu
    by_cases hut : u = t
    · simp [Roster.join, hut]
    · simpa [Roster.join, hut] using h.magic u (by simpa [Roster.join, hut] using hu)

theorem Attended.join (h : Attended r sem) (ht : t ∉ r.all) : Attended (r.join t) sem := by
  intro hv hw
  obtain ⟨u, hu⟩ := h hv hw
  have hut : u ≠ t := fun e => ht (e ▸ hu.live)
  exact ⟨u, List.mem_append_left _ hu.live,
    by simpa [Roster.InSemDown, Roster.join, hut] using hu.frame, hu.popped,
    by simpa [Roster.join, hut] using hu.status⟩

theorem Settled.set_sem (h : Settled init r) {q : Semaphore} {downs ups : ℕ → ℕ}
    (hsub : q.waiter.Sublist (r.sems sem).waiter) (hle : q.value ≤ 1)
    (hother : ∀ sem', sem' ≠ sem → downs sem' = r.downs sem' ∧ ups sem' = r.ups sem')
    (hbal : q.value + downs sem = init sem + ups sem) :
    Settled init { r with sems := Function.update r.sems sem q, downs := downs, ups := ups } := by
  have hsubs : ∀ sem', (Function.update r.sems sem q sem').waiter.Sublist
      (r.sems sem').waiter := by
    intro sem'
    by_cases hss : sem' = sem
    · subst hss
      rwa [Function.update_self]
    · rw [Function.update_of_ne hss]
  refine { h with waiter_nodup := ?_, waiter_live := ?_, waiter_blocked := ?_,
                  waiter_frame := ?_, value_le := ?_, balance := ?_ }
  · exact fun sem' => (hsubs sem').nodup (h.waiter_nodup sem')
  · exact fun sem' u hu => h.waiter_live sem' u ((hsubs sem').subset hu)
  · exact fun sem' u hu => h.waiter_blocked sem' u ((hsubs sem').subset hu)
  · exact fun sem' u hu => h.waiter_frame sem' u ((hsubs sem').subset hu)
  · intro sem'
    by_cases hss : sem' = sem
    · subst hss
      simpa using hle
    · simpa [hss] using h.value_le sem'
  · intro sem'
    by_cases hss : sem' = sem
    · subst hss
      simpa using hbal
    · simpa [hss, hother sem' hss] using h.balance sem'

theorem Attended.set_sem {sem' : ℕ} (h : Attended r sem') (hss : sem' ≠ sem) {q : Semaphore}
    {downs ups : ℕ → ℕ} : Attended { r with
      sems := Function.update r.sems sem q
      downs := downs
      ups := ups } sem' := by
  have hsame : Function.update r.sems sem q sem' = r.sems sem' := Function.update_of_ne hss _ _
  intro hv hw
  dsimp only at hv hw
  rw [hsame] at hv hw
  obtain ⟨u, hu⟩ := h hv hw
  refine ⟨u, hu.live, hu.frame, ?_, hu.status⟩
  dsimp only
  rw [hsame]
  exact hu.popped

theorem Settled.take (h : Settled init r) (hv : (r.sems sem).value = 1) :
    Settled init (r.take sem) := by
  have hbal := h.balance sem
  apply h.set_sem (q := { r.sems sem with value := 0 })
  case hsub => exact List.Sublist.refl _
  case hle => exact Nat.zero_le 1
  case hother => exact fun sem' hss => ⟨Function.update_of_ne hss _ _, rfl⟩
  case hbal =>
    simp only [Function.update_self]
    omega

/-- Who takes the unit may leave the waiters asleep: there is no unit left to take. -/
theorem Attended.take {sem' : ℕ} (h : sem' ≠ sem → Attended r sem') :
    Attended (r.take sem) sem' := by
  by_cases hss : sem' = sem
  · intro hv
    simp [Roster.take, hss] at hv
  · exact (h hss).set_sem hss

theorem Settled.pop (h : Settled init r) {rest : List ℕ}
    (hw : (r.sems sem).waiter = t :: rest) : Settled init (r.pop sem rest) := by
  apply h.set_sem (q := { r.sems sem with waiter := rest })
  case hsub =>
    rw [hw]
    exact List.sublist_cons_self t rest
  case hle => exact h.value_le sem
  case hother => exact fun _ _ => ⟨rfl, rfl⟩
  case hbal => exact h.balance sem

theorem Attended.pop {sem' : ℕ} (h : Attended r sem') {rest : List ℕ}
    (hv : (r.sems sem).value = 0) : Attended (r.pop sem rest) sem' := by
  by_cases hss : sem' = sem
  · intro hv'
    simp [Roster.pop, hss, hv] at hv'
  · exact h.set_sem hss

theorem Settled.post (h : Settled init r) (hv : (r.sems sem).value = 0) :
    Settled init (r.post sem) := by
  have hbal := h.balance sem
  apply h.set_sem (q := { r.sems sem with value := 1 })
  case hsub => exact List.Sublist.refl _
  case hle => exact Nat.le_refl 1
  case hother => exact fun sem' hss => ⟨rfl, Function.update_of_ne hss _ _⟩
  case hbal =>
    simp only [Function.update_self]
    omega

theorem Attended.post {sem' : ℕ} (h : Attended r sem')
    (hw : (r.sems sem).waiter = [] ∨ ∃ t, Woken r sem t) : Attended (r.post sem) sem' := by
  by_cases hss : sem' = sem
  · subst hss
    intro _ hne
    rcases hw with hw | ⟨u, hu⟩
    · exact absurd (by simpa [Roster.post] using hw) hne
    · exact ⟨u, hu.live, hu.frame, by simpa [Roster.post] using hu.popped, hu.status⟩
  · exact h.set_sem hss

end KernelThreadQueues
