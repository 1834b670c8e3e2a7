import Leeos.KernelLocks

/-!
# Callers of a lock

A function that acquires a lock, works and releases it again, and neither calls itself nor is called
with the lock held: `LockPlace` says where in it a thread is, and `Callers` what that means for the
lock. At most one thread is between the end of `sem_down` and the end of `sem_up`.
-/
namespace KernelLockCallers

open ExecRules
open KernelLocks (LockState LockEvent LockAssertion LockInv Pc)

inductive LockPlace where
  | outside
  | acquiring
  | inside
  | releasing
  deriving DecidableEq, Repr

def Place (l : LockState) (t : ℕ) : LockPlace → Prop
  | .outside => l.depth t = 0 ∧ l.pc t = .own
  | .acquiring => l.depth t = 0 ∧ (l.pc t = .test ∨ l.pc t = .semDown ∨ l.pc t = .setHolder ∨
      l.pc t = .checkRepeat ∨ l.pc t = .setRepeat)
  | .inside => l.depth t = 1 ∧ l.pc t = .own
  | .releasing =>
      l.depth t = 1 ∧ (l.pc t = .checkHolder ∨ l.pc t = .compare ∨ l.pc t = .dropLast) ∨
      l.depth t = 0 ∧ (l.pc t = .clearHolder ∨ l.pc t = .clearRepeat ∨ l.pc t = .semUp)

structure Callers (l : LockState) (place : ℕ → LockPlace) : Prop where
  lock : LockInv l
  place : ∀ t, Place l t (place t)

def Returned (l : LockState) (t : ℕ) : Prop := l.pc t = .own

instance (l : LockState) (t : ℕ) : Decidable (Returned l t) :=
  inferInstanceAs (Decidable (_ = _))

variable {l l' : LockState} {t u : ℕ} {place : ℕ → LockPlace}

/-- The statement that follows the one at which the thread stands. -/
def successor (l : LockState) (t : ℕ) : Pc :=
  match l.pc t with
  | .own => .own
  | .test => if l.holder ≠ some t then .semDown else .increment
  | .semDown => .setHolder
  | .setHolder => .checkRepeat
  | .checkRepeat => .setRepeat
  | .setRepeat | .increment | .decrement | .semUp => .own
  | .checkHolder => .compare
  | .compare => if l.holderRepeatNum > 1 then .decrement else .dropLast
  | .dropLast => .clearHolder
  | .clearHolder => .clearRepeat
  | .clearRepeat => .semUp

def level (l : LockState) (t : ℕ) : ℕ :=
  match l.pc t with
  | .setRepeat | .increment => l.depth t + 1
  | .decrement | .dropLast => l.depth t - 1
  | _ => l.depth t

theorem execute_goes (h : KernelLocks.execute t l = .ok ((), l')) :
    l'.pc = Function.update l.pc t (successor l t) ∧
      l'.depth = Function.update l.depth t (level l t) := by
  cases hpc : l.pc t <;> simp only [KernelLocks.execute, get_bind, set_bind, hpc] at h
  case own =>
    cases h
    have hown : Function.update l.pc t .own = l.pc := hpc ▸ Function.update_eq_self ..
    simp [successor, level, hpc, hown]
  case semDown =>
    obtain ⟨-, h⟩ := ensure_ok_iff.mp h
    cases h
    simp [successor, level, hpc, LockState.goto]
  case checkRepeat | checkHolder =>
    obtain ⟨-, h⟩ := ensure_bind_ok_iff.mp h
    cases h
    simp [successor, level, hpc, LockState.goto]
  case semUp =>
    obtain ⟨-, h⟩ := ensure_bind_ok_iff.mp h
    rw [set_bind] at h
    obtain ⟨-, h⟩ := ensure_ok_iff.mp h
    cases h
    simp [successor, level, hpc, LockState.goto]
  all_goals
    cases h
    simp [successor, level, hpc, LockState.goto, LockState.nest]

theorem execute_frame (h : KernelLocks.execute t l = .ok ((), l')) (hu : u ≠ t) :
    l'.pc u = l.pc u ∧ l'.depth u = l.depth u := by
  obtain ⟨hpc, hdepth⟩ := execute_goes h
  rw [hpc, hdepth]
  exact ⟨Function.update_of_ne hu .., Function.update_of_ne hu ..⟩

theorem execute_own (h : KernelLocks.execute t l = .ok ((), l')) :
    l'.pc t = successor l t ∧ l'.depth t = level l t := by
  obtain ⟨hpc, hdepth⟩ := execute_goes h
  rw [hpc, hdepth]
  exact ⟨Function.update_self .., Function.update_self ..⟩

theorem place_acquiring (hl : LockInv l) (hp : Place l t .acquiring)
    (h : KernelLocks.execute t l = .ok ((), l')) :
    Place l' t (if Returned l' t then .inside else .acquiring) := by
  obtain ⟨hnext, hlevel⟩ := execute_own h
  obtain ⟨hd, hpc | hpc | hpc | hpc | hpc⟩ := hp
  · have hout : KernelLocks.Outside l t := by
      have hst := hl.stage t
      rw [hpc] at hst
      exact hst.elim id fun hin => absurd hin.1 (by omega)
    simp [Place, Returned, hnext, hlevel, successor, level, hpc, hd, hout.not_holder]
  all_goals simp [Place, Returned, hnext, hlevel, successor, level, hpc, hd]

theorem place_releasing (hl : LockInv l) (hp : Place l t .releasing)
    (h : KernelLocks.execute t l = .ok ((), l')) :
    Place l' t (if Returned l' t then .outside else .releasing) := by
  obtain ⟨hnext, hlevel⟩ := execute_own h
  rcases hp with ⟨hd, hpc | hpc | hpc⟩ | ⟨hd, hpc | hpc | hpc⟩
  case inl.inr.inl =>
    have hcount : ¬ l.holderRepeatNum > 1 := by
      have hst := hl.stage t
      rw [hpc] at hst
      rw [hst.2.count, hd]
      omega
    simp [Place, Returned, hnext, hlevel, successor, level, hpc, hd, hcount]
  all_goals simp [Place, Returned, hnext, hlevel, successor, level, hpc, hd]

/-- The thread has the lock, or is about to give it back. -/
def LockPlace.Passed (p : LockPlace) : Prop := p = .inside ∨ p = .releasing

theorem passed_of_place {p : LockPlace} (hl : LockInv l) (hp : Place l t p) (h : p.Passed) :
    l.passed t = true := by
  have hs := hl.stage t
  have hdeep : l.depth t = 1 → l.passed t = true := fun hd => (hs.inside (by omega)).passed
  rcases h with rfl | rfl
  · exact hdeep hp.1
  · rcases hp with ⟨hd, -⟩ | ⟨-, hpc | hpc | hpc⟩
    · exact hdeep hd
    · rw [hpc] at hs
      exact hs.passed
    · rw [hpc] at hs
      exact hs.passed
    · rw [hpc] at hs
      exact hs.passed

namespace Callers

theorem unique (h : Callers l place) (ht : (place t).Passed) (hu : (place u).Passed) : t = u :=
  h.lock.passed_unique t u (passed_of_place h.lock (h.place t) ht)
    (passed_of_place h.lock (h.place u) hu)

theorem holder (h : Callers l place) (ht : place t = .inside) : l.holder = some t := by
  have hp := h.place t
  rw [ht] at hp
  exact ((h.lock.stage t).inside (by rw [hp.1]; decide)).holder

/-- A thread that moves on in a lock that the others see unchanged. -/
theorem move {p : LockPlace} (h : Callers l place) (hl : LockInv l')
    (hothers : ∀ u, u ≠ t → l'.pc u = l.pc u ∧ l'.depth u = l.depth u) (hp : Place l' t p) :
    Callers l' (Function.update place t p) where
  lock := hl
  place := fun u => by
    by_cases hu : u = t
    · subst hu
      rwa [Function.update_self]
    · obtain ⟨hpc, hd⟩ := hothers u hu
      have hold := h.place u
      rw [Function.update_of_ne hu]
      cases hst : place u <;> simp only [hst, Place, hpc, hd] at hold ⊢ <;> exact hold

theorem start (h : KernelLocks.LockInit l) (hplace : ∀ t, place t = .outside) :
    Callers l place where
  lock := KernelLocks.lockInv_init h
  place := fun t => by
    rw [hplace t]
    exact ⟨h.depth_zero t, h.all_own t⟩

/-- What holds after the statement that is possible holds after the one that was made. -/
theorem of_next {P : LockState → Prop} {e : LockEvent}
    (h : ∃ l', KernelLocks.next e l = .ok ((), l') ∧ P l')
    (hl : KernelLocks.next e l = .ok ((), l')) : P l' := by
  obtain ⟨l₁, hnext, hp⟩ := h
  rw [hl] at hnext
  cases hnext
  exact hp

theorem acquire (h : Callers l place) (ht : place t = .outside) :
    ∃ l', KernelLocks.next (.acquire t) l = .ok ((), l') ∧
      Callers l' (Function.update place t .acquiring) := by
  have hp := h.place t
  rw [ht] at hp
  obtain ⟨hd, hpc⟩ := hp
  obtain ⟨l', hl', hinv⟩ := KernelLocks.step_spec (e := .acquire t) h.lock hpc
    (show l.depth t + 1 < 2 ^ 32 by rw [hd]; decide)
  refine ⟨l', hl', ?_⟩
  cases hl'
  exact h.move hinv (fun u hu => by simp [LockState.goto, hu])
    (by simp [Place, LockState.goto, hd])

theorem release (h : Callers l place) (ht : place t = .inside) :
    ∃ l', KernelLocks.next (.release t) l = .ok ((), l') ∧
      Callers l' (Function.update place t .releasing) := by
  have hp := h.place t
  rw [ht] at hp
  obtain ⟨hd, hpc⟩ := hp
  obtain ⟨l', hl', hinv⟩ := KernelLocks.step_spec (e := .release t) h.lock ⟨hpc, by omega⟩ trivial
  refine ⟨l', hl', ?_⟩
  cases hl'
  exact h.move hinv (fun u hu => by simp [LockState.goto, hu])
    (by simp [Place, LockState.goto, hd])

theorem execute_acquiring (h : Callers l place) (ht : place t = .acquiring)
    (hwait : l.pc t = .semDown → l.value ≠ 0) :
    ∃ l', KernelLocks.next (.execute t) l = .ok ((), l') ∧
      Callers l' (Function.update place t (if Returned l' t then .inside else .acquiring)) := by
  have hp := h.place t
  rw [ht] at hp
  have hpc : l.pc t ≠ .own := by
    obtain ⟨-, hpc | hpc | hpc | hpc | hpc⟩ := hp <;> simp [hpc]
  obtain ⟨l', hl', hinv⟩ := KernelLocks.execute_spec h.lock hpc hwait
  exact ⟨l', hl', h.move hinv (fun u hu => execute_frame hl' hu) (place_acquiring h.lock hp hl')⟩

theorem execute_releasing (h : Callers l place) (ht : place t = .releasing) :
    ∃ l', KernelLocks.next (.execute t) l = .ok ((), l') ∧
      Callers l' (Function.update place t (if Returned l' t then .outside else .releasing)) := by
  have hp := h.place t
  rw [ht] at hp
  have hpc : l.pc t ≠ .own ∧ l.pc t ≠ .semDown := by
    rcases hp with ⟨-, hpc | hpc | hpc⟩ | ⟨-, hpc | hpc | hpc⟩ <;> simp [hpc]
  obtain ⟨l', hl', hinv⟩ := KernelLocks.execute_spec h.lock hpc.1 (fun hdown => absurd hdown hpc.2)
  exact ⟨l', hl', h.move hinv (fun u hu => execute_frame hl' hu) (place_releasing h.lock hp hl')⟩

theorem congr {place' : ℕ → LockPlace} (h : Callers l place) (heq : ∀ t, place' t = place t) :
    Callers l place' where
  lock := h.lock
  place := fun t => heq t ▸ h.place t

end Callers

/-! ## Stages of a function that holds the lock -/

variable {σ κ ε : Type} {lock : σ → LockState} {put : σ → LockState → σ}
  {halt : LockAssertion → ε} {e : LockEvent} {s s' : σ} {of : κ → LockPlace} {stage : ℕ → κ} {k : κ}

def onLock (lock : σ → LockState) (put : σ → LockState → σ) (halt : LockAssertion → ε)
    (e : LockEvent) : Exec ε σ Unit := fun s =>
  match KernelLocks.next e (lock s) with
  | .ok ((), l) => .ok ((), put s l)
  | .error a => .error (halt a)

theorem onLock_ok (h : onLock lock put halt e s = .ok ((), s')) :
    ∃ l, KernelLocks.next e (lock s) = .ok ((), l) ∧ s' = put s l := by
  rw [onLock] at h
  split at h
  · next l hl =>
    cases h
    exact ⟨l, hl, rfl⟩
  · cases h

theorem Callers.enter (h : Callers l (Function.update (fun u => of (stage u)) t (of k))) :
    Callers l fun u => of (Function.update stage t k u) := by
  apply h.congr
  intro u
  by_cases hu : u = t
  · subst hu
    simp
  · simp [hu]

theorem Callers.goOn (h : Callers l fun u => of (stage u)) (hk : of k = of (stage t)) :
    Callers l fun u => of (Function.update stage t k u) := by
  apply Callers.enter
  rwa [hk, Function.update_eq_self]

end KernelLockCallers
