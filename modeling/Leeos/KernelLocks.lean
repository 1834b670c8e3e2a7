import Leeos.KernelThreads

/-!
# Re-entrant locks (`lock_acquire`, `lock_release` in `thread/sync.c`)

One lock and any number of threads, each at a statement of its own; a switch may come between
any two statements. `sem_down` and `sem_up` are one statement each, and a thread at `sem_down`
goes on only when the value is not 0. `depth` and `passed` are ghost: how deep the thread is
nested in the lock, and whether it has passed `sem_down` and not yet `sem_up`.
-/
namespace KernelLocks

open ExecRules KernelThreads LibStdint

/-- The statement a thread executes next; `own` is code outside the two functions. -/
inductive Pc where
  | own
  | test
  | semDown
  | setHolder
  | checkRepeat
  | setRepeat
  | increment
  | checkHolder
  | compare
  | decrement
  | dropLast
  | clearHolder
  | clearRepeat
  | semUp
  deriving DecidableEq, Repr

structure LockState where
  holder : Option ℕ
  value : ℕ
  holderRepeatNum : ℕ
  pc : ℕ → Pc
  depth : ℕ → ℕ
  passed : ℕ → Bool

inductive LockAssertion where
  | acquireRepeat
  | releaseHolder
  | semDownValue
  | semUpZero
  | semUpOne
  deriving DecidableEq, Repr

abbrev LockM := Exec LockAssertion LockState Unit

def LockState.goto (s : LockState) (t : ℕ) (pc : Pc) : LockState :=
  { s with pc := Function.update s.pc t pc }

def LockState.nest (s : LockState) (t depth : ℕ) : LockState :=
  { s with depth := Function.update s.depth t depth }

/-- The statement at which thread `t` stands. -/
def execute (t : ℕ) : LockM := do
  let s ← get
  match s.pc t with
  | .own => pure ()
  -- lock_acquire
  | .test => set (s.goto t (if s.holder ≠ some t then .semDown else .increment))
  | .semDown =>
    set { s.goto t .setHolder with
      value := u8 (s.value + 255), passed := Function.update s.passed t true }
    ensure .semDownValue (u8 (s.value + 255) = 0)
  | .setHolder => set { s.goto t .checkRepeat with holder := some t }
  | .checkRepeat =>
    ensure .acquireRepeat (s.holderRepeatNum = 0)
    set (s.goto t .setRepeat)
  | .setRepeat => set { (s.goto t .own).nest t (s.depth t + 1) with holderRepeatNum := 1 }
  | .increment => set { (s.goto t .own).nest t (s.depth t + 1) with
      holderRepeatNum := u32 (s.holderRepeatNum + 1) }
  -- lock_release
  | .checkHolder =>
    ensure .releaseHolder (s.holder = some t)
    set (s.goto t .compare)
  | .compare => set (s.goto t (if s.holderRepeatNum > 1 then .decrement else .dropLast))
  | .decrement => set { (s.goto t .own).nest t (s.depth t - 1) with
      holderRepeatNum := u32 (s.holderRepeatNum + (2 ^ 32 - 1)) }
  | .dropLast => set { (s.goto t .clearHolder).nest t (s.depth t - 1) with
      holderRepeatNum := u32 (s.holderRepeatNum + (2 ^ 32 - 1)) }
  | .clearHolder => set { s.goto t .clearRepeat with holder := none }
  | .clearRepeat => set { s.goto t .semUp with holderRepeatNum := 0 }
  | .semUp =>
    ensure .semUpZero (s.value = 0)
    set { s.goto t .own with
      value := u8 (s.value + 1), passed := Function.update s.passed t false }
    ensure .semUpOne (u8 (s.value + 1) = 1)

inductive LockEvent where
  | acquire (t : ℕ)
  | release (t : ℕ)
  | execute (t : ℕ)
  deriving DecidableEq, Repr

/-- A thread releases only what it has acquired before, and waits in `sem_down` for a unit. -/
def Enabled (s : LockState) : LockEvent → Prop
  | .acquire t => s.pc t = .own
  | .release t => s.pc t = .own ∧ 0 < s.depth t
  | .execute t => s.pc t ≠ .own ∧ (s.pc t = .semDown → s.value ≠ 0)

instance (s : LockState) (e : LockEvent) : Decidable (Enabled s e) := by
  cases e <;> simp only [Enabled] <;> infer_instance

def next : LockEvent → LockM
  | .acquire t => modify fun s => s.goto t .test
  | .release t => modify fun s => s.goto t .checkHolder
  | .execute t => execute t

def LockStep (s s' : LockState) : Prop := ∃ e, Enabled s e ∧ next e s = .ok ((), s')

structure LockInit (s : LockState) : Prop where
  holder_none : s.holder = none
  value_one : s.value = 1
  repeat_zero : s.holderRepeatNum = 0
  all_own : ∀ t, s.pc t = .own
  depth_zero : ∀ t, s.depth t = 0
  none_passed : ∀ t, s.passed t = false

/-- `holder_repeat_num` has room for one more level of nesting. -/
def Shallow (s : LockState) : LockEvent → Prop
  | .acquire t => s.depth t + 1 < 2 ^ 32
  | _ => True

instance (s : LockState) (e : LockEvent) : Decidable (Shallow s e) := by
  cases e <;> simp only [Shallow] <;> infer_instance

def ShallowStep (s s' : LockState) : Prop :=
  ∃ e, Enabled s e ∧ Shallow s e ∧ next e s = .ok ((), s')

/-! ## The invariant -/

structure Inside (s : LockState) (t : ℕ) : Prop where
  passed : s.passed t = true
  holder : s.holder = some t
  count : s.holderRepeatNum = s.depth t
  short : s.depth t < 2 ^ 32

structure Outside (s : LockState) (t : ℕ) : Prop where
  not_passed : s.passed t = false
  depth_zero : s.depth t = 0
  not_holder : s.holder ≠ some t

/-- On the way in or out: past `sem_down`, at no nesting level. -/
structure Between (s : LockState) (t : ℕ) (holder : Option ℕ) : Prop where
  passed : s.passed t = true
  depth_zero : s.depth t = 0
  holder_eq : s.holder = holder
  repeat_zero : s.holderRepeatNum = 0

/-- What a thread may count on at its statement. -/
def Stage (s : LockState) (t : ℕ) : Pc → Prop
  | .own => Outside s t ∨ 0 < s.depth t ∧ Inside s t
  | .test => Outside s t ∨ 0 < s.depth t ∧ Inside s t ∧ s.depth t + 1 < 2 ^ 32
  | .semDown => Outside s t
  | .setHolder => Between s t none
  | .checkRepeat => Between s t (some t)
  | .setRepeat => Between s t (some t)
  | .increment => 0 < s.depth t ∧ Inside s t ∧ s.depth t + 1 < 2 ^ 32
  | .checkHolder => 0 < s.depth t ∧ Inside s t
  | .compare => 0 < s.depth t ∧ Inside s t
  | .decrement => 1 < s.depth t ∧ Inside s t
  | .dropLast => s.depth t = 1 ∧ Inside s t
  | .clearHolder => Between s t (some t)
  | .clearRepeat => Between s t none
  | .semUp => Between s t none

structure LockInv (s : LockState) : Prop where
  stage : ∀ t, Stage s t (s.pc t)
  passed_unique : ∀ t t', s.passed t = true → s.passed t' = true → t = t'
  value_zero : ∀ t, s.passed t = true → s.value = 0
  value_one : (∀ t, s.passed t = false) → s.value = 1
  free : (∀ t, s.passed t = false) → s.holder = none ∧ s.holderRepeatNum = 0

variable {s s' : LockState} {t u : ℕ} {pc : Pc}

theorem Stage.not_passed (h : Stage s t pc) (hp : s.passed t = false) : Outside s t := by
  cases pc with
  | own => exact h.elim id fun h => by simp [h.2.passed] at hp
  | test => exact h.elim id fun h => by simp [h.2.1.passed] at hp
  | semDown => exact h
  | increment => exact absurd h.2.1.passed (by simp [hp])
  | checkHolder => exact absurd h.2.passed (by simp [hp])
  | compare => exact absurd h.2.passed (by simp [hp])
  | decrement => exact absurd h.2.passed (by simp [hp])
  | dropLast => exact absurd h.2.passed (by simp [hp])
  | setHolder => exact absurd h.passed (by simp [hp])
  | checkRepeat => exact absurd h.passed (by simp [hp])
  | setRepeat => exact absurd h.passed (by simp [hp])
  | clearHolder => exact absurd h.passed (by simp [hp])
  | clearRepeat => exact absurd h.passed (by simp [hp])
  | semUp => exact absurd h.passed (by simp [hp])

/-- A thread that reads the same fields stays at its stage. -/
theorem Stage.congr (h : Stage s t pc) (hp : s'.passed t = s.passed t)
    (hd : s'.depth t = s.depth t) (hh : s'.holder = s.holder)
    (hr : s'.holderRepeatNum = s.holderRepeatNum) : Stage s' t pc := by
  have hin : Inside s t → Inside s' t := fun h =>
    ⟨hp.trans h.passed, hh.trans h.holder, by rw [hr, hd, h.count], by rw [hd]; exact h.short⟩
  have hout : Outside s t → Outside s' t := fun h =>
    ⟨hp.trans h.not_passed, hd.trans h.depth_zero, by rw [hh]; exact h.not_holder⟩
  have hbet : ∀ x, Between s t x → Between s' t x := fun x h =>
    ⟨hp.trans h.passed, hd.trans h.depth_zero, hh.trans h.holder_eq, hr.trans h.repeat_zero⟩
  cases pc <;> simp only [Stage, hd] at h ⊢ <;> tauto

theorem Stage.outside (h : Stage s t pc) (hp : s.passed t = false)
    (hp' : s'.passed t = false) (hd : s'.depth t = s.depth t) (hh : s'.holder ≠ some t) :
    Stage s' t pc := by
  have ho := h.not_passed hp
  have ho' : Outside s' t := ⟨hp', hd.trans ho.depth_zero, hh⟩
  have hne : ¬ s.passed t = true := by simp [hp]
  cases pc <;> simp only [Stage] at h ⊢ <;> first
    | exact Or.inl ho'
    | exact ho'
    | exact absurd h.passed hne
    | exact absurd h.2.passed hne
    | exact absurd h.2.1.passed hne

theorem LockInv.owner_step (h : LockInv s) (hp : s.passed t = true)
    (hpc : ∀ u, u ≠ t → s'.pc u = s.pc u) (hd : ∀ u, u ≠ t → s'.depth u = s.depth u)
    (hpass : s'.passed = s.passed) (hv : s'.value = s.value)
    (hh : ∀ u, s'.holder = some u → u = t) (ht : Stage s' t (s'.pc t)) : LockInv s' := by
  refine ⟨fun u => ?_, ?_, ?_, ?_, ?_⟩
  · by_cases hu : u = t
    · exact hu ▸ ht
    · have hnp : s.passed u = false := by
        cases hb : s.passed u with
        | false => rfl
        | true => exact absurd (h.passed_unique u t hb hp) hu
      rw [hpc u hu]
      exact (h.stage u).outside hnp (by rw [hpass, hnp]) (hd u hu) fun e => hu (hh u e)
  · rw [hpass]
    exact h.passed_unique
  · rw [hpass, hv]
    exact h.value_zero
  · rw [hpass, hv]
    exact h.value_one
  · rw [hpass]
    intro hn
    simp [hn t] at hp

theorem LockInv.goto (h : LockInv s) (ht : Stage (s.goto t pc) t pc) :
    LockInv (s.goto t pc) := by
  refine ⟨fun u => ?_, h.passed_unique, h.value_zero, h.value_one, h.free⟩
  by_cases hu : u = t
  · subst hu
    simpa [LockState.goto] using ht
  · have : Stage (s.goto t pc) u (s.pc u) := (h.stage u).congr rfl rfl rfl rfl
    simpa [LockState.goto, hu] using this

theorem LockInv.enter (h : LockInv s) (ht : Stage s t .semDown) (hv : s.value ≠ 0) :
    s.value = 1 ∧ LockInv { s.goto t .setHolder with
      value := 0, passed := Function.update s.passed t true } := by
  have hnone : ∀ u, s.passed u = false := by
    intro u
    cases hb : s.passed u with
    | false => rfl
    | true => exact absurd (h.value_zero u hb) hv
  obtain ⟨hh, hr⟩ := h.free hnone
  refine ⟨h.value_one hnone, fun u => ?_, ?_, ?_, ?_, ?_⟩
  · by_cases hu : u = t
    · subst hu
      have : Between { s.goto u .setHolder with
          value := 0, passed := Function.update s.passed u true } u none :=
        ⟨by simp, ht.depth_zero, hh, hr⟩
      simpa [LockState.goto, Stage] using this
    · have : Stage { s.goto t .setHolder with
          value := 0, passed := Function.update s.passed t true } u (s.pc u) :=
        (h.stage u).congr (by simp [hu]) rfl rfl rfl
      simpa [LockState.goto, hu] using this
  · intro u v hu hv
    have : ∀ w, Function.update s.passed t true w = true → w = t := by
      intro w hw
      by_contra hne
      simp [hne, hnone w] at hw
    exact (this u hu).trans (this v hv).symm
  · exact fun _ _ => rfl
  · intro hn
    simpa using hn t
  · intro hn
    simpa using hn t

theorem LockInv.leave (h : LockInv s) (ht : Stage s t .semUp) :
    s.value = 0 ∧ LockInv { s.goto t .own with
      value := 1, passed := Function.update s.passed t false } := by
  have hnone : ∀ u, Function.update s.passed t false u = false := by
    intro u
    by_cases hu : u = t
    · simp [hu]
    · cases hb : s.passed u with
      | false => simp [hu, hb]
      | true => exact absurd (h.passed_unique u t hb ht.passed) hu
  refine ⟨h.value_zero t ht.passed, fun u => ?_, ?_, ?_, fun _ => rfl,
    fun _ => ⟨ht.holder_eq, ht.repeat_zero⟩⟩
  · by_cases hu : u = t
    · subst hu
      have : Outside { s.goto u .own with
          value := 1, passed := Function.update s.passed u false } u :=
        ⟨by simp, ht.depth_zero, by
          have : s.holder = none := ht.holder_eq
          simp [LockState.goto, this]⟩
      simpa [LockState.goto, Stage] using Or.inl this
    · have : Stage { s.goto t .own with
          value := 1, passed := Function.update s.passed t false } u (s.pc u) :=
        (h.stage u).congr (by simp [hu]) rfl rfl rfl
      simpa [LockState.goto, hu] using this
  · intro u v hu
    cases (hnone u).symm.trans hu
  · intro u hu
    cases (hnone u).symm.trans hu

theorem LockInv.recount {n k : ℕ} (h : LockInv s) (hp : s.passed t = true)
    (hh : s.holder = some t)
    (ht : Stage { (s.goto t pc).nest t n with holderRepeatNum := k } t pc) :
    LockInv { (s.goto t pc).nest t n with holderRepeatNum := k } := by
  apply h.owner_step (t := t) hp
  case hpc => exact fun u hu => Function.update_of_ne hu _ _
  case hd => exact fun u hu => Function.update_of_ne hu _ _
  case hpass => rfl
  case hv => rfl
  case hh => exact fun u he => (Option.some.inj (hh.symm.trans he)).symm
  case ht =>
    have hpc : ((s.goto t pc).nest t n).pc t = pc := Function.update_self ..
    dsimp only
    rwa [hpc]

theorem LockInv.rehold {holder : Option ℕ} {k : ℕ} (h : LockInv s) (hp : s.passed t = true)
    (hh : ∀ u, holder = some u → u = t)
    (ht : Stage { s.goto t pc with holder := holder, holderRepeatNum := k } t pc) :
    LockInv { s.goto t pc with holder := holder, holderRepeatNum := k } := by
  apply h.owner_step (t := t) hp
  case hpc => exact fun u hu => Function.update_of_ne hu _ _
  case hd => exact fun u _ => rfl
  case hpass => rfl
  case hv => rfl
  case hh => exact hh
  case ht =>
    have hpc : (s.goto t pc).pc t = pc := Function.update_self ..
    dsimp only
    rwa [hpc]

theorem inside_recount {n k : ℕ} (hp : s.passed t = true) (hh : s.holder = some t) (hk : k = n)
    (hn : n < 2 ^ 32) :
    Inside { (s.goto t pc).nest t n with holderRepeatNum := k } t := by
  have hdepth : ((s.goto t pc).nest t n).depth t = n := Function.update_self ..
  constructor
  case passed => exact hp
  case holder => exact hh
  case count => exact hk.trans hdepth.symm
  case short => exact Nat.lt_of_le_of_lt (Nat.le_of_eq hdepth) hn

theorem stage_own_recount {n k : ℕ} (hp : s.passed t = true) (hh : s.holder = some t) (hk : k = n)
    (hpos : 0 < n) (hn : n < 2 ^ 32) :
    Stage { (s.goto t .own).nest t n with holderRepeatNum := k } t .own := by
  have hdepth : ((s.goto t .own).nest t n).depth t = n := Function.update_self ..
  exact Or.inr ⟨Nat.lt_of_lt_of_eq hpos hdepth.symm, inside_recount hp hh hk hn⟩

theorem execute_spec (h : LockInv s) (hne : s.pc t ≠ .own)
    (hv : s.pc t = .semDown → s.value ≠ 0) :
    ∃ s', execute t s = .ok ((), s') ∧ LockInv s' := by
  have ht := h.stage t
  cases hpc : s.pc t with
  | own => exact absurd hpc hne
  | test =>
    refine ⟨_, by simp only [execute, get_bind, hpc]; rfl, h.goto ?_⟩
    rw [hpc] at ht
    by_cases hh : s.holder = some t
    · rcases ht with ht | ht
      · exact absurd hh ht.not_holder
      · rw [if_neg (by simp [hh])]
        exact ⟨ht.1, ⟨ht.2.1.passed, ht.2.1.holder, ht.2.1.count, ht.2.1.short⟩, ht.2.2⟩
    · rcases ht with ht | ht
      · rw [if_pos hh]
        exact ⟨ht.not_passed, ht.depth_zero, ht.not_holder⟩
      · exact absurd ht.2.1.holder hh
  | semDown =>
    rw [hpc] at ht
    obtain ⟨hone, hinv⟩ := h.enter ht (hv hpc)
    have hz : u8 (s.value + 255) = 0 := by
      rw [hone]
      rfl
    refine ⟨_, ?_, hinv⟩
    simp only [execute, get_bind, hpc, set_bind, hz]
    rfl
  | setHolder =>
    rw [hpc] at ht
    refine ⟨_, by simp only [execute, get_bind, hpc]; rfl,
      h.rehold (k := s.holderRepeatNum) ht.passed (fun u he => (Option.some.inj he).symm) ?_⟩
    exact ⟨ht.passed, ht.depth_zero, rfl, ht.repeat_zero⟩
  | checkRepeat =>
    rw [hpc] at ht
    refine ⟨s.goto t .setRepeat, ?_, h.goto ⟨ht.passed, ht.depth_zero, ht.holder_eq,
      ht.repeat_zero⟩⟩
    simp only [execute, get_bind, hpc]
    rw [ensure_bind_of_true ht.repeat_zero]
    rfl
  | setRepeat =>
    rw [hpc] at ht
    have hone : s.depth t + 1 = 1 := by rw [ht.depth_zero]
    refine ⟨_, by simp only [execute, get_bind, hpc]; rfl, h.recount ht.passed ht.holder_eq ?_⟩
    exact stage_own_recount ht.passed ht.holder_eq hone.symm (by omega) (by omega)
  | increment =>
    rw [hpc] at ht
    obtain ⟨-, hin, hroom⟩ := ht
    have hcount : u32 (s.holderRepeatNum + 1) = s.depth t + 1 := by
      rw [hin.count]
      exact Nat.mod_eq_of_lt hroom
    refine ⟨_, by simp only [execute, get_bind, hpc]; rfl, h.recount hin.passed hin.holder ?_⟩
    exact stage_own_recount hin.passed hin.holder hcount (by omega) hroom
  | checkHolder =>
    rw [hpc] at ht
    refine ⟨s.goto t .compare, ?_, h.goto ⟨ht.1, ht.2.passed, ht.2.holder, ht.2.count,
      ht.2.short⟩⟩
    simp only [execute, get_bind, hpc]
    rw [ensure_bind_of_true ht.2.holder]
    rfl
  | compare =>
    rw [hpc] at ht
    refine ⟨_, by simp only [execute, get_bind, hpc]; rfl, h.goto ?_⟩
    have hin : ∀ pc, Inside (s.goto t pc) t := fun pc =>
      ⟨ht.2.passed, ht.2.holder, ht.2.count, ht.2.short⟩
    by_cases hgt : s.holderRepeatNum > 1
    · rw [if_pos hgt]
      exact ⟨ht.2.count ▸ hgt, hin _⟩
    · rw [if_neg hgt]
      have hone : s.depth t = 1 := by
        have := ht.1
        have := ht.2.count
        omega
      exact ⟨hone, hin _⟩
  | decrement =>
    rw [hpc] at ht
    obtain ⟨hdeep, hin⟩ := ht
    have hshort := hin.short
    have hcount : u32 (s.holderRepeatNum + (2 ^ 32 - 1)) = s.depth t - 1 := by
      rw [hin.count, u32]
      omega
    refine ⟨_, by simp only [execute, get_bind, hpc]; rfl, h.recount hin.passed hin.holder ?_⟩
    exact stage_own_recount hin.passed hin.holder hcount (by omega) (by omega)
  | dropLast =>
    rw [hpc] at ht
    obtain ⟨hone, hin⟩ := ht
    have hzero : u32 (s.holderRepeatNum + (2 ^ 32 - 1)) = 0 := by
      rw [hin.count, hone]
      rfl
    have hdepth : ((s.goto t .clearHolder).nest t (s.depth t - 1)).depth t = 0 := by
      simp [LockState.nest, hone]
    refine ⟨_, by simp only [execute, get_bind, hpc]; rfl, h.recount hin.passed hin.holder ?_⟩
    exact ⟨hin.passed, hdepth, hin.holder, hzero⟩
  | clearHolder =>
    rw [hpc] at ht
    refine ⟨_, by simp only [execute, get_bind, hpc]; rfl,
      h.rehold (k := s.holderRepeatNum) ht.passed (fun u he => by cases he) ?_⟩
    exact ⟨ht.passed, ht.depth_zero, rfl, ht.repeat_zero⟩
  | clearRepeat =>
    rw [hpc] at ht
    have hfree : ∀ u, s.holder = some u → u = t := by
      intro u he
      cases ht.holder_eq.symm.trans he
    refine ⟨_, by simp only [execute, get_bind, hpc]; rfl, h.rehold ht.passed hfree ?_⟩
    exact ⟨ht.passed, ht.depth_zero, ht.holder_eq, rfl⟩
  | semUp =>
    rw [hpc] at ht
    obtain ⟨hzero, hinv⟩ := h.leave ht
    have hone : u8 (s.value + 1) = 1 := by
      rw [hzero]
      rfl
    refine ⟨_, ?_, hinv⟩
    simp only [execute, get_bind, hpc]
    rw [ensure_bind_of_true hzero, set_bind, hone]
    rfl

theorem step_spec (h : LockInv s) {e : LockEvent} (he : Enabled s e) (hs : Shallow s e) :
    ∃ s', next e s = .ok ((), s') ∧ LockInv s' := by
  cases e with
  | acquire t =>
    have ht := h.stage t
    rw [show s.pc t = .own from he] at ht
    refine ⟨_, rfl, h.goto ?_⟩
    rcases ht with ht | ht
    · exact Or.inl ⟨ht.not_passed, ht.depth_zero, ht.not_holder⟩
    · exact Or.inr ⟨ht.1, ⟨ht.2.passed, ht.2.holder, ht.2.count, ht.2.short⟩, hs⟩
  | release t =>
    have ht := h.stage t
    rw [he.1] at ht
    refine ⟨_, rfl, h.goto ?_⟩
    rcases ht with ht | ht
    · exact absurd ht.depth_zero (by have := he.2; omega)
    · exact ⟨ht.1, ht.2.passed, ht.2.holder, ht.2.count, ht.2.short⟩
  | execute t => exact execute_spec h he.1 he.2

theorem lockInv_init (h : LockInit s) : LockInv s where
  stage := fun t => by
    rw [h.all_own t]
    exact Or.inl ⟨h.none_passed t, h.depth_zero t, by simp [h.holder_none]⟩
  passed_unique := fun t u ht => by simp [h.none_passed t] at ht
  value_zero := fun t ht => by simp [h.none_passed t] at ht
  value_one := fun _ => h.value_one
  free := fun _ => ⟨h.holder_none, h.repeat_zero⟩

theorem lockInv_step (h : LockInv s) (hstep : ShallowStep s s') : LockInv s' := by
  obtain ⟨e, he, hs, hrun⟩ := hstep
  obtain ⟨t, ht, h'⟩ := step_spec h he hs
  rw [hrun] at ht
  cases ht
  exact h'

/-! ## Runs -/

/-- Mutual exclusion, and the lock's fields as its users may read them. -/
structure Exclusive (s : LockState) : Prop where
  one_inside : ∀ t u, 0 < s.depth t → 0 < s.depth u → t = u
  holder_eq : ∀ t, 0 < s.depth t → s.holder = some t
  repeat_eq : ∀ t, 0 < s.depth t → s.holderRepeatNum = s.depth t
  value_one_iff : s.value = 1 ↔ ∀ t, s.passed t = false

/-- A thread at a nesting level is inside, wherever it stands. -/
theorem Stage.inside (h : Stage s t pc) (hd : 0 < s.depth t) : Inside s t := by
  have hn : ¬ s.depth t = 0 := by omega
  cases pc <;> simp only [Stage] at h <;> first
    | exact h.2.1
    | exact h.2
    | exact absurd h.depth_zero hn
    | exact h.elim (fun h => absurd h.depth_zero hn) fun h => h.2
    | exact h.elim (fun h => absurd h.depth_zero hn) fun h => h.2.1

theorem exclusive_of_lockInv (h : LockInv s) : Exclusive s where
  one_inside := fun t u ht hu => h.passed_unique t u ((h.stage t).inside ht).passed
    ((h.stage u).inside hu).passed
  holder_eq := fun t ht => ((h.stage t).inside ht).holder
  repeat_eq := fun t ht => ((h.stage t).inside ht).count
  value_one_iff := by
    constructor
    · intro hv t
      cases hb : s.passed t with
      | false => rfl
      | true =>
        rw [h.value_zero t hb] at hv
        cases hv
    · exact h.value_one

/-- With nesting depths that `holder_repeat_num` can hold, the lock excludes and no assertion
fails, whatever comes between the statements. -/
theorem lock_sound (h : Reachable LockInit ShallowStep s) :
    Exclusive s ∧ ∀ e, Enabled s e → Shallow s e → ∃ s', next e s = .ok ((), s') := by
  have hinv : LockInv s := reachable_invariant LockInv h (fun _ => lockInv_init)
    fun _ _ => lockInv_step
  refine ⟨exclusive_of_lockInv hinv, fun e he hs => ?_⟩
  obtain ⟨s', hs', -⟩ := step_spec hinv he hs
  exact ⟨s', hs'⟩

def freeLock : LockState := ⟨none, 1, 0, fun _ => .own, fun _ => 0, fun _ => false⟩

theorem lockInit_freeLock : LockInit freeLock := ⟨rfl, rfl, rfl, fun _ => rfl, fun _ => rfl,
  fun _ => rfl⟩

/-- Thread 1 acquires the lock twice while thread 2 comes as far as `sem_down`. -/
def nestedRun : List LockEvent :=
  [.acquire 1, .execute 1, .acquire 2, .execute 1, .execute 2, .execute 1, .execute 1, .execute 1,
    .acquire 1, .execute 1, .execute 1]

theorem lock_sound_nested : ∃ s, s.depth 1 = 2 ∧ s.pc 2 = .semDown ∧ Exclusive s ∧
    ∀ e, Enabled s e → Shallow s e → ∃ s', next e s = .ok ((), s') := by
  have hrun : (runs next (fun s e => decide (Enabled s e ∧ Shallow s e)) nestedRun freeLock).any
      (fun s => s.depth 1 == 2 && s.pc 2 == .semDown) = true := by decide +kernel
  obtain ⟨s, hs, hval⟩ := (Option.any_eq_true _ _).mp hrun
  simp only [Bool.and_eq_true, beq_iff_eq] at hval
  refine ⟨s, hval.1, hval.2, lock_sound ⟨freeLock, lockInit_freeLock, runs_reaches ?_ hs⟩⟩
  intro s s' e hf hn
  have hf := of_decide_eq_true hf
  exact ⟨e, hf.1, hf.2, hn⟩

/-! ## Nesting beyond 32 bits -/

/-- Thread 1 is nested `k` levels deep, in code of its own. -/
structure Nested (k : ℕ) (s : LockState) : Prop where
  own : s.pc 1 = .own
  holder : s.holder = some 1
  depth : s.depth 1 = k
  count : s.holderRepeatNum = u32 k

theorem Nested.again {k : ℕ} (h : Nested k s) :
    ∃ s', Relation.ReflTransGen LockStep s s' ∧ Nested (k + 1) s' := by
  let s₁ := s.goto 1 .test
  let s₂ := s₁.goto 1 .increment
  let s₃ : LockState := { (s₂.goto 1 .own).nest 1 (s₂.depth 1 + 1) with
    holderRepeatNum := u32 (s₂.holderRepeatNum + 1) }
  have hpc₁ : s₁.pc 1 = .test := by simp [s₁, LockState.goto]
  have hpc₂ : s₂.pc 1 = .increment := by simp [s₂, LockState.goto]
  have h₁ : LockStep s s₁ := ⟨.acquire 1, h.own, rfl⟩
  have h₂ : LockStep s₁ s₂ := by
    refine ⟨.execute 1, ⟨by simp [hpc₁], by simp [hpc₁]⟩, ?_⟩
    have hh : s₁.holder = some 1 := h.holder
    simp only [next, execute, get_bind, hpc₁, hh]
    rfl
  have h₃ : LockStep s₂ s₃ := by
    refine ⟨.execute 1, ⟨by simp [hpc₂], by simp [hpc₂]⟩, ?_⟩
    simp only [next, execute, get_bind, hpc₂]
    rfl
  refine ⟨s₃, ((Relation.ReflTransGen.single h₁).tail h₂).tail h₃, ?_⟩
  constructor
  · simp [s₃, LockState.nest, LockState.goto]
  · exact h.holder
  · simp [s₃, s₂, s₁, LockState.nest, LockState.goto, h.depth]
  · have hc : s₃.holderRepeatNum = u32 (s.holderRepeatNum + 1) := rfl
    rw [hc, h.count, u32, u32, u32, Nat.mod_add_mod]

theorem nested_reachable (k : ℕ) : ∃ s, Reachable LockInit LockStep s ∧ Nested (k + 1) s := by
  induction k with
  | zero =>
    have hrun : (runs next (fun s e => decide (Enabled s e))
        [.acquire 1, .execute 1, .execute 1, .execute 1, .execute 1, .execute 1] freeLock).any
        (fun s => s.pc 1 == .own && s.holder == some 1 && s.depth 1 == 1 &&
          s.holderRepeatNum == 1) = true := by decide +kernel
    obtain ⟨s, hs, hval⟩ := (Option.any_eq_true _ _).mp hrun
    simp only [Bool.and_eq_true, beq_iff_eq] at hval
    refine ⟨s, ⟨freeLock, lockInit_freeLock, runs_reaches ?_ hs⟩, hval.1.1.1, hval.1.1.2,
      hval.1.2, hval.2⟩
    intro s s' e hf hn
    exact ⟨e, of_decide_eq_true hf, hn⟩
  | succ k ih =>
    obtain ⟨s, ⟨s₀, h₀, hr⟩, hs⟩ := ih
    obtain ⟨s', hr', hs'⟩ := hs.again
    exact ⟨s', ⟨s₀, h₀, hr.trans hr'⟩, hs'⟩

/-- At 2^32 levels the 32-bit count reads 0. -/
theorem nesting_wraps : ∃ s, Reachable LockInit LockStep s ∧
    0 < s.depth 1 ∧ s.holderRepeatNum ≠ s.depth 1 := by
  obtain ⟨s, hr, hs⟩ := nested_reachable (2 ^ 32 - 1)
  refine ⟨s, hr, by rw [hs.depth]; decide, ?_⟩
  rw [hs.count, hs.depth]
  decide

end KernelLocks
