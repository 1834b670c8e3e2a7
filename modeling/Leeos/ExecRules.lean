import Mathlib.Logic.Relation

/-!
# Computations that may halt, and runs of a transition relation

`Exec ε σ α` reads and writes a state `σ` and either returns or halts with a reason `ε`.
The rules take a sequence apart in both directions: from a returned result to the
results of its parts, and from the parts to the whole.
-/
namespace ExecRules

abbrev Exec (ε σ α : Type) := StateT σ (Except ε) α

variable {ε σ α β : Type}

/-- An assertion: it leaves the state alone or halts with its own reason. -/
def ensure (e : ε) (c : Prop) [Decidable c] : Exec ε σ Unit :=
  if c then pure () else throw e

@[simp] theorem pure_apply (a : α) (s : σ) : (pure a : Exec ε σ α) s = .ok (a, s) := rfl

@[simp] theorem get_apply (s : σ) : (get : Exec ε σ σ) s = .ok (s, s) := rfl

@[simp] theorem set_apply (s t : σ) : (set t : Exec ε σ PUnit) s = .ok ((), t) := rfl

@[simp] theorem modify_apply (f : σ → σ) (s : σ) :
    (modify f : Exec ε σ PUnit) s = .ok ((), f s) := rfl

@[simp] theorem throw_apply (e : ε) (s : σ) : (throw e : Exec ε σ α) s = .error e := rfl

theorem bind_of_ok {x : Exec ε σ α} {f : α → Exec ε σ β} {s t : σ} {a : α}
    (h : x s = .ok (a, t)) : (x >>= f) s = f a t := by
  simp [bind, StateT.bind, Except.bind, h]

theorem bind_of_error {x : Exec ε σ α} {f : α → Exec ε σ β} {s : σ} {e : ε}
    (h : x s = .error e) : (x >>= f) s = .error e := by
  simp [bind, StateT.bind, Except.bind, h]

theorem bind_ok_iff {x : Exec ε σ α} {f : α → Exec ε σ β} {s : σ} {r : β × σ} :
    (x >>= f) s = .ok r ↔ ∃ a t, x s = .ok (a, t) ∧ f a t = .ok r := by
  rcases h : x s with e | ⟨a, t⟩
  · simp [bind_of_error h]
  · rw [bind_of_ok h]
    constructor
    · intro hr
      exact ⟨a, t, rfl, hr⟩
    · rintro ⟨a', t', he, hr⟩
      cases he
      exact hr

theorem bind_error_iff {x : Exec ε σ α} {f : α → Exec ε σ β} {s : σ} {e : ε} :
    (x >>= f) s = .error e ↔
      x s = .error e ∨ ∃ a t, x s = .ok (a, t) ∧ f a t = .error e := by
  rcases h : x s with e | ⟨a, t⟩
  · simp [bind_of_error h]
  · rw [bind_of_ok h]
    constructor
    · intro hr
      exact Or.inr ⟨a, t, rfl, hr⟩
    · rintro (he | ⟨a', t', he, hr⟩)
      · cases he
      · cases he
        exact hr

@[simp] theorem get_bind (f : σ → Exec ε σ α) (s : σ) :
    ((get : Exec ε σ σ) >>= f) s = f s s := rfl

@[simp] theorem set_bind (t : σ) (f : PUnit → Exec ε σ α) (s : σ) :
    ((set t : Exec ε σ PUnit) >>= f) s = f () t := rfl

@[simp] theorem modify_bind (g : σ → σ) (f : PUnit → Exec ε σ α) (s : σ) :
    ((modify g : Exec ε σ PUnit) >>= f) s = f () (g s) := rfl

@[simp] theorem ensure_bind_of_true {e : ε} {c : Prop} [Decidable c] (h : c)
    (f : Unit → Exec ε σ α) (s : σ) : (ensure e c >>= f) s = f () s := by
  rw [ensure, if_pos h]; rfl

@[simp] theorem ensure_bind_of_false {e : ε} {c : Prop} [Decidable c] (h : ¬ c)
    (f : Unit → Exec ε σ α) (s : σ) : (ensure e c >>= f) s = .error e := by
  rw [ensure, if_neg h]; rfl

theorem ensure_bind_ok_iff {e : ε} {c : Prop} [Decidable c] {f : Unit → Exec ε σ α}
    {s : σ} {r : α × σ} : (ensure e c >>= f) s = .ok r ↔ c ∧ f () s = .ok r := by
  by_cases h : c <;> simp [h]

theorem ensure_ok_iff {e : ε} {c : Prop} [Decidable c] {s t : σ} :
    (ensure e c : Exec ε σ Unit) s = .ok ((), t) ↔ c ∧ t = s := by
  by_cases h : c <;> simp [ensure, h, eq_comm]

/-- Whenever the computation halts, the reason satisfies `P`. -/
def Raises (P : ε → Prop) (x : Exec ε σ α) : Prop := ∀ s e, x s = .error e → P e

theorem raises_pure {P : ε → Prop} (a : α) : Raises P (pure a : Exec ε σ α) := by
  intro s e h
  cases h

theorem raises_get {P : ε → Prop} : Raises P (get : Exec ε σ σ) := by
  intro s e h
  cases h

theorem raises_set {P : ε → Prop} (t : σ) : Raises P (set t : Exec ε σ PUnit) := by
  intro s e h
  cases h

theorem raises_throw {P : ε → Prop} {e : ε} (h : P e) : Raises P (throw e : Exec ε σ α) := by
  intro s e' h'
  cases h'
  exact h

theorem raises_ensure {P : ε → Prop} {e : ε} {c : Prop} [Decidable c] (h : P e) :
    Raises P (ensure e c : Exec ε σ Unit) := by
  rw [ensure]
  split
  · exact raises_pure ()
  · exact raises_throw h

theorem Raises.bind {P : ε → Prop} {x : Exec ε σ α} {f : α → Exec ε σ β} (hx : Raises P x)
    (hf : ∀ a, Raises P (f a)) : Raises P (x >>= f) := by
  intro s e h
  rcases bind_error_iff.mp h with h | ⟨a, t, -, h⟩
  · exact hx s e h
  · exact hf a t e h

/-- From a state of `P` a computation that returns ends in a state of `Q`. -/
def Triple (P : σ → Prop) (x : Exec ε σ α) (Q : α → σ → Prop) : Prop :=
  ∀ s a t, P s → x s = .ok (a, t) → Q a t

section Triple

variable {P P' : σ → Prop} {Q Q' : α → σ → Prop} {R : β → σ → Prop}

theorem Triple.weaken {x : Exec ε σ α} (h : Triple P x Q) (hp : ∀ s, P' s → P s)
    (hq : ∀ a s, Q a s → Q' a s) : Triple P' x Q' :=
  fun s a t hs hrun => hq a t (h s a t (hp s hs) hrun)

theorem Triple.of_state {x : Exec ε σ α} {s : σ} (h : Triple P x Q) (hs : P s) :
    Triple (· = s) x Q := by
  rintro u a t rfl hrun
  exact h u a t hs hrun

theorem Triple.bind {x : Exec ε σ α} {f : α → Exec ε σ β} (hx : Triple P x Q)
    (hf : ∀ a, Triple (Q a) (f a) R) : Triple P (x >>= f) R := by
  intro s b u hs hrun
  obtain ⟨a, t, hx', hf'⟩ := bind_ok_iff.mp hrun
  exact hf a t b u (hx s a t hs hx') hf'

theorem triple_pure {a : α} (h : ∀ s, P s → Q a s) : Triple P (pure a : Exec ε σ α) Q := by
  intro s b t hs hrun
  cases hrun
  exact h s hs

theorem triple_pure_state {a : α} {s : σ} (h : Q a s) :
    Triple (· = s) (pure a : Exec ε σ α) Q := by
  rintro u b t rfl hrun
  cases hrun
  exact h

theorem triple_throw {e : ε} : Triple P (throw e : Exec ε σ α) Q := by
  intro s a t hs hrun
  cases hrun

/-- The state read is the state the rest starts from. -/
theorem triple_get_bind {f : σ → Exec ε σ α} (h : ∀ s, P s → Triple (· = s) (f s) Q) :
    Triple P ((get : Exec ε σ σ) >>= f) Q :=
  fun s a t hs hrun => h s hs s a t rfl hrun

theorem triple_set_bind {u : σ} {f : PUnit → Exec ε σ α} (h : Triple (· = u) (f ()) Q) :
    Triple P ((set u : Exec ε σ PUnit) >>= f) Q :=
  fun _ a t _ hrun => h u a t rfl hrun

theorem triple_set {u : σ} {Q : PUnit → σ → Prop} (h : Q () u) :
    Triple P (set u : Exec ε σ PUnit) Q := by
  intro s a t hs hrun
  cases hrun
  exact h

theorem triple_modify {g : σ → σ} {Q : PUnit → σ → Prop} (h : ∀ s, P s → Q () (g s)) :
    Triple P (modify g : Exec ε σ PUnit) Q := by
  intro s a t hs hrun
  cases hrun
  exact h s hs

theorem triple_ite {c : Prop} [Decidable c] {x y : Exec ε σ α} (hx : Triple P x Q)
    (hy : Triple P y Q) : Triple P (if c then x else y) Q := by
  split
  · exact hx
  · exact hy

theorem triple_ensure_bind {e : ε} {c : Prop} [Decidable c] {f : Unit → Exec ε σ α}
    (h : c → Triple P (f ()) Q) : Triple P (ensure e c >>= f) Q := by
  intro s a t hs hrun
  obtain ⟨hc, hf⟩ := ensure_bind_ok_iff.mp hrun
  exact h hc s a t hs hf

end Triple

section Views

variable {τ ε' : Type} {view : σ → τ}

/-- Whatever `x` does to its state, `y` does to the part of it that `view` shows. -/
def Views (view : σ → τ) (x : Exec ε σ α) (y : Exec ε' τ α) : Prop :=
  ∀ s a t, x s = .ok (a, t) → y (view s) = .ok (a, view t)

theorem views_pure (a : α) : Views view (pure a : Exec ε σ α) (pure a : Exec ε' τ α) := by
  intro s b t h
  cases h
  rfl

theorem Views.bind {x : Exec ε σ α} {y : Exec ε' τ α} {f : α → Exec ε σ β} {g : α → Exec ε' τ β}
    (hx : Views view x y) (hf : ∀ a, Views view (f a) (g a)) :
    Views view (x >>= f) (y >>= g) := by
  intro s b u h
  obtain ⟨a, t, hx', hf'⟩ := bind_ok_iff.mp h
  rw [bind_of_ok (hx s a t hx')]
  exact hf a t b u hf'

/-- A step that leaves the view alone does not show. -/
theorem Views.silent {x : Exec ε σ α} {f : α → Exec ε σ β} {y : Exec ε' τ β}
    (hx : ∀ s a t, x s = .ok (a, t) → view t = view s) (hf : ∀ a, Views view (f a) y) :
    Views view (x >>= f) y := by
  intro s b u h
  obtain ⟨a, t, hx', hf'⟩ := bind_ok_iff.mp h
  rw [← hx s a t hx']
  exact hf a t b u hf'

theorem views_ite {c : Prop} [Decidable c] {x x' : Exec ε σ α} {y y' : Exec ε' τ α}
    (h : Views view x y) (h' : Views view x' y') :
    Views view (if c then x else x') (if c then y else y') := by
  split
  · exact h
  · exact h'

/-- `x` ends as `y` does on what `view` shows, in a result or a halt. -/
def Mirrors (view : σ → τ) (x : Exec ε σ α) (y : Exec ε τ α) : Prop :=
  ∀ s, y (view s) = (x s).map fun r => (r.1, view r.2)

theorem mirrors_pure (a : α) : Mirrors view (pure a : Exec ε σ α) (pure a) := fun _ => rfl

theorem mirrors_throw (e : ε) : Mirrors view (throw e : Exec ε σ α) (throw e) := fun _ => rfl

theorem Mirrors.bind {x : Exec ε σ α} {y : Exec ε τ α} {f : α → Exec ε σ β} {g : α → Exec ε τ β}
    (hx : Mirrors view x y) (hf : ∀ a, Mirrors view (f a) (g a)) :
    Mirrors view (x >>= f) (y >>= g) := by
  intro s
  have hy := hx s
  cases hrun : x s with
  | error e =>
    rw [hrun] at hy
    rw [bind_of_error hrun]
    exact bind_of_error hy
  | ok r =>
    obtain ⟨a, t⟩ := r
    rw [hrun] at hy
    rw [bind_of_ok hrun]
    exact (bind_of_ok hy).trans (hf a t)

theorem mirrors_ensure {e : ε} {c : Prop} [Decidable c] :
    Mirrors view (ensure e c : Exec ε σ Unit) (ensure e c) := by
  rw [ensure, ensure]
  split
  · exact mirrors_pure ()
  · exact mirrors_throw e

/-- A step that always returns and leaves the view alone does not show in front. -/
theorem Mirrors.before {x : Exec ε σ α} {f : α → Exec ε σ β} {y : Exec ε τ β}
    (hx : ∀ s, ∃ a t, x s = .ok (a, t) ∧ view t = view s) (hf : ∀ a, Mirrors view (f a) y) :
    Mirrors view (x >>= f) y := by
  intro s
  obtain ⟨a, t, hrun, hview⟩ := hx s
  rw [bind_of_ok hrun, ← hview]
  exact hf a t

theorem Mirrors.after {x : Exec ε σ Unit} {z : Exec ε σ Unit} {y : Exec ε τ Unit}
    (hx : Mirrors view x y) (hz : ∀ s, ∃ t, z s = .ok ((), t) ∧ view t = view s) :
    Mirrors view (x >>= fun _ => z) y := by
  intro s
  rw [hx s]
  cases hrun : x s with
  | error e => rw [bind_of_error hrun]
  | ok r =>
    obtain ⟨⟨⟩, t⟩ := r
    obtain ⟨u, hend, hview⟩ := hz t
    rw [bind_of_ok hrun, hend]
    exact congrArg (fun v => Except.ok ((), v)) hview.symm

end Views

/-- The computation returns, and its result passes the test. -/
def yields (x : Exec ε σ α) (s : σ) (test : α → σ → Bool) : Bool :=
  match x s with
  | .ok (a, t) => test a t
  | .error _ => false

theorem yields_iff {x : Exec ε σ α} {s : σ} {test : α → σ → Bool} :
    yields x s test = true ↔ ∃ a t, x s = .ok (a, t) ∧ test a t = true := by
  rw [yields]
  cases h : x s with
  | error e => simp
  | ok r =>
    obtain ⟨a, t⟩ := r
    constructor
    · intro ht
      exact ⟨a, t, rfl, ht⟩
    · rintro ⟨a', t', he, ht⟩
      cases he
      exact ht

/-- The states that runs of `step` from an initial state reach. -/
def Reachable (init : σ → Prop) (step : σ → σ → Prop) (s : σ) : Prop :=
  ∃ s₀, init s₀ ∧ Relation.ReflTransGen step s₀ s

theorem Reachable.refl {init : σ → Prop} {step : σ → σ → Prop} {s : σ} (h : init s) :
    Reachable init step s := ⟨s, h, .refl⟩

theorem Reachable.tail {init : σ → Prop} {step : σ → σ → Prop} {s t : σ}
    (h : Reachable init step s) (k : step s t) : Reachable init step t := by
  obtain ⟨s₀, h₀, hr⟩ := h
  exact ⟨s₀, h₀, hr.tail k⟩

theorem exists_exit {P : σ → Prop} {step : σ → σ → Prop} {s t : σ}
    (h : Relation.ReflTransGen step s t) (hs : P s) (ht : ¬ P t) :
    ∃ u v, Relation.ReflTransGen step s u ∧ P u ∧ step u v ∧ ¬ P v ∧
      Relation.ReflTransGen step v t := by
  induction h with
  | refl => exact absurd hs ht
  | @tail u t hrun hk ih =>
    by_cases hu : P u
    · exact ⟨u, t, hrun, hu, hk, ht, .refl⟩
    · obtain ⟨w, v, hw, hpw, hwv, hpv, hv⟩ := ih hu
      exact ⟨w, v, hw, hpw, hwv, hpv, hv.tail hk⟩

theorem reachable_invariant (inv : σ → Prop) {init : σ → Prop} {step : σ → σ → Prop} {s : σ}
    (h : Reachable init step s) (hi : ∀ s, init s → inv s)
    (hs : ∀ s t, inv s → step s t → inv t) : inv s := by
  obtain ⟨s₀, h₀, hr⟩ := h
  induction hr with
  | refl => exact hi s₀ h₀
  | tail _ hk ih => exact hs _ _ ih hk

theorem Reachable.mono {init : σ → Prop} {step step' : σ → σ → Prop} {s : σ}
    (h : Reachable init step s) (hs : ∀ s t, step s t → step' s t) :
    Reachable init step' s := by
  obtain ⟨s₀, h₀, hr⟩ := h
  exact ⟨s₀, h₀, Relation.ReflTransGen.mono hs _ _ hr⟩

/-- Run the calls one after the other, as long as each passes the test first. -/
def runs {ι : Type} (call : ι → Exec ε σ Unit) (fits : σ → ι → Bool) : List ι → σ → Option σ
  | [], s => some s
  | i :: rest, s =>
    if fits s i then
      match call i s with
      | .ok ((), t) => runs call fits rest t
      | .error _ => none
    else none

theorem runs_reaches_of {ι : Type} {call : ι → Exec ε σ Unit} {fits : σ → ι → Bool}
    {step : σ → σ → Prop} (P : σ → Prop)
    (hstep : ∀ s t i, P s → fits s i = true → call i s = .ok ((), t) → P t ∧ step s t)
    {is : List ι} {s t : σ} (hs : P s) (h : runs call fits is s = some t) :
    Relation.ReflTransGen step s t := by
  induction is generalizing s with
  | nil =>
    cases h
    exact .refl
  | cons i rest ih =>
    rw [runs] at h
    split at h
    case isTrue hf =>
      split at h
      case h_1 u hu =>
        obtain ⟨hp, hk⟩ := hstep s u i hs hf hu
        exact .head hk (ih hp h)
      case h_2 => cases h
    case isFalse => cases h

theorem runs_reaches {ι : Type} {call : ι → Exec ε σ Unit} {fits : σ → ι → Bool}
    {step : σ → σ → Prop} (hstep : ∀ s t i, fits s i = true → call i s = .ok ((), t) → step s t)
    {is : List ι} {s t : σ} (h : runs call fits is s = some t) :
    Relation.ReflTransGen step s t :=
  runs_reaches_of (fun _ => True) (fun s t i _ hf hc => ⟨trivial, hstep s t i hf hc⟩) trivial h

end ExecRules
