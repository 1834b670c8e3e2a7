import Mathlib.Data.List.Basic
import Mathlib.Logic.Function.Basic

/-!
# Stacks of records in one memory

Words lie four addresses apart. Each owner has a region of the memory, in which it lays records
one below the other and takes the lowest away again. A record stays in memory as long as nobody
writes between its base and its limit, and whoever writes below its own lowest record does not.
-/
namespace FrameStacks

variable {α T W : Type*}

/-! ## Words in a row -/

/-- The words `ws` lie in memory from `a` upwards. -/
def Laid (m : ℕ → W) (a : ℕ) : List W → Prop
  | [] => True
  | w :: ws => m a = w ∧ Laid m (a + 4) ws

variable {m m' : ℕ → W} {a b k : ℕ} {w : W} {ws ws' : List W}

@[simp] theorem laid_nil : Laid m a [] := trivial

@[simp] theorem laid_cons : Laid m a (w :: ws) ↔ m a = w ∧ Laid m (a + 4) ws := Iff.rfl

theorem laid_append : Laid m a (ws ++ ws') ↔ Laid m a ws ∧ Laid m (a + 4 * ws.length) ws' := by
  induction ws generalizing a with
  | nil => simp
  | cons w ws ih =>
    have hlen : a + 4 + 4 * ws.length = a + 4 * (ws.length + 1) := by omega
    rw [List.cons_append, laid_cons, laid_cons, ih, List.length_cons, hlen, and_assoc]

theorem Laid.getElem (h : Laid m a ws) {i : ℕ} (hi : i < ws.length) : m (a + 4 * i) = ws[i] := by
  induction ws generalizing a i with
  | nil => exact absurd hi (Nat.not_lt_zero i)
  | cons w ws ih =>
    cases i with
    | zero => exact h.1
    | succ i =>
      have hi' : i < ws.length := Nat.lt_of_succ_lt_succ hi
      rw [List.getElem_cons_succ, ← ih h.2 hi']
      congr 1
      omega

theorem Laid.congr (h : Laid m a ws)
    (heq : ∀ b, a ≤ b → b < a + 4 * ws.length → m' b = m b) : Laid m' a ws := by
  induction ws generalizing a with
  | nil => trivial
  | cons w ws ih =>
    rw [List.length_cons] at heq
    refine ⟨(heq a (Nat.le_refl a) (by omega)).trans h.1, ih h.2 fun b hb hb' => ?_⟩
    exact heq b (by omega) (by omega)

theorem Laid.update (h : Laid m a ws) (hb : b < a ∨ a + 4 * ws.length ≤ b)
    (w : W) : Laid (Function.update m b w) a ws :=
  h.congr fun c hc hc' => Function.update_of_ne (by omega) ..

/-! ## Records -/

/-- How a value lies in memory: the addresses from its base on are all that it depends on. -/
structure Layout (α W : Type*) where
  size : α → ℕ
  Stored : (ℕ → W) → ℕ → α → Prop
  congr : ∀ {m m' : ℕ → W} {a : ℕ} {x : α}, (∀ b, a ≤ b → b < a + size x → m' b = m b) →
    Stored m a x → Stored m' a x

@[ext] structure Record (α : Type*) where
  base : ℕ
  value : α

/-- One region for each owner, and no address in two of them. -/
structure Regions (T : Type*) where
  bottom : T → ℕ
  top : T → ℕ
  apart : ∀ t u, t ≠ u → top t ≤ bottom u ∨ top u ≤ bottom t

/-- The lowest address in use, with the most recent record in front. -/
def floor (top : ℕ) : List (Record α) → ℕ
  | [] => top
  | r :: _ => r.base

section

variable (L : Layout α W)

def Record.limit (r : Record α) : ℕ := r.base + L.size r.value

def Stacked (bottom top : ℕ) : List (Record α) → Prop
  | [] => bottom ≤ top
  | r :: rs => bottom ≤ r.base ∧ r.limit L ≤ floor top rs ∧ Stacked bottom top rs

/-- Address `a` belongs to a record. -/
def InUse (records : T → List (Record α)) (a : ℕ) : Prop :=
  ∃ t, ∃ r ∈ records t, r.base ≤ a ∧ a < r.limit L

structure Kept (R : Regions T) (m : ℕ → W) (records : T → List (Record α)) : Prop where
  stacked : ∀ t, Stacked L (R.bottom t) (R.top t) (records t)
  stored : ∀ t, ∀ r ∈ records t, L.Stored m r.base r.value

end

variable {L : Layout α W} {R : Regions T} {records : T → List (Record α)} {t u : T}
  {r : Record α} {rs : List (Record α)} {bottom top : ℕ} {x : α}

theorem Stacked.floor_range (h : Stacked L bottom top rs) :
    bottom ≤ floor top rs ∧ floor top rs ≤ top := by
  induction rs with
  | nil => exact ⟨h, Nat.le_refl top⟩
  | cons r rs ih =>
    obtain ⟨hbase, hlimit, hrest⟩ := h
    have := ih hrest
    have : r.base ≤ r.limit L := Nat.le_add_right ..
    simp only [floor]
    omega

theorem Stacked.mem_range (h : Stacked L bottom top rs) (hr : r ∈ rs) :
    floor top rs ≤ r.base ∧ r.limit L ≤ top := by
  induction rs with
  | nil => cases hr
  | cons q rs ih =>
    obtain ⟨hbase, hlimit, hrest⟩ := h
    have hfloor := hrest.floor_range
    rcases List.mem_cons.mp hr with rfl | hr
    · exact ⟨Nat.le_refl _, Nat.le_trans hlimit hfloor.2⟩
    · obtain ⟨hlow, hhigh⟩ := ih hrest hr
      have : q.base ≤ q.limit L := Nat.le_add_right ..
      refine ⟨?_, hhigh⟩
      simp only [floor]
      omega

/-- What an owner has not yet used of its region belongs to no record. -/
theorem Kept.free (h : Kept L R m records) (hlow : R.bottom t ≤ a)
    (hhigh : a < floor (R.top t) (records t)) : ¬ InUse L records a := by
  rintro ⟨u, r, hr, hbase, hlimit⟩
  have hu := (h.stacked u).mem_range hr
  have hfu := (h.stacked u).floor_range
  have hft := (h.stacked t).floor_range
  by_cases hut : u = t
  · subst hut
    omega
  · rcases R.apart u t hut with happ | happ <;> omega

theorem Kept.outside (h : Kept L R m records) (hout : ∀ t, a < R.bottom t ∨ R.top t ≤ a) :
    ¬ InUse L records a := by
  rintro ⟨u, r, hr, hbase, hlimit⟩
  have hu := (h.stacked u).mem_range hr
  have hfu := (h.stacked u).floor_range
  rcases hout u with ho | ho <;> omega

theorem Kept.write (h : Kept L R m records) (heq : ∀ a, InUse L records a → m' a = m a) :
    Kept L R m' records where
  stacked := h.stacked
  stored := fun t r hr => L.congr (fun b hb hb' => heq b ⟨t, r, hr, hb, hb'⟩) (h.stored t r hr)

section Update

variable [DecidableEq T]

theorem Kept.push (h : Kept L R m records) (heq : ∀ a, InUse L records a → m' a = m a)
    (hlow : R.bottom t ≤ a) (hhigh : a + L.size x ≤ floor (R.top t) (records t))
    (hx : L.Stored m' a x) : Kept L R m' (Function.update records t (⟨a, x⟩ :: records t)) := by
  have hkept := h.write heq
  constructor
  · intro u
    by_cases hu : u = t
    · subst hu
      rw [Function.update_self]
      exact ⟨hlow, hhigh, h.stacked u⟩
    · rw [Function.update_of_ne hu]
      exact h.stacked u
  · intro u r hr
    by_cases hu : u = t
    · subst hu
      rw [Function.update_self] at hr
      rcases List.mem_cons.mp hr with rfl | hr
      · exact hx
      · exact hkept.stored u r hr
    · rw [Function.update_of_ne hu] at hr
      exact hkept.stored u r hr

theorem Kept.pop (h : Kept L R m records) (ht : records t = r :: rs) :
    Kept L R m (Function.update records t rs) := by
  constructor
  · intro u
    by_cases hu : u = t
    · subst hu
      rw [Function.update_self]
      have hs := h.stacked u
      rw [ht] at hs
      exact hs.2.2
    · rw [Function.update_of_ne hu]
      exact h.stacked u
  · intro u q hq
    by_cases hu : u = t
    · subst hu
      rw [Function.update_self] at hq
      exact h.stored u q (ht ▸ List.mem_cons_of_mem r hq)
    · rw [Function.update_of_ne hu] at hq
      exact h.stored u q hq

end Update

theorem Kept.head_stored (h : Kept L R m records) (ht : records t = r :: rs) :
    L.Stored m r.base r.value := h.stored t r (ht ▸ List.mem_cons_self)

end FrameStacks
