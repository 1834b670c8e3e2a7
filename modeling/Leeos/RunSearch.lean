import Mathlib.Data.Nat.Find

/-!
# First-fit search for a run of clear cells

`used : ℕ → Bool` marks the occupied cells. A run of `n` starting at `r` is clear when none
of the cells `r, …, r + n - 1` is occupied; `FirstRun` is the lowest such run below a limit.
`runScan` is the counting scan that finds it: it remembers only how many clear cells it
has just passed.
-/
namespace RunSearch

variable {used : ℕ → Bool} {limit n r : ℕ}

def ClearRun (used : ℕ → Bool) (r n : ℕ) : Prop := ∀ i < n, used (r + i) = false

instance (used : ℕ → Bool) (r n : ℕ) : Decidable (ClearRun used r n) :=
  inferInstanceAs (Decidable (∀ i < n, _))

structure FirstRun (used : ℕ → Bool) (limit n r : ℕ) : Prop where
  fits : r + n ≤ limit
  clear : ClearRun used r n
  least : ∀ q < r, ¬ ClearRun used q n

theorem ClearRun.mono {m : ℕ} (h : ClearRun used r n) (hm : m ≤ n) : ClearRun used r m :=
  fun i hi => h i (Nat.lt_of_lt_of_le hi hm)

theorem ClearRun.at {k : ℕ} (h : ClearRun used r n) (hr : r ≤ k) (hk : k < r + n) :
    used k = false := by
  have := h (k - r) (by omega)
  rwa [Nat.add_sub_cancel' hr] at this

theorem first_run_unique {q : ℕ} (h : FirstRun used limit n r) (k : FirstRun used limit n q) :
    r = q := by
  rcases Nat.lt_trichotomy r q with hlt | heq | hlt
  · exact (k.least r hlt h.clear).elim
  · exact heq
  · exact (h.least q hlt k.clear).elim

theorem first_run_exists {q : ℕ} (hq : ClearRun used q n) (hf : q + n ≤ limit) :
    ∃ r, r ≤ q ∧ FirstRun used limit n r := by
  have hex : ∃ r, ClearRun used r n := ⟨q, hq⟩
  have hle := Nat.find_min' hex hq
  exact ⟨Nat.find hex, hle, by omega, Nat.find_spec hex, fun _ hk => Nat.find_min hex hk⟩

/-- Read `left` cells from `index` on; `counter` clear cells end just before `index`. -/
def runScan (used : ℕ → Bool) (n : ℕ) : ℕ → ℕ → ℕ → Option ℕ
  | 0, _, _ => none
  | left + 1, counter, index =>
    if used index then runScan used n left 0 (index + 1)
    else if counter + 1 = n then some (index + 1 - n)
    else runScan used n left (counter + 1) (index + 1)

/-- What the scan knows at `index`: no run of `n` ends there or earlier, and `counter` is
the length of the longest clear stretch ending just before it. -/
structure Scanned (used : ℕ → Bool) (n counter index : ℕ) : Prop where
  short : counter < n
  bound : counter ≤ index
  clear : ∀ k, index ≤ k + counter → k < index → used k = false
  longest : ∀ r ≤ index, (∀ k, r ≤ k → k < index → used k = false) → index ≤ r + counter
  none_yet : ∀ r, r + n ≤ index → ¬ ClearRun used r n

theorem Scanned.reset {counter index : ℕ} (h : Scanned used n counter index)
    (hu : used index = true) : Scanned used n 0 (index + 1) where
  short := by have := h.short; omega
  bound := Nat.zero_le _
  clear := by omega
  longest := by
    intro r hr hc
    by_contra hn
    have := hc index (by omega) (by omega)
    simp [hu] at this
  none_yet := by
    intro r hr hc
    by_cases he : r + n ≤ index
    · exact h.none_yet r he hc
    · have := hc.at (k := index) (by have := h.short; omega) (by omega)
      simp [hu] at this

theorem Scanned.count {counter index : ℕ} (h : Scanned used n counter index)
    (hu : used index = false) (hn : counter + 1 ≠ n) :
    Scanned used n (counter + 1) (index + 1) where
  short := by have := h.short; omega
  bound := by have := h.bound; omega
  clear := by
    intro k hk hlt
    by_cases he : k = index
    · rw [he, hu]
    · exact h.clear k (by omega) (by omega)
  longest := by
    intro r hr hc
    by_cases he : r = index + 1
    · omega
    · have := h.longest r (by omega) fun k h₁ h₂ => hc k h₁ (by omega)
      omega
  none_yet := by
    intro r hr hc
    by_cases he : r + n ≤ index
    · exact h.none_yet r he hc
    · have := h.longest r (by have := h.short; omega) fun k h₁ h₂ => hc.at h₁ (by omega)
      have := h.short
      omega

theorem runScan_eq_some {left counter index : ℕ} (h : Scanned used n counter index)
    (hs : runScan used n left counter index = some r) :
    FirstRun used (index + left) n r := by
  induction left generalizing counter index with
  | zero => simp [runScan] at hs
  | succ left ih =>
    simp only [runScan] at hs
    split at hs
    case isTrue hu =>
      have := ih (h.reset hu) hs
      rwa [show index + 1 + left = index + (left + 1) by omega] at this
    case isFalse hu =>
      have hu : used index = false := by simpa using hu
      split at hs
      case isTrue hn =>
        obtain rfl : index + 1 - n = r := by simpa using hs
        have hb := h.bound
        refine ⟨by omega, ?_, ?_⟩
        · intro i hi
          by_cases he : index + 1 - n + i = index
          · rw [he, hu]
          · exact h.clear _ (by omega) (by omega)
        · intro q hq
          exact h.none_yet q (by omega)
      case isFalse hn =>
        have := ih (h.count hu hn) hs
        rwa [show index + 1 + left = index + (left + 1) by omega] at this

theorem runScan_eq_none {left counter index : ℕ} (h : Scanned used n counter index)
    (hs : runScan used n left counter index = none) (hr : r + n ≤ index + left) :
    ¬ ClearRun used r n := by
  induction left generalizing counter index with
  | zero => exact h.none_yet r hr
  | succ left ih =>
    simp only [runScan] at hs
    split at hs
    case isTrue hu => exact ih (h.reset hu) hs (by omega)
    case isFalse hu =>
      split at hs
      case isTrue => simp at hs
      case isFalse hn => exact ih (h.count (by simpa using hu) hn) hs (by omega)

end RunSearch
