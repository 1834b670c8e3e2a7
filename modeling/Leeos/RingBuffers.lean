import Mathlib.Logic.Function.Basic
import Mathlib.Data.List.Basic

/-!
# Queues and rings

A queue hands out what was put into it, first in, first out; at most `capacity` items are
pending. A ring of `m` slots holds a queue of capacity `m - 1`: items are put at `head` and
taken at `tail`, both positions wrap, and they are equal just when nothing is pending.
-/
namespace RingBuffers

variable {α σ : Type} {m capacity : ℕ}

inductive Transfer (α : Type) where
  | put (a : α)
  | get (a : α)
  deriving DecidableEq, Repr

def Transfer.putItem : Transfer α → Option α
  | .put a => some a
  | .get _ => none

def Transfer.gotItem : Transfer α → Option α
  | .put _ => none
  | .get a => some a

def puts (ts : List (Transfer α)) : List α := ts.filterMap Transfer.putItem

def gets (ts : List (Transfer α)) : List α := ts.filterMap Transfer.gotItem

@[simp] theorem puts_put (ts : List (Transfer α)) (a : α) :
    puts (ts ++ [.put a]) = puts ts ++ [a] := List.filterMap_append

@[simp] theorem puts_get (ts : List (Transfer α)) (a : α) : puts (ts ++ [.get a]) = puts ts :=
  List.filterMap_append.trans (List.append_nil _)

@[simp] theorem gets_put (ts : List (Transfer α)) (a : α) : gets (ts ++ [.put a]) = gets ts :=
  List.filterMap_append.trans (List.append_nil _)

@[simp] theorem gets_get (ts : List (Transfer α)) (a : α) :
    gets (ts ++ [.get a]) = gets ts ++ [a] := List.filterMap_append

inductive QueueStep (capacity : ℕ) : List α → Transfer α → List α → Prop
  | put {pending : List α} (a : α) (h : pending.length < capacity) :
      QueueStep capacity pending (.put a) (pending ++ [a])
  | get {pending : List α} (a : α) : QueueStep capacity (a :: pending) (.get a) pending

inductive Run (step : σ → Transfer α → σ → Prop) (s : σ) : List (Transfer α) → σ → Prop
  | start : Run step s [] s
  | snoc {ts : List (Transfer α)} {t u : σ} {x : Transfer α} :
      Run step s ts t → step t x u → Run step s (ts ++ [x]) u

theorem queueStep_length {p q : List α} {x : Transfer α} (h : QueueStep capacity p x q)
    (hp : p.length ≤ capacity) : q.length ≤ capacity := by
  cases h with
  | put a hlt => simpa using Nat.succ_le_of_lt hlt
  | get a => exact Nat.le_of_succ_le hp

theorem queue_run {p q : List α} {ts : List (Transfer α)} (h : Run (QueueStep capacity) p ts q)
    (hp : p.length ≤ capacity) : p ++ puts ts = gets ts ++ q ∧ q.length ≤ capacity := by
  induction h with
  | start => simpa [puts, gets] using hp
  | snoc _ hstep ih =>
    obtain ⟨heq, hlen⟩ := ih
    refine ⟨?_, queueStep_length hstep hlen⟩
    cases hstep with
    | put a => rw [puts_put, gets_put, ← List.append_assoc, heq, List.append_assoc]
    | get a => rw [puts_get, gets_get, heq, List.append_assoc, List.singleton_append]

theorem run_refines {step : σ → Transfer α → σ → Prop} {inv : σ → Prop} {abs : σ → List α}
    (hstep : ∀ s x t, inv s → step s x t → inv t ∧ QueueStep capacity (abs s) x (abs t))
    {s t : σ} {ts : List (Transfer α)} (hs : inv s) (h : Run step s ts t) :
    inv t ∧ Run (QueueStep capacity) (abs s) ts (abs t) := by
  induction h with
  | start => exact ⟨hs, .start⟩
  | snoc _ hk ih =>
    obtain ⟨hi, hq⟩ := ih
    obtain ⟨hi', hq'⟩ := hstep _ _ _ hi hk
    exact ⟨hi', hq.snoc hq'⟩

/-! ## The ring -/

def next (m i : ℕ) : ℕ := (i + 1) % m

/-- The number of steps from `tail` to `head`. -/
def distance (m tail head : ℕ) : ℕ := if tail ≤ head then head - tail else head + m - tail

def contents (buf : ℕ → α) (m tail head : ℕ) : List α :=
  (List.range (distance m tail head)).map fun j => buf ((tail + j) % m)

variable {head tail : ℕ} {buf : ℕ → α}

theorem next_lt (hm : 0 < m) (i : ℕ) : next m i < m := Nat.mod_lt _ hm

theorem next_of_lt {i : ℕ} (h : i < m) : next m i = if i + 1 = m then 0 else i + 1 := by
  split
  case isTrue he => rw [next, he, Nat.mod_self]
  case isFalse hne => exact Nat.mod_eq_of_lt (by omega)

theorem add_mod_of_lt {j : ℕ} (ht : tail < m) (hj : j < m) :
    (tail + j) % m = if tail + j < m then tail + j else tail + j - m := by
  split
  case isTrue h => exact Nat.mod_eq_of_lt h
  case isFalse h =>
    apply (Nat.mod_eq_sub_mod (by omega)).trans
    exact Nat.mod_eq_of_lt (by omega)

@[simp] theorem contents_length : (contents buf m tail head).length = distance m tail head := by
  simp [contents]

theorem distance_lt (hh : head < m) (ht : tail < m) : distance m tail head < m := by
  rw [distance]
  split <;> omega

theorem distance_self (i : ℕ) : distance m i i = 0 := by
  simp [distance]

theorem distance_eq_zero_iff (ht : tail < m) : distance m tail head = 0 ↔ head = tail := by
  rw [distance]
  split <;> omega

/-- One slot stays free: the ring is full when `head` would step onto `tail`. -/
theorem next_eq_iff (hh : head < m) (ht : tail < m) :
    next m head = tail ↔ distance m tail head = m - 1 := by
  rw [next_of_lt hh, distance]
  split <;> split <;> omega

theorem distance_put (hh : head < m) (ht : tail < m) (hf : next m head ≠ tail) :
    distance m tail (next m head) = distance m tail head + 1 := by
  rw [next_of_lt hh] at hf ⊢
  simp only [distance]
  split_ifs at hf ⊢ <;> omega

theorem distance_get (hh : head < m) (ht : tail < m) (he : head ≠ tail) :
    distance m tail head = distance m (next m tail) head + 1 := by
  rw [next_of_lt ht]
  simp only [distance]
  split_ifs <;> omega

theorem add_distance (hh : head < m) (ht : tail < m) :
    (tail + distance m tail head) % m = head := by
  rw [add_mod_of_lt ht (distance_lt hh ht), distance]
  split_ifs <;> omega

theorem slot_ne_head {j : ℕ} (hh : head < m) (ht : tail < m) (hj : j < distance m tail head) :
    (tail + j) % m ≠ head := by
  have hlt := distance_lt hh ht
  rw [add_mod_of_lt ht (by omega)]
  rw [distance] at hj hlt
  split_ifs at hj hlt ⊢ <;> omega

theorem next_add_mod (j : ℕ) : (next m tail + j) % m = (tail + (j + 1)) % m := by
  rw [next, Nat.mod_add_mod]
  congr 1
  omega

theorem contents_put (hh : head < m) (ht : tail < m) (hf : next m head ≠ tail) (a : α) :
    contents (Function.update buf head a) m tail (next m head) =
      contents buf m tail head ++ [a] := by
  rw [contents, distance_put hh ht hf, List.range_succ, List.map_append, contents]
  congr 1
  · apply List.map_congr_left
    intro j hj
    exact Function.update_of_ne (slot_ne_head hh ht (List.mem_range.mp hj)) a buf
  · simp [add_distance hh ht]

theorem contents_get (hh : head < m) (ht : tail < m) (he : head ≠ tail) :
    contents buf m tail head = buf tail :: contents buf m (next m tail) head := by
  rw [contents, distance_get hh ht he, List.range_succ_eq_map, List.map_cons, contents]
  congr 1
  · simp [Nat.mod_eq_of_lt ht]
  · simp only [List.map_map, Function.comp_def, next_add_mod, Nat.succ_eq_add_one]

end RingBuffers
