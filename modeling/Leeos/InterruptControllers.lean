import Mathlib.Data.Nat.Notation
import Mathlib.Logic.Function.Basic
import Mathlib.Tactic.Tauto

/-!
# A pair of interrupt controllers

Two chips of eight lines each, the second one behind a line of the first. A chip is initialised by
up to four words and then takes masks at one port and the ends of interrupts at the other. Its lines
are triggered by edges: a line asks when it rises, until it is accepted or falls again. From then on
it is in service until its end is written; in the meantime only lines in front of it are let through.

The processor acknowledges in two cycles. In the first one the first chip settles on a line, in the
second one the vector is supplied. A chip that no line asks any more supplies the vector of its
line 7 instead, and nothing is in service then.
-/
namespace InterruptControllers

/-- The word that the odd port takes next. -/
inductive Stage where
  | ready
  | icw2 (single icw4 : Bool)
  | icw3 (icw4 : Bool)
  | icw4
  deriving DecidableEq, Repr

structure Pic where
  base : ℕ
  cascade : BitVec 8
  imr : BitVec 8
  high : ℕ → Bool
  irr : ℕ → Bool
  isr : ℕ → Bool
  stage : Stage
  autoEoi : Bool

/-- The first line of the eight in a set. -/
def first (f : ℕ → Bool) : Option ℕ := (List.range 8).find? f

namespace Pic

def endFirst (p : Pic) : Pic :=
  match first p.isr with
  | none => p
  | some n => { p with isr := Function.update p.isr n false }

/-- ICW1, or an end of interrupt; level triggering and the rotations of priority are left out. -/
def writeEven (p : Pic) (data : BitVec 8) : Pic :=
  if data.getLsbD 4 then
    { p with
      imr := 0#8
      irr := fun _ => false
      isr := fun _ => false
      stage := .icw2 (data.getLsbD 1) (data.getLsbD 0)
      autoEoi := false }
  else if data.getLsbD 3 then p
  else if data >>> 5 = 1#8 then p.endFirst
  else if data >>> 5 = 3#8 then
    { p with isr := Function.update p.isr (data &&& 7#8).toNat false }
  else p

def writeOdd (p : Pic) (data : BitVec 8) : Pic :=
  match p.stage with
  | .ready => { p with imr := data }
  | .icw2 single icw4 =>
    { p with
      base := (data &&& 0xf8#8).toNat
      stage := if single then (if icw4 then .icw4 else .ready) else .icw3 icw4 }
  | .icw3 icw4 =>
    { p with
      cascade := data
      stage := if icw4 then .icw4 else .ready }
  | .icw4 =>
    { p with
      autoEoi := data.getLsbD 1
      stage := .ready }

/-- The line asks, and is not masked. -/
def pending (p : Pic) (n : ℕ) : Bool := p.irr n && !p.imr.getLsbD n

/-- The line for which the chip interrupts. -/
def request (p : Pic) : Option ℕ :=
  match first p.pending, first p.isr with
  | none, _ => none
  | some n, none => some n
  | some n, some k => if n < k then some n else none

def accept (p : Pic) (n : ℕ) : Pic :=
  { p with
    irr := Function.update p.irr n false
    isr := if p.autoEoi then p.isr else Function.update p.isr n true }

def rise (p : Pic) (n : ℕ) : Pic :=
  { p with
    high := Function.update p.high n true
    irr := Function.update p.irr n true }

/-- A line that falls before it is accepted asks no longer. -/
def fall (p : Pic) (n : ℕ) : Pic :=
  { p with
    high := Function.update p.high n false
    irr := Function.update p.irr n false }

/-- No line is in service. -/
def Idle (p : Pic) : Prop := ∀ n < 8, p.isr n = false

end Pic

structure Pair where
  master : Pic
  slave : Pic

namespace Pair

/-- Line `line` of the sixteen. -/
def rise (pr : Pair) (line : ℕ) : Pair :=
  if line < 8 then { pr with master := pr.master.rise line }
  else { pr with slave := pr.slave.rise (line - 8) }

def fall (pr : Pair) (line : ℕ) : Pair :=
  if line < 8 then { pr with master := pr.master.fall line }
  else { pr with slave := pr.slave.fall (line - 8) }

def high (pr : Pair) (line : ℕ) : Bool :=
  if line < 8 then pr.master.high line else pr.slave.high (line - 8)

def asks (pr : Pair) (line : ℕ) : Bool :=
  if line < 8 then pr.master.irr line else pr.slave.irr (line - 8)

/-- The lines of the first chip; line `wire` is the output of the second. -/
def lines (wire : ℕ) (pr : Pair) : Pic :=
  { pr.master with irr := Function.update pr.master.irr wire pr.slave.request.isSome }

/-- The line for which the processor is interrupted. -/
def request (wire : ℕ) (pr : Pair) : Option ℕ := (pr.lines wire).request

/-- The first cycle of the acknowledgement. -/
def settle (wire : ℕ) (pr : Pair) : Option ℕ × Pair :=
  match pr.request wire with
  | none => (none, pr)
  | some n => (some n, { pr with master := pr.master.accept n })

/-- The second cycle: the vector, and what the chips then are. -/
def supply (wire : ℕ) (pr : Pair) : Option ℕ → ℕ × Pair
  | none => (pr.master.base + 7, pr)
  | some n =>
    if n = wire ∧ pr.master.cascade.getLsbD n then
      match pr.slave.request with
      | none => (pr.slave.base + 7, pr)
      | some k => (pr.slave.base + k, { pr with slave := pr.slave.accept k })
    else (pr.master.base + n, pr)

end Pair

variable {p : Pic} {pr : Pair} {f : ℕ → Bool} {n k wire line : ℕ}

theorem first_some_iff : first f = some n ↔ n < 8 ∧ f n = true ∧ ∀ k < n, f k = false := by
  rw [first, List.find?_range_eq_some]
  simp only [List.mem_range, Bool.not_eq_true']
  tauto

theorem first_none_iff : first f = none ↔ ∀ n < 8, f n = false := by
  rw [first, List.find?_range_eq_none]
  simp

namespace Pic

theorem first_isr (h : p.Idle) : first p.isr = none := first_none_iff.mpr h

theorem request_of_idle (h : p.Idle) : p.request = first p.pending := by
  rw [request, first_isr h]
  cases first p.pending with
  | none => rfl
  | some n => rfl

theorem endFirst_of_idle (h : p.Idle) : p.endFirst = p := by
  rw [endFirst, first_isr h]

theorem endFirst_accept (h : p.Idle) (hn : n < 8) : (p.accept n).endFirst.Idle := by
  cases hauto : p.autoEoi with
  | true =>
    have hidle : (p.accept n).Idle := by simpa [Idle, accept, hauto] using h
    rwa [endFirst_of_idle hidle]
  | false =>
    have hfirst : first (p.accept n).isr = some n := by
      refine first_some_iff.mpr ⟨hn, by simp [accept, hauto], fun k hk => ?_⟩
      simp [accept, hauto, Function.update_of_ne (Nat.ne_of_lt hk), h k (by omega)]
    rw [endFirst, hfirst]
    intro k hk
    by_cases hkn : k = n
    · simp [hkn]
    · simp [accept, hauto, Function.update_of_ne hkn, h k hk]

theorem endFirst_eq (p : Pic) : p.endFirst = { p with isr := p.endFirst.isr } := by
  rw [endFirst]
  split
  · rfl
  · rfl

theorem idle_congr {q : Pic} (h : q.isr = p.isr) : q.Idle ↔ p.Idle := by
  rw [Idle, Idle, h]

theorem endFirst_idle_congr {q : Pic} (h : q.isr = p.isr) :
    q.endFirst.Idle ↔ p.endFirst.Idle := by
  apply idle_congr
  rw [endFirst, endFirst, h]
  split
  · exact h
  · rfl

end Pic

namespace Pair

theorem rise_isr (pr : Pair) (line : ℕ) :
    (pr.rise line).master.isr = pr.master.isr ∧ (pr.rise line).slave.isr = pr.slave.isr := by
  rw [rise]
  split
  · exact ⟨rfl, rfl⟩
  · exact ⟨rfl, rfl⟩

theorem fall_isr (pr : Pair) (line : ℕ) :
    (pr.fall line).master.isr = pr.master.isr ∧ (pr.fall line).slave.isr = pr.slave.isr := by
  rw [fall]
  split
  · exact ⟨rfl, rfl⟩
  · exact ⟨rfl, rfl⟩

theorem request_of_idle (hm : pr.master.Idle) : pr.request wire = first (pr.lines wire).pending :=
  Pic.request_of_idle (p := pr.lines wire) hm

theorem lines_pending (n : ℕ) : (pr.lines wire).pending n =
    ((if n = wire then pr.slave.request.isSome else pr.master.irr n) &&
      !pr.master.imr.getLsbD n) := by
  simp only [Pic.pending, lines, Function.update_apply]

theorem asks_rise (pr : Pair) (line other : ℕ) :
    (pr.rise line).asks other = if other = line then true else pr.asks other := by
  simp only [asks, rise, Pic.rise]
  split <;> split <;> simp only [Function.update_apply] <;> grind

theorem asks_fall (pr : Pair) (line other : ℕ) :
    (pr.fall line).asks other = if other = line then false else pr.asks other := by
  simp only [asks, fall, Pic.fall]
  split <;> split <;> simp only [Function.update_apply] <;> grind

theorem high_rise (pr : Pair) (line other : ℕ) :
    (pr.rise line).high other = if other = line then true else pr.high other := by
  simp only [high, rise, Pic.rise]
  split <;> split <;> simp only [Function.update_apply] <;> grind

theorem high_fall (pr : Pair) (line other : ℕ) :
    (pr.fall line).high other = if other = line then false else pr.high other := by
  simp only [high, fall, Pic.fall]
  split <;> split <;> simp only [Function.update_apply] <;> grind

theorem settle_high (wire : ℕ) (pr : Pair) (line : ℕ) :
    (pr.settle wire).2.high line = pr.high line := by
  rw [settle]
  split
  · rfl
  · rfl

theorem supply_high (wire : ℕ) (pr : Pair) (o : Option ℕ) (line : ℕ) :
    (pr.supply wire o).2.high line = pr.high line := by
  cases o with
  | none => rfl
  | some n =>
    rw [supply]
    split
    · split
      · rfl
      · rfl
    · rfl

end Pair

end InterruptControllers
