import Mathlib.Data.BitVec
import Mathlib.Data.Nat.Bitwise
import Mathlib.Tactic.Common

/-!
# Rings, gates and ports of the x86

What a processor in protected mode reads from its descriptor tables in memory when code asks for
an interrupt, a far jump or call, or a port. There is no local table. Interrupt and trap gates
have 32 bits; other gates in the interrupt table are not followed.
-/
namespace ProtectedRings

abbrev Memory := ℕ → BitVec 8

def half (m : Memory) (a : ℕ) : ℕ := (m a).toNat + 256 * (m (a + 1)).toNat

structure Table where
  base : ℕ
  limit : ℕ

def Table.entry (t : Table) (i : ℕ) : ℕ := t.base + 8 * i

def Table.Has (t : Table) (i : ℕ) : Prop := 8 * i + 7 ≤ t.limit

instance (t : Table) (i : ℕ) : Decidable (t.Has i) := inferInstanceAs (Decidable (_ ≤ _))

/-- The byte of rights, which all descriptors have at the same place. -/
structure Access where
  present : Bool
  dpl : ℕ
  segment : Bool
  type : ℕ
  deriving DecidableEq, Repr

def access (b : BitVec 8) : Access where
  present := b.getLsbD 7
  dpl := b.toNat / 32 % 4
  segment := b.getLsbD 4
  type := b.toNat % 16

def Table.access (t : Table) (m : Memory) (i : ℕ) : Access :=
  ProtectedRings.access (m (t.entry i + 5))

def Access.Code (a : Access) : Prop := a.segment = true ∧ a.type / 8 = 1

def Access.Conforming (a : Access) : Prop := a.type / 4 % 2 = 1

instance (a : Access) : Decidable a.Code := inferInstanceAs (Decidable (_ ∧ _))
instance (a : Access) : Decidable a.Conforming := inferInstanceAs (Decidable (_ = _))

/-- A selector names an entry of the global table; entry 0 is not used. -/
def Names (gdt : Table) (sel : ℕ) : Prop := sel / 8 ≠ 0 ∧ sel / 4 % 2 = 0 ∧ gdt.Has (sel / 8)

instance (gdt : Table) (sel : ℕ) : Decidable (Names gdt sel) :=
  inferInstanceAs (Decidable (_ ∧ _ ∧ _))

def gateRing (m : Memory) (gdt : Table) (ring sel : ℕ) : Option ℕ :=
  let a := gdt.access m (sel / 8)
  if Names gdt sel ∧ a.present ∧ a.Code ∧ a.dpl ≤ ring then
    some (if a.Conforming then ring else a.dpl)
  else none

/-- Where the processor goes on behind a gate. -/
structure Entry where
  cs : ℕ
  offset : ℕ
  ring : ℕ
  deriving DecidableEq, Repr

def interrupt (m : Memory) (gdt idt : Table) (ring v : ℕ) : Option Entry :=
  let g := idt.access m v
  if idt.Has v ∧ g.present ∧ g.segment = false ∧ (g.type = 14 ∨ g.type = 15) then
    let a := idt.entry v
    let sel := half m (a + 2)
    (gateRing m gdt ring sel).map fun r =>
      ⟨sel / 4 * 4 + r, half m a + 65536 * half m (a + 6), r⟩
  else none

/-- The instruction `int`, which asks for the level of the gate. -/
def softwareInt (m : Memory) (gdt idt : Table) (ring v : ℕ) : Option Entry :=
  if ring ≤ (idt.access m v).dpl then interrupt m gdt idt ring v else none

inductive Transfer where
  | fault
  | ring (r : ℕ)
  | task
  deriving DecidableEq, Repr

/-- Far jumps and calls, which may also go through call gates and task segments. -/
def farTransfer (m : Memory) (gdt : Table) (ring sel : ℕ) : Transfer :=
  let a := gdt.access m (sel / 8)
  let asked := max ring (sel % 4)
  if ¬ (Names gdt sel ∧ a.present) then .fault
  else if a.Code then
    if a.Conforming then if a.dpl ≤ ring then .ring ring else .fault
    else if sel % 4 ≤ ring ∧ a.dpl = ring then .ring ring else .fault
  else if a.segment then .fault
  else if a.dpl < asked then .fault
  else if a.type = 4 ∨ a.type = 12 then
    match gateRing m gdt ring (half m (gdt.entry (sel / 8) + 2)) with
    | some r => .ring r
    | none => .fault
  else if a.type = 1 ∨ a.type = 5 ∨ a.type = 9 then .task
  else .fault

def segmentBase (m : Memory) (a : ℕ) : ℕ :=
  half m (a + 2) + 2 ^ 16 * (m (a + 4)).toNat + 2 ^ 24 * (m (a + 7)).toNat

def segmentLimit (m : Memory) (a : ℕ) : ℕ :=
  let limit := half m a + 2 ^ 16 * ((m (a + 6)).toNat % 16)
  if (m (a + 6)).getLsbD 7 then limit * 4096 + 4095 else limit

/-- The bit map that a task segment names at offset 102 says which ports are free to all rings;
the processor reads two bytes of it at a time. -/
def PortOpen (m : Memory) (tss : Table) (iopl ring port : ℕ) : Prop :=
  ring ≤ iopl ∨
    (half m (tss.base + 102) + port / 8 + 1 ≤ tss.limit ∧
      (m (tss.base + half m (tss.base + 102) + port / 8)).getLsbD (port % 8) = false)

instance (m : Memory) (tss : Table) (iopl ring port : ℕ) :
    Decidable (PortOpen m tss iopl ring port) := inferInstanceAs (Decidable (_ ∨ _ ∧ _))

section

variable {m : Memory} {gdt idt : Table} {ring v sel : ℕ}

theorem softwareInt_closed (h : (idt.access m v).dpl < ring) :
    softwareInt m gdt idt ring v = none := if_neg (by omega)

theorem softwareInt_open (h : ring ≤ (idt.access m v).dpl) :
    softwareInt m gdt idt ring v = interrupt m gdt idt ring v := if_pos h

theorem interrupt_outside (h : ¬ idt.Has v) : interrupt m gdt idt ring v = none :=
  if_neg fun hg => h hg.1

theorem interrupt_inner {offset : ℕ} (hv : idt.Has v)
    (hgate : (idt.access m v).present = true ∧ (idt.access m v).segment = false ∧
      (idt.access m v).type = 14)
    (hsel : half m (idt.entry v + 2) = sel) (hrpl : sel % 4 = 0) (hnames : Names gdt sel)
    (hcode : (gdt.access m (sel / 8)).present = true ∧ (gdt.access m (sel / 8)).Code ∧
      ¬ (gdt.access m (sel / 8)).Conforming ∧ (gdt.access m (sel / 8)).dpl = 0)
    (hoffset : half m (idt.entry v) + 65536 * half m (idt.entry v + 6) = offset) :
    interrupt m gdt idt ring v = some ⟨sel, offset, 0⟩ := by
  obtain ⟨hpresent, hsegment, htype⟩ := hgate
  obtain ⟨hpresent', hcode, hconforming, hdpl⟩ := hcode
  have hring : gateRing m gdt ring sel = some 0 := by
    rw [gateRing, if_pos ⟨hnames, hpresent', hcode, by omega⟩, if_neg hconforming, hdpl]
  have hcs : sel / 4 * 4 + 0 = sel := by omega
  rw [interrupt]
  simp only
  rw [if_pos ⟨hv, hpresent, hsegment, Or.inl htype⟩, hsel, hring, hoffset, Option.map_some, hcs]

theorem farTransfer_unnamed (h : ¬ Names gdt sel) : farTransfer m gdt ring sel = .fault :=
  if_pos fun hn => h hn.1

theorem farTransfer_code (hnames : Names gdt sel)
    (hpresent : (gdt.access m (sel / 8)).present = true) (hcode : (gdt.access m (sel / 8)).Code)
    (hconforming : ¬ (gdt.access m (sel / 8)).Conforming) :
    farTransfer m gdt ring sel =
      if sel % 4 ≤ ring ∧ (gdt.access m (sel / 8)).dpl = ring then .ring ring else .fault := by
  rw [farTransfer, if_neg (fun h => h ⟨hnames, hpresent⟩), if_pos hcode, if_neg hconforming]

/-- Data segments, and system descriptors of an inner level. -/
theorem farTransfer_closed (hcode : ¬ (gdt.access m (sel / 8)).Code)
    (h : (gdt.access m (sel / 8)).segment = true ∨ (gdt.access m (sel / 8)).dpl < ring) :
    farTransfer m gdt ring sel = .fault := by
  rw [farTransfer]
  by_cases hnames : Names gdt sel ∧ (gdt.access m (sel / 8)).present = true
  · rw [if_neg (not_not_intro hnames), if_neg hcode]
    rcases h with h | h
    · rw [if_pos h]
    · rw [if_pos (show (gdt.access m (sel / 8)).dpl < max ring (sel % 4) by omega), ite_self]
  · rw [if_pos hnames]

end

end ProtectedRings
