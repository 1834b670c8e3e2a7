import Leeos.FrameStacks

/-!
# A processor and its stack

The instructions with which a kernel saves and restores contexts, on a processor with the 32-bit
registers and a memory of words at aligned addresses. An interrupt gate clears `IF`, and on the
way from an outer ring the processor changes to the stack of the task segment; `iret` does both
backwards.
-/
namespace StackInstrs

open FrameStacks

inductive Reg where
  | eax
  | ecx
  | edx
  | ebx
  | esp
  | ebp
  | esi
  | edi
  deriving DecidableEq, Repr

inductive Seg where
  | cs
  | ds
  | es
  | fs
  | gs
  | ss
  deriving DecidableEq, Repr

@[ext] structure Context where
  reg : Reg → ℕ
  seg : Seg → ℕ
  eip : ℕ
  eflags : ℕ

structure Cpu extends Context where
  mem : ℕ → ℕ

theorem cpu_ext {c d : Cpu} (hreg : c.reg = d.reg) (hseg : c.seg = d.seg) (heip : c.eip = d.eip)
    (heflags : c.eflags = d.eflags) (hmem : c.mem = d.mem) : c = d := by
  cases c
  cases d
  rw [Cpu.mk.injEq]
  exact ⟨Context.ext hreg hseg heip heflags, hmem⟩

/-- The ring the processor runs in. -/
def Context.cpl (c : Context) : ℕ := c.seg .cs % 4

def Context.set (c : Context) (r : Reg) (x : ℕ) : Context :=
  { c with reg := Function.update c.reg r x }

namespace Cpu

def set (c : Cpu) (r : Reg) (x : ℕ) : Cpu := { c with reg := Function.update c.reg r x }

def setSeg (c : Cpu) (s : Seg) (x : ℕ) : Cpu := { c with seg := Function.update c.seg s x }

def store (c : Cpu) (a x : ℕ) : Cpu := { c with mem := Function.update c.mem a x }

def jump (c : Cpu) (a : ℕ) : Cpu := { c with eip := a }

def push (c : Cpu) (x : ℕ) : Cpu := (c.set .esp (c.reg .esp - 4)).store (c.reg .esp - 4) x

/-- The word that `esp` points at. -/
def top (c : Cpu) : ℕ := c.mem (c.reg .esp)

def drop (c : Cpu) : Cpu := c.set .esp (c.reg .esp + 4)

def popFlags (c : Cpu) : Cpu := { c.drop with eflags := c.top }

end Cpu

inductive Instr where
  | push (r : Reg)
  | pushImm (x : ℕ)
  | pushSeg (s : Seg)
  | pushad
  | pop (r : Reg)
  | popSeg (s : Seg)
  | popad
  /-- `mov r, [base + offset]` -/
  | load (r base : Reg) (offset : ℕ)
  /-- `mov [base + offset], r` -/
  | store (base : Reg) (offset : ℕ) (r : Reg)
  | movAl (x : ℕ)
  | outAl (port : ℕ)
  | nop
  | addEsp (x : ℕ)
  | call (target after : ℕ)
  /-- `call [a]` -/
  | callAt (a after : ℕ)
  /-- `call [table + r * 4]` -/
  | callIndexed (table : ℕ) (r : Reg) (after : ℕ)
  | ret
  | iret
  deriving DecidableEq, Repr

/-- `after` is the address behind a call. What `out` does to the device is not part of this. -/
def exec : Instr → Cpu → Cpu
  | .push r, c => c.push (c.reg r)
  | .pushImm x, c => c.push x
  | .pushSeg s, c => c.push (c.seg s)
  | .pushad, c =>
    let temp := c.reg .esp
    (((((((c.push (c.reg .eax)).push (c.reg .ecx)).push (c.reg .edx)).push (c.reg .ebx)).push
      temp).push (c.reg .ebp)).push (c.reg .esi)).push (c.reg .edi)
  | .pop r, c => c.drop.set r c.top
  | .popSeg s, c => c.drop.setSeg s c.top
  | .popad, c =>
    let c := c.drop.set .edi c.top
    let c := c.drop.set .esi c.top
    let c := c.drop.set .ebp c.top
    let c := c.drop
    let c := c.drop.set .ebx c.top
    let c := c.drop.set .edx c.top
    let c := c.drop.set .ecx c.top
    c.drop.set .eax c.top
  | .load r base offset, c => c.set r (c.mem (c.reg base + offset))
  | .store base offset r, c => c.store (c.reg base + offset) (c.reg r)
  | .movAl x, c => c.set .eax (c.reg .eax / 256 * 256 + x)
  | .outAl _, c => c
  | .nop, c => c
  | .addEsp x, c => c.set .esp (c.reg .esp + x)
  | .call target after, c => (c.push after).jump target
  | .callAt a after, c => (c.push after).jump (c.mem a)
  | .callIndexed table r after, c =>
    (c.push after).jump (c.mem ((table + 4 * c.reg r) % 0x100000000))
  | .ret, c => c.drop.jump c.top
  | .iret, c =>
    let ring := c.cpl
    let c := c.drop.jump c.top
    let c := c.drop.setSeg .cs c.top
    let c := c.popFlags
    if ring < c.cpl then
      let stack := c.top
      let c := c.drop
      (c.setSeg .ss c.top).set .esp stack
    else c

def run (is : List Instr) (c : Cpu) : Cpu := is.foldl (fun c i => exec i c) c

@[simp] theorem run_nil (c : Cpu) : run [] c = c := rfl

@[simp] theorem run_cons (i : Instr) (is : List Instr) (c : Cpu) :
    run (i :: is) c = run is (exec i c) := rfl

theorem run_append (is is' : List Instr) (c : Cpu) : run (is ++ is') c = run is' (run is c) :=
  List.foldl_append

/-- `TF`, `IF`, `NT`, `RF` and `VM` are cleared. -/
def gateFlags (eflags : ℕ) : ℕ := eflags &&& 0xfffcbcff

/-- The selectors and stacks that the processor finds in the gate and in the task segment. -/
structure Gate where
  cs : ℕ
  offset : ℕ
  ss0 : ℕ
  esp0 : ℕ

/-- What the processor does before the first instruction behind the gate; it pushes an error code
for some exceptions. -/
def deliver (g : Gate) (err : Option ℕ) (c : Cpu) : Cpu :=
  let inner := if c.cpl = 0 then c else
    (((c.setSeg .ss g.ss0).set .esp g.esp0).push (c.seg .ss)).push (c.reg .esp)
  let inner := ((inner.push c.eflags).push (c.seg .cs)).push c.eip
  let inner := match err with
    | some e => inner.push e
    | none => inner
  { (inner.setSeg .cs g.cs).jump g.offset with eflags := gateFlags c.eflags }

/-! ## Runs of pushes -/

variable {c : Cpu} {r r' : Reg} {s s' : Seg} {a x w : ℕ} {ws : List ℕ}

section Fields

@[simp] theorem set_reg (c : Cpu) (r : Reg) (x : ℕ) :
    (c.set r x).reg = Function.update c.reg r x := rfl
@[simp] theorem set_seg (c : Cpu) (r : Reg) (x : ℕ) : (c.set r x).seg = c.seg := rfl
@[simp] theorem set_mem (c : Cpu) (r : Reg) (x : ℕ) : (c.set r x).mem = c.mem := rfl
@[simp] theorem set_eip (c : Cpu) (r : Reg) (x : ℕ) : (c.set r x).eip = c.eip := rfl
@[simp] theorem set_eflags (c : Cpu) (r : Reg) (x : ℕ) : (c.set r x).eflags = c.eflags := rfl

@[simp] theorem setSeg_reg (c : Cpu) (s : Seg) (x : ℕ) : (c.setSeg s x).reg = c.reg := rfl
@[simp] theorem setSeg_seg (c : Cpu) (s : Seg) (x : ℕ) :
    (c.setSeg s x).seg = Function.update c.seg s x := rfl
@[simp] theorem setSeg_mem (c : Cpu) (s : Seg) (x : ℕ) : (c.setSeg s x).mem = c.mem := rfl
@[simp] theorem setSeg_eip (c : Cpu) (s : Seg) (x : ℕ) : (c.setSeg s x).eip = c.eip := rfl
@[simp] theorem setSeg_eflags (c : Cpu) (s : Seg) (x : ℕ) :
    (c.setSeg s x).eflags = c.eflags := rfl

@[simp] theorem jump_reg (c : Cpu) (a : ℕ) : (c.jump a).reg = c.reg := rfl
@[simp] theorem jump_seg (c : Cpu) (a : ℕ) : (c.jump a).seg = c.seg := rfl
@[simp] theorem jump_mem (c : Cpu) (a : ℕ) : (c.jump a).mem = c.mem := rfl
@[simp] theorem jump_eip (c : Cpu) (a : ℕ) : (c.jump a).eip = a := rfl
@[simp] theorem jump_eflags (c : Cpu) (a : ℕ) : (c.jump a).eflags = c.eflags := rfl

@[simp] theorem push_reg (c : Cpu) (x : ℕ) :
    (c.push x).reg = Function.update c.reg .esp (c.reg .esp - 4) := rfl
@[simp] theorem push_seg (c : Cpu) (x : ℕ) : (c.push x).seg = c.seg := rfl
@[simp] theorem push_mem (c : Cpu) (x : ℕ) :
    (c.push x).mem = Function.update c.mem (c.reg .esp - 4) x := rfl
@[simp] theorem push_eip (c : Cpu) (x : ℕ) : (c.push x).eip = c.eip := rfl
@[simp] theorem push_eflags (c : Cpu) (x : ℕ) : (c.push x).eflags = c.eflags := rfl

theorem push_esp (c : Cpu) (x : ℕ) : (c.push x).reg .esp = c.reg .esp - 4 := by
  rw [push_reg, Function.update_self]

@[simp] theorem drop_reg (c : Cpu) : c.drop.reg = Function.update c.reg .esp (c.reg .esp + 4) := rfl
@[simp] theorem drop_seg (c : Cpu) : c.drop.seg = c.seg := rfl
@[simp] theorem drop_mem (c : Cpu) : c.drop.mem = c.mem := rfl
@[simp] theorem drop_eip (c : Cpu) : c.drop.eip = c.eip := rfl
@[simp] theorem drop_eflags (c : Cpu) : c.drop.eflags = c.eflags := rfl

end Fields

def pushAll (ws : List ℕ) (c : Cpu) : Cpu := ws.foldl Cpu.push c

@[simp] theorem pushAll_nil (c : Cpu) : pushAll [] c = c := rfl

theorem pushAll_cons (w : ℕ) (ws : List ℕ) (c : Cpu) :
    pushAll (w :: ws) c = pushAll ws (c.push w) := rfl

theorem pushAll_append (ws ws' : List ℕ) (c : Cpu) :
    pushAll (ws ++ ws') c = pushAll ws' (pushAll ws c) := List.foldl_append

@[simp] theorem pushAll_seg (ws : List ℕ) (c : Cpu) : (pushAll ws c).seg = c.seg := by
  induction ws generalizing c with
  | nil => rfl
  | cons w ws ih => exact ih (c.push w)

@[simp] theorem pushAll_eip (ws : List ℕ) (c : Cpu) : (pushAll ws c).eip = c.eip := by
  induction ws generalizing c with
  | nil => rfl
  | cons w ws ih => exact ih (c.push w)

@[simp] theorem pushAll_eflags (ws : List ℕ) (c : Cpu) : (pushAll ws c).eflags = c.eflags := by
  induction ws generalizing c with
  | nil => rfl
  | cons w ws ih => exact ih (c.push w)

@[simp] theorem pushAll_reg (ws : List ℕ) (c : Cpu) :
    (pushAll ws c).reg = Function.update c.reg .esp (c.reg .esp - 4 * ws.length) := by
  induction ws generalizing c with
  | nil => exact (Function.update_eq_self ..).symm
  | cons w ws ih =>
    rw [pushAll_cons, ih, push_reg, Function.update_self, Function.update_idem, List.length_cons]
    congr 1
    omega

theorem pushAll_mem_outside (h : 4 * ws.length ≤ c.reg .esp)
    (ha : a < c.reg .esp - 4 * ws.length ∨ c.reg .esp ≤ a) : (pushAll ws c).mem a = c.mem a := by
  induction ws generalizing c with
  | nil => rfl
  | cons w ws ih =>
    rw [List.length_cons] at h ha
    have hesp := push_esp c w
    have hne : a ≠ c.reg .esp - 4 := by omega
    rw [pushAll_cons, ih (by omega) (by omega)]
    exact Function.update_of_ne hne ..

/-- What has been pushed lies in memory, the last word lowest. -/
theorem pushAll_laid (ws : List ℕ) (h : 4 * ws.length ≤ c.reg .esp) :
    Laid (pushAll ws c).mem (c.reg .esp - 4 * ws.length) ws.reverse := by
  induction ws generalizing c with
  | nil => trivial
  | cons w ws ih =>
    rw [List.length_cons] at h ⊢
    have hesp := push_esp c w
    have hrest := ih (c := c.push w) (by omega)
    have hstart : c.reg .esp - 4 * (ws.length + 1) = c.reg .esp - 4 - 4 * ws.length := by omega
    have hlast : c.reg .esp - 4 - 4 * ws.length + 4 * ws.reverse.length = c.reg .esp - 4 := by
      rw [List.length_reverse]
      omega
    rw [List.reverse_cons, laid_append, pushAll_cons, hstart, hlast, ← hesp]
    refine ⟨hrest, ?_, trivial⟩
    rw [pushAll_mem_outside (by omega) (Or.inr (Nat.le_refl _)), hesp]
    exact Function.update_self ..

/-- The registers that `popad` takes from the stack. -/
def popped (c : Cpu) : Reg → ℕ
  | .edi => c.mem (c.reg .esp)
  | .esi => c.mem (c.reg .esp + 4)
  | .ebp => c.mem (c.reg .esp + 8)
  | .ebx => c.mem (c.reg .esp + 16)
  | .edx => c.mem (c.reg .esp + 20)
  | .ecx => c.mem (c.reg .esp + 24)
  | .eax => c.mem (c.reg .esp + 28)
  | .esp => c.reg .esp + 32

end StackInstrs
