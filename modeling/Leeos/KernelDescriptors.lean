import Leeos.BootKernelImage
import Leeos.KernelContexts
import Leeos.ProtectedRings

/-!
# Descriptor tables (`kernel/interrupt.c`, `userprog/tss.c`)

Memory is the kernel's, by virtual addresses. `idt_desc_init` reads 0x81 words of a table that has
0x30, so the gates from 0x30 on lead to whatever lies behind it. `lidt` and `ltr` are known by
what the processor then finds: the tables below, and the busy bit.
-/
namespace KernelDescriptors

open KernelBitmap FsDisk ProtectedRings LibStdint
open KernelContexts (selectorKStack)
open BootMemorySize (loadHalf storeHalf)

/-- Addresses that the linker has chosen. -/
structure Symbols where
  idt : ℕ
  tss : ℕ
  interruptTable : ℕ
  exceptionFuncptrTable : ℕ
  generalExceptionHandler : ℕ
  systemCallHandler : ℕ

def intDescNum : ℕ := 0x81

def codeSelector : ℕ := 1 * 8 + 0 * 4 + 0
def selectorTss : ℕ := 4 * 8 + 0 * 4 + 0

/-- `(DESC_P << 7) + (dpl << 5) + (s << 4) + type`, and the same of a gate with `s` 0 -/
def attrLow (dpl s type : ℕ) : BitVec 8 :=
  BitVec.ofNat 8 (1 * 2 ^ 7 + dpl * 2 ^ 5 + s * 2 ^ 4 + type)

def idtDescAttrDpl0 : BitVec 8 := attrLow 0 0 0xe
def idtDescAttrDpl3 : BitVec 8 := attrLow 3 0 0xe
def tssAttrLow : BitVec 8 := attrLow 0 0 9
def gdtAttrCodeLowDpl3 : BitVec 8 := attrLow 3 1 8
def gdtAttrDataLowDpl3 : BitVec 8 := attrLow 3 1 2

def tssAttrHigh : ℕ := 1 * 2 ^ 7 + 0 * 2 ^ 6
def gdtAttrHigh : ℕ := 1 * 2 ^ 7 + 1 * 2 ^ 6

def gdtBase : ℕ := 0xc0000903
def gdt : Table := ⟨gdtBase, 8 * 7 - 1⟩

def idt (sym : Symbols) : Table := ⟨sym.idt, 8 * intDescNum - 1⟩

/-! ## The code -/

def setInterruptGateDesc (m : Bytes) (intrPtr : ℕ) (attr : BitVec 8) (func : ℕ) : Bytes :=
  let m := Function.update m (intrPtr + 4) 0#8
  let m := Function.update m (intrPtr + 5) attr
  let m := storeHalf m (intrPtr + 2) codeSelector
  let m := storeHalf m intrPtr (func &&& 0xffff)
  storeHalf m (intrPtr + 6) ((func &&& 0xffff0000) >>> 16)

def gateLoop (sym : Symbols) : ℕ → ℕ → Bytes → Bytes
  | 0, _, m => m
  | n + 1, i, m => gateLoop sym n (i + 1)
      (setInterruptGateDesc m ((idt sym).entry i) idtDescAttrDpl0
        (loadWord m (sym.interruptTable + 4 * i)))

def idtDescInit (sym : Symbols) (m : Bytes) : Bytes :=
  setInterruptGateDesc (gateLoop sym intDescNum 0 m) ((idt sym).entry (intDescNum - 1))
    idtDescAttrDpl3 sym.systemCallHandler

def registerHandler (sym : Symbols) (vecNum func : ℕ) (m : Bytes) : Bytes :=
  storeWord m (sym.exceptionFuncptrTable + 4 * vecNum) func

/-- The handlers; the names are left out. -/
def exceptionInit (sym : Symbols) : ℕ → ℕ → Bytes → Bytes
  | 0, _, m => m
  | n + 1, i, m => exceptionInit sym n (i + 1) (registerHandler sym i sym.generalExceptionHandler m)

def idtInit (sym : Symbols) (m : Bytes) : Bytes :=
  exceptionInit sym intDescNum 0 (idtDescInit sym m)

def makeGdtDesc (m : Bytes) (a descAddr limit : ℕ) (low : BitVec 8) (high : ℕ) : Bytes :=
  let m := storeHalf m (a + 2) (descAddr &&& 0x0000ffff)
  let m := Function.update m (a + 4) (BitVec.ofNat 8 ((descAddr &&& 0x00ff0000) >>> 16))
  let m := Function.update m (a + 7) (BitVec.ofNat 8 ((descAddr &&& 0xff000000) >>> 24))
  let m := storeHalf m a (limit &&& 0x0000ffff)
  let m := Function.update m (a + 5) low
  Function.update m (a + 6) (BitVec.ofNat 8 (high + (limit &&& 0x000f0000) >>> 16))

def tssSize : ℕ := 108

/-- The fields of `tss` lie at 4 (`esp0`), 8 (`ss0`) and 104 (`io_base`). -/
def updateTssEsp0 (sym : Symbols) (pthread : ℕ) (m : Bytes) : Bytes :=
  storeWord m (sym.tss + 4) (u32 (pthread + 4096))

/-- `ltr` marks the task segment as busy. -/
def ltr (m : Bytes) : Bytes :=
  Function.update m (gdtBase + selectorTss + 5) (m (gdtBase + selectorTss + 5) ||| 2#8)

def tssInit (sym : Symbols) (m : Bytes) : Bytes :=
  let m := memset m sym.tss 0#8 tssSize
  let m := storeWord m (sym.tss + 8) selectorKStack
  let m := storeWord m (sym.tss + 104) tssSize
  let m := makeGdtDesc m 0xc0000923 sym.tss (tssSize - 1) tssAttrLow tssAttrHigh
  let m := makeGdtDesc m 0xc000092b 0 0xfffff gdtAttrCodeLowDpl3 gdtAttrHigh
  let m := makeGdtDesc m 0xc0000933 0 0xfffff gdtAttrDataLowDpl3 gdtAttrHigh
  ltr m

/-- The four entries of the loader, the video segment moved up by 3 GB. -/
def loaderGdt : List (ℕ × ℕ) :=
  [(0, 0), (0x0000ffff, 0x00cf9800), (0x0000ffff, 0x00cf9200), (0x80000007, 0xc0c0920b)]

/-! ## Runs -/

/-- What happens to the tables after they are set up, and the stores that are not theirs. -/
inductive TableOp where
  | updateTssEsp0 (pthread : ℕ)
  | registerHandler (vecNum func : ℕ)
  | store (a : ℕ) (x : BitVec 8)

def runTableOp (sym : Symbols) : Bytes → TableOp → Bytes
  | m, .updateTssEsp0 pthread => updateTssEsp0 sym pthread m
  | m, .registerHandler vecNum func => registerHandler sym vecNum func m
  | m, .store a x => Function.update m a x

/-- `init_all`: interrupts first, the task segment later, and then the system runs. -/
def booted (sym : Symbols) (before after : List TableOp) (m : Bytes) : Bytes :=
  after.foldl (runTableOp sym) (tssInit sym (before.foldl (runTableOp sym) (idtInit sym m)))

def Among (b n a : ℕ) : Prop := b ≤ a ∧ a < b + n

instance (b n a : ℕ) : Decidable (Among b n a) := inferInstanceAs (Decidable (_ ∧ _))

def Apart (b n c k : ℕ) : Prop := b + n ≤ c ∨ c + k ≤ b

instance (b n c k : ℕ) : Decidable (Apart b n c k) := inferInstanceAs (Decidable (_ ∨ _))

/-- The tables of the kernel, which nobody else writes to. -/
def Reserved (sym : Symbols) (a : ℕ) : Prop :=
  Among gdtBase 56 a ∨ Among sym.idt (8 * intDescNum) a ∨ Among sym.tss tssSize a ∨
    Among (sym.exceptionFuncptrTable) (4 * intDescNum) a

def TableOp.Allowed (sym : Symbols) : TableOp → Prop
  | .updateTssEsp0 pthread => pthread % 4096 = 0 ∧ pthread + 4096 < 2 ^ 32
  | .registerHandler vecNum func => vecNum < intDescNum ∧ func < 2 ^ 32
  | .store a _ => ¬ Reserved sym a

/-- The linker keeps the tables apart, and above the descriptors of the loader. -/
structure Placed (sym : Symbols) : Prop where
  above : gdtBase + 56 ≤ sym.idt ∧ gdtBase + 56 ≤ sym.tss ∧ gdtBase + 56 ≤ sym.exceptionFuncptrTable
  idt_tss : Apart sym.idt (8 * intDescNum) sym.tss tssSize
  idt_handlers : Apart sym.idt (8 * intDescNum) (sym.exceptionFuncptrTable) (4 * intDescNum)
  tss_handlers : Apart sym.tss tssSize (sym.exceptionFuncptrTable) (4 * intDescNum)
  entries : Apart sym.idt (8 * intDescNum) sym.interruptTable (4 * 0x30)
  addresses : sym.tss + tssSize < 2 ^ 32 ∧ sym.generalExceptionHandler < 2 ^ 32 ∧
    sym.systemCallHandler < 2 ^ 32

def LoaderGdt (m : Bytes) : Prop :=
  ∀ i < 4, loadWord m (gdt.entry i) = (loaderGdt.getD i (0, 0)).1 ∧
    loadWord m (gdt.entry i + 4) = (loaderGdt.getD i (0, 0)).2

def lastHandler (ops : List TableOp) (init : ℕ) (v : ℕ) : ℕ :=
  ops.foldl (fun f op => match op with
    | .registerHandler vecNum func => if vecNum = v then func else f
    | _ => f) init

def lastEsp0 (ops : List TableOp) (init : ℕ) : ℕ :=
  ops.foldl (fun e op => match op with
    | .updateTssEsp0 pthread => pthread + 4096
    | _ => e) init

structure GateAt (m : Bytes) (a : ℕ) (attr : BitVec 8) (func : ℕ) : Prop where
  attr : m (a + 5) = attr
  sel : half m (a + 2) = codeSelector
  offset : half m a + 65536 * half m (a + 6) = func

/-- The interrupt table after `idt_init`: the entries of `kernel.asm` first, then gates to
anywhere, and at the end the one for system calls. -/
structure IdtReady (sym : Symbols) (entry : ℕ → ℕ) (m : Bytes) : Prop where
  entries : ∀ i < 0x30, GateAt m ((idt sym).entry i) idtDescAttrDpl0 (entry i)
  others : ∀ i < 0x80, m ((idt sym).entry i + 5) = idtDescAttrDpl0
  syscall : GateAt m ((idt sym).entry 0x80) idtDescAttrDpl3 sym.systemCallHandler

/-- The rights of the seven segments: none, kernel code, data and screen, the busy task segment,
user code and data. -/
def rights : List (BitVec 8) := [0x00#8, 0x98#8, 0x92#8, 0x92#8, 0x8b#8, 0xf8#8, 0xf2#8]

def tssByte (j : ℕ) : BitVec 8 :=
  if j = 8 then 0x10#8 else if j = 104 then 0x6c#8 else 0#8

/-- The segments after `tss_init`, and the task segment but for its stack pointer. -/
structure GdtReady (sym : Symbols) (m : Bytes) : Prop where
  rights : ∀ i < 7, m (gdt.entry i + 5) = rights.getD i 0#8
  base : segmentBase m (gdt.entry 4) = sym.tss
  limit : segmentLimit m (gdt.entry 4) = (tssSize - 1) * 4096 + 4095
  task : ∀ j < tssSize, ¬ Among 4 4 j → m (sym.tss + j) = tssByte j

section

variable {sym : Symbols} {m m' : Bytes} {a b n i x : ℕ} {attr : BitVec 8} {func : ℕ}

theorem half_congr (h₀ : m a = m' b) (h₁ : m (a + 1) = m' (b + 1)) : half m a = half m' b := by
  rw [half, half, h₀, h₁]

theorem half_storeHalf (hx : x < 2 ^ 16) : half (storeHalf m a x) a = x :=
  BootMemorySize.loadHalf_storeHalf hx

theorem half_storeHalf_of_apart (h : b + 2 ≤ a ∨ a + 2 ≤ b) :
    half (storeHalf m a x) b = half m b :=
  half_congr (BootMemorySize.storeHalf_outside (by omega))
    (BootMemorySize.storeHalf_outside (by omega))

theorem low_half (x : ℕ) : x &&& 0xffff = x % 2 ^ 16 := by
  have h := KernelPaging.and_field x 0 16
  norm_num at h
  omega

theorem high_half (x : ℕ) (hx : x < 2 ^ 32) : (x &&& 0xffff0000) >>> 16 = x / 2 ^ 16 := by
  have h := KernelPaging.and_field x 16 16
  norm_num at h
  rw [h, Nat.shiftRight_eq_div_pow]
  omega

theorem setInterruptGateDesc_outside (h : i < a ∨ a + 8 ≤ i) :
    setInterruptGateDesc m a attr func i = m i := by
  rw [setInterruptGateDesc, BootMemorySize.storeHalf_outside (by omega),
    BootMemorySize.storeHalf_outside (by omega), BootMemorySize.storeHalf_outside (by omega),
    Function.update_of_ne (by omega),
    Function.update_of_ne (by omega)]

theorem setInterruptGateDesc_gate (hfunc : func < 2 ^ 32) :
    GateAt (setInterruptGateDesc m a attr func) a attr func where
  attr := by
    rw [setInterruptGateDesc, BootMemorySize.storeHalf_outside (by omega),
      BootMemorySize.storeHalf_outside (by omega), BootMemorySize.storeHalf_outside (by omega),
      Function.update_self]
  sel := by
    rw [setInterruptGateDesc, half_storeHalf_of_apart (by omega),
      half_storeHalf_of_apart (by omega), half_storeHalf (by decide)]
  offset := by
    rw [setInterruptGateDesc, low_half, high_half func hfunc, half_storeHalf (by omega),
      half_storeHalf_of_apart (by omega), half_storeHalf (by omega)]
    omega

theorem GateAt.congr (h : GateAt m a attr func) (hm : ∀ j < 8, m' (a + j) = m (a + j)) :
    GateAt m' a attr func where
  attr := (hm 5 (by omega)).trans h.attr
  sel := (half_congr (hm 2 (by omega)) (hm 3 (by omega))).trans h.sel
  offset := by
    have h₀ : half m' a = half m a := half_congr (hm 0 (by omega)) (hm 1 (by omega))
    have h₆ : half m' (a + 6) = half m (a + 6) := half_congr (hm 6 (by omega)) (hm 7 (by omega))
    rw [h₀, h₆]
    exact h.offset

/-! ## The interrupt table -/

theorem entry_eq (sym : Symbols) (i : ℕ) : (idt sym).entry i = sym.idt + 8 * i := rfl

theorem gateLoop_outside (h : a < sym.idt + 8 * i ∨ sym.idt + 8 * (i + n) ≤ a) :
    gateLoop sym n i m a = m a := by
  induction n generalizing i m with
  | zero => rfl
  | succ n ih =>
    rw [gateLoop, ih (by omega), setInterruptGateDesc_outside (by rw [entry_eq]; omega)]

theorem gateLoop_rights {j : ℕ} (hi : i ≤ j) (hj : j < i + n) :
    gateLoop sym n i m ((idt sym).entry j + 5) = idtDescAttrDpl0 := by
  induction n generalizing i m with
  | zero => omega
  | succ n ih =>
    rw [gateLoop]
    by_cases hij : j = i
    · rw [hij, gateLoop_outside (by rw [entry_eq]; omega)]
      exact (setInterruptGateDesc_gate (loadWord_lt ..)).attr
    · exact ih (by omega) (by omega)

/-- The table of `kernel.asm` is not written to while it is read. -/
theorem gateLoop_gate {j : ℕ} (hp : Placed sym) (hi : i ≤ j) (hj : j < i + n) (h30 : j < 0x30)
    (hn : i + n ≤ intDescNum) :
    GateAt (gateLoop sym n i m) ((idt sym).entry j) idtDescAttrDpl0
      (loadWord m (sym.interruptTable + 4 * j)) := by
  have hnum : intDescNum = 0x81 := rfl
  have hentries := hp.entries
  rw [Apart] at hentries
  induction n generalizing i m with
  | zero => omega
  | succ n ih =>
    rw [gateLoop]
    by_cases hij : j = i
    · rw [hij]
      refine (setInterruptGateDesc_gate (m := m) (loadWord_lt ..)).congr fun k hk => ?_
      exact gateLoop_outside (by rw [entry_eq]; omega)
    · have hrest := ih (i := i + 1) (m := setInterruptGateDesc m ((idt sym).entry i)
        idtDescAttrDpl0 (loadWord m (sym.interruptTable + 4 * i))) (by omega) (by omega) (by omega)
      have hsame : loadWord (setInterruptGateDesc m ((idt sym).entry i) idtDescAttrDpl0
          (loadWord m (sym.interruptTable + 4 * i))) (sym.interruptTable + 4 * j) =
          loadWord m (sym.interruptTable + 4 * j) := by
        refine loadWord_congr fun k hk => setInterruptGateDesc_outside ?_
        rw [entry_eq]
        omega
      rwa [hsame] at hrest

theorem registerHandler_outside {v : ℕ}
    (h : a < sym.exceptionFuncptrTable + 4 * v ∨ sym.exceptionFuncptrTable + 4 * v + 4 ≤ a) :
    registerHandler sym v func m a = m a := storeWord_outside (by omega)

theorem exceptionInit_outside (h : a < sym.exceptionFuncptrTable + 4 * i ∨
    sym.exceptionFuncptrTable + 4 * (i + n) ≤ a) : exceptionInit sym n i m a = m a := by
  induction n generalizing i m with
  | zero => rfl
  | succ n ih => rw [exceptionInit, ih (by omega), registerHandler_outside (by omega)]

theorem exceptionInit_handler {j : ℕ} (hp : Placed sym) (hi : i ≤ j) (hj : j < i + n) :
    loadWord (exceptionInit sym n i m) (sym.exceptionFuncptrTable + 4 * j) =
      sym.generalExceptionHandler := by
  induction n generalizing i m with
  | zero => omega
  | succ n ih =>
    rw [exceptionInit]
    by_cases hij : j = i
    · have hsame : loadWord (exceptionInit sym n (i + 1)
          (registerHandler sym i sym.generalExceptionHandler m))
          (sym.exceptionFuncptrTable + 4 * i) = loadWord
          (registerHandler sym i sym.generalExceptionHandler m)
          (sym.exceptionFuncptrTable + 4 * i) :=
        loadWord_congr fun k hk => exceptionInit_outside (by omega)
      rw [hij, hsame]
      exact loadWord_storeWord hp.addresses.2.1
    · exact ih (by omega) (by omega)

theorem idtInit_outside (hidt : ¬ Among sym.idt (8 * intDescNum) a)
    (hhandlers : ¬ Among sym.exceptionFuncptrTable (4 * intDescNum) a) :
    idtInit sym m a = m a := by
  have hnum : intDescNum = 0x81 := rfl
  rw [Among] at hidt hhandlers
  rw [idtInit, exceptionInit_outside (by omega), idtDescInit,
    setInterruptGateDesc_outside (by rw [entry_eq]; omega),
    gateLoop_outside (by omega)]

theorem idtInit_ready (hp : Placed sym) (m : Bytes) :
    IdtReady sym (fun i => loadWord m (sym.interruptTable + 4 * i)) (idtInit sym m) := by
  have hnum : intDescNum = 0x81 := rfl
  have hapart := hp.idt_handlers
  rw [Apart] at hapart
  have hafter : ∀ j < 8 * intDescNum, idtInit sym m (sym.idt + j) =
      idtDescInit sym m (sym.idt + j) := by
    intro j hj
    exact exceptionInit_outside (by omega)
  have hlast : ∀ j < 8 * 0x80, idtDescInit sym m (sym.idt + j) =
      gateLoop sym intDescNum 0 m (sym.idt + j) := by
    intro j hj
    exact setInterruptGateDesc_outside (by rw [entry_eq]; omega)
  refine ⟨fun i hi => ?_, fun i hi => ?_, ?_⟩
  · refine (gateLoop_gate (n := intDescNum) hp (Nat.zero_le i) (by omega) hi (by omega)).congr
      fun j hj => ?_
    rw [entry_eq, Nat.add_assoc, hafter _ (by omega),
      hlast _ (by omega)]
  · rw [entry_eq, Nat.add_assoc, hafter _ (by omega),
      hlast _ (by omega), ← Nat.add_assoc, ← entry_eq]
    exact gateLoop_rights (Nat.zero_le i) (by omega)
  · refine (setInterruptGateDesc_gate (m := gateLoop sym intDescNum 0 m)
      hp.addresses.2.2).congr fun j hj => ?_
    rw [entry_eq, Nat.add_assoc, hafter _ (by omega)]
    rfl

/-! ## The task segment -/

theorem makeGdtDesc_outside {limit high : ℕ} {low : BitVec 8} (h : i < a ∨ a + 8 ≤ i) :
    makeGdtDesc m a x limit low high i = m i := by
  rw [makeGdtDesc, Function.update_of_ne (by omega), Function.update_of_ne (by omega),
    BootMemorySize.storeHalf_outside (by omega), Function.update_of_ne (by omega),
    Function.update_of_ne (by omega), BootMemorySize.storeHalf_outside (by omega)]

theorem makeGdtDesc_rights {limit high : ℕ} {low : BitVec 8} :
    makeGdtDesc m a x limit low high (a + 5) = low := by
  rw [makeGdtDesc, Function.update_of_ne (by omega), Function.update_self]

theorem low_byte (x : ℕ) : (x &&& 0x00ff0000) >>> 16 = x / 2 ^ 16 % 2 ^ 8 := by
  have h := KernelPaging.and_field x 16 8
  norm_num at h
  rw [h, Nat.shiftRight_eq_div_pow]
  omega

theorem high_byte (hx : x < 2 ^ 32) : (x &&& 0xff000000) >>> 24 = x / 2 ^ 24 := by
  have h := KernelPaging.and_field x 24 8
  norm_num at h
  rw [h, Nat.shiftRight_eq_div_pow]
  omega

theorem limit_nibble (x : ℕ) : (x &&& 0x000f0000) >>> 16 = x / 2 ^ 16 % 2 ^ 4 := by
  have h := KernelPaging.and_field x 16 4
  norm_num at h
  rw [h, Nat.shiftRight_eq_div_pow]
  omega

theorem makeGdtDesc_base {limit high : ℕ} {low : BitVec 8} (hx : x < 2 ^ 32) :
    segmentBase (makeGdtDesc m a x limit low high) a = x := by
  obtain ⟨d, hd⟩ : ∃ d, d = makeGdtDesc m a x limit low high := ⟨_, rfl⟩
  have h₂ : half d (a + 2) = x % 2 ^ 16 := by
    rw [hd, makeGdtDesc]
    have hhalf : half (storeHalf m (a + 2) (x &&& 0x0000ffff)) (a + 2) = x % 2 ^ 16 := by
      rw [low_half, half_storeHalf (by omega)]
    rw [← hhalf]
    refine half_congr ?_ ?_
    all_goals
      rw [Function.update_of_ne (by omega), Function.update_of_ne (by omega),
        BootMemorySize.storeHalf_outside (by omega), Function.update_of_ne (by omega),
        Function.update_of_ne (by omega)]
  have h₄ : d (a + 4) = BitVec.ofNat 8 (x / 2 ^ 16 % 2 ^ 8) := by
    rw [hd, makeGdtDesc, low_byte, Function.update_of_ne (by omega),
      Function.update_of_ne (by omega), BootMemorySize.storeHalf_outside (by omega),
      Function.update_of_ne (by omega), Function.update_self]
  have h₇ : d (a + 7) = BitVec.ofNat 8 (x / 2 ^ 24) := by
    rw [hd, makeGdtDesc, high_byte hx, Function.update_of_ne (by omega),
      Function.update_of_ne (by omega), BootMemorySize.storeHalf_outside (by omega),
      Function.update_self]
  rw [← hd, segmentBase, h₂, h₄, h₇, BitVec.toNat_ofNat, BitVec.toNat_ofNat]
  omega

theorem makeGdtDesc_limit {limit high : ℕ} {low : BitVec 8} (hl : limit < 2 ^ 20)
    (hhigh : high % 2 ^ 4 = 0) (h7 : high < 2 ^ 8) :
    segmentLimit (makeGdtDesc m a x limit low high) a =
      if high / 2 ^ 7 = 1 then limit * 4096 + 4095 else limit := by
  obtain ⟨d, hd⟩ : ∃ d, d = makeGdtDesc m a x limit low high := ⟨_, rfl⟩
  have h₀ : half d a = limit % 2 ^ 16 := by
    obtain ⟨m₁, hm₁⟩ : ∃ m₁, m₁ = Function.update (Function.update (storeHalf m (a + 2)
        (x &&& 0x0000ffff)) (a + 4) (BitVec.ofNat 8 ((x &&& 0x00ff0000) >>> 16))) (a + 7)
        (BitVec.ofNat 8 ((x &&& 0xff000000) >>> 24)) := ⟨_, rfl⟩
    have hhalf : half (storeHalf m₁ a (limit &&& 0x0000ffff)) a = limit % 2 ^ 16 := by
      rw [low_half, half_storeHalf (by omega)]
    rw [hd, makeGdtDesc, ← hm₁, ← hhalf]
    exact half_congr (by rw [Function.update_of_ne (by omega), Function.update_of_ne (by omega)])
      (by rw [Function.update_of_ne (by omega), Function.update_of_ne (by omega)])
  have h₆ : (d (a + 6)).toNat = high + limit / 2 ^ 16 % 2 ^ 4 := by
    rw [hd, makeGdtDesc, Function.update_self, limit_nibble, BitVec.toNat_ofNat]
    omega
  have hbit : (d (a + 6)).getLsbD 7 = decide (high / 2 ^ 7 = 1) := by
    rw [BitVec.getLsbD, h₆, Nat.testBit_eq_decide_div_mod_eq]
    congr 1
    apply propext
    omega
  rw [← hd, segmentLimit, h₀, h₆, hbit]
  simp only [decide_eq_true_eq]
  rw [show limit % 2 ^ 16 + 2 ^ 16 * ((high + limit / 2 ^ 16 % 2 ^ 4) % 16) = limit by omega]

theorem gdt_entry (i : ℕ) : gdt.entry i = gdtBase + 8 * i := rfl

/-- Stores of `tss_init` into the task segment itself. -/
def tssFields (sym : Symbols) (m : Bytes) : Bytes :=
  storeWord (storeWord (memset m sym.tss 0#8 tssSize) (sym.tss + 8) selectorKStack)
    (sym.tss + 104) tssSize

theorem tssFields_outside (h : ¬ Among sym.tss tssSize a) : tssFields sym m a = m a := by
  have hsize : tssSize = 108 := rfl
  rw [Among] at h
  rw [tssFields, storeWord_outside (by omega), storeWord_outside (by omega),
    memset_outside (by omega)]

theorem tssFields_byte {j : ℕ} (hj : j < tssSize) : tssFields sym m (sym.tss + j) = tssByte j := by
  have hsize : tssSize = 108 := rfl
  rw [tssFields, tssByte, storeWord]
  by_cases h₁₀₄ : 104 ≤ j
  · have hcases : j = 104 ∨ j = 105 ∨ j = 106 ∨ j = 107 := by omega
    rw [if_pos (by omega), show sym.tss + j - (sym.tss + 104) = j - 104 by omega]
    rcases hcases with rfl | rfl | rfl | rfl <;> decide
  · rw [if_neg (by omega), storeWord]
    by_cases h₈ : 8 ≤ j ∧ j < 12
    · have hcases : j = 8 ∨ j = 9 ∨ j = 10 ∨ j = 11 := by omega
      rw [if_pos (by omega), show sym.tss + j - (sym.tss + 8) = j - 8 by omega]
      rcases hcases with rfl | rfl | rfl | rfl <;> decide
    · rw [if_neg (by omega), memset_inside (by omega) (by omega), if_neg (by omega),
        if_neg (by omega)]

theorem tssInit_eq (sym : Symbols) (m : Bytes) : tssInit sym m =
    ltr (makeGdtDesc (makeGdtDesc (makeGdtDesc (tssFields sym m) (gdt.entry 4) sym.tss
      (tssSize - 1) tssAttrLow tssAttrHigh) (gdt.entry 5) 0 0xfffff gdtAttrCodeLowDpl3
      gdtAttrHigh) (gdt.entry 6) 0 0xfffff gdtAttrDataLowDpl3 gdtAttrHigh) := rfl

theorem ltr_outside (h : a ≠ gdt.entry 4 + 5) : ltr m a = m a := Function.update_of_ne h ..

theorem tssInit_outside (hgdt : ¬ Among (gdtBase + 32) 24 a) (htss : ¬ Among sym.tss tssSize a) :
    tssInit sym m a = m a := by
  rw [Among] at hgdt
  rw [tssInit_eq, ltr_outside (by rw [gdt_entry]; omega),
    makeGdtDesc_outside (by rw [gdt_entry]; omega),
    makeGdtDesc_outside (by rw [gdt_entry]; omega),
    makeGdtDesc_outside (by rw [gdt_entry]; omega), tssFields_outside htss]

theorem byte_of_word (m : Bytes) (a : ℕ) : m (a + 1) = BitVec.ofNat 8 (loadWord m a / 256) := by
  have h₀ := (m a).isLt
  have h₁ := (m (a + 1)).isLt
  apply BitVec.eq_of_toNat_eq
  rw [BitVec.toNat_ofNat, loadWord]
  omega

theorem tssInit_ready (hp : Placed sym) (hl : LoaderGdt m) : GdtReady sym (tssInit sym m) := by
  have hsize : tssSize = 108 := rfl
  have habove := hp.above.2.1
  have haddr := hp.addresses.1
  obtain ⟨d, hd⟩ : ∃ d, d = makeGdtDesc (tssFields sym m) (gdt.entry 4) sym.tss (tssSize - 1)
      tssAttrLow tssAttrHigh := ⟨_, rfl⟩
  have hrights : d (gdt.entry 4 + 5) = tssAttrLow := hd ▸ makeGdtDesc_rights
  have hbase : segmentBase d (gdt.entry 4) = sym.tss := hd ▸ makeGdtDesc_base (by omega)
  have hlimit : segmentLimit d (gdt.entry 4) = (tssSize - 1) * 4096 + 4095 := by
    rw [hd, makeGdtDesc_limit (by decide) (by decide) (by decide), if_pos (by decide)]
  have hsame : ∀ j < 8, j ≠ 5 → tssInit sym m (gdt.entry 4 + j) = d (gdt.entry 4 + j) := by
    intro j hj hne
    rw [tssInit_eq, ltr_outside (by omega),
      makeGdtDesc_outside (by rw [gdt_entry, gdt_entry]; omega),
      makeGdtDesc_outside (by rw [gdt_entry, gdt_entry]; omega), hd]
  have h₀ := hsame 0 (by omega) (by omega)
  rw [Nat.add_zero] at h₀
  refine ⟨fun i hi => ?_, ?_, ?_, fun j hj hfree => ?_⟩
  · by_cases h4 : i < 4
    · have hword := (hl i h4).2
      rw [tssInit_outside (by rw [Among, gdt_entry]; omega) (by rw [Among, gdt_entry]; omega),
        byte_of_word m (gdt.entry i + 4), hword]
      have hcases : i = 0 ∨ i = 1 ∨ i = 2 ∨ i = 3 := by omega
      rcases hcases with rfl | rfl | rfl | rfl <;> decide
    · have hcases : i = 4 ∨ i = 5 ∨ i = 6 := by omega
      rw [tssInit_eq]
      rcases hcases with rfl | rfl | rfl
      · have hbusy : gdtBase + selectorTss + 5 = gdt.entry 4 + 5 := rfl
        rw [ltr, hbusy, Function.update_self,
          makeGdtDesc_outside (by rw [gdt_entry, gdt_entry]; omega),
          makeGdtDesc_outside (by rw [gdt_entry, gdt_entry]; omega), ← hd, hrights]
        rfl
      · rw [ltr_outside (by rw [gdt_entry, gdt_entry]; omega),
          makeGdtDesc_outside (by rw [gdt_entry, gdt_entry]; omega), makeGdtDesc_rights]
        rfl
      · rw [ltr_outside (by rw [gdt_entry, gdt_entry]; omega), makeGdtDesc_rights]
        rfl
  · rw [← hbase, segmentBase, segmentBase, hsame 4 (by omega) (by omega),
      hsame 7 (by omega) (by omega),
      half_congr (hsame 2 (by omega) (by omega)) (hsame 3 (by omega) (by omega))]
  · rw [← hlimit, segmentLimit, segmentLimit, hsame 6 (by omega) (by omega),
      half_congr h₀ (hsame 1 (by omega) (by omega))]
  · rw [← tssFields_byte (m := m) hj, tssInit_eq, ltr_outside (by rw [gdt_entry]; omega),
      makeGdtDesc_outside (by rw [gdt_entry]; omega),
      makeGdtDesc_outside (by rw [gdt_entry]; omega),
      makeGdtDesc_outside (by rw [gdt_entry]; omega)]

/-! ## What the tables keep -/

variable {op : TableOp} {ops before after : List TableOp} {v : ℕ}

theorem IdtReady.congr {entry : ℕ → ℕ} (h : IdtReady sym entry m)
    (hm : ∀ a, Among sym.idt (8 * intDescNum) a → m' a = m a) : IdtReady sym entry m' where
  entries i hi := (h.entries i hi).congr fun j hj => hm _ (by
    have hnum : intDescNum = 0x81 := rfl
    rw [Among, entry_eq]
    omega)
  others i hi := (hm _ (by
    have hnum : intDescNum = 0x81 := rfl
    rw [Among, entry_eq]
    omega)).trans (h.others i hi)
  syscall := h.syscall.congr fun j hj => hm _ (by
    have hnum : intDescNum = 0x81 := rfl
    rw [Among, entry_eq]
    omega)

theorem GdtReady.congr (h : GdtReady sym m) (hgdt : ∀ a, Among gdtBase 56 a → m' a = m a)
    (htask : ∀ a, Among sym.tss tssSize a → ¬ Among (sym.tss + 4) 4 a → m' a = m a) :
    GdtReady sym m' where
  rights i hi := (hgdt _ (by rw [Among, gdt_entry]; omega)).trans (h.rights i hi)
  base := by
    rw [← h.base, segmentBase, segmentBase, hgdt (gdt.entry 4 + 4) (by decide),
      hgdt (gdt.entry 4 + 7) (by decide), half_congr (hgdt (gdt.entry 4 + 2) (by decide))
      (hgdt (gdt.entry 4 + 2 + 1) (by decide))]
  limit := by
    rw [← h.limit, segmentLimit, segmentLimit, hgdt (gdt.entry 4 + 6) (by decide),
      half_congr (hgdt (gdt.entry 4) (by decide)) (hgdt (gdt.entry 4 + 1) (by decide))]
  task j hj hfree := (htask _ (by rw [Among]; omega) (by rw [Among] at hfree ⊢; omega)).trans
    (h.task j hj hfree)

theorem runTableOp_kept (hop : op.Allowed sym) (ha : Reserved sym a)
    (hesp : ¬ Among (sym.tss + 4) 4 a)
    (hhandlers : ¬ Among sym.exceptionFuncptrTable (4 * intDescNum) a) :
    runTableOp sym m op a = m a := by
  cases op with
  | updateTssEsp0 pthread =>
    rw [Among] at hesp
    exact storeWord_outside (by omega)
  | registerHandler vecNum func =>
    have hvec := hop.1
    rw [Among] at hhandlers
    exact registerHandler_outside (by omega)
  | store b x => exact Function.update_of_ne (fun h : a = b => hop (h ▸ ha)) ..

theorem run_kept (hops : ∀ op ∈ ops, op.Allowed sym) (ha : Reserved sym a)
    (hesp : ¬ Among (sym.tss + 4) 4 a)
    (hhandlers : ¬ Among sym.exceptionFuncptrTable (4 * intDescNum) a) :
    ops.foldl (runTableOp sym) m a = m a := by
  induction ops generalizing m with
  | nil => rfl
  | cons op ops ih =>
    rw [List.forall_mem_cons] at hops
    rw [List.foldl_cons, ih hops.2, runTableOp_kept hops.1 ha hesp hhandlers]

theorem among_gdt (hp : Placed sym) (ha : Among gdtBase 56 a) :
    ¬ Among sym.idt (8 * intDescNum) a ∧ ¬ Among sym.tss tssSize a ∧
      ¬ Among sym.exceptionFuncptrTable (4 * intDescNum) a := by
  obtain ⟨h₁, h₂, h₃⟩ := hp.above
  simp only [Among] at ha ⊢
  omega

theorem among_idt (hp : Placed sym) (ha : Among sym.idt (8 * intDescNum) a) :
    ¬ Among gdtBase 56 a ∧ ¬ Among sym.tss tssSize a ∧
      ¬ Among sym.exceptionFuncptrTable (4 * intDescNum) a := by
  obtain ⟨h₁, -, -⟩ := hp.above
  have h₂ := hp.idt_tss
  have h₃ := hp.idt_handlers
  simp only [Among, KernelDescriptors.Apart] at ha h₂ h₃ ⊢
  omega

theorem among_tss (hp : Placed sym) (ha : Among sym.tss tssSize a) :
    ¬ Among gdtBase 56 a ∧ ¬ Among sym.idt (8 * intDescNum) a ∧
      ¬ Among sym.exceptionFuncptrTable (4 * intDescNum) a := by
  obtain ⟨-, h₁, -⟩ := hp.above
  have h₂ := hp.idt_tss
  have h₃ := hp.tss_handlers
  simp only [Among, KernelDescriptors.Apart] at ha h₂ h₃ ⊢
  omega

theorem tss_esp0 (h : ¬ Among sym.tss tssSize a) : ¬ Among (sym.tss + 4) 4 a := by
  have hsize : tssSize = 108 := rfl
  rw [Among] at h ⊢
  omega

theorem run_idt {entry : ℕ → ℕ} (hp : Placed sym) (hops : ∀ op ∈ ops, op.Allowed sym)
    (h : IdtReady sym entry m) : IdtReady sym entry (ops.foldl (runTableOp sym) m) :=
  h.congr fun _ ha => run_kept hops (Or.inr (Or.inl ha)) (tss_esp0 (among_idt hp ha).2.1)
    (among_idt hp ha).2.2

theorem run_gdt (hp : Placed sym) (hops : ∀ op ∈ ops, op.Allowed sym) (h : GdtReady sym m) :
    GdtReady sym (ops.foldl (runTableOp sym) m) :=
  h.congr (fun _ ha => run_kept hops (Or.inl ha) (tss_esp0 (among_gdt hp ha).2.1)
      (among_gdt hp ha).2.2)
    fun _ ha hesp => run_kept hops (Or.inr (Or.inr (Or.inl ha))) hesp (among_tss hp ha).2.2

/-! ## Handlers and stacks -/

theorem runTableOp_handler (hp : Placed sym) (hop : op.Allowed sym) (hv : v < intDescNum) :
    loadWord (runTableOp sym m op) (sym.exceptionFuncptrTable + 4 * v) =
      lastHandler [op] (loadWord m (sym.exceptionFuncptrTable + 4 * v)) v := by
  have hnum : intDescNum = 0x81 := rfl
  have hsize : tssSize = 108 := rfl
  have hapart := hp.tss_handlers
  rw [Apart] at hapart
  cases op with
  | updateTssEsp0 pthread => exact loadWord_storeWord_of_apart (by omega)
  | registerHandler vecNum func =>
    by_cases heq : vecNum = v
    · subst heq
      simp only [lastHandler, List.foldl_cons, List.foldl_nil, ↓reduceIte]
      exact loadWord_storeWord hop.2
    · simp only [lastHandler, List.foldl_cons, List.foldl_nil, heq, ↓reduceIte]
      exact loadWord_storeWord_of_apart (by omega)
  | store b x =>
    refine loadWord_congr fun j hj => Function.update_of_ne (fun h => hop ?_) ..
    refine Or.inr (Or.inr (Or.inr ?_))
    rw [Among, ← h]
    omega

theorem run_handler (hp : Placed sym) (hops : ∀ op ∈ ops, op.Allowed sym) (hv : v < intDescNum) :
    loadWord (ops.foldl (runTableOp sym) m) (sym.exceptionFuncptrTable + 4 * v) =
      lastHandler ops (loadWord m (sym.exceptionFuncptrTable + 4 * v)) v := by
  induction ops generalizing m with
  | nil => rfl
  | cons op ops ih =>
    rw [List.forall_mem_cons] at hops
    rw [List.foldl_cons, ih hops.2, runTableOp_handler hp hops.1 hv]
    rfl

theorem runTableOp_esp0 (hp : Placed sym) (hop : op.Allowed sym) :
    loadWord (runTableOp sym m op) (sym.tss + 4) = lastEsp0 [op] (loadWord m (sym.tss + 4)) := by
  have hnum : intDescNum = 0x81 := rfl
  have hsize : tssSize = 108 := rfl
  have hapart := hp.tss_handlers
  rw [Apart] at hapart
  cases op with
  | updateTssEsp0 pthread =>
    obtain ⟨-, hlt⟩ := hop
    rw [runTableOp, updateTssEsp0, u32_of_lt hlt, loadWord_storeWord hlt]
    rfl
  | registerHandler vecNum func =>
    have hvec := hop.1
    exact loadWord_storeWord_of_apart (by omega)
  | store b x =>
    refine loadWord_congr fun j hj => Function.update_of_ne (fun h => hop ?_) ..
    refine Or.inr (Or.inr (Or.inl ?_))
    rw [Among, ← h]
    omega

theorem run_esp0 (hp : Placed sym) (hops : ∀ op ∈ ops, op.Allowed sym) :
    loadWord (ops.foldl (runTableOp sym) m) (sym.tss + 4) =
      lastEsp0 ops (loadWord m (sym.tss + 4)) := by
  induction ops generalizing m with
  | nil => rfl
  | cons op ops ih =>
    rw [List.forall_mem_cons] at hops
    rw [List.foldl_cons, ih hops.2, runTableOp_esp0 hp hops.1]
    rfl

/-! ## The system -/

structure Started (sym : Symbols) (before after : List TableOp) (m : Bytes) : Prop where
  placed : Placed sym
  loader : LoaderGdt m
  before : ∀ op ∈ before, op.Allowed sym
  after : ∀ op ∈ after, op.Allowed sym

theorem Started.idt (h : Started sym before after m) :
    IdtReady sym (fun i => loadWord m (sym.interruptTable + 4 * i))
      (booted sym before after m) := by
  refine run_idt h.placed h.after ((run_idt h.placed h.before (idtInit_ready h.placed m)).congr
    fun a ha => ?_)
  obtain ⟨hgdt, htss, -⟩ := among_idt h.placed ha
  refine tssInit_outside ?_ htss
  rw [Among] at hgdt ⊢
  omega

theorem Started.loaderGdt (h : Started sym before after m) :
    LoaderGdt (before.foldl (runTableOp sym) (idtInit sym m)) := by
  have hsame : ∀ a, Among gdtBase 56 a →
      before.foldl (runTableOp sym) (idtInit sym m) a = m a := by
    intro a ha
    obtain ⟨hidt, htss, hhandlers⟩ := among_gdt h.placed ha
    rw [run_kept h.before (Or.inl ha) (tss_esp0 htss) hhandlers, idtInit_outside hidt hhandlers]
  intro i hi
  obtain ⟨hlow, hhigh⟩ := h.loader i hi
  rw [← hlow, ← hhigh]
  refine ⟨loadWord_congr fun j hj => hsame _ ?_, loadWord_congr fun j hj => hsame _ ?_⟩
  · rw [Among, gdt_entry]
    omega
  · rw [Among, gdt_entry]
    omega

theorem Started.gdt (h : Started sym before after m) : GdtReady sym (booted sym before after m) :=
  run_gdt h.placed h.after (tssInit_ready h.placed h.loaderGdt)

theorem Started.handler (h : Started sym before after m) (hv : v < intDescNum) :
    loadWord (booted sym before after m) (sym.exceptionFuncptrTable + 4 * v) =
      lastHandler (before ++ after) sym.generalExceptionHandler v := by
  have hfirst : loadWord (idtInit sym m) (sym.exceptionFuncptrTable + 4 * v) =
      sym.generalExceptionHandler :=
    exceptionInit_handler h.placed (Nat.zero_le v) (by omega)
  have hafter := run_handler (m := tssInit sym (before.foldl (runTableOp sym) (idtInit sym m)))
    h.placed h.after hv
  have hsame : loadWord (tssInit sym (before.foldl (runTableOp sym) (idtInit sym m)))
      (sym.exceptionFuncptrTable + 4 * v) =
      loadWord (before.foldl (runTableOp sym) (idtInit sym m))
        (sym.exceptionFuncptrTable + 4 * v) := by
    obtain ⟨-, -, habove⟩ := h.placed.above
    have hapart := h.placed.tss_handlers
    rw [Apart] at hapart
    refine loadWord_congr fun j hj => tssInit_outside ?_ ?_
    · rw [Among]
      omega
    · rw [Among]
      omega
  rw [booted, hafter, hsame, run_handler h.placed h.before hv, hfirst, lastHandler, lastHandler,
    lastHandler, List.foldl_append]

theorem Started.esp0 (h : Started sym before after m) :
    loadWord (booted sym before after m) (sym.tss + 4) = lastEsp0 after 0 := by
  have hstart : loadWord (tssInit sym (before.foldl (runTableOp sym) (idtInit sym m)))
      (sym.tss + 4) = 0 := by
    obtain ⟨m₁, hm₁⟩ : ∃ m₁, m₁ = before.foldl (runTableOp sym) (idtInit sym m) := ⟨_, rfl⟩
    have habove := h.placed.above.2.1
    have hzero : ∀ j < 4, tssInit sym m₁ (sym.tss + 4 + j) = 0#8 := by
      intro j hj
      have hsize : tssSize = 108 := rfl
      rw [tssInit_eq, ltr_outside (by rw [gdt_entry]; omega),
        makeGdtDesc_outside (by rw [gdt_entry]; omega),
        makeGdtDesc_outside (by rw [gdt_entry]; omega),
        makeGdtDesc_outside (by rw [gdt_entry]; omega), Nat.add_assoc, tssFields_byte (by omega),
        tssByte, if_neg (by omega), if_neg (by omega)]
    have hword : loadWord (tssInit sym m₁) (sym.tss + 4) = loadWord (fun _ => 0#8) 0 :=
      loadWord_congr hzero
    rw [← hm₁, hword]
    rfl
  rw [booted, run_esp0 h.placed h.after, hstart]

theorem IdtReady.access {entry : ℕ → ℕ} (h : IdtReady sym entry m) (hv : v < intDescNum) :
    (KernelDescriptors.idt sym).access m v =
      if v = 0x80 then ⟨true, 3, false, 14⟩ else ⟨true, 0, false, 14⟩ := by
  rw [Table.access]
  by_cases h80 : v = 0x80
  · rw [if_pos h80, h80, h.syscall.attr]
    rfl
  · have hnum : intDescNum = 0x81 := rfl
    rw [if_neg h80, h.others v (by omega)]
    rfl

theorem IdtReady.enters {entry : ℕ → ℕ} {ring : ℕ} (h : IdtReady sym entry m)
    (hg : GdtReady sym m) (hgate : GateAt m ((KernelDescriptors.idt sym).entry v) attr func)
    (hv : v < intDescNum) :
    interrupt m KernelDescriptors.gdt (KernelDescriptors.idt sym) ring v =
      some ⟨codeSelector, func, 0⟩ := by
  have hcode : KernelDescriptors.gdt.access m (codeSelector / 8) = ⟨true, 0, true, 8⟩ := by
    rw [Table.access, hg.rights _ (by decide)]
    rfl
  have hnum : intDescNum = 0x81 := rfl
  refine interrupt_inner ?_ ?_ hgate.sel rfl ⟨by decide, by decide, by decide⟩ ?_ hgate.offset
  · change 8 * v + 7 ≤ 8 * intDescNum - 1
    omega
  · rw [h.access hv]
    split
    · exact ⟨rfl, rfl, rfl⟩
    · exact ⟨rfl, rfl, rfl⟩
  · rw [hcode]
    exact ⟨rfl, ⟨rfl, rfl⟩, by decide, rfl⟩

/-- Programs come into ring 0 by the gate of the system calls and by no other interrupt, jump or
call that they can ask for. -/
theorem one_way_in (h : Started sym before after m) (v sel : ℕ) :
    softwareInt (booted sym before after m) gdt (idt sym) 3 v =
        (if v = 0x80 then some ⟨codeSelector, sym.systemCallHandler, 0⟩ else none) ∧
      farTransfer (booted sym before after m) gdt 3 sel =
        if sel / 4 = 10 then .ring 3 else .fault := by
  have hidt := h.idt
  have hgdt := h.gdt
  have hnum : intDescNum = 0x81 := rfl
  generalize booted sym before after m = m' at hidt hgdt
  constructor
  · by_cases hv : v < intDescNum
    · have haccess := hidt.access hv
      by_cases h80 : v = 0x80
      · rw [if_pos h80] at haccess ⊢
        rw [softwareInt_open (by rw [haccess]), hidt.enters hgdt (h80 ▸ hidt.syscall) hv]
      · rw [if_neg h80] at haccess ⊢
        exact softwareInt_closed (by rw [haccess]; decide)
    · rw [if_neg (by omega)]
      have hout : ¬ (idt sym).Has v := by
        change ¬ 8 * v + 7 ≤ 8 * intDescNum - 1
        omega
      by_cases hdpl : 3 ≤ ((idt sym).access m' v).dpl
      · rw [softwareInt_open hdpl, interrupt_outside hout]
      · exact softwareInt_closed (by omega)
  · have haccess : ∀ i < 7, gdt.access m' i = access (rights.getD i 0#8) := by
      intro i hi
      rw [Table.access, hgdt.rights i hi]
    by_cases hnames : Names gdt sel
    · obtain ⟨hnull, htable, hhas⟩ := hnames
      have hlimit : sel / 8 < 7 := by
        change 8 * (sel / 8) + 7 ≤ 8 * 7 - 1 at hhas
        omega
      have hrights := haccess _ hlimit
      have hcases : sel / 8 = 1 ∨ sel / 8 = 2 ∨ sel / 8 = 3 ∨ sel / 8 = 4 ∨ sel / 8 = 5 ∨
          sel / 8 = 6 := by omega
      rcases hcases with hi | hi | hi | hi | hi | hi <;> rw [hi] at hrights
      case inr.inr.inr.inr.inl =>
        -- the code segment of the programs
        rw [farTransfer_code ⟨hnull, htable, hhas⟩ (by rw [hi, hrights]; rfl)
          (by rw [hi, hrights]; exact ⟨rfl, rfl⟩) (by rw [hi, hrights]; decide), hi, hrights,
          if_pos ⟨by omega, rfl⟩, if_pos (by omega)]
      case inl =>
        rw [farTransfer_code ⟨hnull, htable, hhas⟩ (by rw [hi, hrights]; rfl)
          (by rw [hi, hrights]; exact ⟨rfl, rfl⟩) (by rw [hi, hrights]; decide), hi, hrights,
          if_neg (fun hd => absurd hd.2 (by decide)), if_neg (by omega)]
      all_goals
        rw [if_neg (by omega)]
        refine farTransfer_closed ?_ ?_
        · rw [hi, hrights]
          decide
        · rw [hi, hrights]
          decide
    · rw [farTransfer_unnamed hnames, if_neg fun h10 => hnames ⟨by omega, by omega, ?_⟩]
      change 8 * (sel / 8) + 7 ≤ 8 * 7 - 1
      omega

/-- An exception or a device comes to its entry in `kernel.asm` from every ring, on the stack of
the running process, and from there to the handler that was registered last. -/
theorem interrupts_dispatched (ring : ℕ) (h : Started sym before after m) (hv : v < 0x30) :
    interrupt (booted sym before after m) gdt (idt sym) ring v =
        some ⟨codeSelector, loadWord m (sym.interruptTable + 4 * v), 0⟩ ∧
      (⟨codeSelector, 0, half (booted sym before after m) (sym.tss + 8),
          loadWord (booted sym before after m) (sym.tss + 4)⟩ : StackInstrs.Gate) =
        KernelContexts.gate (lastEsp0 after 0) ∧
      loadWord (booted sym before after m) (sym.exceptionFuncptrTable + 4 * v) =
        lastHandler (before ++ after) sym.generalExceptionHandler v := by
  have hnum : intDescNum = 0x81 := rfl
  have hss0 : half (booted sym before after m) (sym.tss + 8) = selectorKStack := by
    rw [half, h.gdt.task 8 (by decide) (by decide), Nat.add_assoc,
      h.gdt.task 9 (by decide) (by decide)]
    rfl
  refine ⟨h.idt.enters h.gdt (h.idt.entries v hv) (by omega), ?_, h.handler (by omega)⟩
  rw [hss0, h.esp0]
  rfl

theorem bit_of_word (m : Bytes) (a : ℕ) {k j : ℕ} (hk : k < 4) (hj : j < 8) :
    (m (a + k)).getLsbD j = (loadWord m a).testBit (8 * k + j) := by
  have h₀ := (m a).isLt
  have h₁ := (m (a + 1)).isLt
  have h₂ := (m (a + 2)).isLt
  have h₃ := (m (a + 3)).isLt
  have hbyte : (m (a + k)).toNat = loadWord m a / 2 ^ (8 * k) % 2 ^ 8 := by
    have hcases : k = 0 ∨ k = 1 ∨ k = 2 ∨ k = 3 := by omega
    rcases hcases with rfl | rfl | rfl | rfl <;> rw [loadWord] <;> norm_num <;> omega
  rw [BitVec.getLsbD, hbyte, Nat.testBit_mod_two_pow, Nat.testBit_div_two_pow]
  simp [hj, Nat.add_comm]

/-- The task segment is given a limit in pages and no map of ports, so its own words are taken
for one: programs may use each port but those whose bit is set in them. -/
theorem ports_open {port : ℕ} (h : Started sym before after m) (hport : port < 8 * tssSize) :
    PortOpen (booted sym before after m)
        ⟨segmentBase (booted sym before after m) (gdt.entry 4),
          segmentLimit (booted sym before after m) (gdt.entry 4)⟩
        (KernelContexts.userEflags / 2 ^ 12 % 4) 3 port ↔
      port ∉ [68, 834, 835, 837, 838] ∧
        ¬ (32 ≤ port ∧ port < 64 ∧ (lastEsp0 after 0).testBit (port - 32) = true) := by
  have hgdt := h.gdt
  have hesp0 := h.esp0
  have hsize : tssSize = 108 := rfl
  generalize booted sym before after m = m' at hgdt hesp0
  have hmap : half m' (sym.tss + 102) = 0 := by
    rw [half, hgdt.task 102 (by decide) (by decide), Nat.add_assoc,
      hgdt.task 103 (by decide) (by decide)]
    rfl
  rw [hgdt.base, hgdt.limit, PortOpen, hmap]
  have hring : ¬ 3 ≤ KernelContexts.userEflags / 2 ^ 12 % 4 := by decide
  have hlimit : port / 8 + 1 ≤ (tssSize - 1) * 4096 + 4095 := by omega
  simp only [Nat.zero_add, Nat.add_zero, hring, hlimit, false_or, true_and]
  by_cases hstack : Among 4 4 (port / 8)
  · rw [Among] at hstack
    obtain ⟨k, hk⟩ : ∃ k, port / 8 = 4 + k := ⟨port / 8 - 4, by omega⟩
    rw [hk, ← Nat.add_assoc, bit_of_word m' (sym.tss + 4) (by omega) (Nat.mod_lt _ (by omega)),
      hesp0, show 8 * k + port % 8 = port - 32 by omega]
    have hlist : port ∉ [68, 834, 835, 837, 838] := by
      simp only [List.mem_cons, List.not_mem_nil, or_false]
      omega
    have hlow : 32 ≤ port ∧ port < 64 := by omega
    simp [hlist, hlow]
  · rw [hgdt.task _ (by omega) hstack, tssByte]
    rw [Among] at hstack
    have hno : ¬ (32 ≤ port ∧ port < 64 ∧ (lastEsp0 after 0).testBit (port - 32) = true) := by
      omega
    rw [and_iff_left hno]
    by_cases h8 : port / 8 = 8
    · obtain ⟨j, hj, rfl⟩ : ∃ j < 8, port = 64 + j := ⟨port - 64, by omega, by omega⟩
      have hbits : ∀ j < 8, (0x10#8).getLsbD j = false ↔
          64 + j ∉ [68, 834, 835, 837, 838] := by decide
      rw [if_pos h8, show (64 + j) % 8 = j by omega]
      exact hbits j hj
    · rw [if_neg h8]
      by_cases h104 : port / 8 = 104
      · obtain ⟨j, hj, rfl⟩ : ∃ j < 8, port = 832 + j := ⟨port - 832, by omega, by omega⟩
        have hbits : ∀ j < 8, (0x6c#8).getLsbD j = false ↔
            832 + j ∉ [68, 834, 835, 837, 838] := by decide
        rw [if_pos h104, show (832 + j) % 8 = j by omega]
        exact hbits j hj
      · have hlist : port ∉ [68, 834, 835, 837, 838] := by
          simp only [List.mem_cons, List.not_mem_nil, or_false]
          omega
        simp [h104, hlist]

end

/-! ## What the loader leaves -/

def assembledGdt : List (ℕ × ℕ) :=
  [(0, 0), (0x0000ffff, 0x00cf9800), (0x0000ffff, 0x00cf9200), (0x80000007, 0x00c0920b)]

structure Assembled (m : Bytes) : Prop where
  entries : ∀ i < 4, loadWord m (0x903 + 8 * i) = (assembledGdt.getD i (0, 0)).1 ∧
    loadWord m (0x903 + 8 * i + 4) = (assembledGdt.getD i (0, 0)).2
  config : loadWord m (BootKernelImage.gdtConfig + 2) = BootKernelImage.gdtStart

theorem loaderGdt_raised {m : Bytes} (h : Assembled m) :
    LoaderGdt fun a => BootKernelImage.raiseGdt (BootPages.setPage m) (a % 0xc0000000) := by
  have hpage : ∀ a, a + 4 ≤ 0x1000 → loadWord (BootPages.setPage m) a = loadWord m a :=
    fun a ha => loadWord_congr fun j hj => BootPages.setPage_outside (by omega)
  have hraise := BootKernelImage.raiseGdt_eq (m := BootPages.setPage m) (by
    rw [hpage _ (by decide)]
    exact h.config)
  have hvirtual : ∀ m' : Bytes, ∀ k < 56, loadWord (fun a => m' (a % 0xc0000000)) (gdtBase + k) =
      loadWord m' (0x903 + k) := by
    intro m' k hk
    refine loadWord_congr fun j hj => ?_
    have haddr : (gdtBase + k + j) % 0xc0000000 = 0x903 + k + j := by
      simp only [gdtBase]
      omega
    simp only [haddr]
  intro i hi
  obtain ⟨hlow, hhigh⟩ := h.entries i hi
  rw [gdt_entry, hvirtual _ (8 * i) (by omega), Nat.add_assoc, hvirtual _ (8 * i + 4) (by omega),
    hraise]
  constructor
  · rw [loadWord_storeWord_of_apart (by omega), loadWord_storeWord_of_apart (by omega),
      hpage _ (by omega), hlow]
    have hcases : i = 0 ∨ i = 1 ∨ i = 2 ∨ i = 3 := by omega
    rcases hcases with rfl | rfl | rfl | rfl <;> rfl
  · rw [loadWord_storeWord_of_apart (by omega)]
    by_cases h3 : i = 3
    · subst h3
      have hvideo : loadWord (BootPages.setPage m) 0x91f = 0x00c0920b :=
        (hpage _ (by omega)).trans hhigh
      rw [hvideo]
      exact loadWord_storeWord (by decide)
    · rw [loadWord_storeWord_of_apart (by omega), hpage _ (by omega), ← Nat.add_assoc, hhigh]
      have hcases : i = 0 ∨ i = 1 ∨ i = 2 := by omega
      rcases hcases with rfl | rfl | rfl <;> rfl

/-! ## A system -/

def sampleSymbols : Symbols where
  idt := 0xc0010000
  tss := 0xc0020000
  interruptTable := 0xc0030000
  exceptionFuncptrTable := 0xc0040000
  generalExceptionHandler := 0xc0001600
  systemCallHandler := 0xc0001700

def sampleLoader : Bytes :=
  let m := storeWord (fun _ => 0#8) 0x90b 0x0000ffff
  let m := storeWord m 0x90f 0x00cf9800
  let m := storeWord m 0x913 0x0000ffff
  let m := storeWord m 0x917 0x00cf9200
  let m := storeWord m 0x91b 0x80000007
  let m := storeWord m 0x91f 0x00c0920b
  storeWord m (BootKernelImage.gdtConfig + 2) BootKernelImage.gdtStart

def sampleMemory : Bytes := fun a =>
  BootKernelImage.raiseGdt (BootPages.setPage sampleLoader) (a % 0xc0000000)

/-- A timer is registered before the task segment is set up, a process is entered afterwards. -/
theorem started_sample : Started sampleSymbols [.registerHandler 0x20 0xc0001800]
    [.updateTssEsp0 0xc0100000] sampleMemory where
  placed := ⟨by decide, by decide, by decide, by decide, by decide, by decide⟩
  loader := loaderGdt_raised ⟨by decide +kernel, by decide +kernel⟩
  before := by simp [TableOp.Allowed, intDescNum]
  after := by simp [TableOp.Allowed]

theorem one_way_in_sample : ∃ m : Bytes,
    softwareInt m gdt (idt sampleSymbols) 3 0x20 = none ∧ farTransfer m gdt 3 0x08 = .fault :=
  ⟨_, one_way_in started_sample 0x20 0x08⟩

theorem interrupts_dispatched_sample : ∃ m : Bytes,
    (interrupt m gdt (idt sampleSymbols) 3 0x20).isSome ∧
      loadWord m (sampleSymbols.exceptionFuncptrTable + 4 * 0x20) = 0xc0001800 :=
  have h := interrupts_dispatched 3 started_sample (show 0x20 < 0x30 by decide)
  ⟨_, by rw [h.1]; rfl, h.2.2⟩

theorem ports_open_sample : ∃ m : Bytes,
    PortOpen m ⟨segmentBase m (gdt.entry 4), segmentLimit m (gdt.entry 4)⟩
      (KernelContexts.userEflags / 2 ^ 12 % 4) 3 0x1f0 :=
  ⟨_, (ports_open started_sample (by decide)).mpr ⟨by decide, by decide⟩⟩

end KernelDescriptors
