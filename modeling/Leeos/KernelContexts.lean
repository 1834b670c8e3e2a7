import Leeos.KernelThreads
import Leeos.StackInstrs

/-!
# Saving and restoring contexts (`thread/switch.asm`, `kernel/kernel.asm`, `thread/thread.c`)

`switch_to` leaves four registers and its return address on the stack of the thread that calls it,
and the stack pointer in that thread's PCB. An interrupt entry leaves the whole context there, and
`exit_intr` takes it back. A new thread starts from a stack that `thread_create` has prepared, a
process enters user code through a frame that `start_process` fills in. Pointers into a stack are
`uint32_t *`, so what `thread_create` and `start_process` add to them counts words.
-/
namespace KernelContexts

open FrameStacks StackInstrs
open KernelThreads (pcbAddr)

/-- Addresses that the linker has chosen: of two tables, of `kernel_thread`, and of the
instructions behind the calls. -/
structure Symbols where
  exceptionFuncptrTable : ℕ
  syscallTable : ℕ
  kernelThread : ℕ
  switchTo : ℕ
  afterHandler : ℕ → ℕ
  afterSyscall : ℕ

/-! ## `switch_to` -/

def switchTo : List Instr :=
  [.push .esi, .push .edi, .push .ebx, .push .ebp,
    .load .eax .esp 20, .store .eax 0 .esp,
    .load .eax .esp 24, .load .esp .eax 0,
    .pop .ebp, .pop .ebx, .pop .edi, .pop .esi, .ret]

def runningThread (c : Cpu) : ℕ := c.reg .esp / 4096 * 4096

/-- The call at the end of `schedule`; `after` is its return address. -/
def callSwitchTo (sym : Symbols) (next after : ℕ) (c : Cpu) : Cpu :=
  run ([.pushImm next, .pushImm (runningThread c), .call sym.switchTo after] ++ switchTo) c

/-! ## Interrupts -/

/-- The second argument of `interrupt_deal`. -/
inductive SecondArg where
  | errorCode
  | zero
  deriving DecidableEq, Repr

/-- The 48 uses of the macro. -/
def secondArg (v : ℕ) : SecondArg := if v = 0x0d ∨ v = 0x1e then .errorCode else .zero

def SecondArg.instr : SecondArg → Instr
  | .errorCode => .nop
  | .zero => .pushImm 0

/-- `interrupt%1entry`, up to the handler. -/
def interruptEntry (sym : Symbols) (v : ℕ) : List Instr :=
  [(secondArg v).instr, .pushSeg .ds, .pushSeg .es, .pushSeg .fs, .pushSeg .gs, .pushad,
    .movAl 0x20, .outAl 0x20, .outAl 0xa0,
    .pushImm v, .callAt (sym.exceptionFuncptrTable + 4 * v) (sym.afterHandler v)]

def exitIntr : List Instr :=
  [.popad, .popSeg .gs, .popSeg .fs, .popSeg .es, .popSeg .ds, .addEsp 4, .iret]

/-- `interrupt%1entry`, from the handler's return on. -/
def interruptReturn : List Instr := .addEsp 4 :: exitIntr

/-- Up to the function of the table. -/
def systemCallHandler (sym : Symbols) : List Instr :=
  [.pushImm 0, .pushSeg .ds, .pushSeg .es, .pushSeg .fs, .pushSeg .gs, .pushad,
    .pushImm 0x80, .push .edx, .push .ecx, .push .ebx,
    .callIndexed sym.syscallTable .eax sym.afterSyscall]

def systemCallReturn : List Instr := .addEsp 12 :: .store .esp 32 .eax :: .addEsp 4 :: exitIntr

def selectorKCode : ℕ := 1 * 8 + 0 * 4 + 0
def selectorKStack : ℕ := 2 * 8 + 0 * 4 + 0

def selectorUCode : ℕ := 0x2b
def selectorUData : ℕ := 0x33

/-- All gates lead to the kernel's code; the task segment has the kernel's stack segment. -/
def gate (esp0 : ℕ) : Gate := ⟨selectorKCode, 0, selectorKStack, esp0⟩

/-! ## The first steps of threads and processes -/

def intrStackSize : ℕ := 76
def threadStackSize : ℕ := 32

/-- What `thread_init` and `thread_create` do to the stack of a thread: `self_kernel_stack` is the
first word of the PCB. -/
def threadCreate (sym : Symbols) (t function funcArgs : ℕ) (m : ℕ → ℕ) : ℕ → ℕ :=
  let m := Function.update m (pcbAddr t) (pcbAddr t + 4096)
  let m := Function.update m (pcbAddr t) (m (pcbAddr t) - 4 * intrStackSize)
  let m := Function.update m (pcbAddr t) (m (pcbAddr t) - 4 * threadStackSize)
  let threadStackPtr := m (pcbAddr t)
  let m := Function.update m (threadStackPtr + 16) sym.kernelThread
  let m := Function.update m (threadStackPtr + 24) function
  let m := Function.update m (threadStackPtr + 28) funcArgs
  let m := Function.update m (threadStackPtr + 12) 0
  let m := Function.update m (threadStackPtr + 8) 0
  let m := Function.update m (threadStackPtr + 4) 0
  Function.update m threadStackPtr 0

def userEflags : ℕ := 0x202

/-- The fields that `start_process` fills in before it asks for a stack page. -/
def intrStackFields (function : ℕ) : List (ℕ × ℕ) :=
  [(32, 0), (20, 0), (28, 0), (24, 0), (12, 0), (4, 0), (8, 0), (16, 0),
    (60, selectorUCode), (48, selectorUData), (40, selectorUData), (36, 0), (56, function),
    (44, selectorUData), (72, selectorUData), (64, userEflags)]

def storeFields (a : ℕ) (fields : List (ℕ × ℕ)) (m : ℕ → ℕ) : ℕ → ℕ :=
  fields.foldl (fun m f => Function.update m (a + f.1) f.2) m

def intrStackPtr (c : Cpu) : ℕ := c.mem (runningThread c) + 4 * threadStackSize

/-- What `get_a_page` does to memory is `getAPage`, what it returns is `page`. -/
def startProcess (function page : ℕ) (getAPage : (ℕ → ℕ) → ℕ → ℕ) (c : Cpu) : Cpu :=
  let a := intrStackPtr c
  let m := getAPage (storeFields a (intrStackFields function) c.mem)
  let c := { c with mem := Function.update m (a + 68) (page + 4096) }
  run (.addEsp 4 :: exitIntr) (c.set .esp a)

/-! ## What lies on the stacks -/

/-- What the caller of `switch_to` counts on; `esp` is its stack pointer after the return. -/
@[ext] structure Callee where
  ebp : ℕ
  ebx : ℕ
  edi : ℕ
  esi : ℕ
  eip : ℕ
  esp : ℕ

def calleeOf (c : Context) : Callee :=
  ⟨c.reg .ebp, c.reg .ebx, c.reg .edi, c.reg .esi, c.eip, c.reg .esp⟩

/-- A thread that has not run yet, a call of `switch_to`, or an interrupted context. -/
inductive Saved where
  | fresh (function funcArgs : ℕ)
  | switched (c : Callee)
  | interrupted (c : Context)

/-- In the order of the pushes; `dummy` is the `esp` of `pushad`, which `popad` skips. -/
def registerWords (dummy : ℕ) (c : Context) : List ℕ :=
  [c.seg .ds, c.seg .es, c.seg .fs, c.seg .gs, c.reg .eax, c.reg .ecx, c.reg .edx, c.reg .ebx,
    dummy, c.reg .ebp, c.reg .esi, c.reg .edi]

def gateWords (err : Option ℕ) (c : Context) : List ℕ :=
  (if c.cpl = 0 then [] else [c.seg .ss, c.reg .esp]) ++
    [c.eflags, c.seg .cs, c.eip] ++ err.toList

def contextWords (err dummy : ℕ) (c : Context) : List ℕ :=
  gateWords (some err) c ++ registerWords dummy c

def contextSize (c : Context) : ℕ := if c.cpl = 0 then 64 else 72

def Saved.size : Saved → ℕ
  | .fresh _ _ => 32
  | .switched _ => 20
  | .interrupted c => contextSize c

def Callee.words (c : Callee) : List ℕ := [c.ebp, c.ebx, c.edi, c.esi, c.eip]

structure ContextStored (m : ℕ → ℕ) (a : ℕ) (c : Context) : Prop where
  laid : ∃ err dummy, Laid m a (contextWords err dummy c).reverse
  kernel : c.cpl = 0 → c.seg .cs = selectorKCode ∧ c.seg .ss = selectorKStack ∧
    c.reg .esp = a + 64
  user : c.cpl ≠ 0 → c.cpl = 3

def Saved.Stored (sym : Symbols) (m : ℕ → ℕ) (a : ℕ) : Saved → Prop
  | .fresh function funcArgs =>
    Laid m a [0, 0, 0, 0, sym.kernelThread] ∧ m (a + 24) = function ∧ m (a + 28) = funcArgs
  | .switched c => Laid m a c.words ∧ c.esp = a + 20
  | .interrupted c => ContextStored m a c

variable {sym : Symbols} {m m' : ℕ → ℕ} {a b t : ℕ}

theorem contextWords_length (err dummy : ℕ) (c : Context) :
    4 * (contextWords err dummy c).length = contextSize c := by
  simp only [contextWords, gateWords, contextSize]
  split <;> rfl

theorem ContextStored.congr {c : Context}
    (heq : ∀ b, a ≤ b → b < a + contextSize c → m' b = m b) (h : ContextStored m a c) :
    ContextStored m' a c where
  laid := by
    obtain ⟨err, dummy, hlaid⟩ := h.laid
    refine ⟨err, dummy, hlaid.congr fun b hb hb' => heq b hb ?_⟩
    rwa [List.length_reverse, contextWords_length] at hb'
  kernel := h.kernel
  user := h.user

def layout (sym : Symbols) : Layout Saved ℕ where
  size := Saved.size
  Stored m a x := 4 ∣ a ∧ x.Stored sym m a
  congr := by
    intro m m' a x heq h
    refine ⟨h.1, ?_⟩
    cases x with
    | fresh function funcArgs =>
      obtain ⟨-, hlaid, hfunction, hargs⟩ := h
      have hsize : (Saved.fresh function funcArgs).size = 32 := rfl
      refine ⟨hlaid.congr fun b hb hb' => heq b hb ?_, ?_, ?_⟩
      · simp only [List.length_cons, List.length_nil] at hb'
        omega
      · exact (heq _ (by omega) (by omega)).trans hfunction
      · exact (heq _ (by omega) (by omega)).trans hargs
    | switched c => exact ⟨h.2.1.congr heq, h.2.2⟩
    | interrupted c => exact h.2.congr heq

/-- `sizeof(struct pcb_struct)`; the stack lies between the PCB and the end of its page. -/
def pcbSize : ℕ := 272

def regions : Regions ℕ where
  bottom t := pcbAddr t + pcbSize
  top t := pcbAddr t + 4096
  apart := by
    intro t u h
    simp only [pcbAddr, pcbSize]
    omega

/-! ## What the routines do -/

theorem runningThread_eq {c : Cpu} (hlow : pcbAddr t ≤ c.reg .esp)
    (hhigh : c.reg .esp < pcbAddr t + 4096) : runningThread c = pcbAddr t := by
  simp only [pcbAddr, runningThread] at *
  omega

/-- The registers behind a `switch_to` that finds the stack pointer `b`. -/
def switched (m : ℕ → ℕ) (b next : ℕ) (c : Cpu) : Cpu where
  reg
    | .ebp => m b
    | .ebx => m (b + 4)
    | .edi => m (b + 8)
    | .esi => m (b + 12)
    | .esp => b + 20
    | .eax => next
    | r => c.reg r
  seg := c.seg
  eip := m (b + 16)
  eflags := c.eflags
  mem := m

def switchStacks : List Instr := switchTo.drop 4

theorem switchStacks_eq {c : Cpu} (curr next : ℕ) (hcurr : c.mem (c.reg .esp + 20) = curr)
    (hnext : c.mem (c.reg .esp + 24) = next) (hne : curr ≠ c.reg .esp + 24) :
    run switchStacks c = switched (Function.update c.mem curr (c.reg .esp))
      (Function.update c.mem curr (c.reg .esp) next) next c := by
  have hnext' : Function.update c.mem curr (c.reg .esp) (c.reg .esp + 24) = next :=
    (Function.update_of_ne hne.symm ..).trans hnext
  have hreg : (run switchStacks c).reg = (switched (Function.update c.mem curr (c.reg .esp))
      (Function.update c.mem curr (c.reg .esp) next) next c).reg := by
    funext r
    cases r <;> simp [switchStacks, switchTo, exec, switched, Cpu.store, Cpu.top, hcurr, hnext']
  have hrest : (run switchStacks c).mem = Function.update c.mem curr (c.reg .esp) ∧
      (run switchStacks c).eip = Function.update c.mem curr (c.reg .esp)
        (Function.update c.mem curr (c.reg .esp) next + 16) := by
    simp [switchStacks, switchTo, exec, Cpu.store, Cpu.top, hcurr, hnext']
  exact cpu_ext hreg rfl hrest.2 rfl hrest.1

/-- The words on the stack when `switch_to` has pushed its own, the last one first. -/
def calleeWords (after next : ℕ) (c : Cpu) : List ℕ :=
  [c.reg .ebp, c.reg .ebx, c.reg .edi, c.reg .esi, after, runningThread c, next]

/-- Memory when `switch_to` has left the running thread's registers on its stack. -/
def savedCallee (after next : ℕ) (c : Cpu) : ℕ → ℕ :=
  Function.update (pushAll (calleeWords after next c).reverse c).mem (runningThread c)
    (c.reg .esp - 28)

theorem callSwitchTo_pushes (next after : ℕ) (c : Cpu) : callSwitchTo sym next after c =
    run switchStacks ((pushAll (calleeWords after next c).reverse c).jump sym.switchTo) := by
  simp [callSwitchTo, switchTo, switchStacks, calleeWords, pushAll_cons, exec, Cpu.jump, Cpu.push,
    Cpu.set, Cpu.store]

theorem calleeWords_laid {c : Cpu} (next after : ℕ) (hesp : 28 ≤ c.reg .esp) :
    Laid (pushAll (calleeWords after next c).reverse c).mem (c.reg .esp - 28)
      (calleeWords after next c) := by
  have h := pushAll_laid (c := c) (calleeWords after next c).reverse (by
    simpa [calleeWords] using hesp)
  rwa [List.reverse_reverse] at h

theorem callSwitchTo_eq {c : Cpu} {next after : ℕ} (hlow : runningThread c + 28 ≤ c.reg .esp) :
    callSwitchTo sym next after c = switched (savedCallee after next c)
      (savedCallee after next c next) next c := by
  have hlaid := calleeWords_laid (c := c) next after (by omega)
  have hesp : ((pushAll (calleeWords after next c).reverse c).jump sym.switchTo).reg .esp =
      c.reg .esp - 28 := by
    rw [jump_reg, pushAll_reg, Function.update_self]
    rfl
  rw [callSwitchTo_pushes, switchStacks_eq (runningThread c) next]
  · rw [hesp]
    apply cpu_ext
    · funext r
      cases r <;> simp [switched, savedCallee]
    · simp [switched]
    · simp [switched, savedCallee]
    · simp [switched]
    · simp [switched, savedCallee]
  · rw [hesp]
    exact hlaid.getElem (i := 5) (by simp [calleeWords])
  · rw [hesp]
    exact hlaid.getElem (i := 6) (by simp [calleeWords])
  · rw [hesp]
    omega

theorem savedCallee_self (after next : ℕ) (c : Cpu) :
    savedCallee after next c (runningThread c) = c.reg .esp - 28 := Function.update_self ..

theorem savedCallee_other {c : Cpu} {next after : ℕ} (hesp : 28 ≤ c.reg .esp)
    (hne : a ≠ runningThread c) (ha : a < c.reg .esp - 28 ∨ c.reg .esp ≤ a) :
    savedCallee after next c a = c.mem a := by
  rw [savedCallee, Function.update_of_ne hne]
  exact pushAll_mem_outside hesp ha

theorem savedCallee_laid {c : Cpu} (next after : ℕ) (hlow : runningThread c + 28 < c.reg .esp) :
    Laid (savedCallee after next c) (c.reg .esp - 28) (calleeWords after next c) :=
  (calleeWords_laid next after (by omega)).update (Or.inl (by omega)) _

/-- The processor behind `exit_intr`. -/
def restored (c : Cpu) : Cpu where
  reg
    | .esp => if c.cpl < c.mem (c.reg .esp + 56) % 4 then c.mem (c.reg .esp + 64)
        else c.reg .esp + 64
    | r => popped c r
  seg
    | .gs => c.mem (c.reg .esp + 32)
    | .fs => c.mem (c.reg .esp + 36)
    | .es => c.mem (c.reg .esp + 40)
    | .ds => c.mem (c.reg .esp + 44)
    | .cs => c.mem (c.reg .esp + 56)
    | .ss => if c.cpl < c.mem (c.reg .esp + 56) % 4 then c.mem (c.reg .esp + 68) else c.seg .ss
  eip := c.mem (c.reg .esp + 52)
  eflags := c.mem (c.reg .esp + 60)
  mem := c.mem

theorem exitIntr_eq (c : Cpu) : run exitIntr c = restored c := by
  by_cases hring : c.seg .cs % 4 < c.mem (c.reg .esp + 56) % 4
  · apply cpu_ext
    case hreg =>
      funext r
      cases r <;> simp [exitIntr, exec, restored, popped, Cpu.top, Cpu.popFlags, Context.cpl, hring]
    case hseg =>
      funext s
      cases s <;> simp [exitIntr, exec, restored, popped, Cpu.top, Cpu.popFlags, Context.cpl, hring]
    all_goals
      simp [exitIntr, exec, restored, Cpu.top, Cpu.popFlags, Context.cpl, hring]
  · apply cpu_ext
    case hreg =>
      funext r
      cases r <;> simp [exitIntr, exec, restored, popped, Cpu.top, Cpu.popFlags, Context.cpl, hring]
    case hseg =>
      funext s
      cases s <;> simp [exitIntr, exec, restored, popped, Cpu.top, Cpu.popFlags, Context.cpl, hring]
    all_goals
      simp [exitIntr, exec, restored, Cpu.top, Cpu.popFlags, Context.cpl, hring]

theorem ContextStored.restored {c : Cpu} {x : Context} (h : ContextStored c.mem (c.reg .esp) x)
    (hcpl : c.cpl = 0) (hss : c.seg .ss = selectorKStack) : (restored c).toContext = x := by
  obtain ⟨err, dummy, hlaid⟩ := h.laid
  have hcpl' : c.seg .cs % 4 = 0 := hcpl
  by_cases hx : x.cpl = 0
  · obtain ⟨hcs, hstack, hesp⟩ := h.kernel hx
    have hx' : x.seg .cs % 4 = 0 := hx
    simp [contextWords, gateWords, registerWords, hx, Nat.add_assoc] at hlaid
    apply Context.ext
    · funext r
      cases r <;> simp [KernelContexts.restored, popped, Context.cpl, hcpl', hx', hlaid, hesp]
    · funext s
      cases s <;> simp [KernelContexts.restored, Context.cpl, hcpl', hx', hlaid, hss, hstack]
    · simp [KernelContexts.restored, hlaid]
    · simp [KernelContexts.restored, hlaid]
  · have hx' : 0 < x.seg .cs % 4 := Nat.pos_of_ne_zero hx
    simp [contextWords, gateWords, registerWords, hx, Nat.add_assoc] at hlaid
    apply Context.ext
    · funext r
      cases r <;> simp [KernelContexts.restored, popped, Context.cpl, hcpl', hx', hlaid]
    · funext s
      cases s <;> simp [KernelContexts.restored, Context.cpl, hcpl', hx', hlaid]
    · simp [KernelContexts.restored, hlaid]
    · simp [KernelContexts.restored, hlaid]

/-- Where the pushes of an interrupt begin. -/
def entryStack (esp0 : ℕ) (c : Cpu) : Cpu :=
  if c.cpl = 0 then c else (c.setSeg .ss selectorKStack).set .esp esp0

theorem deliver_eq (esp0 : ℕ) (err : Option ℕ) (c : Cpu) : deliver (gate esp0) err c =
    { ((pushAll (gateWords err c.toContext) (entryStack esp0 c)).setSeg .cs selectorKCode).jump 0
      with eflags := gateFlags c.eflags } := by
  by_cases hc : c.cpl = 0
  · cases err <;> simp [deliver, gate, entryStack, gateWords, hc, pushAll_cons]
  · cases err <;> simp [deliver, gate, entryStack, gateWords, hc, pushAll_cons, Cpu.setSeg, Cpu.set, Cpu.push, Cpu.store]

/-- What the entries of interrupts and of system calls have in common. -/
def saveRegisters : List Instr := [.pushSeg .ds, .pushSeg .es, .pushSeg .fs, .pushSeg .gs, .pushad]

theorem saveRegisters_eq (c : Cpu) : run saveRegisters c =
    pushAll (registerWords (c.reg .esp - 16) c.toContext) c := by
  simp [saveRegisters, exec, registerWords, pushAll_cons, Nat.sub_sub]

/-- `x` is the processor in a handler that was entered from `c`: the context is on the stack, and
below it the words `more`. -/
structure Entered (esp0 : ℕ) (c : Cpu) (more : List ℕ) (x : Cpu) : Prop where
  mem : ∃ err dummy, x.mem =
    (pushAll (contextWords err dummy c.toContext ++ more) (entryStack esp0 c)).mem
  esp : x.reg .esp =
    (entryStack esp0 c).reg .esp - (contextSize c.toContext + 4 * more.length)
  seg : x.seg = Function.update (entryStack esp0 c).seg .cs selectorKCode
  eflags : x.eflags = gateFlags c.eflags

theorem pushAll_mem_congr {c d : Cpu} (ws : List ℕ) (hmem : c.mem = d.mem)
    (hesp : c.reg .esp = d.reg .esp) : (pushAll ws c).mem = (pushAll ws d).mem := by
  induction ws generalizing c d with
  | nil => exact hmem
  | cons w ws ih =>
    rw [pushAll_cons, pushAll_cons]
    apply ih
    · rw [push_mem, push_mem, hmem, hesp]
    · rw [push_esp, push_esp, hesp]

/-- What the entries of an interrupt and of a system call have in common. -/
theorem entered_of_pushes {esp0 : ℕ} {c x : Cpu} {more : List ℕ} (err : ℕ)
    (hmem : x.mem = (pushAll (registerWords ((deliver (gate esp0) (some err) c).reg .esp - 16)
      c.toContext ++ more) (deliver (gate esp0) (some err) c)).mem)
    (hesp : x.reg .esp = (deliver (gate esp0) (some err) c).reg .esp - 4 * (12 + more.length))
    (hseg : x.seg = (deliver (gate esp0) (some err) c).seg)
    (hflags : x.eflags = (deliver (gate esp0) (some err) c).eflags) : Entered esp0 c more x where
  mem := by
    generalize (deliver (gate esp0) (some err) c).reg .esp - 16 = dummy at hmem
    refine ⟨err, dummy, hmem.trans ?_⟩
    rw [contextWords, List.append_assoc, pushAll_append _ _ (entryStack esp0 c)]
    apply pushAll_mem_congr
    · rw [deliver_eq]
      rfl
    · rw [deliver_eq]
      rfl
  esp := by
    have hlen : 4 * (gateWords (some err) c.toContext).length + 48 = contextSize c.toContext := by
      rw [← contextWords_length err 0, contextWords, List.length_append]
      simp only [registerWords, List.length_cons, List.length_nil]
      omega
    rw [hesp, deliver_eq]
    simp only [jump_reg, setSeg_reg, pushAll_reg, Function.update_self]
    omega
  seg := by
    rw [hseg, deliver_eq]
    simp
  eflags := by
    rw [hflags, deliver_eq]

theorem deliver_other (esp0 : ℕ) (err : Option ℕ) (c : Cpu) (dummy : ℕ) :
    registerWords dummy (deliver (gate esp0) err c).toContext = registerWords dummy c.toContext := by
  rw [deliver_eq]
  by_cases hc : c.cpl = 0 <;> simp [registerWords, entryStack, hc]

/-- The processor pushes an error code exactly when entry `v` does not push one. -/
def Matching (v : ℕ) (err : Option ℕ) : Prop := err = none ↔ secondArg v = .zero

instance (v : ℕ) (err : Option ℕ) : Decidable (Matching v err) :=
  inferInstanceAs (Decidable (_ ↔ _))

theorem deliver_push (esp0 : ℕ) (c : Cpu) (w : ℕ) :
    (deliver (gate esp0) none c).push w = deliver (gate esp0) (some w) c := by
  rw [deliver_eq, deliver_eq]
  by_cases hc : c.cpl = 0 <;>
    simp [gateWords, entryStack, hc, pushAll_cons, Cpu.push, Cpu.set, Cpu.store, Cpu.setSeg, Cpu.jump]

/-- What the first instruction of an entry leaves, whichever of the two it is. -/
theorem secondArg_deliver {v : ℕ} {err : Option ℕ} (esp0 : ℕ) (c : Cpu) (h : Matching v err) :
    ∃ e, exec (secondArg v).instr (deliver (gate esp0) err c) = deliver (gate esp0) (some e) c := by
  cases harg : secondArg v with
  | zero =>
    rw [h.mpr harg]
    exact ⟨0, deliver_push esp0 c 0⟩
  | errorCode =>
    cases err with
    | none => exact absurd (h.mp rfl) (by simp [harg])
    | some e => exact ⟨e, rfl⟩

theorem entered_of_run {esp0 : ℕ} {c : Cpu} {err : ℕ} {is : List Instr} {more : List ℕ}
    (hmem : ∀ d, (∀ r, r ≠ .esp → d.reg r = c.reg r) → (run is d).mem = (pushAll more d).mem)
    (hesp : ∀ d, (run is d).reg .esp = d.reg .esp - 4 * more.length)
    (hseg : ∀ d, (run is d).seg = d.seg) (hflags : ∀ d, (run is d).eflags = d.eflags) :
    Entered esp0 c more (run (saveRegisters ++ is) (deliver (gate esp0) (some err) c)) := by
  have hreg : ∀ r, r ≠ .esp → (deliver (gate esp0) (some err) c).reg r = c.reg r := by
    intro r hr
    rw [deliver_eq]
    by_cases hc : c.cpl = 0 <;> simp [entryStack, hc, hr]
  rw [run_append, saveRegisters_eq, deliver_other]
  apply entered_of_pushes err
  · rw [pushAll_append]
    apply hmem
    intro r hr
    rw [pushAll_reg, Function.update_of_ne hr, hreg r hr]
  · rw [hesp, pushAll_reg, Function.update_self]
    simp only [registerWords, List.length_cons, List.length_nil]
    omega
  · rw [hseg, pushAll_seg]
  · rw [hflags, pushAll_eflags]

theorem interruptEntry_eq (sym : Symbols) (v : ℕ) : interruptEntry sym v =
    (secondArg v).instr :: (saveRegisters ++ [.movAl 0x20, .outAl 0x20, .outAl 0xa0,
      .pushImm v, .callAt (sym.exceptionFuncptrTable + 4 * v) (sym.afterHandler v)]) := rfl

theorem systemCallHandler_eq (sym : Symbols) : systemCallHandler sym =
    .pushImm 0 :: (saveRegisters ++ [.pushImm 0x80, .push .edx, .push .ecx, .push .ebx,
      .callIndexed sym.syscallTable .eax sym.afterSyscall]) := rfl

theorem interruptEntry_entered {v : ℕ} {err : Option ℕ} (sym : Symbols) (esp0 : ℕ) (c : Cpu)
    (h : Matching v err) : Entered esp0 c [v, sym.afterHandler v]
      (run (interruptEntry sym v) (deliver (gate esp0) err c)) := by
  obtain ⟨e, he⟩ := secondArg_deliver esp0 c h
  rw [interruptEntry_eq, run_cons, he]
  apply entered_of_run
  · intro d _
    simp [exec, pushAll_cons]
  · intro d
    simp [exec, Nat.sub_sub]
  · intro d
    rfl
  · intro d
    rfl

theorem systemCallHandler_entered (esp0 : ℕ) (c : Cpu) :
    Entered esp0 c [0x80, c.reg .edx, c.reg .ecx, c.reg .ebx, sym.afterSyscall]
      (run (systemCallHandler sym) (deliver (gate esp0) none c)) := by
  rw [systemCallHandler_eq, run_cons]
  simp only [exec]
  rw [deliver_push]
  apply entered_of_run
  · intro d hd
    simp [exec, pushAll_cons, hd]
  · intro d
    simp [exec, Nat.sub_sub]
  · intro d
    rfl
  · intro d
    rfl

section Entered

variable {esp0 : ℕ} {c x : Cpu} {more : List ℕ}

theorem Entered.mem_other (h : Entered esp0 c more x)
    (hroom : contextSize c.toContext + 4 * more.length ≤ (entryStack esp0 c).reg .esp)
    (ha : a < x.reg .esp ∨ (entryStack esp0 c).reg .esp ≤ a) : x.mem a = c.mem a := by
  obtain ⟨err, dummy, hmem⟩ := h.mem
  have hlen := contextWords_length err dummy c.toContext
  have hstart : (entryStack esp0 c).mem = c.mem := by
    rw [entryStack]
    split <;> rfl
  rw [hmem, ← hstart]
  rw [h.esp] at ha
  apply pushAll_mem_outside
  · rw [List.length_append]
    omega
  · rw [List.length_append]
    omega

theorem Entered.laid (h : Entered esp0 c more x)
    (hroom : contextSize c.toContext + 4 * more.length ≤ (entryStack esp0 c).reg .esp) :
    Laid x.mem (x.reg .esp) more.reverse ∧
      ∃ err dummy, Laid x.mem ((entryStack esp0 c).reg .esp - contextSize c.toContext)
        (contextWords err dummy c.toContext).reverse := by
  obtain ⟨err, dummy, hmem⟩ := h.mem
  have hlen := contextWords_length err dummy c.toContext
  have hall := pushAll_laid (c := entryStack esp0 c)
    (contextWords err dummy c.toContext ++ more) (by rw [List.length_append]; omega)
  rw [← hmem, List.reverse_append, laid_append, List.length_append, List.length_reverse] at hall
  have hlow : (entryStack esp0 c).reg .esp -
      4 * ((contextWords err dummy c.toContext).length + more.length) = x.reg .esp := by
    rw [h.esp]
    omega
  have hhigh : x.reg .esp + 4 * more.length =
      (entryStack esp0 c).reg .esp - contextSize c.toContext := by
    rw [h.esp]
    omega
  rw [hlow, hhigh] at hall
  exact ⟨hall.1, err, dummy, hall.2⟩

end Entered

theorem interruptReturn_eq (c : Cpu) :
    run interruptReturn c = restored (c.set .esp (c.reg .esp + 4)) := by
  rw [interruptReturn, run_cons, exitIntr_eq]
  rfl

theorem systemCallReturn_eq (c : Cpu) : run systemCallReturn c = restored
    ((c.store (c.reg .esp + 44) (c.reg .eax)).set .esp (c.reg .esp + 16)) := by
  rw [systemCallReturn, run_cons, run_cons, run_cons, exitIntr_eq]
  simp [exec, Cpu.store, Cpu.set]

/-- The result of a system call takes the place of the `eax` that was saved. -/
theorem ContextStored.setEax {x : Context} (h : ContextStored m a x) (w : ℕ) :
    ContextStored (Function.update m (a + 28) w) a (x.set .eax w) where
  laid := by
    obtain ⟨err, dummy, hlaid⟩ := h.laid
    refine ⟨err, dummy, ?_⟩
    by_cases hx : x.seg .cs % 4 = 0
    · simp [contextWords, gateWords, registerWords, Context.cpl, hx, Nat.add_assoc] at hlaid
      simp [contextWords, gateWords, registerWords, Context.cpl, hx, Nat.add_assoc, hlaid,
        Context.set]
    · simp [contextWords, gateWords, registerWords, Context.cpl, hx, Nat.add_assoc] at hlaid
      simp [contextWords, gateWords, registerWords, Context.cpl, hx, Nat.add_assoc, hlaid,
        Context.set]
  kernel := h.kernel
  user := h.user

/-- Where `thread_create` leaves the stack pointer. -/
def firstStack (t : ℕ) : ℕ := pcbAddr t + 3664

theorem threadCreate_eq (sym : Symbols) (t function funcArgs : ℕ) (m : ℕ → ℕ) :
    ∃ m₀, (∀ a, a ≠ pcbAddr t → m₀ a = m a) ∧ m₀ (pcbAddr t) = firstStack t ∧
      threadCreate sym t function funcArgs m =
        Function.update (Function.update (Function.update (Function.update (Function.update
          (Function.update (Function.update m₀ (firstStack t + 16) sym.kernelThread)
            (firstStack t + 24) function) (firstStack t + 28) funcArgs) (firstStack t + 12) 0)
              (firstStack t + 8) 0) (firstStack t + 4) 0) (firstStack t) 0 := by
  refine ⟨Function.update (Function.update (Function.update m (pcbAddr t) (pcbAddr t + 4096))
    (pcbAddr t) (pcbAddr t + 4096 - 4 * intrStackSize)) (pcbAddr t) (firstStack t), ?_, ?_, ?_⟩
  · intro a ha
    rw [Function.update_of_ne ha, Function.update_of_ne ha, Function.update_of_ne ha]
  · exact Function.update_self ..
  · have hfirst : pcbAddr t + 4096 - 4 * intrStackSize - 4 * threadStackSize = firstStack t := by
      simp only [firstStack, intrStackSize, threadStackSize]
      omega
    unfold threadCreate
    dsimp only
    rw [Function.update_self, Function.update_self, hfirst]
    rw [Function.update_self]

theorem threadCreate_pointer (sym : Symbols) (t function funcArgs : ℕ) (m : ℕ → ℕ) :
    threadCreate sym t function funcArgs m (pcbAddr t) = firstStack t := by
  obtain ⟨m₀, -, hself, heq⟩ := threadCreate_eq sym t function funcArgs m
  have hfirst : firstStack t = pcbAddr t + 3664 := rfl
  rw [heq]
  iterate 7 rw [Function.update_of_ne (by omega)]
  exact hself

theorem threadCreate_stored (sym : Symbols) (t function funcArgs : ℕ) (m : ℕ → ℕ) :
    (Saved.fresh function funcArgs).Stored sym (threadCreate sym t function funcArgs m)
      (firstStack t) := by
  obtain ⟨m₀, -, -, heq⟩ := threadCreate_eq sym t function funcArgs m
  rw [heq]
  simp [Saved.Stored, Nat.add_assoc]

theorem threadCreate_other (function funcArgs : ℕ) (hp : a ≠ pcbAddr t)
    (ha : a < firstStack t ∨ firstStack t + 32 ≤ a) :
    threadCreate sym t function funcArgs m a = m a := by
  obtain ⟨m₀, hother, -, heq⟩ := threadCreate_eq sym t function funcArgs m
  rw [heq]
  iterate 7 rw [Function.update_of_ne (by omega)]
  exact hother a hp

/-- The context in which a process enters its program. -/
def userContext (function page : ℕ) : Context where
  reg
    | .esp => page + 4096
    | _ => 0
  seg
    | .cs => selectorUCode
    | .gs => 0
    | _ => selectorUData
  eip := function
  eflags := userEflags

theorem storeFields_outside (fields : List (ℕ × ℕ)) (m : ℕ → ℕ)
    (h : ∀ f ∈ fields, b ≠ a + f.1) : storeFields a fields m b = m b := by
  induction fields generalizing m with
  | nil => rfl
  | cons f fields ih =>
    rw [List.forall_mem_cons] at h
    exact (ih _ h.2).trans (Function.update_of_ne h.1 ..)

theorem startProcess_laid (function page : ℕ) (m₀ : ℕ → ℕ) (hkeep : ∀ b, a ≤ b → b < a + 76 →
      m b = storeFields a (intrStackFields function) m₀ b) :
    ContextStored (Function.update m (a + 68) (page + 4096)) (a + 4)
      (userContext function page) where
  laid := by
    have hm : ∀ i, i < 76 → m (a + i) = storeFields a (intrStackFields function) m₀ (a + i) :=
      fun i hi => hkeep _ (by omega) (by omega)
    refine ⟨m₀ (a + 52), 0, ?_⟩
    simp [contextWords, gateWords, registerWords, Context.cpl, userContext, selectorUCode,
      Nat.add_assoc, hm, storeFields, intrStackFields]
  kernel := by
    intro h
    simp [Context.cpl, userContext, selectorUCode] at h
  user := fun _ => by simp [Context.cpl, userContext, selectorUCode]

theorem startProcess_context {function page : ℕ} {getAPage : (ℕ → ℕ) → ℕ → ℕ} {c : Cpu}
    (hcpl : c.cpl = 0) (hss : c.seg .ss = selectorKStack)
    (hkeep : ∀ b, intrStackPtr c ≤ b → b < intrStackPtr c + 76 →
      getAPage (storeFields (intrStackPtr c) (intrStackFields function) c.mem) b =
        storeFields (intrStackPtr c) (intrStackFields function) c.mem b) :
    (startProcess function page getAPage c).toContext = userContext function page := by
  have hstored := startProcess_laid function page c.mem hkeep
  rw [startProcess, run_cons, exitIntr_eq]
  refine ContextStored.restored ?_ hcpl hss
  simpa [exec] using hstored

theorem startProcess_mem (function page : ℕ) (getAPage : (ℕ → ℕ) → ℕ → ℕ) (c : Cpu) :
    (startProcess function page getAPage c).mem = Function.update
      (getAPage (storeFields (intrStackPtr c) (intrStackFields function) c.mem))
      (intrStackPtr c + 68) (page + 4096) := by
  rw [startProcess, run_cons, exitIntr_eq]
  rfl

end KernelContexts
