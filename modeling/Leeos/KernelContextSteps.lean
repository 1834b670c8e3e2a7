import Leeos.KernelContexts

/-!
# Threads, processes and what interrupts them

One processor, any number of threads and processes. Code of the running thread may do anything
but write over what other contexts have left on the stacks; between its steps come interrupts,
system calls, calls of `schedule`, new threads, and the returns from all of these. `saved` is
what lies on each kernel stack: a stack discipline that no instruction checks and that every
event keeps.
-/
namespace KernelContextSteps

open FrameStacks StackInstrs KernelContexts
open KernelThreads (pcbAddr)

/-- `esp0` is the field of the task segment, `pgdir` that of the PCBs. -/
structure Machine where
  cpu : Cpu
  esp0 : ℕ
  pgdir : ℕ → ℕ
  curr : ℕ
  process : ℕ → Bool
  saved : ℕ → List (Record Saved)

inductive Event where
  /-- The running thread computes, in the kernel or in its program. -/
  | code (c : Cpu)
  | interrupt (v : ℕ) (err : Option ℕ)
  /-- A handler returns to its entry. -/
  | leave
  /-- `int 0x80` -/
  | trap
  /-- A function of `syscall_table` returns. -/
  | sysret
  /-- `process_activate(next)` and `switch_to(curr, next)` -/
  | schedule (next after : ℕ)
  | create (t function funcArgs : ℕ) (process : Bool)
  | setPgdir (t dir : ℕ)
  | startProcess (function page : ℕ) (getAPage : (ℕ → ℕ) → ℕ → ℕ)

/-- The kernel runs on the stack of thread `t`, below the records that lie there. -/
structure KernelMode (t : ℕ) (records : List (Record Saved)) (c : Cpu) : Prop where
  cpl : c.cpl = 0
  cs : c.seg .cs = selectorKCode
  ss : c.seg .ss = selectorKStack
  low : pcbAddr t + pcbSize ≤ c.reg .esp
  high : c.reg .esp ≤ floor (pcbAddr t + 4096) records
  aligned : 4 ∣ c.reg .esp

/-- The program of a process runs. -/
structure UserMode (process : Bool) (records : List (Record Saved)) (c : Cpu) : Prop where
  cpl : c.cpl = 3
  process : process = true
  saved : records = []

namespace Machine

/-- Where the words of a context begin that is interrupted now. -/
def entryBase (m : Machine) : ℕ :=
  (entryStack m.esp0 m.cpu).reg .esp - contextSize m.cpu.toContext

def push (m : Machine) (b : ℕ) (x : Saved) : ℕ → List (Record Saved) :=
  Function.update m.saved m.curr (⟨b, x⟩ :: m.saved m.curr)

/-- What `switch_to` keeps for its caller, which has two arguments on its stack. -/
def callee (m : Machine) (after : ℕ) : Callee :=
  { calleeOf m.cpu.toContext with eip := after, esp := m.cpu.reg .esp - 8 }

/-- The stack pointer of the running thread has not gone below its page. -/
def Room (m : Machine) (n : ℕ) : Prop := pcbAddr m.curr + pcbSize + n ≤ m.cpu.reg .esp

/-- Addresses that only their owner may write: saved contexts, and the first words of the PCBs of
threads that wait to be switched to. -/
def Reserved (sym : Symbols) (m : Machine) (a : ℕ) : Prop :=
  InUse (layout sym) m.saved a ∨ ∃ t, t ≠ m.curr ∧ m.saved t ≠ [] ∧ a = pcbAddr t

def Mode (m : Machine) (c : Cpu) : Prop :=
  KernelMode m.curr (m.saved m.curr) c ∨ UserMode (m.process m.curr) (m.saved m.curr) c

end Machine

open Machine

section

variable (sym : Symbols)

/-- What each event asks of the code around it: compiled functions return with the stack pointer that
they were called with, and `schedule` runs with interrupts off. -/
def Enabled (m : Machine) : Event → Prop
  | .code c => (∀ a, m.Reserved sym a → c.mem a = m.cpu.mem a) ∧ c.cpl = m.cpu.cpl ∧ m.Mode c
  | .interrupt _ _ | .trap => True
  | .leave => m.cpu.cpl = 0 ∧ ∃ b x rs,
      m.saved m.curr = ⟨b, .interrupted x⟩ :: rs ∧ m.cpu.reg .esp + 4 = b
  | .sysret => m.cpu.cpl = 0 ∧ ∃ b x rs,
      m.saved m.curr = ⟨b, .interrupted x⟩ :: rs ∧ m.cpu.reg .esp + 16 = b
  | .schedule next _ => m.cpu.cpl = 0 ∧ m.cpu.eflags / 512 % 2 = 0 ∧
      m.cpu.reg .esp < pcbAddr m.curr + 4096 ∧ (next = m.curr ∨ m.saved next ≠ [])
  | .create t _ _ _ => m.cpu.cpl = 0 ∧ t ≠ m.curr ∧ m.saved t = []
  | .setPgdir _ _ => m.cpu.cpl = 0
  | .startProcess _ _ getAPage => m.cpu.cpl = 0 ∧ m.process m.curr = true ∧
      m.saved m.curr = [] ∧ pcbAddr m.curr + pcbSize ≤ intrStackPtr m.cpu ∧
      intrStackPtr m.cpu + intrStackSize ≤ pcbAddr m.curr + 4096 ∧
      ∀ mem a, m.Reserved sym a ∨ intrStackPtr m.cpu ≤ a ∧ a < intrStackPtr m.cpu + intrStackSize →
        getAPage mem a = mem a

/-- What nothing in the kernel sees to, and every run below is taken to have: the processor pushes
an error code where the entry has none to push, the kernel's stack has room in its page, and no
process is switched to while its `pgdir` is 0, which would leave `esp0` as it was. -/
def Provided (m : Machine) : Event → Prop
  | .interrupt v err => Matching v err ∧ (m.cpu.cpl = 0 → m.Room 72)
  | .trap => m.cpu.cpl = 0 → m.Room 84
  | .schedule next _ => m.Room 28 ∧ (m.process next = true → m.pgdir next ≠ 0)
  | _ => True

structure Admitted (m : Machine) (e : Event) : Prop where
  enabled : Enabled sym m e
  provided : Provided m e

def next (m : Machine) : Event → Machine
  | .code c => { m with cpu := c }
  | .interrupt v err =>
    { m with
      cpu := run (interruptEntry sym v) (deliver (gate m.esp0) err m.cpu)
      saved := m.push m.entryBase (.interrupted m.cpu.toContext) }
  | .leave =>
    { m with
      cpu := run interruptReturn m.cpu
      saved := Function.update m.saved m.curr (m.saved m.curr).tail }
  | .trap =>
    { m with
      cpu := run (systemCallHandler sym) (deliver (gate m.esp0) none m.cpu)
      saved := m.push m.entryBase (.interrupted m.cpu.toContext) }
  | .sysret =>
    { m with
      cpu := run systemCallReturn m.cpu
      saved := Function.update m.saved m.curr (m.saved m.curr).tail }
  | .schedule next after =>
    let saved := m.push (m.cpu.reg .esp - 28) (.switched (m.callee after))
    { m with
      cpu := callSwitchTo sym (pcbAddr next) after m.cpu
      esp0 := if m.pgdir next = 0 then m.esp0 else pcbAddr next + 4096
      curr := next
      saved := Function.update saved next (saved next).tail }
  | .create t function funcArgs process =>
    { m with
      cpu := { m.cpu with mem := threadCreate sym t function funcArgs m.cpu.mem }
      process := Function.update m.process t process
      saved := Function.update m.saved t [⟨firstStack t, .fresh function funcArgs⟩] }
  | .setPgdir t dir => { m with pgdir := Function.update m.pgdir t dir }
  | .startProcess function page getAPage =>
    { m with cpu := startProcess function page getAPage m.cpu }

def Step (e : Event) (m m' : Machine) : Prop := Admitted sym m e ∧ m' = next sym m e

def Moves (m m' : Machine) : Prop := ∃ e, Step sym e m m'

end

/-- The loader has entered the kernel, and there is one thread. -/
structure Booted (m : Machine) : Prop where
  saved : ∀ t, m.saved t = []
  process : ∀ t, m.process t = false
  mode : KernelMode m.curr [] m.cpu

/-- The most recent record is one that `switch_to` finds through the PCB. -/
def Asleep (m : Machine) (t : ℕ) : Prop :=
  ∃ b x rs, m.saved t = ⟨b, x⟩ :: rs ∧ m.cpu.mem (pcbAddr t) = b ∧ ∀ c, x ≠ .interrupted c

/-- A context of a program is the outermost of its thread. -/
def Nested (process : Bool) : List (Record Saved) → Prop
  | [] => True
  | r :: rs => (∀ c, r.value = .interrupted c → c.cpl ≠ 0 → process = true ∧ rs = []) ∧
      Nested process rs

structure Inv (sym : Symbols) (m : Machine) : Prop where
  kept : Kept (layout sym) regions m.cpu.mem m.saved
  asleep : ∀ t, t ≠ m.curr → m.saved t ≠ [] → Asleep m t
  nested : ∀ t, Nested (m.process t) (m.saved t)
  task : m.process m.curr = true → m.esp0 = pcbAddr m.curr + 4096
  mode : m.Mode m.cpu

variable {sym : Symbols} {m m' : Machine} {e : Event} {t a b : ℕ} {rs : List (Record Saved)}
  {x : Saved}

theorem booted_invariant (h : Booted m) : Inv sym m where
  kept := by
    constructor
    · intro t
      rw [h.saved]
      simp only [Stacked, regions, pcbSize]
      omega
    · intro t r hr
      rw [h.saved] at hr
      cases hr
  asleep := fun t _ ht => absurd (h.saved t) ht
  nested := by
    intro t
    rw [h.saved]
    trivial
  task := by
    intro ht
    rw [h.process] at ht
    cases ht
  mode := by
    rw [Mode, h.saved]
    exact Or.inl h.mode

/-! ## Writes that reserve nothing -/

/-- `mem` differs from memory only in the free part of a thread's page. -/
def WritesOwn (m : Machine) (t : ℕ) (mem : ℕ → ℕ) : Prop :=
  ∀ a, a ≠ pcbAddr t → (a < pcbAddr t + pcbSize ∨ floor (pcbAddr t + 4096) (m.saved t) ≤ a) →
    mem a = m.cpu.mem a

theorem not_inUse_pcb (h : Kept (layout sym) regions m.cpu.mem m.saved) (t : ℕ) :
    ¬ InUse (layout sym) m.saved (pcbAddr t) := by
  apply h.outside
  intro u
  simp only [regions, pcbAddr, pcbSize]
  omega

theorem own_reserved (h : Kept (layout sym) regions m.cpu.mem m.saved) {mem : ℕ → ℕ}
    (hmem : WritesOwn m t mem) (ht : t = m.curr ∨ m.saved t = []) (ha : m.Reserved sym a) : mem a = m.cpu.mem a := by
  rcases ha with huse | ⟨u, hu, hsaved, rfl⟩
  · apply hmem
    · rintro rfl
      exact not_inUse_pcb h t huse
    · by_contra hfree
      rw [not_or, Nat.not_lt, Nat.not_le] at hfree
      exact h.free (R := regions) (t := t) hfree.1 hfree.2 huse
  · have hne : u ≠ t := by
      rintro rfl
      exact ht.elim hu hsaved
    have hfloor := (h.stacked t).floor_range
    simp only [regions] at hfloor
    apply hmem
    · simp only [pcbAddr]
      omega
    · simp only [pcbAddr, pcbSize] at *
      omega

/-! ## What each event keeps -/

theorem asleep_congr {m' : Machine} (h : Asleep m t) (hsaved : m'.saved t = m.saved t)
    (hmem : m'.cpu.mem (pcbAddr t) = m.cpu.mem (pcbAddr t)) : Asleep m' t := by
  obtain ⟨b, x, rs, hs, hb, hx⟩ := h
  exact ⟨b, x, rs, hsaved.trans hs, hmem.trans hb, hx⟩

theorem code_inv {c : Cpu} (h : Inv sym m) (he : Admitted sym m (.code c)) :
    Inv sym (next sym m (.code c)) where
  kept := h.kept.write fun a ha => he.enabled.1 a (Or.inl ha)
  asleep := fun t ht hs => asleep_congr (h.asleep t ht hs) rfl (he.enabled.1 _ (Or.inr ⟨t, ht, hs, rfl⟩))
  nested := h.nested
  task := h.task
  mode := he.enabled.2.2

theorem Inv.entry (h : Inv sym m) {n : ℕ} (hn : n ≤ 100) (hroom : m.cpu.cpl = 0 → m.Room (64 + n)) :
    (entryStack m.esp0 m.cpu).seg .ss = selectorKStack ∧
    (entryStack m.esp0 m.cpu).reg .esp ≤ floor (pcbAddr m.curr + 4096) (m.saved m.curr) ∧
    4 ∣ (entryStack m.esp0 m.cpu).reg .esp ∧
    pcbAddr m.curr + pcbSize + contextSize m.cpu.toContext + n ≤
      (entryStack m.esp0 m.cpu).reg .esp := by
  rcases h.mode with hk | hu
  · have hr := hroom hk.cpl
    rw [entryStack, if_pos hk.cpl, contextSize, if_pos hk.cpl]
    refine ⟨hk.ss, hk.high, hk.aligned, ?_⟩
    rw [Room] at hr
    omega
  · have hcpl : m.cpu.cpl ≠ 0 := by rw [hu.cpl]; decide
    have htask := h.task hu.process
    rw [entryStack, if_neg hcpl, contextSize, if_neg hcpl, hu.saved]
    refine ⟨by simp, ?_, ?_, ?_⟩
    · simp [htask, floor]
    · simp only [set_reg, Function.update_self, htask, pcbAddr]
      omega
    · simp only [set_reg, Function.update_self, htask, pcbSize]
      omega

theorem entered_inv {c : Cpu} (more : List ℕ) (h : Inv sym m)
    (hlen : 4 * more.length ≤ 100) (hroom : m.cpu.cpl = 0 → m.Room (64 + 4 * more.length))
    (hc : Entered m.esp0 m.cpu more c) :
    Inv sym { m with cpu := c, saved := m.push m.entryBase (.interrupted m.cpu.toContext) } := by
  obtain ⟨hss, htop, halign, hlow⟩ := h.entry hlen hroom
  have hbase : m.entryBase =
      (entryStack m.esp0 m.cpu).reg .esp - contextSize m.cpu.toContext := rfl
  have hesp := hc.esp
  have hsize4 : 4 ∣ contextSize m.cpu.toContext := by
    rw [contextSize]
    split <;> decide
  have hown : WritesOwn m m.curr c.mem := by
    intro a hne ha
    refine hc.mem_other (by omega) ?_
    omega
  have hres := fun a => own_reserved (a := a) h.kept hown (Or.inl rfl)
  have hstored : ContextStored c.mem m.entryBase m.cpu.toContext := by
    refine ⟨(hc.laid (by omega)).2, ?_, ?_⟩
    · intro hcpl
      rcases h.mode with hk | hu
      · refine ⟨hk.cs, hk.ss, ?_⟩
        have hsize : contextSize m.cpu.toContext = 64 := if_pos hcpl
        have hstack : entryStack m.esp0 m.cpu = m.cpu := if_pos hcpl
        rw [hbase, hsize, hstack]
        rw [hsize, hstack] at hlow
        omega
      · rw [hu.cpl] at hcpl
        cases hcpl
    · intro hcpl
      rcases h.mode with hk | hu
      · exact absurd hk.cpl hcpl
      · exact hu.cpl
  constructor
  case kept =>
    refine h.kept.push (fun a ha => hres a (Or.inl ha)) ?_ ?_ ⟨?_, hstored⟩
    · simp only [regions]
      omega
    · have hsize : (layout sym).size (.interrupted m.cpu.toContext) =
        contextSize m.cpu.toContext := rfl
      simp only [regions]
      omega
    · omega
  case asleep =>
    intro t ht hs
    have hsaved : m.push m.entryBase (.interrupted m.cpu.toContext) t = m.saved t :=
      Function.update_of_ne ht ..
    simp only [hsaved] at hs
    exact asleep_congr (h.asleep t ht hs) hsaved (hres _ (Or.inr ⟨t, ht, hs, rfl⟩))
  case nested =>
    intro t
    by_cases ht : t = m.curr
    · subst ht
      simp only [push, Function.update_self]
      refine ⟨?_, h.nested m.curr⟩
      intro x hx hcpl
      cases hx
      rcases h.mode with hk | hu
      · exact absurd hk.cpl hcpl
      · exact ⟨hu.process, hu.saved⟩
    · simp only [push, Function.update_of_ne ht]
      exact h.nested t
  case task => exact h.task
  case mode =>
    refine Or.inl ⟨?_, ?_, ?_, ?_, ?_, ?_⟩
    · rw [Context.cpl, hc.seg, Function.update_self]
      decide
    · rw [hc.seg, Function.update_self]
    · rw [hc.seg, Function.update_of_ne (by decide), hss]
    · simp only
      omega
    · simp only [push, Function.update_self, floor]
      omega
    · simp only
      omega

theorem interrupt_inv {v : ℕ} {err : Option ℕ} (h : Inv sym m)
    (he : Admitted sym m (.interrupt v err)) : Inv sym (next sym m (.interrupt v err)) :=
  entered_inv [v, sym.afterHandler v] h (by simp) he.provided.2
    (interruptEntry_entered sym m.esp0 m.cpu he.provided.1)

theorem trap_inv (h : Inv sym m) (he : Admitted sym m .trap) : Inv sym (next sym m .trap) :=
  entered_inv [0x80, m.cpu.reg .edx, m.cpu.reg .ecx, m.cpu.reg .ebx, sym.afterSyscall] h
    (by simp) he.provided (systemCallHandler_entered m.esp0 m.cpu)

theorem returned_inv {c : Cpu} {x : Context} (h : Inv sym m)
    (hs : m.saved m.curr = ⟨b, .interrupted x⟩ :: rs) (hseg : c.seg = x.seg)
    (hesp : c.reg .esp = x.reg .esp) (hmem : ∀ a, a ≠ b + 28 → c.mem a = m.cpu.mem a) :
    Inv sym { m with cpu := c, saved := Function.update m.saved m.curr rs } := by
  have hhead : 4 ∣ b ∧ ContextStored m.cpu.mem b x := h.kept.head_stored hs
  obtain ⟨halign, hstored⟩ := hhead
  have hstack := h.kept.stacked m.curr
  rw [hs] at hstack
  obtain ⟨hlow, hlimit, hrest⟩ := hstack
  have hsize : 64 ≤ contextSize x := by
    rw [contextSize]
    split <;> decide
  have hsize' : (layout sym).size (.interrupted x) = contextSize x := rfl
  simp only [regions, Record.limit, hsize'] at hlow hlimit
  have hpop := h.kept.pop hs
  have hown : WritesOwn { m with saved := Function.update m.saved m.curr rs } m.curr c.mem := by
    intro a hne ha
    simp only [Function.update_self] at ha
    exact hmem a (by omega)
  have hres := fun a => own_reserved (a := a)
    (m := { m with saved := Function.update m.saved m.curr rs }) hpop hown (Or.inl rfl)
  have hnested := h.nested m.curr
  rw [hs] at hnested
  constructor
  case kept => exact hpop.write fun a ha => hres a (Or.inl ha)
  case asleep =>
    intro t ht hne
    have hsaved : Function.update m.saved m.curr rs t = m.saved t := Function.update_of_ne ht ..
    exact asleep_congr (h.asleep t ht (by rwa [← hsaved])) hsaved (hres _ (Or.inr ⟨t, ht, hne, rfl⟩))
  case nested =>
    intro t
    by_cases ht : t = m.curr
    · subst ht
      simp only [Function.update_self]
      exact hnested.2
    · simp only [Function.update_of_ne ht]
      exact h.nested t
  case task => exact h.task
  case mode =>
    simp only [Mode, Function.update_self]
    by_cases hcpl : x.cpl = 0
    · obtain ⟨hcs, hss, hxesp⟩ := hstored.kernel hcpl
      have hsize64 : contextSize x = 64 := if_pos hcpl
      refine Or.inl ⟨?_, ?_, ?_, ?_, ?_, ?_⟩
      · rw [Context.cpl, hseg]
        exact hcpl
      · rw [hseg, hcs]
      · rw [hseg, hss]
      · omega
      · omega
      · omega
    · obtain ⟨hprocess, hnil⟩ := hnested.1 x rfl hcpl
      refine Or.inr ⟨?_, hprocess, hnil⟩
      rw [Context.cpl, hseg]
      exact hstored.user hcpl

theorem leave_context {x : Context} (h : Inv sym m) (hcpl : m.cpu.cpl = 0)
    (hs : m.saved m.curr = ⟨b, .interrupted x⟩ :: rs) (hesp : m.cpu.reg .esp + 4 = b) :
    (run interruptReturn m.cpu).toContext = x ∧ (run interruptReturn m.cpu).mem = m.cpu.mem := by
  obtain ⟨-, hstored⟩ := h.kept.head_stored hs
  have hss : m.cpu.seg .ss = selectorKStack := by
    rcases h.mode with hk | hu
    · exact hk.ss
    · rw [hu.cpl] at hcpl
      cases hcpl
  rw [interruptReturn_eq]
  refine ⟨ContextStored.restored ?_ hcpl hss, rfl⟩
  rw [set_mem, set_reg, Function.update_self, hesp]
  exact hstored

theorem sysret_context {x : Context} (h : Inv sym m) (hcpl : m.cpu.cpl = 0)
    (hs : m.saved m.curr = ⟨b, .interrupted x⟩ :: rs) (hesp : m.cpu.reg .esp + 16 = b) :
    (run systemCallReturn m.cpu).toContext = x.set .eax (m.cpu.reg .eax) ∧
      (run systemCallReturn m.cpu).mem = Function.update m.cpu.mem (b + 28) (m.cpu.reg .eax) := by
  obtain ⟨-, hstored⟩ := h.kept.head_stored hs
  have hss : m.cpu.seg .ss = selectorKStack := by
    rcases h.mode with hk | hu
    · exact hk.ss
    · rw [hu.cpl] at hcpl
      cases hcpl
  have haddr : m.cpu.reg .esp + 44 = b + 28 := by omega
  rw [systemCallReturn_eq, haddr, hesp]
  refine ⟨ContextStored.restored ?_ hcpl hss, rfl⟩
  rw [set_mem, set_reg, Function.update_self]
  exact hstored.setEax _

theorem leave_inv (h : Inv sym m) (he : Admitted sym m .leave) : Inv sym (next sym m .leave) := by
  obtain ⟨hcpl, b, x, rs, hs, hesp⟩ := he.enabled
  obtain ⟨hcontext, hmem⟩ := leave_context h hcpl hs hesp
  have hinv := returned_inv h hs (congrArg Context.seg hcontext)
    (congrArg (fun c => c.reg .esp) hcontext) fun a _ => congrFun hmem a
  rwa [next, hs]

theorem sysret_inv (h : Inv sym m) (he : Admitted sym m .sysret) : Inv sym (next sym m .sysret) := by
  obtain ⟨hcpl, b, x, rs, hs, hesp⟩ := he.enabled
  obtain ⟨hcontext, hmem⟩ := sysret_context h hcpl hs hesp
  have hesp' : (run systemCallReturn m.cpu).reg .esp = x.reg .esp := by
    rw [hcontext]
    simp [Context.set]
  have hinv := returned_inv (c := run systemCallReturn m.cpu) h hs
    (by rw [hcontext]; rfl) hesp' fun a ha => by rw [hmem, Function.update_of_ne ha]
  rwa [next, hs]

/-! ### Switches -/

/-- The machine between the two halves of `switch_to`: the running thread is saved. -/
def midSwitch (m : Machine) (next after : ℕ) : Machine :=
  { m with
    cpu := { m.cpu with mem := savedCallee after (pcbAddr next) m.cpu }
    saved := m.push (m.cpu.reg .esp - 28) (.switched (m.callee after)) }

theorem midSwitch_inv {n after : ℕ} (h : Inv sym m) (he : Admitted sym m (.schedule n after)) :
    Kept (layout sym) regions (midSwitch m n after).cpu.mem (midSwitch m n after).saved ∧
      ∀ t, t = m.curr ∨ m.saved t ≠ [] → Asleep (midSwitch m n after) t := by
  obtain ⟨hcpl, -, htop, -⟩ := he.enabled
  have hroom := he.provided.1
  have hk : KernelMode m.curr (m.saved m.curr) m.cpu := by
    rcases h.mode with hk | hu
    · exact hk
    · rw [hu.cpl] at hcpl
      cases hcpl
  have hlow := hk.low
  have hhigh := hk.high
  have halign := hk.aligned
  rw [Room] at hroom
  have hrunning : runningThread m.cpu = pcbAddr m.curr := runningThread_eq (by omega) htop
  have hown : WritesOwn m m.curr (savedCallee after (pcbAddr n) m.cpu) := by
    intro a hne ha
    refine savedCallee_other (by omega) (hrunning ▸ hne) ?_
    omega
  have hres := fun a => own_reserved (a := a) h.kept hown (Or.inl rfl)
  have hstored : (Saved.switched (m.callee after)).Stored sym
      (savedCallee after (pcbAddr n) m.cpu) (m.cpu.reg .esp - 28) := by
    have hlaid := savedCallee_laid (c := m.cpu) (pcbAddr n) after (by
      rw [hrunning]
      simp only [pcbSize] at hroom
      omega)
    have hwords : Laid _ _ ((m.callee after).words ++ [runningThread m.cpu, pcbAddr n]) := hlaid
    refine ⟨(laid_append.mp hwords).1, ?_⟩
    simp only [callee]
    omega
  refine ⟨h.kept.push (fun a ha => hres a (Or.inl ha)) ?_ ?_ ⟨?_, hstored⟩, ?_⟩
  · simp only [regions]
    omega
  · have hsize : (layout sym).size (.switched (m.callee after)) = 20 := rfl
    simp only [regions]
    omega
  · omega
  · intro t ht
    by_cases hcurr : t = m.curr
    · subst hcurr
      refine ⟨m.cpu.reg .esp - 28, .switched (m.callee after), m.saved m.curr, ?_, ?_, ?_⟩
      · exact Function.update_self ..
      · rw [← hrunning]
        exact savedCallee_self ..
      · intro c hc
        cases hc
    · have hs := ht.resolve_left hcurr
      exact asleep_congr (h.asleep t hcurr hs) (Function.update_of_ne hcurr ..)
        (hres _ (Or.inr ⟨t, hcurr, hs, rfl⟩))

theorem schedule_cpu {n after : ℕ} (he : Admitted sym m (.schedule n after)) :
    callSwitchTo sym (pcbAddr n) after m.cpu = switched (savedCallee after (pcbAddr n) m.cpu)
      (savedCallee after (pcbAddr n) m.cpu (pcbAddr n)) (pcbAddr n) m.cpu := by
  obtain ⟨-, -, htop, -⟩ := he.enabled
  have hroom := he.provided.1
  rw [Room] at hroom
  apply callSwitchTo_eq
  rw [runningThread_eq (t := m.curr) (by omega) htop]
  omega

theorem schedule_eq {n after : ℕ} (h : Inv sym m) (he : Admitted sym m (.schedule n after)) :
    ∃ b x rs, (midSwitch m n after).saved n = ⟨b, x⟩ :: rs ∧ (∀ c, x ≠ .interrupted c) ∧
      next sym m (.schedule n after) =
        { m with
          cpu := switched (savedCallee after (pcbAddr n) m.cpu) b (pcbAddr n) m.cpu
          esp0 := if m.pgdir n = 0 then m.esp0 else pcbAddr n + 4096
          curr := n
          saved := Function.update (midSwitch m n after).saved n rs } := by
  obtain ⟨b, x, rs, hs, hb, hx⟩ := (midSwitch_inv h he).2 n he.enabled.2.2.2
  refine ⟨b, x, rs, hs, hx, ?_⟩
  have hmem : savedCallee after (pcbAddr n) m.cpu (pcbAddr n) = b := hb
  have htail : (m.push (m.cpu.reg .esp - 28) (.switched (m.callee after)) n).tail = rs :=
    congrArg List.tail hs
  simp only [next, schedule_cpu he, hmem, htail]
  rfl

theorem schedule_inv {n after : ℕ} (h : Inv sym m) (he : Admitted sym m (.schedule n after)) :
    Inv sym (next sym m (.schedule n after)) := by
  obtain ⟨hkept, hasleep⟩ := midSwitch_inv h he
  obtain ⟨b, x, rs, hs, hx, heq⟩ := schedule_eq h he
  have hk : KernelMode m.curr (m.saved m.curr) m.cpu := by
    rcases h.mode with hk | hu
    · exact hk
    · exact absurd (he.enabled.1.symm.trans hu.cpl) (by decide)
  have hstack := hkept.stacked n
  rw [hs] at hstack
  obtain ⟨hlow, hlimit, hrest⟩ := hstack
  have halign : 4 ∣ b := (hkept.head_stored hs).1
  have hsize : 20 ≤ x.size := by
    cases x with
    | fresh function funcArgs => simp [Saved.size]
    | switched c => simp [Saved.size]
    | interrupted c => exact absurd rfl (hx c)
  have hsize' : (layout sym).size x = x.size := rfl
  simp only [regions, Record.limit, hsize'] at hlow hlimit
  have hnested : ∀ t, Nested (m.process t) ((midSwitch m n after).saved t) := by
    intro t
    by_cases ht : t = m.curr
    · subst ht
      simp only [midSwitch, push, Function.update_self]
      refine ⟨?_, h.nested m.curr⟩
      intro c hc
      cases hc
    · simp only [midSwitch, push, Function.update_of_ne ht]
      exact h.nested t
  rw [heq]
  constructor
  case kept => exact hkept.pop hs
  case asleep =>
    intro t ht hne
    have hsaved : Function.update (midSwitch m n after).saved n rs t =
        (midSwitch m n after).saved t := Function.update_of_ne ht ..
    refine asleep_congr (hasleep t ?_) hsaved rfl
    by_cases hcurr : t = m.curr
    · exact Or.inl hcurr
    · have hpushed : (midSwitch m n after).saved t = m.saved t := Function.update_of_ne hcurr ..
      exact Or.inr fun hs => hne (hsaved.trans (hpushed.trans hs))
  case nested =>
    intro t
    by_cases ht : t = n
    · subst ht
      have hn := hnested t
      rw [hs] at hn
      simp only [Function.update_self]
      exact hn.2
    · simp only [Function.update_of_ne ht]
      exact hnested t
  case task =>
    intro hprocess
    simp only [if_neg (he.provided.2 hprocess)]
  case mode =>
    refine Or.inl ⟨hk.cpl, hk.cs, hk.ss, ?_, ?_, ?_⟩
    · simp only [switched]
      omega
    · simp only [switched, Function.update_self]
      omega
    · simp only [switched]
      omega

/-! ### New threads and processes -/

theorem create_inv {function funcArgs : ℕ} {process : Bool} (h : Inv sym m)
    (he : Admitted sym m (.create t function funcArgs process)) :
    Inv sym (next sym m (.create t function funcArgs process)) := by
  obtain ⟨hcpl, hne, hnil⟩ := he.enabled
  have hfirst : firstStack t = pcbAddr t + 3664 := rfl
  have hown : WritesOwn m t (threadCreate sym t function funcArgs m.cpu.mem) := by
    intro a hp ha
    refine threadCreate_other function funcArgs hp ?_
    rw [hnil] at ha
    simp only [floor, pcbSize] at ha
    omega
  have hres := fun a => own_reserved (a := a) h.kept hown (Or.inr hnil)
  have hother : ∀ u, u ≠ t → Function.update m.saved t
      [⟨firstStack t, .fresh function funcArgs⟩] u = m.saved u :=
    fun u hu => Function.update_of_ne hu ..
  have hcurr := hother m.curr (Ne.symm hne)
  have hprocess : Function.update m.process t process m.curr = m.process m.curr :=
    Function.update_of_ne (Ne.symm hne) ..
  constructor
  case kept =>
    have hpush := h.kept.push (t := t) (a := firstStack t) (fun a ha => hres a (Or.inl ha))
      (x := .fresh function funcArgs)
      (by simp only [regions, pcbSize]; omega)
      (by
        have hsize : (layout sym).size (.fresh function funcArgs) = 32 := rfl
        rw [hnil]
        simp only [regions, floor]
        omega)
      ⟨by simp only [hfirst, pcbAddr]; omega, threadCreate_stored sym t function funcArgs _⟩
    rwa [hnil] at hpush
  case asleep =>
    intro u hu hs
    by_cases hut : u = t
    · subst hut
      refine ⟨firstStack u, .fresh function funcArgs, [], Function.update_self .., ?_, ?_⟩
      · exact threadCreate_pointer sym u function funcArgs _
      · intro c hc
        cases hc
    · simp only [next, hother u hut] at hs
      exact asleep_congr (h.asleep u hu hs) (hother u hut) (hres _ (Or.inr ⟨u, hu, hs, rfl⟩))
  case nested =>
    intro u
    by_cases hut : u = t
    · subst hut
      simp only [next, Function.update_self]
      refine ⟨?_, trivial⟩
      intro c hc
      cases hc
    · simp only [next, Function.update_of_ne hut]
      exact h.nested u
  case task =>
    intro hp
    exact h.task (hprocess ▸ hp)
  case mode =>
    simp only [next, Mode, hcurr, hprocess]
    rcases h.mode with hk | hu
    · exact Or.inl ⟨hk.cpl, hk.cs, hk.ss, hk.low, hk.high, hk.aligned⟩
    · exact Or.inr ⟨hu.cpl, hu.process, hu.saved⟩

theorem startProcess_keeps {function page : ℕ} {getAPage : (ℕ → ℕ) → ℕ → ℕ} (h : Inv sym m)
    (he : Admitted sym m (.startProcess function page getAPage)) (ha : m.Reserved sym a) :
    (startProcess function page getAPage m.cpu).mem a = m.cpu.mem a := by
  obtain ⟨-, -, hnil, hlow, hhigh, hget⟩ := he.enabled
  have hfree : a < intrStackPtr m.cpu ∨ intrStackPtr m.cpu + 76 ≤ a := by
    by_contra hin
    rw [not_or, Nat.not_lt, Nat.not_le] at hin
    simp only [pcbSize, intrStackSize] at hlow hhigh
    rcases ha with huse | ⟨u, -, -, rfl⟩
    · refine h.kept.free (R := regions) (t := m.curr) ?_ ?_ huse
      · simp only [regions, pcbSize]
        omega
      · rw [hnil]
        simp only [regions, floor]
        omega
    · simp only [pcbAddr] at hlow hhigh hin
      omega
  rw [startProcess_mem, Function.update_of_ne (by omega), hget _ a (Or.inl ha)]
  apply storeFields_outside
  intro f hf
  have hbound : ∀ f ∈ intrStackFields function, f.1 < 76 := by simp [intrStackFields]
  have := hbound f hf
  omega

theorem startProcess_user {function page : ℕ} {getAPage : (ℕ → ℕ) → ℕ → ℕ} (h : Inv sym m)
    (he : Admitted sym m (.startProcess function page getAPage)) :
    (startProcess function page getAPage m.cpu).toContext = userContext function page := by
  obtain ⟨hcpl, -, -, -, -, hget⟩ := he.enabled
  have hss : m.cpu.seg .ss = selectorKStack := by
    rcases h.mode with hk | hu
    · exact hk.ss
    · exact absurd (hcpl.symm.trans hu.cpl) (by decide)
  exact startProcess_context hcpl hss fun b hb hb' => hget _ b (Or.inr ⟨hb, hb'⟩)

theorem startProcess_inv {function page : ℕ} {getAPage : (ℕ → ℕ) → ℕ → ℕ} (h : Inv sym m)
    (he : Admitted sym m (.startProcess function page getAPage)) :
    Inv sym (next sym m (.startProcess function page getAPage)) := by
  have hkeeps := fun a => startProcess_keeps (a := a) h he
  have huser := startProcess_user h he
  constructor
  case kept => exact h.kept.write fun a ha => hkeeps a (Or.inl ha)
  case asleep =>
    intro t ht hs
    exact asleep_congr (h.asleep t ht hs) rfl (hkeeps _ (Or.inr ⟨t, ht, hs, rfl⟩))
  case nested => exact h.nested
  case task => exact h.task
  case mode =>
    refine Or.inr ⟨?_, he.enabled.2.1, he.enabled.2.2.1⟩
    simp only [next, huser]
    simp [Context.cpl, userContext, selectorUCode]

theorem next_inv (h : Inv sym m) (he : Admitted sym m e) : Inv sym (next sym m e) := by
  cases e with
  | code c => exact code_inv h he
  | interrupt v err => exact interrupt_inv h he
  | leave => exact leave_inv h he
  | trap => exact trap_inv h he
  | sysret => exact sysret_inv h he
  | schedule n after => exact schedule_inv h he
  | create t function funcArgs process => exact create_inv h he
  | setPgdir t dir => exact ⟨h.kept, h.asleep, h.nested, h.task, h.mode⟩
  | startProcess function page getAPage => exact startProcess_inv h he

end KernelContextSteps
