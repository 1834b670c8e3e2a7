import Leeos.ExecRules
import Leeos.KernelContextSteps

/-!
# Contexts over whole runs

A context that has been saved stays where it is until its thread takes it back, and then nothing
of it has changed, in whatever order interrupts, system calls and switches have come and gone.
-/
namespace KernelContextRuns

open ExecRules FrameStacks StackInstrs KernelContexts KernelContextSteps
open KernelThreads (pcbAddr)
open KernelContextSteps.Machine

variable {sym : Symbols} {m m' : Machine} {e : Event} {t a b : ℕ} {rs : List (Record Saved)}
  {x : Saved}

theorem moves_inv (h : Inv sym m) (hm : Moves sym m m') : Inv sym m' := by
  obtain ⟨e, he, rfl⟩ := hm
  exact next_inv h he

theorem run_inv (h : Inv sym m) (hrun : Relation.ReflTransGen (Moves sym) m m') : Inv sym m' := by
  induction hrun with
  | refl => exact h
  | tail _ hm ih => exact moves_inv ih hm

theorem reachable_inv (h : Reachable Booted (Moves sym) m) : Inv sym m :=
  reachable_invariant (Inv sym) h (fun _ => booted_invariant) fun _ _ => moves_inv

/-! ## Runs that exist -/

theorem handler_leaves {v : ℕ} {err : Option ℕ} (h : Inv sym m)
    (he : Admitted sym m (.interrupt v err)) :
    ∃ u, Relation.ReflTransGen (Moves sym) (next sym m (.interrupt v err)) u ∧
      u.saved = m.saved := by
  have hentered := interruptEntry_entered sym m.esp0 m.cpu he.provided.1
  obtain ⟨-, -, -, hlow⟩ := h.entry (n := 8) (by decide) he.provided.2
  have hmode := (next_inv h he).mode
  have hesp := hentered.esp
  obtain ⟨c, hc⟩ : ∃ c, c = (next sym m (.interrupt v err)).cpu := ⟨_, rfl⟩
  have hsaved : m.push m.entryBase (.interrupted m.cpu.toContext) m.curr =
      ⟨m.entryBase, .interrupted m.cpu.toContext⟩ :: m.saved m.curr := Function.update_self ..
  have hbase : m.entryBase =
      (entryStack m.esp0 m.cpu).reg .esp - contextSize m.cpu.toContext := rfl
  have hnext : next sym m (.interrupt v err) =
      { m with cpu := c, saved := m.push m.entryBase (.interrupted m.cpu.toContext) } := by
    rw [hc]
    rfl
  have hspace : c.reg .esp + 8 = m.entryBase := by
    rw [hc, hbase]
    simp only [next, hesp, List.length_cons, List.length_nil]
    omega
  have hkernel : c.cpl = 0 := by
    rw [Context.cpl, hc]
    simp only [next, hentered.seg, Function.update_self]
    decide
  rw [hnext] at hmode ⊢
  simp only [Mode, hsaved] at hmode
  have hk := hmode.resolve_right fun hu => by
    rw [hu.cpl] at hkernel
    cases hkernel
  have hlow' := hk.low
  have haligned := hk.aligned
  have hdropped : KernelMode m.curr (m.push m.entryBase (.interrupted m.cpu.toContext) m.curr)
      c.drop := by
    refine ⟨hkernel, hk.cs, hk.ss, ?_, ?_, ?_⟩
    · rw [drop_reg, Function.update_self]
      omega
    · rw [drop_reg, Function.update_self, hsaved]
      exact (by omega : c.reg .esp + 4 ≤ m.entryBase)
    · rw [drop_reg, Function.update_self]
      omega
  have hcode : Admitted sym
      { m with cpu := c, saved := m.push m.entryBase (.interrupted m.cpu.toContext) }
      (.code c.drop) := ⟨⟨fun a _ => rfl, rfl, Or.inl hdropped⟩, trivial⟩
  have hleave : Admitted sym
      { m with cpu := c.drop, saved := m.push m.entryBase (.interrupted m.cpu.toContext) }
      .leave := by
    refine ⟨⟨hkernel, m.entryBase, m.cpu.toContext, m.saved m.curr, hsaved, ?_⟩, trivial⟩
    rw [drop_reg, Function.update_self]
    omega
  refine ⟨_, .tail (.single ⟨_, hcode, rfl⟩) ⟨_, hleave, rfl⟩, ?_⟩
  simp [next, push]

theorem first_run {function funcArgs after : ℕ} (h : Inv sym m) (ht : t ≠ m.curr)
    (hs : m.saved t = [⟨firstStack t, .fresh function funcArgs⟩])
    (he : Admitted sym m (.schedule t after)) :
    ∃ v, next sym m (.schedule t after) = v ∧ v.curr = t ∧ v.saved t = [] ∧
      v.cpu.reg .esp = firstStack t + 20 ∧ v.cpu.mem (pcbAddr t) = firstStack t ∧
      v.cpu.seg = m.cpu.seg ∧ v.cpu.eflags = m.cpu.eflags ∧ v.process = m.process := by
  obtain ⟨b, y, rs', hs', -, heq⟩ := schedule_eq h he
  have hasleep := (midSwitch_inv h he).2 t he.enabled.2.2.2
  have hpushed : (midSwitch m t after).saved t = m.saved t := Function.update_of_ne ht ..
  rw [hpushed, hs] at hs'
  obtain ⟨hr, rfl⟩ := List.cons.inj hs'
  obtain ⟨rfl, rfl⟩ := Record.mk.inj hr
  obtain ⟨b', y', rs'', hs'', hb, -⟩ := hasleep
  rw [hpushed, hs] at hs''
  obtain ⟨rfl, -⟩ := Record.mk.inj (List.cons.inj hs'').1
  refine ⟨_, heq, rfl, Function.update_self .., rfl, hb, rfl, rfl, rfl⟩

theorem first_run_switches {function funcArgs after n k : ℕ} (h : Inv sym m) (ht : t ≠ m.curr)
    (hs : m.saved t = [⟨firstStack t, .fresh function funcArgs⟩])
    (he : Admitted sym m (.schedule t after)) (hn : n = m.curr) (hp : m.process n = false) :
    Admitted sym (next sym m (.schedule t after)) (.schedule n k) := by
  have hsaved : (next sym m (.schedule t after)).saved n ≠ [] := by
    subst hn
    simp [next, push, Ne.symm ht]
  obtain ⟨v, hv, hcurr, -, hesp, -, hseg, hflags, hprocess⟩ := first_run h ht hs he
  rw [hv] at hsaved ⊢
  have hfirst : firstStack t = pcbAddr t + 3664 := rfl
  refine ⟨⟨?_, ?_, ?_, Or.inr hsaved⟩, ?_, ?_⟩
  · rw [Context.cpl, hseg]
    exact he.enabled.1
  · rw [hflags]
    exact he.enabled.2.1
  · rw [hcurr, hesp]
    omega
  · rw [Room, hcurr, hesp]
    simp only [pcbSize]
    omega
  · rw [hprocess, hp]
    intro h
    cases h

theorem first_run_enters {function funcArgs after f page : ℕ} {getAPage : (ℕ → ℕ) → ℕ → ℕ}
    (h : Inv sym m) (ht : t ≠ m.curr)
    (hs : m.saved t = [⟨firstStack t, .fresh function funcArgs⟩])
    (he : Admitted sym m (.schedule t after)) (hp : m.process t = true)
    (hget : ∀ mem, getAPage mem = mem) :
    Admitted sym (next sym m (.schedule t after)) (.startProcess f page getAPage) := by
  obtain ⟨v, hv, hcurr, hnil, hesp, hmem, hseg, -, hprocess⟩ := first_run h ht hs he
  have hfirst : firstStack t = pcbAddr t + 3664 := rfl
  have hptr : intrStackPtr v.cpu = firstStack t + 128 := by
    rw [intrStackPtr, runningThread_eq (t := t) (by omega) (by omega), hmem]
    rfl
  rw [hv]
  refine ⟨⟨?_, ?_, ?_, ?_, ?_, fun mem a _ => by rw [hget]⟩, trivial⟩
  · rw [Context.cpl, hseg]
    exact he.enabled.1
  · rw [hprocess, hcurr, hp]
  · rw [hcurr, hnil]
  · rw [hptr, hcurr]
    simp only [pcbSize]
    omega
  · rw [hptr, hcurr]
    simp only [intrStackSize]
    omega

/-- The kernel as it is entered: the PCB of the first thread is page 1 here. -/
def bootMachine : Machine where
  cpu := ⟨⟨fun _ => 6144, fun s => if s = .cs then selectorKCode else selectorKStack, 0, 0⟩,
    fun _ => 0⟩
  esp0 := 0
  pgdir := fun _ => 1
  curr := 1
  process := fun _ => false
  saved := fun _ => []

theorem bootMachine_booted : Booted bootMachine := by
  refine ⟨fun _ => rfl, fun _ => rfl, rfl, rfl, rfl, ?_, ?_, ?_⟩
  · simp [bootMachine, pcbAddr, pcbSize]
  · simp [bootMachine, pcbAddr, floor]
  · simp [bootMachine]

theorem bootMachine_reachable (sym : Symbols) : Reachable Booted (Moves sym) bootMachine :=
  .refl bootMachine_booted

theorem bootMachine_interrupt (sym : Symbols) :
    Admitted sym bootMachine (.interrupt 0x20 none) := by
  refine ⟨trivial, by decide, fun _ => ?_⟩
  simp [Room, bootMachine, pcbAddr, pcbSize]

/-- A second thread; `process` says whether it will enter a program. -/
def twoThreads (sym : Symbols) (process : Bool) : Machine :=
  next sym bootMachine (.create 2 7 9 process)

theorem bootMachine_create (sym : Symbols) (process : Bool) :
    Admitted sym bootMachine (.create 2 7 9 process) := ⟨⟨rfl, by decide, rfl⟩, trivial⟩

theorem twoThreads_reachable (sym : Symbols) (process : Bool) :
    Reachable Booted (Moves sym) (twoThreads sym process) :=
  (bootMachine_reachable sym).tail ⟨_, bootMachine_create sym process, rfl⟩

theorem twoThreads_schedule (sym : Symbols) (process : Bool) (after : ℕ) :
    Admitted sym (twoThreads sym process) (.schedule 2 after) := by
  refine ⟨⟨?_, ?_, ?_, Or.inr ?_⟩, ?_, fun _ => ?_⟩
  · simp [twoThreads, next, bootMachine, Context.cpl, selectorKCode]
  · simp [twoThreads, next, bootMachine]
  · simp [twoThreads, next, bootMachine, pcbAddr]
  · simp [twoThreads, next]
  · simp [Room, twoThreads, next, bootMachine, pcbAddr, pcbSize]
  · simp [twoThreads, next, bootMachine]

/-- The process has run for the first time. -/
def secondRuns (sym : Symbols) : Machine := next sym (twoThreads sym true) (.schedule 2 0)

theorem secondRuns_reachable (sym : Symbols) : Reachable Booted (Moves sym) (secondRuns sym) :=
  (twoThreads_reachable sym true).tail ⟨_, twoThreads_schedule sym true 0, rfl⟩

theorem secondRuns_startProcess (sym : Symbols) :
    Admitted sym (secondRuns sym) (.startProcess 7 4096 id) :=
  first_run_enters (reachable_inv (twoThreads_reachable sym true))
    (by simp [twoThreads, next, bootMachine]) rfl
    (twoThreads_schedule sym true 0) rfl fun _ => rfl

/-- The program of the process, at its first instruction. -/
def secondEntered (sym : Symbols) : Machine :=
  next sym (secondRuns sym) (.startProcess 7 4096 id)

theorem secondEntered_reachable (sym : Symbols) :
    Reachable Booted (Moves sym) (secondEntered sym) :=
  (secondRuns_reachable sym).tail ⟨_, secondRuns_startProcess sym, rfl⟩

theorem secondEntered_cpl (sym : Symbols) : (secondEntered sym).cpu.cpl ≠ 0 := by
  have huser := startProcess_user (reachable_inv (secondRuns_reachable sym))
    (secondRuns_startProcess sym)
  simp only [secondEntered, next]
  rw [huser]
  simp [Context.cpl, userContext, selectorUCode]

/-! ## Saved contexts and what becomes of them -/

/-- Event `e` of machine `m` ends what `x` has saved, and the processor goes on as `c`. -/
inductive Resumed (sym : Symbols) (m : Machine) : Event → Saved → Cpu → Prop
  | leave {x : Context} {c : Cpu} (h : c.toContext = x) :
    Resumed sym m .leave (.interrupted x) c
  | sysret {x : Context} {c : Cpu} (h : c.toContext = x.set .eax (m.cpu.reg .eax)) :
    Resumed sym m .sysret (.interrupted x) c
  | switch {n after : ℕ} {k : Callee} {c : Cpu} (h : calleeOf c.toContext = k) :
    Resumed sym m (.schedule n after) (.switched k) c
  | start {n after function funcArgs : ℕ} {c : Cpu} (heip : c.eip = sym.kernelThread)
    (hfunction : c.mem (c.reg .esp + 4) = function) (hargs : c.mem (c.reg .esp + 8) = funcArgs) :
    Resumed sym m (.schedule n after) (.fresh function funcArgs) c

theorem switched_resumed {n after pcb : ℕ} {c : Cpu} {mem : ℕ → ℕ} (h : x.Stored sym mem b)
    (hx : ∀ c, x ≠ .interrupted c) :
    Resumed sym m (.schedule n after) x (switched mem b pcb c) := by
  cases x with
  | fresh function funcArgs =>
    obtain ⟨hlaid, hfunction, hargs⟩ := h
    exact .start (hlaid.getElem (i := 4) (by simp)) hfunction hargs
  | switched k =>
    obtain ⟨hlaid, hesp⟩ := h
    simp only [Callee.words, laid_cons, laid_nil, and_true, Nat.add_assoc, Nat.reduceAdd] at hlaid
    obtain ⟨hebp, hebx, hedi, hesi, heip⟩ := hlaid
    exact .switch (Callee.ext hebp hebx hedi hesi heip hesp.symm)
  | interrupted c => exact absurd rfl (hx c)

/-- The thread that is switched to goes on with what lies lowest on its stack. -/
theorem schedule_resumed {after : ℕ} {r : Record Saved} (h : Inv sym m)
    (he : Admitted sym m (.schedule t after)) (ht : t ≠ m.curr) (hs : m.saved t = r :: rs) :
    (next sym m (.schedule t after)).saved t = rs ∧
      Resumed sym m (.schedule t after) r.value (next sym m (.schedule t after)).cpu := by
  obtain ⟨b, x, rs', hs', hx, heq⟩ := schedule_eq h he
  have hstored := ((midSwitch_inv h he).1.head_stored hs').2
  have hpushed : (midSwitch m t after).saved t = m.saved t := Function.update_of_ne ht ..
  obtain ⟨rfl, rfl⟩ := List.cons.inj (hs.symm.trans (hpushed.symm.trans hs'))
  rw [heq]
  exact ⟨Function.update_self .., switched_resumed hstored hx⟩

/-- A thread that is switched to itself takes back what it has pushed. -/
theorem schedule_self {after : ℕ} (h : Inv sym m) (he : Admitted sym m (.schedule t after))
    (ht : t = m.curr) : (next sym m (.schedule t after)).saved t = m.saved t := by
  obtain ⟨b, x, rs, hs, -, heq⟩ := schedule_eq h he
  have hpushed : ((midSwitch m t after).saved t).tail = m.saved t := by
    simp [midSwitch, push, ht]
  rw [heq]
  simp only [Function.update_self]
  rwa [hs] at hpushed

/-- One event pushes, pops what it resumes, or leaves the stack of a thread alone. -/
theorem next_saved (h : Inv sym m) (he : Admitted sym m e) (t : ℕ) :
    (m.saved t <:+ (next sym m e).saved t) ∨
      ∃ r, m.saved t = r :: (next sym m e).saved t ∧ (next sym m e).curr = t ∧
        Resumed sym m e r.value (next sym m e).cpu := by
  have hpush : ∀ b x, m.saved t <:+ m.push b x t := by
    intro b x
    by_cases ht : t = m.curr
    · subst ht
      rw [push, Function.update_self]
      exact List.suffix_cons ..
    · have heq : m.push b x t = m.saved t := Function.update_of_ne ht ..
      exact heq ▸ List.suffix_refl _
  cases e with
  | code c => exact Or.inl (List.suffix_refl _)
  | interrupt v err => exact Or.inl (hpush ..)
  | trap => exact Or.inl (hpush ..)
  | leave =>
    obtain ⟨hcpl, b, x, rs, hs, hesp⟩ := he.enabled
    by_cases ht : t = m.curr
    · subst ht
      refine Or.inr ⟨⟨b, .interrupted x⟩, ?_, rfl, .leave (leave_context h hcpl hs hesp).1⟩
      simp only [next, Function.update_self, hs, List.tail_cons]
    · simp only [next, Function.update_of_ne ht]
      exact Or.inl (List.suffix_refl _)
  | sysret =>
    obtain ⟨hcpl, b, x, rs, hs, hesp⟩ := he.enabled
    by_cases ht : t = m.curr
    · subst ht
      refine Or.inr ⟨⟨b, .interrupted x⟩, ?_, rfl, .sysret (sysret_context h hcpl hs hesp).1⟩
      simp only [next, Function.update_self, hs, List.tail_cons]
    · simp only [next, Function.update_of_ne ht]
      exact Or.inl (List.suffix_refl _)
  | schedule n after =>
    by_cases ht : t = n
    · subst ht
      by_cases hcurr : t = m.curr
      · exact Or.inl (schedule_self h he hcurr ▸ List.suffix_refl _)
      · obtain ⟨r, rs, hs⟩ := List.exists_cons_of_ne_nil (he.enabled.2.2.2.resolve_left hcurr)
        obtain ⟨hrest, hresumed⟩ := schedule_resumed h he hcurr hs
        exact Or.inr ⟨r, hrest ▸ hs, rfl, hresumed⟩
    · obtain ⟨b, x, rs, -, -, heq⟩ := schedule_eq h he
      rw [heq]
      simp only [Function.update_of_ne ht]
      exact Or.inl (hpush ..)
  | create u function funcArgs process =>
    by_cases ht : t = u
    · subst ht
      rw [he.enabled.2.2]
      exact Or.inl (List.nil_suffix ..)
    · simp only [next, Function.update_of_ne ht]
      exact Or.inl (List.suffix_refl _)
  | setPgdir t dir => exact Or.inl (List.suffix_refl _)
  | startProcess function page getAPage => exact Or.inl (List.suffix_refl _)

/-- In any run from a reachable state, what lies on a stack stays there until its own thread takes
it back, and then the processor goes on with exactly that. -/
theorem saved_context_resumed {r : Record Saved} (h : Reachable Booted (Moves sym) m)
    (hrun : Relation.ReflTransGen (Moves sym) m m') (hs : m.saved t = r :: rs)
    (hgone : ¬ r :: rs <:+ m'.saved t) :
    ∃ u e, Relation.ReflTransGen (Moves sym) m u ∧ Admitted sym u e ∧
      Relation.ReflTransGen (Moves sym) (next sym u e) m' ∧ u.saved t = r :: rs ∧
      (next sym u e).saved t = rs ∧ (next sym u e).curr = t ∧
      Resumed sym u e r.value (next sym u e).cpu := by
  obtain ⟨u, v, hu, hkept, ⟨e, he, rfl⟩, hlost, hv⟩ :=
    exists_exit (P := fun u => r :: rs <:+ u.saved t) hrun (hs ▸ List.suffix_refl _) hgone
  refine ⟨u, e, hu, he, hv, ?_⟩
  rcases next_saved (run_inv (reachable_inv h) hu) he t with hpush | ⟨q, hpop, hcurr, hresumed⟩
  · exact absurd (hkept.trans hpush) hlost
  · rw [hpop] at hkept ⊢
    rcases List.suffix_cons_iff.mp hkept with heq | hrest
    · obtain ⟨rfl, hrs⟩ := List.cons.inj heq
      exact ⟨heq.symm, hrs.symm, hcurr, hresumed⟩
    · exact absurd hrest hlost

/-- An interrupt or a system call is transparent to what it interrupts, whatever happens before its
return: nested interrupts, switches to other threads, their interrupts and system calls. Only the
`eax` of a system call differs. -/
theorem interrupted_context_restored (h : Reachable Booted (Moves sym) m) (he : Admitted sym m e)
    (hentry : e = .trap ∨ ∃ v err, e = .interrupt v err)
    (hrun : Relation.ReflTransGen (Moves sym) (next sym m e) m')
    (hback : (m'.saved m.curr).length ≤ (m.saved m.curr).length) :
    ∃ u e', Relation.ReflTransGen (Moves sym) (next sym m e) u ∧ Admitted sym u e' ∧
      Relation.ReflTransGen (Moves sym) (next sym u e') m' ∧
      (next sym u e').curr = m.curr ∧ (next sym u e').saved m.curr = m.saved m.curr ∧
      (e' = .leave ∧ (next sym u e').cpu.toContext = m.cpu.toContext ∨
        e' = .sysret ∧ (next sym u e').cpu.toContext =
          m.cpu.toContext.set .eax (u.cpu.reg .eax)) := by
  have hsaved : (next sym m e).saved m.curr =
      ⟨m.entryBase, .interrupted m.cpu.toContext⟩ :: m.saved m.curr := by
    rcases hentry with rfl | ⟨v, err, rfl⟩ <;> exact Function.update_self ..
  have hgone : ¬ ⟨m.entryBase, .interrupted m.cpu.toContext⟩ :: m.saved m.curr <:+
      m'.saved m.curr := by
    intro hsuffix
    have hlength := hsuffix.length_le
    rw [List.length_cons] at hlength
    omega
  obtain ⟨u, e', hu, he', hm', -, hrest, hcurr, hresumed⟩ :=
    saved_context_resumed (h.tail ⟨e, he, rfl⟩) hrun hsaved hgone
  refine ⟨u, e', hu, he', hm', hcurr, hrest, ?_⟩
  generalize next sym u e' = v at hresumed
  cases hresumed with
  | leave hcontext => exact Or.inl ⟨rfl, hcontext⟩
  | sysret hcontext => exact Or.inr ⟨rfl, hcontext⟩

theorem interrupted_context_restored_boot : ∃ sym m', (m'.saved 1).length ≤ 0 ∧
    ∃ u e', Relation.ReflTransGen (Moves sym) (next sym bootMachine (.interrupt 0x20 none)) u ∧
      Admitted sym u e' ∧ Relation.ReflTransGen (Moves sym) (next sym u e') m' ∧
      (next sym u e').curr = 1 ∧ (next sym u e').saved 1 = [] ∧
      (e' = .leave ∧ (next sym u e').cpu.toContext = bootMachine.cpu.toContext ∨
        e' = .sysret ∧ (next sym u e').cpu.toContext =
          bootMachine.cpu.toContext.set .eax (u.cpu.reg .eax)) := by
  let sym : Symbols := ⟨0, 0, 0, 0, fun _ => 0, 0⟩
  have hboot := bootMachine_reachable sym
  have he := bootMachine_interrupt sym
  obtain ⟨m', hrun, hsaved⟩ := handler_leaves (reachable_inv hboot) he
  have hback : (m'.saved 1).length ≤ 0 := by
    rw [hsaved]
    exact Nat.le_refl 0
  exact ⟨sym, m', hback, interrupted_context_restored hboot he (Or.inr ⟨_, _, rfl⟩) hrun hback⟩

/-- While a thread does not run, nothing but a switch to it changes its stack. -/
theorem next_asleep (he : Admitted sym m e) (ht : t ≠ m.curr) (hs : m.saved t ≠ []) :
    ((next sym m e).curr ≠ t ∧ (next sym m e).saved t = m.saved t) ∨
      ∃ after, e = .schedule t after := by
  cases e with
  | code c => exact Or.inl ⟨ht.symm, rfl⟩
  | interrupt v err => exact Or.inl ⟨ht.symm, Function.update_of_ne ht ..⟩
  | leave => exact Or.inl ⟨ht.symm, Function.update_of_ne ht ..⟩
  | trap => exact Or.inl ⟨ht.symm, Function.update_of_ne ht ..⟩
  | sysret => exact Or.inl ⟨ht.symm, Function.update_of_ne ht ..⟩
  | schedule n after =>
    by_cases hn : n = t
    · subst hn
      exact Or.inr ⟨after, rfl⟩
    · refine Or.inl ⟨hn, ?_⟩
      simp only [next, push, Function.update_of_ne (Ne.symm hn), Function.update_of_ne ht]
  | create u function funcArgs process =>
    have hu : t ≠ u := fun heq => hs (heq ▸ he.enabled.2.2)
    exact Or.inl ⟨ht.symm, Function.update_of_ne hu ..⟩
  | setPgdir u dir => exact Or.inl ⟨ht.symm, rfl⟩
  | startProcess function page getAPage => exact Or.inl ⟨ht.symm, rfl⟩

theorem sleeper_resumed {r : Record Saved} (h : Reachable Booted (Moves sym) m) (ht : t ≠ m.curr)
    (hs : m.saved t = r :: rs) (hrun : Relation.ReflTransGen (Moves sym) m m')
    (hcurr : m'.curr = t) :
    ∃ u after, Relation.ReflTransGen (Moves sym) m u ∧ Admitted sym u (.schedule t after) ∧
      Relation.ReflTransGen (Moves sym) (next sym u (.schedule t after)) m' ∧
      (next sym u (.schedule t after)).saved t = rs ∧
      Resumed sym u (.schedule t after) r.value (next sym u (.schedule t after)).cpu := by
  obtain ⟨u, v, hu, ⟨hne, hkept⟩, ⟨e, he, rfl⟩, hleft, hv⟩ :=
    exists_exit (P := fun u => t ≠ u.curr ∧ u.saved t = r :: rs) hrun ⟨ht, hs⟩
      fun hp => hp.1 hcurr.symm
  rcases next_asleep he hne (by rw [hkept]; exact List.cons_ne_nil r rs) with
    ⟨hstill, hsaved⟩ | ⟨after, rfl⟩
  · exact absurd ⟨hstill.symm, hsaved.trans hkept⟩ hleft
  · obtain ⟨hrest, hresumed⟩ := schedule_resumed (run_inv (reachable_inv h) hu) he hne hkept
    exact ⟨u, after, hu, he, hv, hrest, hresumed⟩

/-- `switch_to` returns to its caller, in whatever order the other threads run: the registers that
a C function keeps for its caller, the stack pointer and the return address are those of the call,
and what else lay on the stack of the thread still does. -/
theorem switch_returns {n after : ℕ} (h : Reachable Booted (Moves sym) m)
    (he : Admitted sym m (.schedule n after)) (hn : n ≠ m.curr)
    (hrun : Relation.ReflTransGen (Moves sym) (next sym m (.schedule n after)) m')
    (hcurr : m'.curr = m.curr) :
    ∃ u k, Relation.ReflTransGen (Moves sym) (next sym m (.schedule n after)) u ∧
      Admitted sym u (.schedule m.curr k) ∧
      Relation.ReflTransGen (Moves sym) (next sym u (.schedule m.curr k)) m' ∧
      (next sym u (.schedule m.curr k)).saved m.curr = m.saved m.curr ∧
      calleeOf (next sym u (.schedule m.curr k)).cpu.toContext = m.callee after := by
  have hsaved : (next sym m (.schedule n after)).saved m.curr =
      ⟨m.cpu.reg .esp - 28, .switched (m.callee after)⟩ :: m.saved m.curr := by
    simp only [next, push, Function.update_of_ne (Ne.symm hn), Function.update_self]
  obtain ⟨u, k, hu, he', hm', hrest, hresumed⟩ := sleeper_resumed (h.tail ⟨_, he, rfl⟩)
    (Ne.symm hn) hsaved hrun hcurr
  refine ⟨u, k, hu, he', hm', hrest, ?_⟩
  generalize next sym u (.schedule m.curr k) = v at hresumed
  cases hresumed with
  | switch hcallee => exact hcallee

theorem switch_returns_boot : ∃ sym m', Relation.ReflTransGen (Moves sym)
      (next sym (twoThreads sym false) (.schedule 2 0)) m' ∧ m'.curr = 1 ∧
    ∃ u k, Relation.ReflTransGen (Moves sym)
        (next sym (twoThreads sym false) (.schedule 2 0)) u ∧
      Admitted sym u (.schedule 1 k) ∧
      Relation.ReflTransGen (Moves sym) (next sym u (.schedule 1 k)) m' ∧
      (next sym u (.schedule 1 k)).saved 1 = [] ∧
      calleeOf (next sym u (.schedule 1 k)).cpu.toContext =
        (twoThreads sym false).callee 0 := by
  let sym : Symbols := ⟨0, 0, 0, 0, fun _ => 0, 0⟩
  have hreach := twoThreads_reachable sym false
  have he := twoThreads_schedule sym false 0
  have hback : Admitted sym (next sym (twoThreads sym false) (.schedule 2 0)) (.schedule 1 0) :=
    first_run_switches (reachable_inv hreach) (by decide) rfl he rfl rfl
  have hrun : Relation.ReflTransGen (Moves sym)
      (next sym (twoThreads sym false) (.schedule 2 0))
      (next sym (next sym (twoThreads sym false) (.schedule 2 0)) (.schedule 1 0)) :=
    .single ⟨_, hback, rfl⟩
  exact ⟨sym, _, hrun, rfl, switch_returns hreach he (by decide) hrun rfl⟩

/-- A thread starts in `kernel_thread` with the function and the argument that `thread_create` was
given, whatever happens before. -/
theorem thread_starts {function funcArgs : ℕ} {process : Bool}
    (h : Reachable Booted (Moves sym) m)
    (he : Admitted sym m (.create t function funcArgs process))
    (hrun : Relation.ReflTransGen (Moves sym)
      (next sym m (.create t function funcArgs process)) m') (hcurr : m'.curr = t) :
    ∃ u k, Relation.ReflTransGen (Moves sym)
        (next sym m (.create t function funcArgs process)) u ∧
      Admitted sym u (.schedule t k) ∧
      Relation.ReflTransGen (Moves sym) (next sym u (.schedule t k)) m' ∧
      ∃ c, (next sym u (.schedule t k)).cpu = c ∧ c.eip = sym.kernelThread ∧
        c.mem (c.reg .esp + 4) = function ∧ c.mem (c.reg .esp + 8) = funcArgs := by
  have hsaved : (next sym m (.create t function funcArgs process)).saved t =
      [⟨firstStack t, .fresh function funcArgs⟩] := Function.update_self ..
  obtain ⟨u, k, hu, he', hm', -, hresumed⟩ := sleeper_resumed (h.tail ⟨_, he, rfl⟩)
    he.enabled.2.1 hsaved hrun hcurr
  refine ⟨u, k, hu, he', hm', _, rfl, ?_⟩
  generalize next sym u (.schedule t k) = v at hresumed
  cases hresumed with
  | start heip hfunction hargs => exact ⟨heip, hfunction, hargs⟩

theorem thread_starts_boot : ∃ sym : Symbols, ∃ m' : Machine, m'.curr = 2 ∧
    ∃ u k, Relation.ReflTransGen (Moves sym) (twoThreads sym false) u ∧
      Admitted sym u (.schedule 2 k) ∧
      Relation.ReflTransGen (Moves sym) (next sym u (.schedule 2 k)) m' ∧
      ∃ c, (next sym u (.schedule 2 k)).cpu = c ∧ c.eip = sym.kernelThread ∧
        c.mem (c.reg .esp + 4) = 7 ∧ c.mem (c.reg .esp + 8) = 9 := by
  let sym : Symbols := ⟨0, 0, 0, 0, fun _ => 0, 0⟩
  have hrun : Relation.ReflTransGen (Moves sym) (twoThreads sym false)
      (next sym (twoThreads sym false) (.schedule 2 0)) :=
    .single ⟨_, twoThreads_schedule sym false 0, rfl⟩
  exact ⟨sym, _, rfl,
    thread_starts (bootMachine_reachable sym) (bootMachine_create sym false) hrun rfl⟩

/-- `running_thread()` is the thread that runs, in every reachable state of the kernel. -/
theorem runningThread_curr (h : Reachable Booted (Moves sym) m) (hcpl : m.cpu.cpl = 0) (ret : ℕ) :
    runningThread (m.cpu.push ret) = pcbAddr m.curr := by
  have hinv := reachable_inv h
  have hfloor := (hinv.kept.stacked m.curr).floor_range
  rcases hinv.mode with hk | hu
  · have hlow := hk.low
    have hhigh := hk.high
    simp only [regions] at hfloor
    simp only [pcbSize] at hlow
    apply runningThread_eq
    · rw [push_esp]
      omega
    · rw [push_esp]
      omega
  · exact absurd (hcpl.symm.trans hu.cpl) (by decide)

theorem runningThread_curr_boot : runningThread (bootMachine.cpu.push 0) = pcbAddr 1 :=
  runningThread_curr (bootMachine_reachable ⟨0, 0, 0, 0, fun _ => 0, 0⟩) rfl 0

/-- An interrupt or a system call of a program finds the empty kernel stack of its own process: the
program's context becomes the only one there, no word outside that stack changes, and the kernel
runs as that process. -/
theorem program_entry (h : Reachable Booted (Moves sym) m) (hcpl : m.cpu.cpl ≠ 0)
    (he : Admitted sym m e) (hentry : e = .trap ∨ ∃ v err, e = .interrupt v err) :
    (next sym m e).saved m.curr =
        [⟨pcbAddr m.curr + 4024, .interrupted m.cpu.toContext⟩] ∧
      KernelMode m.curr ((next sym m e).saved m.curr) (next sym m e).cpu ∧
      ∀ a, a < (next sym m e).cpu.reg .esp ∨ pcbAddr m.curr + 4096 ≤ a →
        (next sym m e).cpu.mem a = m.cpu.mem a := by
  have hinv := reachable_inv h
  have hu : UserMode (m.process m.curr) (m.saved m.curr) m.cpu := by
    rcases hinv.mode with hk | hu
    · exact absurd hk.cpl hcpl
    · exact hu
  have htask := hinv.task hu.process
  have hsize : contextSize m.cpu.toContext = 72 := if_neg hcpl
  have hstack : (entryStack m.esp0 m.cpu).reg .esp = pcbAddr m.curr + 4096 := by
    rw [entryStack, if_neg hcpl, set_reg, Function.update_self, htask]
  have hbase : m.entryBase = pcbAddr m.curr + 4024 := by
    rw [entryBase, hstack, hsize]
    omega
  obtain ⟨more, hlen, hentered, hcurr, hsaved⟩ : ∃ more : List ℕ, more.length ≤ 5 ∧
      Entered m.esp0 m.cpu more (next sym m e).cpu ∧ (next sym m e).curr = m.curr ∧
      (next sym m e).saved = m.push m.entryBase (.interrupted m.cpu.toContext) := by
    rcases hentry with rfl | ⟨v, err, rfl⟩
    · exact ⟨[0x80, m.cpu.reg .edx, m.cpu.reg .ecx, m.cpu.reg .ebx, sym.afterSyscall], by simp,
        systemCallHandler_entered m.esp0 m.cpu, rfl, rfl⟩
    · exact ⟨[v, sym.afterHandler v], by simp, interruptEntry_entered sym m.esp0 m.cpu he.provided.1, rfl, rfl⟩
  refine ⟨?_, ?_, ?_⟩
  · rw [hsaved, push, Function.update_self, hu.saved, hbase]
  · have hmode := (next_inv hinv he).mode
    rw [Mode, hcurr] at hmode
    rcases hmode with hk | hu'
    · exact hk
    · have hkernel : (next sym m e).cpu.cpl = 0 := by
        rw [Context.cpl, hentered.seg, Function.update_self]
        decide
      exact absurd (hkernel.symm.trans hu'.cpl) (by decide)
  · intro a ha
    refine hentered.mem_other ?_ (hstack ▸ ha)
    rw [hsize, hstack]
    omega

theorem program_entry_second : ∃ sym,
    (next sym (secondEntered sym) .trap).saved 2 =
        [⟨pcbAddr 2 + 4024, .interrupted (secondEntered sym).cpu.toContext⟩] ∧
      KernelMode 2 ((next sym (secondEntered sym) .trap).saved 2)
        (next sym (secondEntered sym) .trap).cpu ∧
      ∀ a, a < (next sym (secondEntered sym) .trap).cpu.reg .esp ∨ pcbAddr 2 + 4096 ≤ a →
        (next sym (secondEntered sym) .trap).cpu.mem a = (secondEntered sym).cpu.mem a :=
  ⟨⟨0, 0, 0, 0, fun _ => 0, 0⟩,
    program_entry (secondEntered_reachable _) (secondEntered_cpl _)
      ⟨trivial, fun hcpl => absurd hcpl (secondEntered_cpl _)⟩ (Or.inl rfl)⟩

/-- A process enters its program with the context that `start_process` has filled in, its kernel
stack empty and the task segment pointing at it. -/
theorem process_enters {function page : ℕ} {getAPage : (ℕ → ℕ) → ℕ → ℕ}
    (h : Reachable Booted (Moves sym) m)
    (he : Admitted sym m (.startProcess function page getAPage)) :
    (startProcess function page getAPage m.cpu).toContext = userContext function page ∧
      m.esp0 = pcbAddr m.curr + 4096 ∧
      ∀ a, m.Reserved sym a → (startProcess function page getAPage m.cpu).mem a = m.cpu.mem a :=
  ⟨startProcess_user (reachable_inv h) he, (reachable_inv h).task he.enabled.2.1,
    fun _ ha => startProcess_keeps (reachable_inv h) he ha⟩

theorem process_enters_second : ∃ sym,
    (startProcess 7 4096 id (secondRuns sym).cpu).toContext = userContext 7 4096 ∧
      (secondRuns sym).esp0 = pcbAddr 2 + 4096 ∧ ∀ a, (secondRuns sym).Reserved sym a →
        (startProcess 7 4096 id (secondRuns sym).cpu).mem a = (secondRuns sym).cpu.mem a :=
  ⟨⟨0, 0, 0, 0, fun _ => 0, 0⟩,
    process_enters (secondRuns_reachable _) (secondRuns_startProcess _)⟩

/-! ## Error codes -/

theorem interruptEntry_esp {c : Cpu} (sym : Symbols) (v : ℕ) (err : Option ℕ) (esp0 : ℕ)
    (hcpl : c.cpl = 0) :
    (run (interruptEntry sym v) (deliver (gate esp0) err c)).reg .esp = c.reg .esp -
      4 * (17 + err.toList.length + (if secondArg v = .zero then 1 else 0)) := by
  rw [interruptEntry_eq, run_cons, run_append, saveRegisters_eq]
  cases harg : secondArg v <;> cases err <;>
    simp [SecondArg.instr, exec, registerWords, deliver_eq, entryStack, hcpl, gateWords,
      Nat.sub_sub]

theorem interruptEntry_seg (sym : Symbols) (v : ℕ) (err : Option ℕ) (esp0 : ℕ) (c : Cpu) :
    (run (interruptEntry sym v) (deliver (gate esp0) err c)).seg =
      (deliver (gate esp0) err c).seg := by
  rw [interruptEntry_eq, run_cons, run_append, saveRegisters_eq]
  cases secondArg v <;> rfl

/-- `y` is left by a function that `x` has called and that keeps to the rules of C: it has returned,
with the segments and the stack above its argument as they were. -/
structure Handled (x y : Cpu) : Prop where
  esp : y.reg .esp = x.reg .esp + 4
  seg : y.seg = x.seg
  mem : ∀ a, x.reg .esp + 8 ≤ a → y.mem a = x.mem a

/-- Interrupted in the kernel, entry and return give back the context around any handler exactly
if the processor pushes an error code where the entry expects one and nowhere else. -/
theorem roundTrip_iff {v : ℕ} {err : Option ℕ} {c y : Cpu} (esp0 : ℕ) (hcpl : c.cpl = 0)
    (hcs : c.seg .cs = selectorKCode) (hss : c.seg .ss = selectorKStack)
    (hroom : 76 ≤ c.reg .esp)
    (hy : Handled (run (interruptEntry sym v) (deliver (gate esp0) err c)) y) :
    (run interruptReturn y).toContext = c.toContext ↔ Matching v err := by
  have hesp := interruptEntry_esp sym v err esp0 hcpl
  have hseg := interruptEntry_seg sym v err esp0 c
  have hdeliver : (deliver (gate esp0) err c).seg = c.seg := by
    rw [deliver_eq]
    simp [entryStack, hcpl, ← hcs]
  obtain ⟨hyesp, hyseg, hymem⟩ := hy
  generalize hx : run (interruptEntry sym v) (deliver (gate esp0) err c) = x at *
  rw [hdeliver] at hseg
  have hring : (y.set .esp (y.reg .esp + 4)).cpl = 0 := by
    rw [Context.cpl]
    simp [hyseg, hseg, hcs, selectorKCode]
  rw [interruptReturn_eq]
  constructor
  · intro h
    -- The code segment is the kernel's, so `iret` has not changed stacks.
    have hcode := congrArg (fun d => d.seg .cs) h
    have hstack := congrArg (fun d => d.reg .esp) h
    simp only [restored, set_reg, set_mem, Function.update_self] at hcode hstack
    rw [hring, hcode, hcs, if_neg (by decide)] at hstack
    rw [Matching]
    cases harg : secondArg v <;> cases err <;> simp [harg] at hesp ⊢ <;> omega
  · intro h
    have hentered := interruptEntry_entered sym esp0 c h
    have hsize : contextSize c.toContext = 64 := if_pos hcpl
    have hentry : entryStack esp0 c = c := if_pos hcpl
    rw [hx] at hentered
    obtain ⟨err, dummy, hlaid⟩ := (hentered.laid (by simp [hsize, hentry]; omega)).2
    have hlow := hentered.esp
    rw [hsize, hentry] at hlaid hlow
    simp only [List.length_cons, List.length_nil] at hlow
    have hbase : y.reg .esp + 4 = c.reg .esp - 64 := by omega
    have hkept : Laid y.mem (c.reg .esp - 64) (contextWords err dummy c.toContext).reverse :=
      hlaid.congr fun a ha _ => hymem a (by omega)
    refine ContextStored.restored ⟨⟨err, dummy, ?_⟩, ?_, fun hne => absurd hcpl hne⟩ hring ?_
    · simpa [hbase] using hkept
    · intro _
      refine ⟨hcs, hss, ?_⟩
      simp only [set_reg, Function.update_self]
      omega
    · simp [hyseg, hseg, hss]

theorem ret_handled (x : Cpu) (w : ℕ) : Handled x ((exec .ret x).set .eax w) := by
  refine ⟨?_, rfl, fun _ _ => rfl⟩
  simp [exec]

/-- A handler that leaves 5 in `eax`. -/
theorem roundTrip_iff_boot :
    (run interruptReturn ((exec .ret (run (interruptEntry ⟨0, 0, 0, 0, fun _ => 0, 0⟩ 0x0e)
      (deliver (gate 0) (some 2) bootMachine.cpu))).set .eax 5)).toContext =
        bootMachine.cpu.toContext ↔ Matching 0x0e (some 2) :=
  roundTrip_iff 0 rfl rfl rfl (by simp [bootMachine]) (ret_handled _ 5)

end KernelContextRuns
