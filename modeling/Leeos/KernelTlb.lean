import Leeos.KernelPoolRanges

/-!
# Freed pages in the TLB (`page_table_pte_remove`)

The TLB may at any moment hold any translation the page tables have contained since the page
was last invalidated; `cached` collects these. `invlpg` drops the page in which its memory
operand lies. The operand `page_table_pte_remove` names is its own parameter `vir_addr`, which
lies at the address `slot` of the kernel stack; the code runs on through that page, so that it
faults when the page has just been unmapped. What the frames hold besides page tables plays no
role.
-/
namespace KernelTlb

open ExecRules RunSearch KernelBitmap KernelPaging KernelPools KernelPoolSteps
  KernelPoolInvariant KernelPoolMapping KernelPoolCalls KernelPoolRelease KernelPoolRanges LibStdint

structure TlbState where
  mem : MemState
  cached : ℕ → List ℕ

abbrev TlbM (α : Type) := Exec Halt TlbState α

/-- The present translations may be cached from now on. -/
def TlbState.observe (t : TlbState) : TlbState :=
  { t with cached := fun p => (t.mem.frameOf p).toList ++ t.cached p }

def onMem {α : Type} (x : MemM α) : TlbM α := fun t =>
  match x t.mem with
  | .ok (a, m) => .ok (a, TlbState.observe ⟨m, t.cached⟩)
  | .error e => .error e

/-- `invlpg` with a memory operand at address `m`. -/
def invlpg (m : ℕ) : TlbM Unit :=
  modify fun t => { t with cached := fun p =>
    if p = m / 4096 then (t.mem.frameOf p).toList else t.cached p }

/-- An access at address `a` faults if no translation of its page can be in the TLB. -/
def access (a : ℕ) : TlbM Unit := do
  if (← get).cached (a / 4096) = [] then throw (.pageFault a)

/-- `invlpg` of the parameter, and the return through the stack page it lies on. -/
def flush (slot : ℕ) : TlbM Unit := do
  invlpg slot
  access slot

def pageTableAdd (virAddr phyAddr : ℕ) : TlbM Unit := do
  let ptePtr := pteAddr virAddr
  let pdePtr := pdeAddr virAddr
  let pde ← onMem (load pdePtr)
  if present pde then
    let pte ← onMem (load ptePtr)
    onMem (assert .pteAbsent (present pte = false))
    onMem (store ptePtr (pgEntry phyAddr))
  else
    let allocPde ← onMem (palloc .kernel)
    onMem (store pdePtr (pgEntry allocPde))
    onMem (zeroPage (ptePtr &&& 0xfffff000))
    let pte ← onMem (load ptePtr)
    onMem (assert .pteAbsent (present pte = false))
    onMem (store ptePtr (pgEntry phyAddr))

def mapPages (PF : PoolFlag) : ℕ → ℕ → TlbM Bool
  | 0, _ => pure true
  | left + 1, virAllocAddr => do
    let phyAllocAddr ← onMem (palloc PF)
    if phyAllocAddr = 0 then pure false
    else
      pageTableAdd virAllocAddr phyAllocAddr
      mapPages PF left (u32 (virAllocAddr + 4096))

def mallocPages (PF : PoolFlag) (cntPages : ℕ) : TlbM ℕ := do
  onMem (assert .mallocPagesCnt (0 < cntPages ∧ cntPages < 3840))
  let virAllocAddr ← onMem (vaddrGetPages PF cntPages)
  if virAllocAddr = 0 then pure 0
  else
    let done ← mapPages PF cntPages virAllocAddr
    pure (if done then virAllocAddr else 0)

def pageTablePteRemove (slot virAddr : ℕ) : TlbM Unit := do
  let pte ← onMem (load (pteAddr virAddr))
  onMem (store (pteAddr virAddr) (pte &&& ~~~1#32))
  flush slot

def freeLoop (slot : ℕ) (a : Assertion) (ok : MemLayout → ℕ → Bool) : ℕ → ℕ → ℕ → TlbM Unit
  | 0, _, _ => pure ()
  | left + 1, vaddr, phyAddr => do
    let s ← onMem get
    onMem (assert a (ok s.layout phyAddr = true))
    onMem (pfree phyAddr)
    pageTablePteRemove slot vaddr
    let phyAddr ← onMem (addrVirtualToPhy (u32 (vaddr + 4096)))
    freeLoop slot a ok left (u32 (vaddr + 4096)) phyAddr

def freePages (slot : ℕ) (PF : PoolFlag) (cntPages vaddr : ℕ) : TlbM Unit := do
  onMem (assert .freePagesArgs (cntPages ≥ 1 ∧ vaddr % 4096 = 0))
  let phyAddr ← onMem (addrVirtualToPhy vaddr)
  onMem (assert .freePagesPhy (phyAddr % 4096 = 0 ∧ phyAddr ≥ 0x102000))
  let s ← onMem get
  if phyAddr > s.layout.userPool.phyStartAddr then
    freeLoop slot .freePagesUserPhy userPhyOk cntPages vaddr phyAddr
  else
    freeLoop slot .freePagesKernelPhy kernelPhyOk cntPages vaddr phyAddr
  onMem (vaddrRemovePages PF cntPages vaddr)

/-! ## The calls without the TLB -/

variable {t t' : TlbState} {PF : PoolFlag}

theorem onMem_ok {α : Type} {x : MemM α} {a : α} (h : onMem x t = .ok (a, t')) :
    ∃ m, x t.mem = .ok (a, m) ∧ t' = TlbState.observe ⟨m, t.cached⟩ := by
  rw [onMem] at h
  split at h
  case h_1 b m hx =>
    cases h
    exact ⟨m, hx, rfl⟩
  case h_2 => cases h

theorem onMem_views {α : Type} (x : MemM α) : Views TlbState.mem (onMem x) x := by
  intro t a t' h
  obtain ⟨m, hx, rfl⟩ := onMem_ok h
  exact hx

theorem pageTableAdd_views (v a : ℕ) :
    Views TlbState.mem (pageTableAdd v a) (KernelPools.pageTableAdd v a) := by
  refine (onMem_views _).bind fun pde => views_ite ?_ ?_
  · exact (onMem_views _).bind fun _ => (onMem_views _).bind fun _ => onMem_views _
  · exact (onMem_views _).bind fun _ => (onMem_views _).bind fun _ => (onMem_views _).bind fun _ =>
      (onMem_views _).bind fun _ => (onMem_views _).bind fun _ => onMem_views _

theorem mapPages_views (PF : PoolFlag) (left v : ℕ) :
    Views TlbState.mem (mapPages PF left v) (KernelPools.mapPages PF left v) := by
  induction left generalizing v with
  | zero => exact views_pure true
  | succ left ih =>
    exact (onMem_views _).bind fun _ => views_ite (views_pure false)
      ((pageTableAdd_views _ _).bind fun _ => ih _)

theorem mallocPages_views (PF : PoolFlag) (n : ℕ) :
    Views TlbState.mem (mallocPages PF n) (KernelPools.mallocPages PF n) :=
  (onMem_views _).bind fun _ => (onMem_views _).bind fun _ => views_ite (views_pure 0)
    ((mapPages_views PF n _).bind fun _ => views_pure _)

theorem flush_ok {slot : ℕ} (h : flush slot t = .ok ((), t')) :
    t'.mem = t.mem ∧ t'.cached (slot / 4096) ≠ [] := by
  obtain ⟨_, u, hu, h⟩ := bind_ok_iff.mp h
  cases hu
  rw [access, get_bind] at h
  split at h
  case isTrue => cases h
  case isFalse hne =>
    cases h
    exact ⟨rfl, hne⟩

theorem pageTablePteRemove_views (slot v : ℕ) : Views TlbState.mem (pageTablePteRemove slot v)
    (KernelPools.pageTablePteRemove v) := by
  intro t u t' h
  obtain ⟨pte, t₁, h₁, h⟩ := bind_ok_iff.mp h
  obtain ⟨_, t₂, h₂, h⟩ := bind_ok_iff.mp h
  rw [KernelPools.pageTablePteRemove, bind_of_ok (onMem_views _ _ _ _ h₁), onMem_views _ _ _ _ h₂,
    (flush_ok h).1]

theorem freeLoop_views (slot : ℕ) (a : Assertion) (ok : MemLayout → ℕ → Bool) (left v f : ℕ) :
    Views TlbState.mem (freeLoop slot a ok left v f) (KernelPools.freeLoop a ok left v f) := by
  induction left generalizing v f with
  | zero => exact views_pure ()
  | succ left ih =>
    exact (onMem_views _).bind fun _ => (onMem_views _).bind fun _ => (onMem_views _).bind fun _ =>
      (pageTablePteRemove_views slot v).bind fun _ => (onMem_views _).bind fun _ => ih _ _

theorem freePages_views (slot : ℕ) (PF : PoolFlag) (n v : ℕ) :
    Views TlbState.mem (freePages slot PF n v) (KernelPools.freePages PF n v) := by
  refine (onMem_views _).bind fun _ => (onMem_views _).bind fun _ => (onMem_views _).bind fun _ =>
    (onMem_views _).bind fun _ => views_ite ?_ ?_
  · exact (freeLoop_views slot _ _ _ _ _).bind fun _ => onMem_views _
  · exact (freeLoop_views slot _ _ _ _ _).bind fun _ => onMem_views _

/-! ## What may be cached -/

def Observed (t : TlbState) : Prop := ∀ p f, t.mem.frameOf p = some f → f ∈ t.cached p

theorem mem_observe {p f : ℕ} :
    f ∈ t.observe.cached p ↔ t.mem.frameOf p = some f ∨ f ∈ t.cached p := by
  simp [TlbState.observe]

/-- A property of the cache that neither a memory step nor a flush of the operand destroys. -/
structure Lasting (slot : ℕ) (I : TlbState → Prop) : Prop where
  observe : ∀ t m, I t → I (TlbState.observe ⟨m, t.cached⟩)
  flush : Triple I (flush slot) fun _ => I

theorem Lasting.onMem {slot : ℕ} {I : TlbState → Prop} (h : Lasting slot I) {α : Type}
    (x : MemM α) : Triple I (onMem x) fun _ => I := by
  intro t a t' ht hrun
  obtain ⟨m, -, rfl⟩ := onMem_ok hrun
  exact h.observe t m ht

theorem Lasting.pageTableAdd {slot : ℕ} {I : TlbState → Prop} (h : Lasting slot I) (v a : ℕ) :
    Triple I (pageTableAdd v a) fun _ => I := by
  refine (h.onMem _).bind fun _ => triple_ite ?_ ?_
  · exact (h.onMem _).bind fun _ => (h.onMem _).bind fun _ => h.onMem _
  · exact (h.onMem _).bind fun _ => (h.onMem _).bind fun _ => (h.onMem _).bind fun _ =>
      (h.onMem _).bind fun _ => (h.onMem _).bind fun _ => h.onMem _

theorem Lasting.mallocPages {slot : ℕ} {I : TlbState → Prop} (h : Lasting slot I)
    (PF : PoolFlag) (n : ℕ) : Triple I (mallocPages PF n) fun _ => I := by
  have hpure : ∀ {β : Type} (b : β), Triple I (pure b : TlbM β) fun _ => I :=
    fun b => triple_pure fun _ ht => ht
  have hloop : ∀ left v, Triple I (mapPages PF left v) fun _ => I := by
    intro left
    induction left with
    | zero => exact fun v => hpure true
    | succ left ih =>
      exact fun v => (h.onMem _).bind fun _ => triple_ite (hpure false)
        ((h.pageTableAdd _ _).bind fun _ => ih _)
  exact (h.onMem _).bind fun _ => (h.onMem _).bind fun _ => triple_ite (hpure 0)
    ((hloop _ _).bind fun _ => hpure _)

theorem Lasting.freePages {slot : ℕ} {I : TlbState → Prop} (h : Lasting slot I)
    (PF : PoolFlag) (n v : ℕ) : Triple I (freePages slot PF n v) fun _ => I := by
  have hremove : ∀ v, Triple I (pageTablePteRemove slot v) fun _ => I :=
    fun v => (h.onMem _).bind fun _ => (h.onMem _).bind fun _ => h.flush
  have hloop : ∀ a ok left v f, Triple I (freeLoop slot a ok left v f) fun _ => I := by
    intro a ok left
    induction left with
    | zero => exact fun v f => triple_pure fun _ ht => ht
    | succ left ih =>
      exact fun v f => (h.onMem _).bind fun _ => (h.onMem _).bind fun _ => (h.onMem _).bind fun _ =>
        (hremove v).bind fun _ => (h.onMem _).bind fun _ => ih _ _
  refine (h.onMem _).bind fun _ => (h.onMem _).bind fun _ => (h.onMem _).bind fun _ =>
    (h.onMem _).bind fun _ => triple_ite ?_ ?_
  · exact (hloop _ _ _ _ _).bind fun _ => h.onMem _
  · exact (hloop _ _ _ _ _).bind fun _ => h.onMem _

theorem flush_cached {slot : ℕ} (h : flush slot t = .ok ((), t')) (p : ℕ) :
    t'.cached p = if p = slot / 4096 then (t.mem.frameOf p).toList else t.cached p := by
  obtain ⟨_, u, hu, h⟩ := bind_ok_iff.mp h
  cases hu
  rw [access, get_bind] at h
  split at h <;> cases h
  rfl

theorem observed_lasting (slot : ℕ) : Lasting slot Observed where
  observe t m _ p f hf := mem_observe.mpr (Or.inl hf)
  flush := by
    intro t _ t' ht hrun p f hf
    rw [(flush_ok hrun).1] at hf
    rw [flush_cached hrun]
    split
    · simp [hf]
    · exact ht p f hf

/-- No flush reaches a page other than the operand's. -/
theorem cached_lasting {slot p : ℕ} (hp : p ≠ slot / 4096) (f : ℕ) :
    Lasting slot fun t => f ∈ t.cached p where
  observe t m ht := mem_observe.mpr (Or.inr ht)
  flush := by
    intro t _ t' ht hrun
    simpa only [flush_cached hrun, if_neg hp] using ht

/-- A page of which something is cached keeps something cached: a flush of its last translation
takes away the stack the code runs on. -/
theorem nonempty_lasting (slot p : ℕ) : Lasting slot fun t => t.cached p ≠ [] where
  observe t m ht h := by
    obtain ⟨f, hf⟩ := List.exists_mem_of_ne_nil _ ht
    have hmem := mem_observe (t := ⟨m, t.cached⟩).mpr (Or.inr hf)
    simp [h] at hmem
  flush := by
    intro t _ t' ht hrun
    by_cases hp : p = slot / 4096
    · exact hp ▸ (flush_ok hrun).2
    · simpa only [flush_cached hrun, if_neg hp] using ht

/-! ## Runs -/

inductive TlbEvent where
  | mallocPages (PF : PoolFlag) (cntPages : ℕ)
  | freePages (R : Range) (slot : ℕ)
  | access (p f : ℕ)

structure TlbRun where
  tlb : TlbState
  live : List Range
  released : List Range

/-- An access to page `p` reaches frame `f` when the TLB may hold that translation. -/
inductive TlbStep : TlbEvent → TlbRun → TlbRun → Prop
  | mallocPages {x : TlbRun} {t : TlbState} {PF : PoolFlag} {n v : ℕ} :
      KernelTlb.mallocPages PF n x.tlb = .ok (v, t) → v ≠ 0 →
      TlbStep (.mallocPages PF n) x ⟨t, ⟨PF, v / 4096, n⟩ :: x.live, x.released⟩
  | mallocFails {x : TlbRun} {t : TlbState} {PF : PoolFlag} {n : ℕ} :
      KernelTlb.mallocPages PF n x.tlb = .ok (0, t) →
      TlbStep (.mallocPages PF n) x ⟨t, x.live, x.released⟩
  | freePages {x : TlbRun} {t : TlbState} {R : Range} {slot : ℕ} : R ∈ x.live →
      KernelTlb.freePages slot R.flag R.count (4096 * R.page) x.tlb = .ok ((), t) →
      TlbStep (.freePages R slot) x ⟨t, x.live.erase R, R :: x.released⟩
  | access {x : TlbRun} {p f : ℕ} : f ∈ x.tlb.cached p → TlbStep (.access p f) x x

def TlbStart (x : TlbRun) : Prop := Start (x.tlb.mem, x.live) ∧ x.released = [] ∧ Observed x.tlb

/-- The page tables an allocation needs can be provided. -/
def Provided (x : TlbRun) : TlbEvent → Prop
  | .mallocPages PF n => MallocFits 0 x.tlb.mem PF n
  | _ => True

def AnyStep (x y : TlbRun) : Prop := ∃ e, TlbStep e x y

def ProvidedStep (x y : TlbRun) : Prop := ∃ e, Provided x e ∧ TlbStep e x y

/-- A release whose operand lies on page `p`. -/
def OperandOn (p : ℕ) : TlbEvent → Prop
  | .freePages _ slot => slot / 4096 = p
  | _ => False

/-- Any step but a release whose operand lies on page `p`. -/
def ElsewhereStep (p : ℕ) (x y : TlbRun) : Prop := ∃ e, ¬ OperandOn p e ∧ TlbStep e x y

def Freed (x : TlbRun) (p : ℕ) : Prop := ∃ R ∈ x.released, R.Has p

/-- Every access to a page that was released reaches the frame the page tables name now. -/
def FreedCurrent (x : TlbRun) : Prop :=
  ∀ p, Freed x p → ∀ f ∈ x.tlb.cached p, x.tlb.mem.frameOf p = some f

def NoneCached (t : TlbState) (R : Range) : Prop := ∀ p, R.Has p → t.cached p = []

structure TlbInv (x : TlbRun) : Prop where
  ranges : RangesInv (x.tlb.mem, x.live)
  observed : Observed x.tlb

variable {x y z : TlbRun}

theorem lasting_step {e : TlbEvent} {I : TlbState → Prop} {other : ℕ} (h : Lasting other I)
    (hfree : ∀ R slot, e = .freePages R slot → Lasting slot I) (hI : I x.tlb)
    (hs : TlbStep e x y) : I y.tlb := by
  cases hs with
  | mallocPages hrun => exact h.mallocPages _ _ _ _ _ hI hrun
  | mallocFails hrun => exact h.mallocPages _ _ _ _ _ hI hrun
  | freePages _ hrun => exact (hfree _ _ rfl).freePages _ _ _ _ _ _ hI hrun
  | access => exact hI

theorem observed_step {e : TlbEvent} (h : Observed x.tlb) (hs : TlbStep e x y) : Observed y.tlb :=
  lasting_step (observed_lasting 0) (fun _ slot _ => observed_lasting slot) h hs

theorem tlb_step_inv (h : TlbInv x) (hs : ProvidedStep x y) : TlbInv y := by
  obtain ⟨e, hp, hs⟩ := hs
  refine ⟨?_, observed_step h.observed hs⟩
  cases hs with
  | mallocPages hrun hv =>
    exact ((mallocPages_keeps h.ranges hp (mallocPages_views _ _ _ _ _ hrun)).2.2.2 hv).1
  | mallocFails hrun =>
    exact (mallocPages_keeps h.ranges hp (mallocPages_views _ _ _ _ _ hrun)).2.2.1 rfl
  | freePages hR hrun =>
    exact (freePages_keeps h.ranges hR (freePages_views _ _ _ _ _ _ _ hrun)).2.2
  | access => exact h.ranges

theorem tlb_run_observed (h : Reachable TlbStart AnyStep x) : Observed x.tlb := by
  refine reachable_invariant (fun y => Observed y.tlb) h (fun y hy => hy.2.2) fun y z hy hs => ?_
  obtain ⟨e, hs⟩ := hs
  exact observed_step hy hs

theorem tlb_run_inv (h : Reachable TlbStart ProvidedStep x) : TlbInv x := by
  refine reachable_invariant TlbInv h (fun y hy => ?_) fun _ _ => tlb_step_inv
  obtain ⟨⟨h₁, h₂, h₃⟩, -, ho⟩ := hy
  have h₁ : y.live = [] := h₁
  exact ⟨⟨h₂, h₃, by simp [h₁], by simp [h₁]⟩, ho⟩

theorem mapped_page_stays_cached {e : TlbEvent} (h : Observed x.tlb) {p : ℕ}
    (hp : x.tlb.mem.frameOf p ≠ none) (hs : TlbStep e x y) : y.tlb.cached p ≠ [] := by
  obtain ⟨f, hf⟩ := Option.ne_none_iff_exists'.mp hp
  exact lasting_step (nonempty_lasting 0 p) (fun _ slot _ => nonempty_lasting slot p)
    (List.ne_nil_of_mem (h p f hf)) hs

theorem freePages_unmaps (h : TlbInv x) {R : Range} {slot p : ℕ}
    (hs : TlbStep (.freePages R slot) x y) (hp : R.Has p) :
    x.tlb.mem.frameOf p ≠ none ∧ y.tlb.mem.frameOf p = none := by
  cases hs with
  | freePages hR hrun =>
    obtain ⟨g, u, hg, hrel, -, hmem⟩ :=
      freePages_released h.ranges hR (freePages_views _ _ _ _ _ _ _ hrun)
    have hfr := hrel.frames p (managed_plain (hg.managed p hp))
    refine ⟨by rw [hg.frame hp]; exact Option.some_ne_none _, ?_⟩
    rw [hmem]
    exact hfr.trans (if_pos hp)

theorem cached_until_operand {p f : ℕ} (hf : f ∈ y.tlb.cached p)
    (h : Reachable (· = y) (ElsewhereStep p) z) : f ∈ z.tlb.cached p := by
  refine reachable_invariant (fun w => f ∈ w.tlb.cached p) h (fun w hw => hw ▸ hf)
    fun v w hv hs => ?_
  obtain ⟨e, he, hs⟩ := hs
  have hother : p ≠ 4096 * (p + 1) / 4096 := by omega
  refine lasting_step (cached_lasting hother f) (fun R slot hfree => ?_) hv hs
  subst hfree
  exact cached_lasting (Ne.symm he) f

/-- After a `free_pages` that returns, every page of the range that was mapped still has a
translation cached. In runs whose page tables can be provided that is every page of the range,
none of them mapped any more; an access may reach the old frame until some later release has
its operand on the page. -/
theorem freed_pages_stay_cached {R : Range} {slot : ℕ} (hs : TlbStep (.freePages R slot) x y) :
    (Reachable TlbStart AnyStep x →
      ∀ p, R.Has p → x.tlb.mem.frameOf p ≠ none → y.tlb.cached p ≠ []) ∧
    (Reachable TlbStart ProvidedStep x → ¬ NoneCached y.tlb R ∧ ¬ FreedCurrent y ∧
      ∀ p, R.Has p → y.tlb.mem.frameOf p = none ∧
        ∃ f, ∀ z, Reachable (· = y) (ElsewhereStep p) z → TlbStep (.access p f) z z) := by
  refine ⟨fun h p _ hp => mapped_page_stays_cached (tlb_run_observed h) hp hs, fun h => ?_⟩
  have hinv := tlb_run_inv h
  have hstale : ∀ p, R.Has p → y.tlb.mem.frameOf p = none ∧ ∃ f, f ∈ y.tlb.cached p := by
    intro p hp
    obtain ⟨hbefore, hnone⟩ := freePages_unmaps hinv hs hp
    exact ⟨hnone, List.exists_mem_of_ne_nil _
      (mapped_page_stays_cached hinv.observed hbefore hs)⟩
  have hfirst : R.Has R.page ∧ R ∈ y.released := by
    cases hs with
    | freePages hR hrun =>
      obtain ⟨g, hg⟩ := hinv.ranges.live R hR
      exact ⟨⟨le_rfl, by have := hg.count; omega⟩, List.mem_cons_self⟩
  obtain ⟨hnone, f, hf⟩ := hstale R.page hfirst.1
  refine ⟨fun hflushed => ?_, fun hcur => ?_, fun p hp => ?_⟩
  · rw [hflushed _ hfirst.1] at hf
    cases hf
  · have := hcur R.page ⟨R, hfirst.2, hfirst.1⟩ f hf
    rw [hnone] at this
    cases this
  · obtain ⟨hnone, f, hf⟩ := hstale p hp
    exact ⟨hnone, f, fun z hz => .access (cached_until_operand hf hz)⟩

def sampleTlb : TlbRun :=
  ⟨⟨sampleMachine 16, fun p => ((sampleMachine 16).frameOf p).toList⟩, [], []⟩

theorem start_sampleTlb : TlbStart sampleTlb := by
  refine ⟨start_sampleMachine 16, rfl, fun p f hf => ?_⟩
  exact Option.mem_toList.mpr hf

/-- A page is released whose end is the kernel stack of the call. -/
example : yields (mallocPages .kernel 1) sampleTlb.tlb (fun v t => v == 0xc0100000 &&
    !yields (freePages 0xc0100ff0 .kernel 1 0xc0100000) t fun _ _ => true) = true := by
  decide +kernel

theorem freed_page_stays_cached : ∃ x y : TlbRun, Reachable TlbStart ProvidedStep x ∧
    TlbStep (.freePages ⟨.kernel, 0xc0100, 1⟩ 0xc009ef00) x y ∧
    ¬ NoneCached y.tlb ⟨.kernel, 0xc0100, 1⟩ ∧ ¬ FreedCurrent y := by
  have hrun : yields (mallocPages .kernel 1) sampleTlb.tlb (fun v t => v == 0xc0100000 &&
      yields (freePages 0xc009ef00 .kernel 1 0xc0100000) t fun _ _ => true) = true := by
    decide +kernel
  obtain ⟨v, t, ht, hv⟩ := yields_iff.mp hrun
  simp only [Bool.and_eq_true, beq_iff_eq] at hv
  obtain ⟨rfl, hfree⟩ := hv
  obtain ⟨u, t', ht', -⟩ := yields_iff.mp hfree
  have hfit : Provided sampleTlb (.mallocPages .kernel 1) := by
    intro _ r hr
    have hzero : vaddrRun (sampleMachine 16) .kernel 1 = some 0 := by decide +kernel
    cases hzero.symm.trans hr
    refine ⟨?_, ?_⟩
    · unfold TablesFit
      decide +kernel
    · intro hu
      cases hu
  have hx : Reachable TlbStart ProvidedStep ⟨t, [⟨.kernel, 0xc0100, 1⟩], []⟩ :=
    (Reachable.refl start_sampleTlb).tail ⟨_, hfit, .mallocPages ht (by decide)⟩
  have hs : TlbStep (.freePages ⟨.kernel, 0xc0100, 1⟩ 0xc009ef00)
      ⟨t, [⟨.kernel, 0xc0100, 1⟩], []⟩ ⟨t', _, _⟩ := .freePages (by simp) ht'
  obtain ⟨hkept, hstale, -⟩ := (freed_pages_stay_cached hs).2 hx
  exact ⟨_, _, hx, hs, hkept, hstale⟩

/-- The kernel releases a page while it runs on its own stack: the old translation stays, the
frame goes to another page, and an access through the first page reaches it there. -/
theorem stale_translation_survives : ∃ x,
    Reachable TlbStart AnyStep x ∧
    (⟨.kernel, 0xc0100, 1⟩ : Range) ∈ x.released ∧ (⟨.kernel, 0xc0100, 1⟩ : Range) ∈ x.live ∧
    x.tlb.mem.frameOf 0xc0100 = some 0x203 ∧ x.tlb.mem.frameOf 0xc0102 = some 0x200 ∧
    TlbStep (.access 0xc0100 0x200) x x ∧ ¬ FreedCurrent x := by
  have hrun : yields (mallocPages .kernel 1) sampleTlb.tlb (fun v₁ t₁ => v₁ == 0xc0100000 &&
      yields (mallocPages .kernel 1) t₁ fun v₂ t₂ => v₂ == 0xc0101000 &&
      yields (freePages 0xc009ef00 .kernel 1 0xc0100000) t₂ fun _ t₃ =>
      yields (mallocPages .kernel 2) t₃ fun v₄ t₄ => v₄ == 0xc0102000 &&
      yields (mallocPages .kernel 1) t₄ fun v₅ t₅ => v₅ == 0xc0100000 &&
      t₅.mem.frameOf 0xc0100 == some 0x203 && t₅.mem.frameOf 0xc0102 == some 0x200 &&
      (t₅.cached 0xc0100).contains 0x200) = true := by
    decide +kernel
  obtain ⟨v₁, t₁, h₁, hrun⟩ := yields_iff.mp hrun
  rw [Bool.and_eq_true, beq_iff_eq] at hrun
  obtain ⟨rfl, hrun⟩ := hrun
  obtain ⟨v₂, t₂, h₂, hrun⟩ := yields_iff.mp hrun
  rw [Bool.and_eq_true, beq_iff_eq] at hrun
  obtain ⟨rfl, hrun⟩ := hrun
  obtain ⟨_, t₃, h₃, hrun⟩ := yields_iff.mp hrun
  obtain ⟨v₄, t₄, h₄, hrun⟩ := yields_iff.mp hrun
  rw [Bool.and_eq_true, beq_iff_eq] at hrun
  obtain ⟨rfl, hrun⟩ := hrun
  obtain ⟨v₅, t₅, h₅, hrun⟩ := yields_iff.mp hrun
  simp only [Bool.and_eq_true, beq_iff_eq, List.contains_iff_mem] at hrun
  obtain ⟨⟨⟨rfl, hf₁⟩, hf₂⟩, hc⟩ := hrun
  have hfree : TlbStep (.freePages ⟨.kernel, 0xc0100, 1⟩ 0xc009ef00)
      ⟨t₂, [⟨.kernel, 0xc0101, 1⟩, ⟨.kernel, 0xc0100, 1⟩], []⟩ ⟨t₃, _, _⟩ := .freePages (by simp) h₃
  have hx : Reachable TlbStart AnyStep _ :=
    (((((Reachable.refl start_sampleTlb).tail ⟨_, .mallocPages h₁ (by decide)⟩).tail
      ⟨_, .mallocPages h₂ (by decide)⟩).tail ⟨_, hfree⟩).tail
      ⟨_, .mallocPages h₄ (by decide)⟩).tail ⟨_, .mallocPages h₅ (by decide)⟩
  refine ⟨_, hx, by simp, by simp, hf₁, hf₂, .access hc, fun hcur => ?_⟩
  have := hcur 0xc0100 ⟨⟨.kernel, 0xc0100, 1⟩, by simp, by norm_num, by norm_num⟩ 0x200 hc
  rw [hf₁] at this
  cases this

end KernelTlb
