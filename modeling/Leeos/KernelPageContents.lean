import Leeos.KernelPoolExhaustion

/-!
# What new memory contains (`malloc_user_pages`, `get_a_page`, `sys_malloc`)

`data` holds the bytes of the frames that pages are mapped to; page tables lie in other frames.
Freeing scrubs nothing, so a frame comes back with the bytes of its last owner. The values that
`sys_malloc` and `sys_free` leave in headers and list links are a parameter `w`, by address.
-/
namespace KernelPageContents

open ExecRules KernelBitmap KernelPaging KernelPools KernelPoolSteps KernelPoolInvariant
  KernelPoolMapping KernelPoolCalls KernelPoolLoop KernelPoolRanges KernelPoolRoundTrip KernelHeap
  KernelHeapAccounts KernelHeapSteps KernelHeapCalls KernelHeapRuns KernelPoolExhaustion LibStdint

abbrev Byte := BitVec 8

structure FilledState where
  heap : HeapState
  data : ℕ → ℕ → Byte

inductive FillHalt where
  | kernel (e : Halt)
  | memsetDst
  deriving DecidableEq, Repr

abbrev FilledM (α : Type) := Exec FillHalt FilledState α

def onHeap {α : Type} (x : HeapM α) : FilledM α := fun s =>
  match x s.heap with
  | .ok (a, h) => .ok (a, { s with heap := h })
  | .error e => .error (.kernel e)

def FilledState.frameOf (s : FilledState) (p : ℕ) : Option ℕ := s.heap.mem.frameOf p

def FilledState.readByte (s : FilledState) (a : ℕ) : Option Byte :=
  (s.frameOf (a / 4096)).map fun f => s.data f (a % 4096)

def FilledState.setByte (s : FilledState) (f o : ℕ) (b : Byte) : FilledState :=
  { s with data := Function.update s.data f (Function.update (s.data f) o b) }

def storeByte (a : ℕ) (b : Byte) : FilledM Unit := do
  let s ← get
  match s.frameOf (a / 4096) with
  | some f => set (s.setByte f (a % 4096) b)
  | none => throw (.kernel (.pageFault a))

def storeBytes (w : ℕ → Byte) : ℕ → ℕ → FilledM Unit
  | 0, _ => pure ()
  | left + 1, a => do
    storeByte a (w a)
    storeBytes w left (a + 1)

def memset (dst num : ℕ) : FilledM Unit := do
  ensure .memsetDst (dst ≠ 0)
  storeBytes (fun _ => 0#8) num dst

/-- The `free_elem` of each block on the list. -/
def storeLinks (w : ℕ → Byte) : List ℕ → FilledM Unit
  | [] => pure ()
  | e :: rest => do
    storeBytes w 8 e
    storeLinks w rest

def mallocUserPages (cnt : ℕ) : FilledM ℕ := do
  let vaddr ← onHeap (liftMem (mallocPages .user cnt))
  memset vaddr cnt
  pure vaddr

def getAPage (PF : PoolFlag) (vaddr : ℕ) : FilledM ℕ :=
  onHeap (liftMem (KernelPools.getAPage PF vaddr))

def sysMallocLarge (w : ℕ → Byte) (PF : PoolFlag) (size : ℕ) : FilledM ℕ := do
  let cnt := divRoundUp size 4096
  let newArena ← onHeap (takePages PF cnt)
  if newArena = 0 then pure 0
  else
    memset newArena (cnt * 4096)
    onHeap (clearPages cnt newArena)
    storeBytes w arenaSize newArena
    onHeap (writeArena newArena ⟨none, cnt, true⟩)
    pure (newArena + arenaSize)

def refill (w : ℕ → Byte) (PF : PoolFlag) (d : ℕ) : FilledM Bool := do
  let memArena ← onHeap (takePages PF 1)
  if memArena = 0 then pure false
  else
    memset memArena 4096
    onHeap (clearPages 1 memArena)
    let s ← onHeap get
    storeBytes w arenaSize memArena
    onHeap (writeArena memArena ⟨some d, (s.descs d).blocksPerArena, false⟩)
    onHeap (splitArena d memArena (s.descs d).blocksPerArena 0)
    let s ← onHeap get
    storeLinks w (s.descs d).freeList
    pure true

def popBlock (w : ℕ → Byte) (d : ℕ) : FilledM ℕ := do
  let s ← onHeap get
  let popElem ← onHeap (KernelHeap.popBlock d)
  storeLinks w (s.descs d).freeList
  storeBytes w arenaSize (blockToArena popElem)
  memset popElem (s.descs d).blockSize
  pure popElem

def sysMallocSmall (w : ℕ → Byte) (PF : PoolFlag) (size : ℕ) : FilledM ℕ := do
  let s ← onHeap get
  let desIdx := findDesc s.descs size 7 0
  let ready ← if (s.descs desIdx).freeList = [] then refill w PF desIdx else pure true
  if ready then popBlock w desIdx else pure 0

def sysMalloc (w : ℕ → Byte) (size : ℕ) : FilledM ℕ := do
  let s ← onHeap get
  let PF := threadFlag s.mem
  if size > 1024 then sysMallocLarge w PF size else sysMallocSmall w PF size

def sysFree (w : ℕ → Byte) (ptr : ℕ) : FilledM Unit := do
  let s ← onHeap get
  let PF := threadFlag s.mem
  let memArena := blockToArena ptr
  let h ← onHeap (readArena memArena)
  match h.memDescAddr with
  | none => onHeap (givePages PF h.cnt memArena)
  | some d =>
    storeLinks w ((s.descs d).freeList ++ [ptr])
    onHeap (listAppend d ptr)
    let cnt := u32 (h.cnt + 1)
    storeBytes w arenaSize memArena
    onHeap (writeArena memArena { h with cnt := cnt })
    if cnt = (s.descs d).blocksPerArena then
      storeLinks w ((s.descs d).freeList ++ [ptr])
      onHeap (removeBlocks d memArena (s.descs d).blocksPerArena 0)
      onHeap (givePages PF 1 memArena)
    else pure ()

variable {s s' : FilledState} {w : ℕ → Byte} {n a v : ℕ}

/-! ## Bytes written -/

/-- Byte `o` of frame `f` has one of the `n` addresses from `a` on. -/
def Hits (s : FilledState) (a n f o : ℕ) : Prop :=
  ∃ i < n, s.frameOf ((a + i) / 4096) = some f ∧ (a + i) % 4096 = o

structure Stored (s s' : FilledState) (w : ℕ → Byte) (a n : ℕ) : Prop where
  heap : s'.heap = s.heap
  mapped : ∀ i < n, s.frameOf ((a + i) / 4096) ≠ none
  kept : ∀ f o, ¬ Hits s a n f o → s'.data f o = s.data f o
  written : ∀ f o, Hits s a n f o → ∃ i < n, s'.data f o = w (a + i)

theorem storeByte_ok {b : Byte} (h : storeByte a b s = .ok ((), s')) :
    s'.heap = s.heap ∧ ∃ f, s.frameOf (a / 4096) = some f ∧
      ∀ f' o, s'.data f' o = if f' = f ∧ o = a % 4096 then b else s.data f' o := by
  rw [storeByte, get_bind] at h
  cases hf : s.frameOf (a / 4096) with
  | none =>
    rw [hf] at h
    cases h
  | some f =>
    rw [hf] at h
    cases h
    refine ⟨rfl, f, rfl, fun f' o => ?_⟩
    by_cases h₁ : f' = f
    · subst h₁
      by_cases h₂ : o = a % 4096 <;> simp [FilledState.setByte, h₂]
    · simp [FilledState.setByte, h₁]

theorem storeBytes_stored (left : ℕ) : ∀ (s : FilledState) (a : ℕ),
    storeBytes w left a s = .ok ((), s') → Stored s s' w a left := by
  induction left with
  | zero =>
    intro s a h
    cases h
    exact ⟨rfl, by simp, fun _ _ _ => rfl, fun _ _ ⟨i, hi, _⟩ => by omega⟩
  | succ left ih =>
    intro s a h
    obtain ⟨_, t, hb, hrest⟩ := bind_ok_iff.mp h
    obtain ⟨hheap, f₀, hf₀, hdata⟩ := storeByte_ok hb
    have k := ih t (a + 1) hrest
    have hframe : ∀ p, t.frameOf p = s.frameOf p := by
      intro p
      rw [FilledState.frameOf, hheap]
      rfl
    have hhits : ∀ f o, Hits s a (left + 1) f o ↔
        (f = f₀ ∧ o = a % 4096) ∨ Hits t (a + 1) left f o := by
      intro f o
      constructor
      · rintro ⟨i, hi, hf, ho⟩
        by_cases h0 : i = 0
        · subst h0
          rw [Nat.add_zero, hf₀, Option.some.injEq] at hf
          exact Or.inl ⟨hf.symm, ho.symm⟩
        · refine Or.inr ⟨i - 1, by omega, ?_, ?_⟩
          · rw [hframe, show a + 1 + (i - 1) = a + i by omega, hf]
          · rw [show a + 1 + (i - 1) = a + i by omega, ho]
      · rintro (⟨rfl, rfl⟩ | ⟨i, hi, hf, ho⟩)
        · exact ⟨0, by omega, hf₀, rfl⟩
        · rw [hframe] at hf
          exact ⟨i + 1, by omega, by rw [← hf]; congr 2; omega, by rw [← ho]; congr 1; omega⟩
    constructor
    case heap => exact k.heap.trans hheap
    case mapped =>
      intro i hi
      by_cases h0 : i = 0
      · rw [h0, Nat.add_zero, hf₀]
        exact Option.some_ne_none _
      · have := k.mapped (i - 1) (by omega)
        rwa [hframe, show a + 1 + (i - 1) = a + i by omega] at this
    case kept =>
      intro f o hno
      rw [hhits, not_or] at hno
      rw [k.kept f o hno.2, hdata, if_neg hno.1]
    case written =>
      intro f o hyes
      by_cases hlater : Hits t (a + 1) left f o
      · obtain ⟨i, hi, hw⟩ := k.written f o hlater
        exact ⟨i + 1, by omega, by rw [hw]; congr 1; omega⟩
      · have hfirst := ((hhits f o).mp hyes).resolve_right hlater
        exact ⟨0, by omega, by rw [k.kept f o hlater, hdata, if_pos hfirst, Nat.add_zero]⟩

theorem memset_stored (h : memset a n s = .ok ((), s')) :
    a ≠ 0 ∧ Stored s s' (fun _ => 0#8) a n := by
  rw [memset] at h
  obtain ⟨ha, h⟩ := ensure_bind_ok_iff.mp h
  exact ⟨ha, storeBytes_stored n s a h⟩

theorem Stored.zero_of_hits (k : Stored s s' (fun _ => 0#8) a n) {f o : ℕ}
    (h : Hits s a n f o) : s'.data f o = 0#8 := by
  obtain ⟨i, -, hi⟩ := k.written f o h
  exact hi

theorem Stored.readByte_zero (k : Stored s s' (fun _ => 0#8) a n) {i : ℕ} (hi : i < n) :
    s'.readByte (a + i) = some 0#8 := by
  obtain ⟨f, hf⟩ := Option.ne_none_iff_exists'.mp (k.mapped i hi)
  have hframe : s'.frameOf ((a + i) / 4096) = some f := by
    rw [FilledState.frameOf, k.heap]
    exact hf
  rw [FilledState.readByte, hframe, Option.map_some, k.zero_of_hits ⟨i, hi, hf, rfl⟩]

/-! ## The calls on the heap alone -/

theorem onHeap_ok {α : Type} {x : HeapM α} {r : α} (h : onHeap x s = .ok (r, s')) :
    x s.heap = .ok (r, s'.heap) ∧ s'.data = s.data := by
  rw [onHeap] at h
  split at h
  case h_1 r' t ht =>
    cases h
    exact ⟨ht, rfl⟩
  case h_2 => cases h

theorem onHeap_views {α : Type} (x : HeapM α) : Views FilledState.heap (onHeap x) x :=
  fun _ _ _ h => (onHeap_ok h).1

theorem storeBytes_heap (left a : ℕ) (s : FilledState) (r : Unit) (t : FilledState)
    (h : storeBytes w left a s = .ok (r, t)) : t.heap = s.heap :=
  (storeBytes_stored left s a h).heap

theorem memset_heap (dst num : ℕ) (s : FilledState) (r : Unit) (t : FilledState)
    (h : memset dst num s = .ok (r, t)) : t.heap = s.heap := (memset_stored h).2.heap

theorem storeLinks_heap (l : List ℕ) : ∀ (s : FilledState) (r : Unit) (t : FilledState),
    storeLinks w l s = .ok (r, t) → t.heap = s.heap := by
  induction l with
  | nil =>
    intro s r t h
    cases h
    rfl
  | cons e rest ih =>
    intro s r t h
    obtain ⟨_, u, hb, hrest⟩ := bind_ok_iff.mp h
    exact (ih u r t hrest).trans (storeBytes_heap 8 e s _ u hb)

theorem refill_views (PF : PoolFlag) (d : ℕ) :
    Views FilledState.heap (refill w PF d) (KernelHeap.refill PF d) := by
  refine (onHeap_views _).bind fun memArena => views_ite (views_pure false) ?_
  refine Views.silent (memset_heap _ _) fun _ => (onHeap_views _).bind fun _ => ?_
  refine (onHeap_views get).bind fun h => Views.silent (storeBytes_heap _ _) fun _ => ?_
  refine (onHeap_views _).bind fun _ => (onHeap_views _).bind fun _ => ?_
  refine Views.silent (fun s a t ht => ?_) fun h => Views.silent (storeLinks_heap _) fun _ =>
    views_pure true
  cases ht
  rfl

section Frames

variable {m m' : MemState} {PF : PoolFlag}

def freeBelow (m : MemState) (PF : PoolFlag) (i : ℕ) : ℕ :=
  ((Finset.range i).filter fun j => m.poolBit PF j = false).card

/-- Page `p + j` got the frame that has `j` free frames before it. -/
def TakenInOrder (m m' : MemState) (PF : PoolFlag) (p n : ℕ) : Prop :=
  ∀ j < n, ∃ i < m.poolLen PF, m'.frameOf (p + j) = some (m.poolStart PF + i) ∧
    m.poolBit PF i = false ∧ freeBelow m PF i = j

end Frames

/-! ## What a call hands out -/

def ReadsZero (s : FilledState) (a n : ℕ) : Prop := ∀ i < n, s.readByte (a + i) = some 0#8

/-- The next `n` frames of the user pool hold zeros, but for the first `k` bytes of the first. -/
def NextFramesZero (s : FilledState) (n k : ℕ) : Prop :=
  ∀ i < s.heap.mem.poolLen .user, s.heap.mem.poolBit .user i = false →
    freeBelow s.heap.mem .user i < n → ∀ o < 4096, (freeBelow s.heap.mem .user i = 0 → k ≤ o) →
      s.data (s.heap.mem.poolStart .user + i) o = 0#8

theorem NextFramesZero.byte (hz : NextFramesZero s n a) {m : MemState} {p j o : ℕ}
    (h : TakenInOrder s.heap.mem m .user p n) (hj : j < n) (ho : o < 4096) (ha : j = 0 → a ≤ o) :
    ∃ f, m.frameOf (p + j) = some f ∧ s.data f o = 0#8 := by
  obtain ⟨i, hi, hf, hfree, hbelow⟩ := h j hj
  exact ⟨_, hf, hz i hi hfree (by omega) o ho (by omega)⟩

section SysMalloc

variable {L : List Live} {fit : ℕ → ℕ → Prop} {PF : PoolFlag} {d p size : ℕ}

theorem popBlock_zero (hrun : popBlock w d s = .ok (p, s')) :
    ReadsZero s' p (s.heap.descs d).blockSize := by
  obtain ⟨h, t, hget, hrun⟩ := bind_ok_iff.mp hrun
  cases hget
  obtain ⟨e, t₁, -, hrun⟩ := bind_ok_iff.mp hrun
  obtain ⟨_, t₂, -, hrun⟩ := bind_ok_iff.mp hrun
  obtain ⟨_, t₃, -, hrun⟩ := bind_ok_iff.mp hrun
  obtain ⟨_, t₄, hset, hrun⟩ := bind_ok_iff.mp hrun
  cases hrun
  exact fun i hi => (memset_stored hset).2.readByte_zero hi

theorem sysMallocSmall_zero (h : HeapInv fit s.heap L) (hsize : size ≤ 1024)
    (hPF : PF = threadFlag s.heap.mem)
    (hfit : listsOf s.heap (findDesc s.heap.descs size 7 0) = [] → MallocFits 0 s.heap.mem PF 1)
    (hrun : sysMallocSmall w PF size s = .ok (p, s')) (hp : p ≠ 0) : ReadsZero s' p size := by
  obtain ⟨hd, hle⟩ := findDesc_spec (fun d hd => (h.core.descs d hd).1) hsize 7 0 (by omega) rfl
  obtain ⟨h₀, t, hget, hrun⟩ := bind_ok_iff.mp hrun
  cases hget
  have hpop : ∀ t : FilledState, DescsReady t.heap →
      popBlock w (findDesc s.heap.descs size 7 0) t = .ok (p, s') → ReadsZero s' p size := by
    intro t ht hrun i hi
    refine popBlock_zero hrun i ?_
    rw [(ht _ hd).1]
    omega
  dsimp only at hrun
  split at hrun
  case isTrue hempty =>
    obtain ⟨ready, t, hrefill, hrun⟩ := bind_ok_iff.mp hrun
    cases ready with
    | false =>
      cases hrun
      exact (hp rfl).elim
    | true =>
      obtain ⟨hcore, -⟩ := (refill_keeps h hd hempty hPF (hfit hempty)
        (refill_views PF _ _ _ _ hrefill)).2 rfl
      exact hpop t hcore.descs hrun
  case isFalse => exact hpop _ h.core.descs hrun

/-- The header lies in front of the block, in the first of the pages that are cleared. -/
theorem sysMallocLarge_zero (h : HeapInv fit s.heap L) (hPF : PF = threadFlag s.heap.mem)
    (hfit : MallocFits 0 s.heap.mem PF (divRoundUp size 4096))
    (hroom : arenaSize + size ≤ 4096 * divRoundUp size 4096)
    (hrun : sysMallocLarge w PF size s = .ok (p, s')) (hp : p ≠ 0) : ReadsZero s' p size := by
  obtain ⟨v, t, htake, hrun⟩ := bind_ok_iff.mp hrun
  by_cases hv : v = 0
  · rw [if_pos hv] at hrun
    cases hrun
    exact (hp rfl).elim
  rw [if_neg hv] at hrun
  obtain ⟨_, t₁, hset, hrun⟩ := bind_ok_iff.mp hrun
  obtain ⟨_, t₂, hclear, hrun⟩ := bind_ok_iff.mp hrun
  obtain ⟨_, t₃, hhead, hrun⟩ := bind_ok_iff.mp hrun
  obtain ⟨_, t₄, hwrite, hrun⟩ := bind_ok_iff.mp hrun
  cases hrun
  obtain ⟨m, R, rfl, hcount, hflag, hheap, -, -, hinv⟩ :=
    (takePages_keeps h.core hPF hfit (onHeap_ok htake).1).2 hv
  have k := (memset_stored hset).2
  have k' := storeBytes_stored arenaSize t₂ _ hhead
  have hmem₁ : t₁.heap.mem = m := by rw [k.heap, hheap]
  have hmem₂ : t₂.heap.mem = m :=
    clearPages_mem (P := (· = m)) _ _ _ _ _ hmem₁ (onHeap_ok hclear).1
  have hmem₃ : t₃.heap.mem = m := (congrArg HeapState.mem k'.heap).trans hmem₂
  have hmem₄ : s'.heap.mem = m := writeArena_mem (P := (· = m)) _ _ _ _ _ hmem₃ (onHeap_ok hwrite).1
  obtain ⟨g, hg⟩ := hinv.live R List.mem_cons_self
  intro i hi
  simp only [arenaSize] at hroom hi ⊢
  have hzero := k.readByte_zero (i := 12 + i) (by omega)
  rw [FilledState.readByte, FilledState.frameOf, hmem₁] at hzero
  have hj : R.Has ((4096 * R.page + (12 + i)) / 4096) := ⟨by omega, by omega⟩
  rw [hg.frame hj, Option.map_some, Option.some.injEq] at hzero
  rw [Nat.add_assoc, FilledState.readByte, FilledState.frameOf, hmem₄, hg.frame hj,
    Option.map_some, (onHeap_ok hwrite).2, k'.kept, (onHeap_ok hclear).2, hzero]
  rintro ⟨i', hi', hf, ho⟩
  rw [FilledState.frameOf, hmem₂] at hf
  have hfirst : R.Has ((4096 * R.page + i') / 4096) :=
    ⟨by omega, by simp only [arenaSize] at hi'; omega⟩
  have hsame := hinv.pool.frame_unshared _ _ _ (managed_plain (hg.managed _ hfirst))
    (managed_plain (hg.managed _ hj)) hf (hg.frame hj)
  simp only [arenaSize] at hi'
  omega

theorem sysMalloc_zero (h : HeapInv fit s.heap L) (hsize : size < 2 ^ 32)
    (hfit : CallFits s.heap size)
    (hroom : size ≤ 1024 ∨ arenaSize + size ≤ 4096 * ((size + 4095) / 4096))
    (hrun : sysMalloc w size s = .ok (p, s')) (hp : p ≠ 0) : ReadsZero s' p size := by
  obtain ⟨h₀, t, hget, hrun⟩ := bind_ok_iff.mp hrun
  cases hget
  rw [CallFits] at hfit
  by_cases hbig : size > 1024
  · rw [if_pos hbig] at hfit
    simp only [if_pos hbig] at hrun
    have hpos : 0 < divRoundUp size 4096 := by
      by_contra h0
      obtain ⟨v, t, htake, -⟩ := bind_ok_iff.mp hrun
      have htake := (onHeap_ok htake).1
      cases hm : mallocPages (threadFlag s.heap.mem) (divRoundUp size 4096) s.heap.mem with
      | error e =>
        rw [takePages_error hm] at htake
        cases htake
      | ok r =>
        exact h0 (mallocPages_count hm).1
    refine sysMallocLarge_zero h rfl hfit ?_ hrun hp
    rw [divRoundUp_eq hsize hpos]
    omega
  · rw [if_neg hbig] at hfit
    simp only [if_neg hbig] at hrun
    exact sysMallocSmall_zero h (by omega) rfl hfit hrun hp

end SysMalloc

/-! ## Runs of a process -/

/-- Page `p` is mapped to frame `f` and belongs to the running process. -/
def Owns (s : FilledState) (p f : ℕ) : Prop :=
  (threadFlag s.heap.mem).Managed p ∧ s.frameOf p = some f

/-- Byte `o` of frame `f` belongs to the header of an arena or to the link of a free block. -/
def Bookkeeping (s : FilledState) (f o : ℕ) : Prop :=
  (∃ R ∈ s.heap.handed, Hits s (4096 * R.page) arenaSize f o) ∨
    ∃ d < 7, ∃ e ∈ listsOf s.heap d, Hits s e 8 f o

/-- Other threads use, free and write frames, but leave the pages of the process and what the
kernel keeps for it alone. -/
structure Meanwhile (s s' : FilledState) : Prop where
  consistent : Consistent s'.heap.mem
  layout : s'.heap.mem.layout = s.heap.mem.layout
  curr : s'.heap.mem.curr = s.heap.mem.curr
  pageDir : s'.heap.mem.pageDir = s.heap.mem.pageDir
  descs : s'.heap.descs = s.heap.descs
  handed : s'.heap.handed = s.heap.handed
  frames : ∀ p f, Owns s p f → s'.frameOf p = some f
  arenas : ∀ p f, Owns s p f → s'.heap.arenas f = s.heap.arenas f
  data : ∀ p f, Owns s p f → s'.data f = s.data f

theorem Meanwhile.inv {L : List Live} (k : Meanwhile s s')
    (h : HeapInv (fun _ _ => True) s.heap L) : HeapInv (fun _ _ => True) s'.heap L := by
  have howns : ∀ R ∈ s.heap.handed, ∀ p, R.Has p → ∃ f, Owns s p f := by
    intro R hR p hp
    obtain ⟨g, hg⟩ := h.core.ranges.live R hR
    exact ⟨_, h.core.flags R hR ▸ hg.managed p hp, hg.frame hp⟩
  have hframes : ∀ R ∈ s.heap.handed, ∀ p, R.Has p →
      s'.heap.mem.frameOf p = s.heap.mem.frameOf p := by
    intro R hR p hp
    obtain ⟨f, hf⟩ := howns R hR p hp
    exact (k.frames p f hf).trans hf.2.symm
  have harena : ∀ R ∈ s.heap.handed, arenaOf s'.heap R = arenaOf s.heap R := by
    intro R hR
    obtain ⟨f, hf⟩ := howns R hR _ (range_first h.core.ranges hR).1
    rw [arenaOf_frame hf.2, arenaOf_frame (s := s'.heap) (k.frames _ f hf)]
    exact k.arenas R.page f hf
  constructor
  · constructor
    case ranges =>
      refine ⟨k.consistent.pool, k.consistent.zero_free, fun R hR => ?_, ?_⟩
      · have hR : R ∈ s.heap.handed := k.handed ▸ hR
        obtain ⟨g, hg⟩ := h.core.ranges.live R hR
        exact ⟨g, hg.frame_kept k.layout k.curr k.pageDir (hframes R hR)⟩
      · exact k.handed ▸ h.core.ranges.disjoint
    case descs =>
      intro d hd
      rw [k.descs]
      exact h.core.descs d hd
    case flags =>
      intro R hR
      rw [threadFlag, k.curr]
      exact h.core.flags R (k.handed ▸ hR)
    case accounts =>
      rw [k.handed]
      refine h.core.accounts.congr harena fun d _ => ?_
      rw [listsOf, k.descs]
      rfl
  · intro R hR d hm
    have hR : R ∈ s.heap.handed := k.handed ▸ hR
    rw [harena R hR] at hm ⊢
    exact h.below R hR d hm

end KernelPageContents
