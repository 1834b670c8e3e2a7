import Leeos.KernelPoolSteps
import Mathlib.Data.List.Nodup

/-!
# Concurrent searches of the allocator's bitmaps

Threads stand anywhere between the steps of their allocation calls: `bitmap_scan` is one step,
each `bitmap_set` is one, and a switch may come after any step. `sys_malloc` of a kernel thread
holds `kernel_pool.lock`, the calls of a process hold `user_pool.lock`, and
`malloc_kernel_pages` alone holds nothing; the inner acquisitions of a lock the thread holds
already are left out. A process's own virtual bitmap is searched by its one thread only and is
left out as well.
-/
namespace KernelAllocRaces

open ExecRules RunSearch KernelBitmap KernelPools KernelPoolSteps

/-- The bitmaps that several threads search. -/
inductive Bits where
  | kernelVaddr
  | pool (PF : PoolFlag)
  deriving DecidableEq, Repr

def Bits.bitmap (l : MemLayout) : Bits → Bitmap
  | .kernelVaddr => l.kernelVaddr.vaddrBitmap
  | .pool .kernel => l.kernelPool.poolBitmap
  | .pool .user => l.userPool.poolBitmap

/-- The virtual page or the frame a bit stands for. -/
abbrev Mark := Bits × ℕ

/-- `search` is a `bitmap_scan` for `cnt` bits, which the thread sets afterwards one by one. A
failed search that is `needed` makes `malloc_pages` return 0. -/
inductive Stmt where
  | lockAcquire (PF : PoolFlag)
  | lockRelease (PF : PoolFlag)
  | search (b : Bits) (cnt : ℕ) (needed : Bool)
  deriving DecidableEq, Repr

/-- `tables` and `absent` say for which pages `page_table_add` finds no table. -/
inductive AllocCall where
  | mallocKernelPages (cnt : ℕ)
  | sysMalloc (cnt : ℕ)
  | mallocUserPages (tables : List Bool)
  | getAPage (absent : Bool)
  deriving DecidableEq, Repr

/-- `palloc(&kernel_pool)` of `page_table_add`, whose result is not checked. -/
def pageTableAdd (absent : Bool) : List Stmt :=
  if absent then [.search (.pool .kernel) 1 false] else []

def mallocKernelPages (cnt : ℕ) : List Stmt :=
  .search .kernelVaddr cnt true :: List.replicate cnt (.search (.pool .kernel) 1 true)

def AllocCall.code : AllocCall → List Stmt
  | .mallocKernelPages cnt => KernelAllocRaces.mallocKernelPages cnt
  | .sysMalloc cnt =>
    .lockAcquire .kernel :: (KernelAllocRaces.mallocKernelPages cnt ++ [.lockRelease .kernel])
  | .mallocUserPages tables =>
    .lockAcquire .user ::
      (tables.flatMap (fun absent => .search (.pool .user) 1 true :: pageTableAdd absent) ++
        [.lockRelease .user])
  | .getAPage absent =>
    .lockAcquire .user :: .search (.pool .user) 1 false ::
      (pageTableAdd absent ++ [.lockRelease .user])

def AllocCall.Valid : AllocCall → Prop
  | .mallocKernelPages cnt => 0 < cnt ∧ cnt < 3840
  | .sysMalloc cnt => 0 < cnt ∧ cnt < 3840
  | .mallocUserPages tables => 0 < tables.length ∧ tables.length < 3840
  | .getAPage _ => True

/-- `taken` lists what has been marked so far; a thread holds its call's remaining code and the
bits it has found and not set yet. -/
structure AllocState where
  layout : MemLayout
  bytes : Bytes
  holder : PoolFlag → Option ℕ
  code : ℕ → List Stmt
  marks : ℕ → List Mark
  taken : List Mark

def AllocState.scan (x : AllocState) (b : Bits) (cnt : ℕ) : Option ℕ :=
  bitmapScan x.bytes (b.bitmap x.layout) cnt

def bitsFrom (b : Bits) (r cnt : ℕ) : List Mark := (List.range cnt).map fun k => (b, r + k)

def isRelease : Stmt → Bool
  | .lockRelease _ => true
  | _ => false

def AllocState.goto (x : AllocState) (t : ℕ) (code : List Stmt) : AllocState :=
  { x with code := Function.update x.code t code }

/-- `bitmap_set` of a bit found before. -/
def AllocState.mark (x : AllocState) (t : ℕ) (m : Mark) (rest : List Mark) : AllocState :=
  { x with
    bytes := bitmapSet x.bytes (m.1.bitmap x.layout) m.2 true
    marks := Function.update x.marks t rest
    taken := m :: x.taken }

/-- The next step of thread `t`, if it has one and need not wait. -/
def AllocState.act (x : AllocState) (t : ℕ) : Option AllocState :=
  match x.marks t, x.code t with
  | m :: rest, _ => some (x.mark t m rest)
  | [], [] => none
  | [], .lockAcquire PF :: rest =>
    if x.holder PF = none then
      some { x.goto t rest with holder := Function.update x.holder PF (some t) }
    else none
  | [], .lockRelease PF :: rest =>
    some { x.goto t rest with holder := Function.update x.holder PF none }
  | [], .search b cnt needed :: rest =>
    match x.scan b cnt with
    | some r => some { x.goto t rest with marks := Function.update x.marks t (bitsFrom b r cnt) }
    | none => some (x.goto t (if needed then rest.dropWhile (fun c => !isRelease c) else rest))

inductive AllocEvent where
  | call (t : ℕ) (c : AllocCall)
  | act (t : ℕ)

inductive AllocStep : AllocEvent → AllocState → AllocState → Prop
  | call {x : AllocState} {t : ℕ} {c : AllocCall} : x.code t = [] → x.marks t = [] → c.Valid →
      AllocStep (.call t c) x (x.goto t c.code)
  | act {x y : AllocState} {t : ℕ} : x.act t = some y → AllocStep (.act t) x y

def AllocStart (x : AllocState) : Prop :=
  (∀ t, x.code t = [] ∧ x.marks t = []) ∧ (∀ PF, x.holder PF = none) ∧ x.taken = []

def AnyStep (x y : AllocState) : Prop := ∃ e, AllocStep e x y

/-- The bits that the next step of `t` finds, if it is a search. -/
def AllocState.found (x : AllocState) (t : ℕ) : List Mark :=
  match x.marks t, x.code t with
  | [], .search b cnt _ :: _ =>
    match x.scan b cnt with
    | some r => bitsFrom b r cnt
    | none => []
  | _, _ => []

/-- The search of `t` finds no bit that another thread has found and not set yet. -/
def Undisturbed (x : AllocState) (t : ℕ) : Prop :=
  ∀ u, u ≠ t → ∀ m ∈ x.found t, m ∉ x.marks u

def Careful (x : AllocState) : AllocEvent → Prop
  | .call _ _ => True
  | .act t => Undisturbed x t

def CarefulStep (x y : AllocState) : Prop := ∃ e, Careful x e ∧ AllocStep e x y

/-! ## One step -/

variable {x y : AllocState} {t : ℕ}

theorem act_cases (h : x.act t = some y) :
    (∃ m rest, x.marks t = m :: rest ∧ y = x.mark t m rest) ∨
    (x.marks t = [] ∧ ∃ PF rest, x.code t = .lockAcquire PF :: rest ∧ x.holder PF = none ∧
      y = { x.goto t rest with holder := Function.update x.holder PF (some t) }) ∨
    (x.marks t = [] ∧ ∃ PF rest, x.code t = .lockRelease PF :: rest ∧
      y = { x.goto t rest with holder := Function.update x.holder PF none }) ∨
    (x.marks t = [] ∧ ∃ b cnt needed rest r, x.code t = .search b cnt needed :: rest ∧
      x.scan b cnt = some r ∧ x.found t = bitsFrom b r cnt ∧
      y = { x.goto t rest with marks := Function.update x.marks t (bitsFrom b r cnt) }) ∨
    (x.marks t = [] ∧ ∃ b cnt needed rest, x.code t = .search b cnt needed :: rest ∧
      y = x.goto t (if needed then rest.dropWhile (fun c => !isRelease c) else rest)) := by
  rw [AllocState.act] at h
  cases hm : x.marks t with
  | cons m rest =>
    rw [hm] at h
    cases h
    exact Or.inl ⟨m, rest, rfl, rfl⟩
  | nil =>
    right
    cases hc : x.code t with
    | nil =>
      rw [hm, hc] at h
      cases h
    | cons c rest =>
      rw [hm, hc] at h
      cases c with
      | lockAcquire PF =>
        dsimp only at h
        split at h
        case isTrue hfree =>
          cases h
          exact Or.inl ⟨rfl, PF, rest, rfl, hfree, rfl⟩
        case isFalse => cases h
      | lockRelease PF =>
        cases h
        exact Or.inr (Or.inl ⟨rfl, PF, rest, rfl, rfl⟩)
      | search b cnt needed =>
        cases hs : x.scan b cnt with
        | some r =>
          simp only [hs] at h
          cases h
          refine Or.inr (Or.inr (Or.inl ⟨rfl, b, cnt, needed, rest, r, rfl, hs, ?_, rfl⟩))
          simp only [AllocState.found, hm, hc, hs]
        | none =>
          simp only [hs] at h
          cases h
          exact Or.inr (Or.inr (Or.inr ⟨rfl, b, cnt, needed, rest, rfl, rfl⟩))

/-! ## The invariant -/

/-- Every search asks for at least one bit. -/
def Counted (code : List Stmt) : Prop :=
  ∀ b cnt needed, Stmt.search b cnt needed ∈ code → 1 ≤ cnt

structure RaceInv (x : AllocState) : Prop where
  counts : ∀ t, Counted (x.code t)
  taken_set : ∀ m ∈ x.taken, usedBit x.bytes (m.1.bitmap x.layout) m.2 = true
  taken_once : x.taken.Nodup
  marks_once : ∀ t, (x.marks t).Nodup
  marks_free : ∀ t, ∀ m ∈ x.marks t, m ∉ x.taken
  marks_apart : ∀ t u, t ≠ u → ∀ m ∈ x.marks t, m ∉ x.marks u

theorem pageTableAdd_counts {b : Bits} {cnt : ℕ} {needed absent : Bool}
    (h : .search b cnt needed ∈ pageTableAdd absent) : cnt = 1 := by
  rw [pageTableAdd] at h
  split at h
  · simp only [List.mem_singleton, Stmt.search.injEq] at h
    exact h.2.1
  · cases h

theorem code_counts {c : AllocCall} (hc : c.Valid) : Counted c.code := by
  intro b cnt needed h
  have hkernel : ∀ n, 0 < n → .search b cnt needed ∈ mallocKernelPages n → 1 ≤ cnt := by
    intro n hn hm
    simp only [mallocKernelPages, List.mem_cons, Stmt.search.injEq, List.mem_replicate] at hm
    omega
  cases c with
  | mallocKernelPages n => exact hkernel n hc.1 h
  | sysMalloc n =>
    simp only [AllocCall.code, List.mem_cons, List.mem_append, reduceCtorEq, false_or,
      List.not_mem_nil, or_false] at h
    exact hkernel n hc.1 h
  | mallocUserPages tables =>
    simp only [AllocCall.code, List.mem_cons, List.mem_append, List.mem_flatMap, reduceCtorEq,
      false_or, List.not_mem_nil, or_false, Stmt.search.injEq] at h
    obtain ⟨absent, -, ⟨-, h, -⟩ | h⟩ := h
    · omega
    · have := pageTableAdd_counts h
      omega
  | getAPage absent =>
    simp only [AllocCall.code, List.mem_cons, List.mem_append, reduceCtorEq, false_or,
      List.not_mem_nil, or_false, Stmt.search.injEq] at h
    rcases h with ⟨-, h, -⟩ | h
    · omega
    · have := pageTableAdd_counts h
      omega

theorem bitsFrom_nodup (b : Bits) (r cnt : ℕ) : (bitsFrom b r cnt).Nodup :=
  List.nodup_range.map fun i j h => by
    have := (Prod.mk.inj h).2
    omega

theorem mem_bitsFrom {b : Bits} {r cnt : ℕ} {m : Mark} :
    m ∈ bitsFrom b r cnt ↔ ∃ k < cnt, m = (b, r + k) := by
  simp only [bitsFrom, List.mem_map, List.mem_range, eq_comm]

theorem scan_clear {b : Bits} {cnt r : ℕ} (hn : 1 ≤ cnt) (h : x.scan b cnt = some r) {m : Mark}
    (hm : m ∈ bitsFrom b r cnt) : usedBit x.bytes (m.1.bitmap x.layout) m.2 = false := by
  obtain ⟨k, hk, rfl⟩ := mem_bitsFrom.mp hm
  exact (bitmapScan_some hn h).clear k hk

theorem usedBit_set {m : Bytes} {btmp btmp' : Bitmap} {i j : ℕ} (h : usedBit m btmp j = true) :
    usedBit (bitmapSet m btmp' i true) btmp j = true := by
  rw [usedBit, memBit_bitmapSet]
  split
  · rfl
  · exact h

theorem update_of_forall {α : Type} {P : ℕ → α → Prop} {f : ℕ → α} {t : ℕ} {a : α}
    (h : ∀ u, P u (f u)) (ht : P t a) (u : ℕ) : P u (Function.update f t a u) := by
  by_cases hu : u = t
  · subst hu
    rwa [Function.update_self]
  · rw [Function.update_of_ne hu]
    exact h u

theorem RaceInv.goto (h : RaceInv x) {t : ℕ} {code : List Stmt} (hc : Counted code) :
    RaceInv (x.goto t code) where
  counts := update_of_forall (P := fun _ code => Counted code) h.counts hc
  taken_set := h.taken_set
  taken_once := h.taken_once
  marks_once := h.marks_once
  marks_free := h.marks_free
  marks_apart := h.marks_apart

theorem RaceInv.hold (h : RaceInv x) (holder : PoolFlag → Option ℕ) :
    RaceInv { x with holder := holder } :=
  ⟨h.counts, h.taken_set, h.taken_once, h.marks_once, h.marks_free, h.marks_apart⟩

theorem RaceInv.find (h : RaceInv x) {t : ℕ} {ms : List Mark} (hms : ms.Nodup)
    (hfree : ∀ m ∈ ms, m ∉ x.taken) (hapart : ∀ u, u ≠ t → ∀ m ∈ ms, m ∉ x.marks u) :
    RaceInv { x with marks := Function.update x.marks t ms } where
  counts := h.counts
  taken_set := h.taken_set
  taken_once := h.taken_once
  marks_once := update_of_forall (P := fun _ (ms : List Mark) => ms.Nodup) h.marks_once hms
  marks_free := update_of_forall (P := fun _ ms => ∀ m ∈ ms, m ∉ x.taken) h.marks_free hfree
  marks_apart := by
    intro u v huv m hm
    dsimp only at hm ⊢
    by_cases hu : u = t
    · subst hu
      rw [Function.update_self] at hm
      rw [Function.update_of_ne huv.symm]
      exact hapart v huv.symm m hm
    · rw [Function.update_of_ne hu] at hm
      by_cases hv : v = t
      · subst hv
        rw [Function.update_self]
        exact fun hc => hapart u hu m hc hm
      · rw [Function.update_of_ne hv]
        exact h.marks_apart u v huv m hm

theorem RaceInv.mark (h : RaceInv x) {t : ℕ} {m : Mark} {rest : List Mark}
    (hm : x.marks t = m :: rest) : RaceInv (x.mark t m rest) := by
  have hown := hm ▸ h.marks_once t
  have hsub : ∀ m' ∈ rest, m' ∈ x.marks t :=
    fun m' hr => by rw [hm]; exact List.mem_cons_of_mem _ hr
  have hfirst : m ∈ x.marks t := by rw [hm]; exact List.mem_cons_self
  have hrest : RaceInv { x with marks := Function.update x.marks t rest } :=
    h.find (List.nodup_cons.mp hown).2 (fun m' hr => h.marks_free t m' (hsub m' hr))
      fun u hu m' hr => h.marks_apart t u hu.symm m' (hsub m' hr)
  -- nobody else has found the bit, and the thread itself has found it once
  have hnew : ∀ u, m ∉ Function.update x.marks t rest u := by
    intro u
    by_cases hu : u = t
    · subst hu
      rw [Function.update_self]
      exact (List.nodup_cons.mp hown).1
    · rw [Function.update_of_ne hu]
      exact h.marks_apart t u (Ne.symm hu) _ hfirst
  refine ⟨h.counts, fun m' hmt => ?_, List.nodup_cons.mpr ⟨h.marks_free t _ hfirst, h.taken_once⟩,
    hrest.marks_once, fun u m' hmu => ?_, hrest.marks_apart⟩
  · rcases List.mem_cons.mp hmt with rfl | hmt
    · exact (memBit_bitmapSet ..).trans (if_pos rfl)
    · exact usedBit_set (h.taken_set m' hmt)
  · intro hmt
    rcases List.mem_cons.mp hmt with rfl | hmt
    · exact hnew u hmu
    · exact hrest.marks_free u m' hmu hmt

theorem careful_step_inv (h : RaceInv x) (hs : CarefulStep x y) : RaceInv y := by
  obtain ⟨e, hcare, hs⟩ := hs
  cases hs with
  | call hcode hmarks hv => exact h.goto (code_counts hv)
  | @act _ _ t hact =>
    have htail : ∀ {c : Stmt} {rest : List Stmt}, x.code t = c :: rest → Counted rest :=
      fun hc b cnt needed hm => h.counts t b cnt needed (by rw [hc]; exact List.mem_cons_of_mem _ hm)
    rcases act_cases hact with ⟨m, rest, hm, rfl⟩ | ⟨-, PF, rest, hc, -, rfl⟩ |
      ⟨-, PF, rest, hc, rfl⟩ | ⟨-, b, cnt, needed, rest, r, hc, hr, hfound, rfl⟩ |
      ⟨-, b, cnt, needed, rest, hc, rfl⟩
    · exact h.mark hm
    · exact (h.goto (htail hc)).hold _
    · exact (h.goto (htail hc)).hold _
    · have hn := h.counts t b cnt needed (by rw [hc]; exact List.mem_cons_self)
      refine (h.goto (htail hc)).find (bitsFrom_nodup b r cnt) (fun m hm ht => ?_) fun u hu m hm =>
        hcare u hu m (hfound ▸ hm)
      have hset := h.taken_set m ht
      rw [scan_clear hn hr hm] at hset
      cases hset
    · refine h.goto fun b' cnt' needed' hm => htail hc b' cnt' needed' ?_
      split at hm
      · exact (List.dropWhile_sublist _).mem hm
      · exact hm

theorem careful_run_inv (h : Reachable AllocStart CarefulStep x) : RaceInv x := by
  refine reachable_invariant RaceInv h (fun y hy => ?_) fun _ _ => careful_step_inv
  obtain ⟨hidle, -, ht⟩ := hy
  exact ⟨fun t b cnt needed hm => by simp [(hidle t).1] at hm, by simp [ht], by simp [ht],
    fun t => by simp [(hidle t).2], fun t m hm => by simp [(hidle t).2] at hm,
    fun t u _ m hm => by simp [(hidle t).2] at hm⟩

/-! ## A disturbed search -/

theorem found_cases {m : Mark} (h : m ∈ x.found t) :
    x.marks t = [] ∧ ∃ b cnt needed rest r, x.code t = .search b cnt needed :: rest ∧
      x.scan b cnt = some r ∧ x.found t = bitsFrom b r cnt := by
  rw [AllocState.found] at h ⊢
  cases hm : x.marks t with
  | cons m' ms =>
    simp only [hm] at h
    cases h
  | nil =>
    cases hc : x.code t with
    | nil =>
      simp only [hm, hc] at h
      cases h
    | cons c rest =>
      cases c with
      | lockAcquire PF =>
        simp only [hm, hc] at h
        cases h
      | lockRelease PF =>
        simp only [hm, hc] at h
        cases h
      | search b cnt needed =>
        cases hs : x.scan b cnt with
        | none =>
          simp only [hm, hc, hs] at h
          cases h
        | some r => exact ⟨rfl, b, cnt, needed, rest, r, rfl, hs, by simp only [hs]⟩

/-- A thread can always set what it has found. -/
theorem finish_marks (t : ℕ) (ms : List Mark) : ∀ x : AllocState, x.marks t = ms →
    ∃ z, Relation.ReflTransGen AnyStep x z ∧ z.taken = ms.reverse ++ x.taken ∧
      ∀ u, u ≠ t → z.marks u = x.marks u := by
  induction ms with
  | nil => exact fun x _ => ⟨x, .refl, rfl, fun _ _ => rfl⟩
  | cons m rest ih =>
    intro x hm
    have hact : x.act t = some (x.mark t m rest) := by rw [AllocState.act, hm]
    obtain ⟨z, hz, htaken, hmarks⟩ := ih (x.mark t m rest) (Function.update_self ..)
    refine ⟨z, .head ⟨_, .act hact⟩ hz, ?_, fun u hu => ?_⟩
    · rw [htaken]
      simp [AllocState.mark]
    · rw [hmarks u hu]
      exact Function.update_of_ne hu _ _

theorem disturbed_taken_twice (hact : x.act t = some y) (h : ¬ Undisturbed x t) :
    ∃ z, Relation.ReflTransGen AnyStep y z ∧ ¬ z.taken.Nodup := by
  simp only [Undisturbed, not_forall, not_not] at h
  obtain ⟨u, hu, m, hm, hmu⟩ := h
  obtain ⟨hmarks, b, cnt, needed, rest, r, hc, hr, hfound⟩ := found_cases hm
  have hy : y = { x.goto t rest with marks := Function.update x.marks t (bitsFrom b r cnt) } := by
    rw [AllocState.act, hmarks, hc] at hact
    simp only [hr, Option.some.injEq] at hact
    exact hact.symm
  have hyt : y.marks t = bitsFrom b r cnt := by
    rw [hy]
    exact Function.update_self ..
  have hyu : y.marks u = x.marks u := by
    rw [hy]
    exact Function.update_of_ne hu _ _
  obtain ⟨z₁, hz₁, htaken₁, hother⟩ := finish_marks u _ y hyu
  obtain ⟨z₂, hz₂, htaken₂, -⟩ := finish_marks t _ z₁ ((hother t hu.symm).trans hyt)
  refine ⟨z₂, hz₁.trans hz₂, fun hnodup => ?_⟩
  rw [htaken₂] at hnodup
  refine (List.nodup_append.mp hnodup).2.2 m ?_ m ?_ rfl
  · exact List.mem_reverse.mpr (hfound ▸ hm)
  · rw [htaken₁]
    exact List.mem_append_left _ (List.mem_reverse.mpr hmu)

/-- No page and no frame is handed out twice as long as no search finds what another thread has
found and not set yet; after such a search the threads need only go on. -/
theorem nothing_taken_twice (x : AllocState) (h : Reachable AllocStart CarefulStep x) :
    x.taken.Nodup ∧ ∀ (t : ℕ) (y : AllocState), x.act t = some y → ¬ Undisturbed x t →
      ∃ z, Relation.ReflTransGen AnyStep y z ∧ ¬ z.taken.Nodup :=
  ⟨(careful_run_inv h).taken_once, fun _ _ => disturbed_taken_twice⟩

def sampleAlloc : AllocState :=
  ⟨(sampleMachine 16).layout, (sampleMachine 16).bytes, fun _ => none, fun _ => [], fun _ => [], []⟩

theorem start_sampleAlloc : AllocStart sampleAlloc :=
  ⟨fun _ => ⟨rfl, rfl⟩, fun _ => rfl, rfl⟩

def actAll : List ℕ → AllocState → Option AllocState
  | [], x => some x
  | t :: ts, x => (x.act t).bind (actAll ts)

theorem actAll_reaches {ts : List ℕ} : ∀ {x y : AllocState}, actAll ts x = some y →
    Relation.ReflTransGen AnyStep x y := by
  induction ts with
  | nil =>
    intro x y h
    cases h
    exact .refl
  | cons t ts ih =>
    intro x y h
    obtain ⟨z, hz, h⟩ := Option.bind_eq_some_iff.mp h
    exact .head ⟨_, .act hz⟩ (ih h)

/-- A thread that acts while no other one has bits to set disturbs nobody. -/
theorem act_alone (hx : ∀ u, u ≠ t → x.marks u = []) (h : x.act t = some y) :
    CarefulStep x y ∧ ∀ u, u ≠ t → y.marks u = [] := by
  refine ⟨⟨.act t, fun u hu m _ => by simp [hx u hu], .act h⟩, fun u hu => ?_⟩
  rw [← hx u hu]
  rcases act_cases h with ⟨m, rest, -, rfl⟩ | ⟨-, PF, rest, -, -, rfl⟩ |
    ⟨-, PF, rest, -, rfl⟩ | ⟨-, b, cnt, needed, rest, r, -, -, -, rfl⟩ |
    ⟨-, b, cnt, needed, rest, -, rfl⟩
  · exact Function.update_of_ne hu _ _
  · rfl
  · rfl
  · exact Function.update_of_ne hu _ _
  · rfl

theorem actAll_alone (n : ℕ) : ∀ {x y : AllocState}, (∀ u, u ≠ t → x.marks u = []) →
    actAll (List.replicate n t) x = some y → Relation.ReflTransGen CarefulStep x y := by
  induction n with
  | zero =>
    intro x y _ h
    cases h
    exact .refl
  | succ n ih =>
    intro x y hx h
    obtain ⟨z, hz, h⟩ := Option.bind_eq_some_iff.mp h
    obtain ⟨hs, hz'⟩ := act_alone hx hz
    exact .head hs (ih hz' h)

/-- `thread_start` in thread 1, `sys_malloc` in thread 2. -/
def twoCallers : AllocState :=
  (sampleAlloc.goto 1 (AllocCall.mallocKernelPages 1).code).goto 2 (AllocCall.sysMalloc 1).code

theorem twoCallers_reached : Reachable AllocStart CarefulStep twoCallers := by
  have h₁ : CarefulStep sampleAlloc (sampleAlloc.goto 1 (AllocCall.mallocKernelPages 1).code) :=
    ⟨.call 1 (.mallocKernelPages 1), trivial, .call rfl rfl ⟨by norm_num, by norm_num⟩⟩
  exact ((Reachable.refl start_sampleAlloc).tail h₁).tail
    ⟨.call 2 (.sysMalloc 1), trivial, .call rfl rfl ⟨by norm_num, by norm_num⟩⟩

/-- Thread 1 ends its call before thread 2 starts to search. -/
theorem nothing_taken_twice_one_by_one : ∃ x, Reachable AllocStart CarefulStep x ∧
    x.taken = [(.pool .kernel, 0), (.kernelVaddr, 0)] ∧ x.taken.Nodup := by
  have hrun : (actAll (List.replicate 4 1) twoCallers).any (fun x => x.taken =
      [(.pool .kernel, 0), (.kernelVaddr, 0)]) = true := by
    decide +kernel
  obtain ⟨x, hx, htaken⟩ := (Option.any_eq_true _ _).mp hrun
  obtain ⟨s₀, h₀, hr⟩ := twoCallers_reached
  have hreach : Reachable AllocStart CarefulStep x :=
    ⟨s₀, h₀, hr.trans (actAll_alone 4 (fun u _ => rfl) hx)⟩
  exact ⟨x, hreach, of_decide_eq_true htaken, (nothing_taken_twice x hreach).1⟩

/-- Both threads search the kernel's virtual bitmap, and later its pool, before either marks. -/
theorem page_and_frame_taken_twice : ∃ x, Reachable AllocStart AnyStep x ∧
    x.taken = [(.pool .kernel, 0), (.pool .kernel, 0), (.kernelVaddr, 0), (.kernelVaddr, 0)] ∧
    ¬ x.taken.Nodup := by
  have hrun : (actAll [1, 2, 2, 1, 2, 1, 2, 1, 2] twoCallers).any (fun x => x.taken =
      [(.pool .kernel, 0), (.pool .kernel, 0), (.kernelVaddr, 0), (.kernelVaddr, 0)]) = true := by
    decide +kernel
  obtain ⟨x, hx, htaken⟩ := (Option.any_eq_true _ _).mp hrun
  have htaken := of_decide_eq_true htaken
  refine ⟨x, ?_, htaken, by rw [htaken]; decide⟩
  obtain ⟨s₀, h₀, hr⟩ := twoCallers_reached.mono fun y z (hs : CarefulStep y z) => by
    obtain ⟨e, -, hs⟩ := hs
    exact (⟨e, hs⟩ : AnyStep y z)
  exact ⟨s₀, h₀, hr.trans (actAll_reaches hx)⟩

end KernelAllocRaces
