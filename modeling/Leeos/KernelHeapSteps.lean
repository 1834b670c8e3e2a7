import Leeos.KernelHeapAccounts

/-!
# What one heap call does

`HeapInv` joins the ranges of the page allocator with the accounts of the heap: the ranges
handed out are live ranges, and the headers found through the page tables keep the accounts.
The loops of `sys_malloc` and `sys_free` are computed once, on the lists they leave.
-/
namespace KernelHeapSteps

open ExecRules KernelPaging KernelPools KernelPoolSteps KernelPoolInvariant KernelPoolMapping
  KernelPoolCalls KernelPoolRanges KernelHeap KernelHeapAccounts

variable {s s' : HeapState} {PF : PoolFlag} {R : Range} {d : ℕ}

def arenaOf (s : HeapState) (R : Range) : Arena := s.arenas ((s.mem.frameOf R.page).getD 0)

def listsOf (s : HeapState) (d : ℕ) : List ℕ := (s.descs d).freeList

/-- The class sizes of `block_des_init`. -/
def DescsReady (s : HeapState) : Prop :=
  ∀ d < 7, (s.descs d).blockSize = blockSizeOf d ∧ (s.descs d).blocksPerArena = blocksOf d

structure HeapCore (fit : ℕ → ℕ → Prop) (s : HeapState) (L : List Live) : Prop where
  ranges : RangesInv (s.mem, s.handed)
  descs : DescsReady s
  flags : ∀ R ∈ s.handed, R.flag = threadFlag s.mem
  accounts : Accounts fit s.handed (arenaOf s) (listsOf s) L

/-- The arena has a live block. -/
def Below (s : HeapState) (R : Range) : Prop :=
  ∀ d, (arenaOf s R).memDescAddr = some d → (arenaOf s R).cnt < blocksOf d

structure HeapInv (fit : ℕ → ℕ → Prop) (s : HeapState) (L : List Live) : Prop where
  core : HeapCore fit s L
  below : ∀ R ∈ s.handed, Below s R

/-! ## Headers -/

def setArenas (s : HeapState) (A : ℕ → Arena) : HeapState := { s with arenas := A }

theorem readArena_apply {a f : ℕ} (h : s.mem.frameOf (a / 4096) = some f) :
    readArena a s = .ok (s.arenas f, s) := by
  rw [readArena, get_bind, h]
  rfl

theorem writeArena_apply {a f : ℕ} (h : s.mem.frameOf (a / 4096) = some f) (hd : Arena) :
    writeArena a hd s = .ok ((), setArenas s (Function.update s.arenas f hd)) := by
  rw [writeArena, get_bind, h]
  rfl

theorem clearPages_apply (left : ℕ) : ∀ (s : HeapState) (p : ℕ),
    (∀ j < left, s.mem.frameOf (p + j) ≠ none) →
    ∃ A, clearPages left (4096 * p) s = .ok ((), setArenas s A) ∧
      ∀ f, (∀ j < left, s.mem.frameOf (p + j) ≠ some f) → A f = s.arenas f := by
  induction left with
  | zero => exact fun s p _ => ⟨s.arenas, rfl, fun _ _ => rfl⟩
  | succ left ih =>
    intro s p hm
    obtain ⟨f, hf⟩ := Option.ne_none_iff_exists'.mp (hm 0 (by omega))
    rw [Nat.add_zero] at hf
    have hdiv : 4096 * p / 4096 = p := by omega
    have hw := writeArena_apply (a := 4096 * p) (by rw [hdiv]; exact hf) ⟨none, 0, false⟩
    obtain ⟨A, hA, hkeep⟩ := ih (setArenas s (Function.update s.arenas f ⟨none, 0, false⟩)) (p + 1)
      fun j hj => by
        have := hm (j + 1) (by omega)
        rwa [show p + (j + 1) = p + 1 + j by omega] at this
    refine ⟨A, ?_, fun g hg => ?_⟩
    · rw [clearPages, bind_of_ok hw, show 4096 * p + 4096 = 4096 * (p + 1) by omega, hA]
      rfl
    · rw [hkeep g fun j hj => by
        have := hg (j + 1) (by omega)
        rwa [show p + (j + 1) = p + 1 + j by omega] at this]
      have hne : g ≠ f := by
        rintro rfl
        exact hg 0 (by omega) hf
      exact Function.update_of_ne hne _ _

theorem frame_ne {L : List Range} {m : MemState} (h : RangesInv (m, L)) {R R' : Range}
    (hR : R ∈ L) (hR' : R' ∈ L) (hne : R ≠ R') {p q : ℕ} (hp : R.Has p) (hq : R'.Has q) {f : ℕ}
    (hf : m.frameOf p = some f) : m.frameOf q ≠ some f := by
  intro hf'
  obtain ⟨g, hg⟩ := h.live R hR
  obtain ⟨g', hg'⟩ := h.live R' hR'
  have := h.pool.frame_unshared p q f (managed_plain (hg.managed p hp))
    (managed_plain (hg'.managed q hq)) hf hf'
  subst this
  exact h.disjoint.forall hR hR' hne p ⟨hp, hq⟩

theorem range_mapped {L : List Range} {m : MemState} (h : RangesInv (m, L)) (hR : R ∈ L) {j : ℕ}
    (hj : j < R.count) : ∃ f, m.frameOf (R.page + j) = some f := by
  obtain ⟨g, hg⟩ := h.live R hR
  exact ⟨_, hg.frames j hj⟩

theorem range_first {L : List Range} {m : MemState} (h : RangesInv (m, L)) (hR : R ∈ L) :
    R.Has R.page ∧ ∃ f, m.frameOf R.page = some f := by
  obtain ⟨g, hg⟩ := h.live R hR
  have hc := hg.count
  exact ⟨⟨le_rfl, by omega⟩, _, by simpa using hg.frames 0 (by omega)⟩

theorem range_page_lt {L : List Range} {m : MemState} (h : RangesInv (m, L)) (hR : R ∈ L) :
    R.page < 2 ^ 20 := by
  obtain ⟨g, hg⟩ := h.live R hR
  have := managed_plain (hg.managed R.page (range_first h hR).1)
  simp only [Plain] at this
  omega

theorem arenaOf_frame {f : ℕ} (h : s.mem.frameOf R.page = some f) : arenaOf s R = s.arenas f := by
  rw [arenaOf, h, Option.getD_some]

theorem install_header {H : List Range} (h : RangesInv (s.mem, s.handed))
    (hs : s.handed = R :: H) : ∃ A, clearPages R.count (4096 * R.page) s = .ok ((), setArenas s A) ∧
      ∀ hd, ∃ A', writeArena (4096 * R.page) hd (setArenas s A) = .ok ((), setArenas s A') ∧
        arenaOf (setArenas s A') R = hd ∧ ∀ R' ∈ H, arenaOf (setArenas s A') R' = arenaOf s R' := by
  have hR : R ∈ s.handed := by rw [hs]; exact List.mem_cons_self
  obtain ⟨hfirst, f, hf⟩ := range_first h hR
  obtain ⟨A, hA, hkeep⟩ := clearPages_apply R.count s R.page fun j hj => by
    obtain ⟨g, hg⟩ := range_mapped h hR hj
    rw [hg]
    exact Option.some_ne_none _
  have hdiv : 4096 * R.page / 4096 = R.page := by omega
  refine ⟨A, hA, fun hd => ⟨Function.update A f hd, ?_, ?_, fun R' hR' => ?_⟩⟩
  · exact writeArena_apply (s := setArenas s A) (by rw [hdiv]; exact hf) hd
  · rw [arenaOf_frame (s := setArenas s (Function.update A f hd)) hf]
    exact Function.update_self ..
  · have hmem : R' ∈ s.handed := by rw [hs]; exact List.mem_cons_of_mem _ hR'
    have hne : R ≠ R' := by
      rintro rfl
      have := h.nodup
      rw [hs] at this
      exact (List.nodup_cons.mp this).1 hR'
    obtain ⟨hfirst', f', hf'⟩ := range_first h hmem
    have hff : f' ≠ f := by
      rintro rfl
      exact frame_ne h hR hmem hne hfirst hfirst' hf hf'
    rw [arenaOf_frame (s := setArenas s (Function.update A f hd)) hf', arenaOf_frame hf']
    refine (Function.update_of_ne hff _ _).trans (hkeep f' fun j hj hj' => ?_)
    exact frame_ne h hR hmem hne ⟨by omega, by omega⟩ hfirst' hj' hf'

/-! ## Pages -/

theorem takePages_apply {n v : ℕ} {m : MemState} (h : mallocPages PF n s.mem = .ok (v, m)) :
    takePages PF n s = .ok (v, if v = 0 then { s with mem := m }
      else { s with mem := m, handed := ⟨PF, v / 4096, n⟩ :: s.handed }) := by
  have hl : liftMem (mallocPages PF n) s = .ok (v, { s with mem := m }) := by
    rw [liftMem, h]
  rw [takePages, bind_of_ok hl]
  by_cases h0 : v = 0
  · rw [if_pos h0, if_pos h0, pure_apply, h0]
  · rw [if_neg h0, if_neg h0]
    rfl

theorem takePages_error {n : ℕ} {e : Halt} (h : mallocPages PF n s.mem = .error e) :
    takePages PF n s = .error e := by
  have hl : liftMem (mallocPages PF n) s = .error e := by
    rw [liftMem, h]
  rw [takePages, bind_of_error hl]

theorem givePages_apply {n a : ℕ} {m : MemState} (h : freePages PF n a s.mem = .ok ((), m)) :
    givePages PF n a s =
      .ok ((), { s with mem := m, handed := s.handed.erase ⟨PF, a / 4096, n⟩ }) := by
  have hl : liftMem (freePages PF n a) s = .ok ((), { s with mem := m }) := by
    rw [liftMem, h]
  rw [givePages, bind_of_ok hl]
  rfl

theorem givePages_error {n a : ℕ} {e : Halt} (h : freePages PF n a s.mem = .error e) :
    givePages PF n a s = .error e := by
  have hl : liftMem (freePages PF n a) s = .error e := by
    rw [liftMem, h]
  rw [givePages, bind_of_error hl]

theorem threadFlag_same {m m' : MemState} (h : SameThread m m') : threadFlag m' = threadFlag m := by
  rw [threadFlag, threadFlag, h.2]

theorem arenaOf_kept {m : MemState} {H : List Range} (h : RangesInv (s.mem, s.handed))
    (hk : FramesKept s.mem m s.handed) (hR : R ∈ s.handed) :
    arenaOf { s with mem := m, handed := H } R = arenaOf s R := by
  simp only [arenaOf]
  rw [hk R hR R.page (range_first h hR).1]

/-! ## Lists -/

theorem setFreeList_listsOf (s : HeapState) (d : ℕ) (l : List ℕ) (d' : ℕ) :
    listsOf (setFreeList s d l) d' = if d' = d then l else listsOf s d' := by
  by_cases h : d' = d
  · subst h
    simp [listsOf, setFreeList]
  · simp [listsOf, setFreeList, h]

theorem setFreeList_twice (s : HeapState) (d : ℕ) (l l' : List ℕ) :
    setFreeList (setFreeList s d l) d l' = setFreeList s d l' := by
  simp [setFreeList]

theorem setFreeList_self (s : HeapState) (d : ℕ) : setFreeList s d (listsOf s d) = s := by
  simp [setFreeList, listsOf]

theorem DescsReady.setFreeList (h : DescsReady s) (d : ℕ) (l : List ℕ) :
    DescsReady (setFreeList s d l) := by
  intro d' hd'
  by_cases he : d' = d
  · subst he
    simpa [KernelHeap.setFreeList] using h d' hd'
  · simpa [KernelHeap.setFreeList, he] using h d' hd'

theorem splitArena_apply (hd : d < 7) {a : ℕ} (left : ℕ) : ∀ (s : HeapState) (i : ℕ),
    DescsReady s → listsOf s d = (List.range i).map (arenaToBlock a (blockSizeOf d)) →
    splitArena d a left i s = .ok ((),
      setFreeList s d ((List.range (i + left)).map (arenaToBlock a (blockSizeOf d)))) := by
  induction left with
  | zero =>
    intro s i _ hl
    rw [splitArena, Nat.add_zero, ← hl, setFreeList_self]
    rfl
  | succ left ih =>
    intro s i hr hl
    have hl' : (s.descs d).freeList = (List.range i).map (arenaToBlock a (blockSizeOf d)) := hl
    have hnot : arenaToBlock a (blockSizeOf d) i ∉ (s.descs d).freeList := by
      rw [hl', List.mem_map]
      rintro ⟨k, hk, he⟩
      have hlt := List.mem_range.mp hk
      simp only [arenaToBlock, Nat.add_left_cancel_iff] at he
      have := Nat.eq_of_mul_eq_mul_right (blockSizeOf_pos d) he
      omega
    rw [splitArena, get_bind, (hr d hd).1, ensureHeap, ensure_bind_of_true hnot, listAppend,
      modify_bind]
    have hnext : listsOf (setFreeList s d ((s.descs d).freeList ++
        [arenaToBlock a (blockSizeOf d) i])) d =
        (List.range (i + 1)).map (arenaToBlock a (blockSizeOf d)) := by
      rw [setFreeList_listsOf, if_pos rfl, hl', List.range_succ, List.map_append]
      rfl
    rw [ih _ (i + 1) (hr.setFreeList d _) hnext, setFreeList_twice,
      show i + 1 + left = i + (left + 1) by omega]

theorem removeBlocks_apply (hd : d < 7) (left : ℕ) : ∀ (s : HeapState) (i : ℕ), DescsReady s →
    (listsOf s d).Nodup → (∀ k, i ≤ k → k < i + left → block R d k ∈ listsOf s d) →
    ∃ l, removeBlocks d (4096 * R.page) left i s = .ok ((), setFreeList s d l) ∧ l.Nodup ∧
      ∀ e, e ∈ l ↔ e ∈ listsOf s d ∧ ∀ k, i ≤ k → k < i + left → e ≠ block R d k := by
  induction left with
  | zero =>
    intro s i _ hn _
    refine ⟨listsOf s d, ?_, hn, fun e => ⟨fun he => ⟨he, fun k h₁ h₂ => by omega⟩, And.left⟩⟩
    rw [removeBlocks, setFreeList_self]
    rfl
  | succ left ih =>
    intro s i hr hn hin
    have hb : arenaToBlock (4096 * R.page) (s.descs d).blockSize i = block R d i := by
      rw [(hr d hd).1]
      rfl
    have hmem : ∀ e, e ∈ (listsOf s d).erase (block R d i) ↔ e ∈ listsOf s d ∧ e ≠ block R d i := by
      intro e
      rw [hn.mem_erase_iff, and_comm]
    have hl : listsOf (setFreeList s d ((s.descs d).freeList.erase (block R d i))) d =
        (listsOf s d).erase (block R d i) := by
      rw [setFreeList_listsOf, if_pos rfl]
      rfl
    obtain ⟨l, hrun, hnd, hiff⟩ := ih
      (setFreeList s d ((s.descs d).freeList.erase (block R d i))) (i + 1)
      (hr.setFreeList d _) (by rw [hl]; exact hn.erase _) fun k h₁ h₂ => by
        rw [hl, hmem, Ne, block_inj]
        exact ⟨hin k (by omega) (by omega), by omega⟩
    refine ⟨l, ?_, hnd, fun e => ?_⟩
    · have hin' : block R d i ∈ (s.descs d).freeList := hin i le_rfl (by omega)
      rw [removeBlocks, get_bind, hb, ensureHeap, ensure_bind_of_true hin', listRemove,
        modify_bind, hrun, setFreeList_twice]
    · rw [hiff, hl, hmem]
      constructor
      · rintro ⟨⟨h₁, h₂⟩, h₃⟩
        refine ⟨h₁, fun k hk hk' => ?_⟩
        by_cases hki : k = i
        · rw [hki]
          exact h₂
        · exact h₃ k (by omega) (by omega)
      · rintro ⟨h₁, h₂⟩
        exact ⟨⟨h₁, h₂ i le_rfl (by omega)⟩, fun k hk hk' => h₂ k (by omega) (by omega)⟩

end KernelHeapSteps
