import Leeos.KernelPoolFrameZero
import Leeos.KernelPoolExhaustion

/-!
# Which requests `sys_malloc` answers

A call may end in a failed assertion (no pages, too many pages, a process's run whose address lies
on the stack's page or behind, a page of it that is mapped already) or in a page fault on a page
whose entry was lost with its table. `Served` says of the state before the call that none of this
happens, provided that the address of the run does not wrap.
-/
namespace KernelHeapAnswers

open ExecRules KernelBitmap KernelPaging KernelPools KernelPoolSteps KernelPoolInvariant
  KernelPoolMapping KernelPoolCalls KernelPoolLoop KernelPoolRanges KernelPoolRoundTrip
  KernelPoolFrameZero KernelHeap KernelHeapAccounts KernelHeapSteps KernelHeapCalls KernelHeapRuns
  KernelPoolExhaustion LibStdint

variable {s t : MemState} {PF : PoolFlag} {n : ℕ}

/-! ## `malloc_pages` -/

def AddressFits (s : MemState) (PF : PoolFlag) (n : ℕ) : Prop :=
  0 < n ∧ n < 3840 → PF = .user → ∀ r, vaddrRun s .user n = some r →
    PoolFlag.user.page r < 2 ^ 20

/-- The run found begins on the stack's page or behind it, or one of its pages that there are
frames for is mapped already. -/
def Blocked (s : MemState) (n : ℕ) : Prop :=
  ∃ r, vaddrRun s .user n = some r ∧
    (0xbffff ≤ PoolFlag.user.page r ∨ ¬ Clear s .user (PoolFlag.user.page r) n)

/-- Two or more page tables of the run land in frame 0, and the run ends inside the last one. -/
def Crowded (s : MemState) (n : ℕ) : Prop :=
  ∃ r, vaddrRun s .user n = some r ∧ n ≤ freeCount s .user ∧
    freeCount s .kernel + 2 ≤ absentTables s (PoolFlag.user.page r) n ∧
    CutShort s (PoolFlag.user.page r + n)

def PagesServed (s : MemState) (PF : PoolFlag) (n : ℕ) : Prop :=
  (0 < n ∧ n < 3840) ∧ (PF = .user → ¬ Blocked s n ∧ ¬ Crowded s n)

/-- `malloc_pages` returns, and all pages of a range it returns are mapped. -/
def PagesGiven (s : MemState) (PF : PoolFlag) (n : ℕ) : Prop :=
  ∃ v t, mallocPages PF n s = .ok (v, t) ∧ (v ≠ 0 → AllMapped t (v / 4096) n)

theorem pagesGiven_count (h : PagesGiven s PF n) : 0 < n ∧ n < 3840 := by
  obtain ⟨v, t, hrun, -⟩ := h
  exact mallocPages_count hrun

/-- The run of a kernel thread is always clear, and its page tables exist. -/
theorem kernel_given (h : Consistent s) (hn : 0 < n ∧ n < 3840) : PagesGiven s .kernel n := by
  cases hr : vaddrRun s .kernel n with
  | none => exact ⟨0, s, mallocPages_no_run hn hr, fun h0 => (h0 rfl).elim⟩
  | some r =>
    have hready : RangeReady (setVaddr s .kernel r n true) .kernel (PoolFlag.kernel.page r) n :=
      range_ready h.pool hn.1 hr (by simp)
    have hclear : Clear s .kernel (PoolFlag.kernel.page r) n :=
      fun j hj _ => (hready _ (by omega) (by omega)).2.1
    have hfit : TablesFit 0 (setVaddr s .kernel r n true) .kernel (PoolFlag.kernel.page r) n := by
      rw [tablesFit_mark hn.1 hr, TablesFit,
        absentTables_kernel h.pool fun q h₁ h₂ => (hready q h₁ (by omega)).1]
      omega
    rcases mapPages_run h hn.1 hr (by simp) with ⟨hb, -⟩ | ⟨-, done, t, hmap, -⟩
    · exact (hb hclear).elim
    obtain ⟨k, g, -, hm, hstop, -⟩ :=
      mapPages_spec n _ _ 0 (mark_inv h.pool r n) hready hfit (Or.inl rfl) hmap
    refine ⟨_, t, by rw [mallocPages_run hn hr (by simp), bind_of_ok hmap]; rfl, fun hv => ?_⟩
    rcases hstop with ⟨rfl, rfl⟩ | ⟨rfl, -⟩
    · intro q h₁ h₂
      rw [if_pos rfl, Nat.mul_div_cancel_left _ (by norm_num)] at h₁ h₂
      rw [hm.frames q (managed_plain (hready q h₁ h₂).1), if_pos ⟨h₁, h₂⟩]
      exact Option.some_ne_none _
    · exact (hv rfl).elim

theorem user_given (h : Consistent s) (hn : 0 < n ∧ n < 3840) {r : ℕ}
    (hr : vaddrRun s .user n = some r) (hlow : PoolFlag.user.page r < 0xbffff)
    (hclear : Clear s .user (PoolFlag.user.page r) n) (hle : n ≤ freeCount s .user) :
    PagesGiven s .user n ↔ ¬ Crowded s n := by
  obtain ⟨t, hmap⟩ : ∃ t, mapPages .user n (4096 * PoolFlag.user.page r)
      (setVaddr s .user r n true) = .ok (true, t) := by
    rcases mapPages_run h hn.1 hr fun _ => hlow with ⟨hb, -⟩ | ⟨-, done, t, hmap, hdone⟩
    · exact (hb hclear).elim
    · exact ⟨t, hdone.mpr hle ▸ hmap⟩
  have hmark : Consistent (setVaddr s .user r n true) := mark_consistent h r n
  have hready : RangeReady (setVaddr s .user r n true) .user (PoolFlag.user.page r) n :=
    range_ready h.pool hn.1 hr fun _ => by omega
  obtain ⟨hserved, hzero⟩ := mapPages_served hmark.zero_free n _ _ le_rfl
    (served_start (ahead_of_consistent hmark hready) hmark.zero_free) hmap
  have hlast : PoolFlag.user.Managed (PoolFlag.user.page r + (n - 1)) :=
    managed_of_clear (u := s) hready (by omega) (fun _ => h.pool.low_mapped)
      fun m hm => hclear m (by omega) (by omega)
  have hend : (PoolFlag.user.page r + n - 1) / 1024 < 1023 := by
    have := hlast.2
    omega
  have hiff := hserved.allMapped_iff hmark.zero_free hend hn.1
  rw [zeroTables_eq_zero hmark.zero_free, freeCount_mark hn.1 hr] at hzero
  have hrun : mallocPages .user n s = .ok (4096 * PoolFlag.user.page r, t) := by
    rw [mallocPages_run hn hr fun _ => hlow, bind_of_ok hmap]
    rfl
  have hdiv : 4096 * PoolFlag.user.page r / 4096 = PoolFlag.user.page r := by omega
  have hcrowded : Crowded s n ↔ 2 ≤ zeroTables t ∧ CutShort s (PoolFlag.user.page r + n) := by
    have habs : absentTables (setVaddr s .user r n true) (PoolFlag.user.page r) n =
        absentTables s (PoolFlag.user.page r) n := rfl
    rw [habs] at hzero
    constructor
    · rintro ⟨r', hr', -, htab, hcut⟩
      cases hr.symm.trans hr'
      exact ⟨by omega, hcut⟩
    · rintro ⟨h2, hcut⟩
      exact ⟨r, hr, hle, by omega, hcut⟩
  rw [hcrowded]
  constructor
  · rintro ⟨v, t', hrun', hall⟩
    cases hrun.symm.trans hrun'
    rw [hdiv] at hall
    exact hiff.mp (hall (by simp [PoolFlag.page]))
  · intro hnot
    refine ⟨_, t, hrun, fun _ => ?_⟩
    rw [hdiv]
    exact hiff.mpr hnot

theorem pagesGiven_iff (h : Consistent s) (hw : AddressFits s PF n) :
    PagesGiven s PF n ↔ PagesServed s PF n := by
  by_cases hn : 0 < n ∧ n < 3840
  swap
  · exact iff_of_false (fun hg => hn (pagesGiven_count hg)) fun hs => hn hs.1
  cases PF with
  | kernel => exact iff_of_true (kernel_given h hn) ⟨hn, by simp⟩
  | user =>
    cases hr : vaddrRun s .user n with
    | none =>
      refine iff_of_true ⟨0, s, mallocPages_no_run hn hr, fun h0 => (h0 rfl).elim⟩
        ⟨hn, fun _ => ⟨?_, ?_⟩⟩
      · rintro ⟨r, hr', -⟩
        cases hr.symm.trans hr'
      · rintro ⟨r, hr', -⟩
        cases hr.symm.trans hr'
    | some r =>
      by_cases hstack : 0xbffff ≤ PoolFlag.user.page r
      · refine iff_of_false ?_ fun hs => (hs.2 rfl).1 ⟨r, hr, Or.inl hstack⟩
        rintro ⟨v, t, hrun, -⟩
        have := hw hn rfl r hr
        rw [mallocPages_stack hn hr hstack (by simp only [PoolFlag.page] at this; omega)] at hrun
        cases hrun
      have hlow : PoolFlag.user.page r < 0xbffff := by omega
      rcases mapPages_run h hn.1 hr fun _ => hlow with ⟨hb, hmap⟩ | ⟨hclear, done, t, hmap, hdone⟩
      · refine iff_of_false ?_ fun hs => (hs.2 rfl).1 ⟨r, hr, Or.inr hb⟩
        rintro ⟨v, t, hrun, -⟩
        rw [mallocPages_run hn hr fun _ => hlow, bind_of_error hmap] at hrun
        cases hrun
      have hno : ¬ Blocked s n := by
        rintro ⟨r', hr', hblock⟩
        cases hr.symm.trans hr'
        exact hblock.elim (fun hge => hstack hge) fun hb => hb hclear
      by_cases hle : n ≤ freeCount s .user
      · rw [user_given h hn hr hlow hclear hle]
        exact ⟨fun hc => ⟨hn, fun _ => ⟨hno, hc⟩⟩, fun hs => (hs.2 rfl).2⟩
      · cases done with
        | true => exact (hle (hdone.mp rfl)).elim
        | false =>
          refine iff_of_true ⟨0, t, ?_, fun h0 => (h0 rfl).elim⟩ ⟨hn, fun _ => ⟨hno, ?_⟩⟩
          · rw [mallocPages_run hn hr fun _ => hlow, bind_of_ok hmap]
            rfl
          · rintro ⟨r', -, hle', -⟩
            exact hle hle'

/-- A single page needs at most one table, which frame 0 serves. -/
theorem not_crowded_one : ¬ Crowded s 1 := by
  rintro ⟨r, -, -, h2, -⟩
  have hle : absentTables s (PoolFlag.user.page r) 1 ≤ 1 := by
    refine (Finset.card_filter_le _ _).trans (Finset.card_image_le.trans ?_)
    simp
  omega

/-! ## `sys_malloc` -/

section SysMalloc

variable {fit : ℕ → ℕ → Prop} {h h' : HeapState} {L : List Live} {size d v : ℕ}

/-- A block for `size` bytes in one of the ranges handed out. -/
def IsBlock (h : HeapState) (size p : ℕ) : Prop :=
  ∃ R ∈ h.handed, (1024 < size ∧ p = 4096 * R.page + arenaSize) ∨
    (size ≤ 1024 ∧ ∃ d < 7, size ≤ blockSizeOf d ∧ ∃ k < blocksOf d, p = block R d k)

/-- The call returns 0 or a block, and asks for exactly the pages that header and block fill. -/
def Answers (h : HeapState) (size : ℕ) : Prop :=
  (∃ p h', sysMalloc size h = .ok (p, h') ∧ (p = 0 ∨ IsBlock h' size p)) ∧
    (1024 < size → divRoundUp size 4096 = (arenaSize + size + 4095) / 4096)

/-- The pages of a large block are few enough and leave room for the header, and a process finds
unmapped pages below the stack, with page tables for them. -/
def RequestServed (h : HeapState) (size : ℕ) : Prop :=
  (1024 < size → size ≤ 3839 * 4096 ∧ arenaSize + size ≤ 4096 * ((size + 4095) / 4096)) ∧
    (threadFlag h.mem = .user → ∀ n, pageRequest h size = some n →
      ¬ Blocked h.mem n ∧ ¬ Crowded h.mem n)

theorem divRoundUp_bounds (hsize : size < 2 ^ 32) (hbig : 1024 < size) :
    (0 < divRoundUp size 4096 ∧ divRoundUp size 4096 < 3840) ↔ size ≤ 3839 * 4096 := by
  simp only [divRoundUp, u32]
  omega

theorem clearPages_mapped (left : ℕ) : ∀ (s s' : HeapState) (p : ℕ),
    clearPages left (4096 * p) s = .ok ((), s') → AllMapped s.mem p left := by
  induction left with
  | zero =>
    intro s s' p _ q h₁ h₂
    omega
  | succ left ih =>
    intro s s' p hrun q h₁ h₂
    obtain ⟨_, u, hw, hrun⟩ := bind_ok_iff.mp hrun
    cases hf : s.mem.frameOf (4096 * p / 4096) with
    | none =>
      rw [writeArena, get_bind, hf] at hw
      cases hw
    | some f =>
      rw [writeArena_apply hf] at hw
      cases hw
      by_cases hqp : q = p
      · rw [hqp, show p = 4096 * p / 4096 by omega, hf]
        exact Option.some_ne_none f
      · rw [show 4096 * p + 4096 = 4096 * (p + 1) by omega] at hrun
        exact ih _ _ (p + 1) hrun q (by omega) (by omega)

/-- Clearing the pages of the range is what tells whether they are all mapped. -/
theorem sysMallocLarge_answers :
    (∃ p h', sysMallocLarge PF size h = .ok (p, h') ∧
      (p = 0 ∨ ∃ R ∈ h'.handed, p = 4096 * R.page + arenaSize)) ↔
    PagesGiven h.mem PF (divRoundUp size 4096) := by
  constructor
  · rintro ⟨p, h', hrun, -⟩
    rw [sysMallocLarge] at hrun
    obtain ⟨v, u, htake, hrun⟩ := bind_ok_iff.mp hrun
    cases hm : mallocPages PF (divRoundUp size 4096) h.mem with
    | error e =>
      rw [takePages_error hm] at htake
      cases htake
    | ok r =>
      obtain ⟨w, m⟩ := r
      rw [takePages_apply hm] at htake
      cases htake
      refine ⟨v, m, hm, fun hv => ?_⟩
      rw [if_neg hv, if_neg hv] at hrun
      obtain ⟨_, u, hclear, -⟩ := bind_ok_iff.mp hrun
      rw [(mallocPages_aligned hm hv).1] at hclear
      exact clearPages_mapped _ _ _ _ hclear
  · rintro ⟨v, m, hm, hall⟩
    have htake := takePages_apply (s := h) hm
    rw [sysMallocLarge, bind_of_ok htake]
    by_cases hv : v = 0
    · exact ⟨0, _, by rw [if_pos hv]; rfl, Or.inl rfl⟩
    rw [if_neg hv, if_neg hv]
    have hall := hall hv
    have hpage := (mallocPages_aligned hm hv).1
    have hcnt := (pagesGiven_count ⟨v, m, hm, fun _ => hall⟩).1
    obtain ⟨R, hR⟩ : ∃ R : Range, R = ⟨PF, v / 4096, divRoundUp size 4096⟩ := ⟨_, rfl⟩
    obtain ⟨A, hA, -⟩ := clearPages_apply (divRoundUp size 4096)
      { h with mem := m, handed := R :: h.handed } (v / 4096)
      fun j hj => hall _ (by omega) (by omega)
    obtain ⟨f, hf⟩ := Option.ne_none_iff_exists'.mp (hall (v / 4096) le_rfl (by omega))
    rw [← hpage, hR] at hA
    have hw := writeArena_apply (a := v)
      (s := setArenas { h with mem := m, handed := ⟨PF, v / 4096, divRoundUp size 4096⟩ :: h.handed } A)
      hf ⟨none, divRoundUp size 4096, true⟩
    rw [bind_of_ok hA, bind_of_ok hw]
    refine ⟨v + arenaSize, _, rfl, Or.inr ⟨⟨PF, v / 4096, divRoundUp size 4096⟩,
      List.mem_cons_self, ?_⟩⟩
    rw [← hpage]

theorem popBlock_returns {e : ℕ} {rest : List ℕ} (hl : listsOf h d = e :: rest) {f : ℕ}
    (hf : h.mem.frameOf (blockToArena e / 4096) = some f) :
    ∃ h', popBlock d h = .ok (e, h') ∧ h'.handed = h.handed := by
  have hl' : (h.descs d).freeList = e :: rest := hl
  rw [popBlock, get_bind, hl']
  simp only [set_bind]
  rw [bind_of_ok (readArena_apply (s := setFreeList h d rest) hf),
    bind_of_ok (writeArena_apply (s := setFreeList h d rest) hf _)]
  exact ⟨_, rfl, rfl⟩

theorem refill_returns (hr : DescsReady h) (hd : d < 7)
    (hl : listsOf h d = []) (hg : PagesGiven h.mem PF 1) : ∃ ready h',
      refill PF d h = .ok (ready, h') ∧ (ready = true → ∃ R ∈ h'.handed, R.page < 2 ^ 20 ∧
        listsOf h' d = (List.range (blocksOf d)).map (block R d) ∧
        h'.mem.frameOf R.page ≠ none) := by
  obtain ⟨v, m, hm, hall⟩ := hg
  have htake := takePages_apply (s := h) hm
  rw [refill, bind_of_ok htake]
  by_cases hv : v = 0
  · exact ⟨false, _, by rw [if_pos hv]; rfl, by simp⟩
  rw [if_neg hv, if_neg hv]
  obtain ⟨hpage, hv32⟩ := mallocPages_aligned hm hv
  have hlt : v / 4096 < 2 ^ 20 := by omega
  obtain ⟨u, hu⟩ : ∃ u : HeapState,
      u = { h with mem := m, handed := ⟨PF, v / 4096, 1⟩ :: h.handed } := ⟨_, rfl⟩
  have hmem : u.mem = m := by rw [hu]
  have hdescs : u.descs = h.descs := by rw [hu]
  rw [← hu]
  obtain ⟨A, hA, -⟩ := clearPages_apply 1 u (v / 4096) fun j hj =>
    hmem ▸ hall hv _ (by omega) (by omega)
  obtain ⟨f, hf⟩ := Option.ne_none_iff_exists'.mp (hall hv (v / 4096) le_rfl (by omega))
  rw [← hpage] at hA
  have hw := writeArena_apply (s := setArenas u A) (hmem ▸ hf)
    ⟨some d, ((setArenas u A).descs d).blocksPerArena, false⟩
  obtain ⟨w, hw'⟩ : ∃ w, w = setArenas (setArenas u A) (Function.update (setArenas u A).arenas f
    ⟨some d, ((setArenas u A).descs d).blocksPerArena, false⟩) := ⟨_, rfl⟩
  rw [← hw'] at hw
  have hready : DescsReady w := by
    intro d' hd'
    rw [hw']
    exact hdescs ▸ hr d' hd'
  have hlist : listsOf w d = [] := by
    rw [hw']
    exact (congrFun (congrArg (fun g d => (g d).freeList) hdescs) d).trans hl
  have hsplit := splitArena_apply (a := v) hd (blocksOf d) w 0 hready hlist
  rw [Nat.zero_add] at hsplit
  have hbpa : ((setArenas u A).descs d).blocksPerArena = blocksOf d := by
    change (u.descs d).blocksPerArena = _
    rw [hdescs]
    exact (hr d hd).2
  rw [bind_of_ok hA, get_bind, bind_of_ok hw, hbpa, bind_of_ok hsplit]
  refine ⟨true, _, rfl, fun _ => ⟨⟨PF, v / 4096, 1⟩, ?_, hlt, ?_, ?_⟩⟩
  · rw [hw', hu]
    exact List.mem_cons_self
  · rw [setFreeList_listsOf, if_pos rfl]
    apply List.map_congr_left
    intro k _
    rw [block, ← hpage]
  · rw [hw', hu]
    exact hall hv (v / 4096) le_rfl (by omega)

theorem sysMallocSmall_answers (hi : HeapInv fit h L) (hsmall : size ≤ 1024) :
    (∃ p h', sysMallocSmall PF size h = .ok (p, h') ∧ (p = 0 ∨ IsBlock h' size p)) ↔
      (listsOf h (findDesc h.descs size 7 0) = [] → PagesGiven h.mem PF 1) := by
  obtain ⟨hd, hfit⟩ := findDesc_spec (fun d hd => (hi.core.descs d hd).1) hsmall 7 0 (by omega) rfl
  rw [sysMallocSmall, get_bind]
  set d := findDesc h.descs size 7 0 with hdef
  by_cases hl : listsOf h d = []
  · have hl' : (h.descs d).freeList = [] := hl
    rw [if_pos hl']
    constructor
    · rintro ⟨p, h', hrun, -⟩ -
      obtain ⟨ready, u, hrefill, -⟩ := bind_ok_iff.mp hrun
      rw [refill] at hrefill
      obtain ⟨v, w, htake, hrefill⟩ := bind_ok_iff.mp hrefill
      cases hm : mallocPages PF 1 h.mem with
      | error e =>
        rw [takePages_error hm] at htake
        cases htake
      | ok r =>
        obtain ⟨v', m⟩ := r
        rw [takePages_apply hm] at htake
        cases htake
        refine ⟨v, m, hm, fun hv => ?_⟩
        rw [if_neg hv, if_neg hv] at hrefill
        obtain ⟨_, w, hclear, -⟩ := bind_ok_iff.mp hrefill
        rw [(mallocPages_aligned hm hv).1] at hclear
        exact clearPages_mapped _ _ _ _ hclear
    · intro hg
      obtain ⟨ready, u, hrefill, hready⟩ := refill_returns hi.core.descs hd hl (hg hl)
      rw [bind_of_ok hrefill]
      cases ready with
      | false => exact ⟨0, u, rfl, Or.inl rfl⟩
      | true =>
        obtain ⟨R, hR, hlt, hlist, hmap⟩ := hready rfl
        obtain ⟨f, hf⟩ := Option.ne_none_iff_exists'.mp hmap
        have hpos := (blocksOf_pos hd).1
        obtain ⟨m, hm⟩ : ∃ m, blocksOf d = m + 1 := ⟨_, (Nat.sub_add_cancel (by omega)).symm⟩
        rw [hm, List.range_succ_eq_map, List.map_cons] at hlist
        obtain ⟨h', hpop, hhanded⟩ := popBlock_returns hlist (f := f) (by
          rw [blockToArena_block hlt (by omega), Nat.mul_div_cancel_left _ (by norm_num), hf])
        exact ⟨_, h', hpop, Or.inr ⟨R, hhanded ▸ hR, Or.inr ⟨hsmall, d, hd, hfit, 0, by omega, rfl⟩⟩⟩
  · have hl' : ¬ (h.descs d).freeList = [] := hl
    rw [if_neg hl', pure_bind]
    refine iff_of_true ?_ fun h0 => (hl h0).elim
    obtain ⟨e, rest, hlist⟩ := List.exists_cons_of_ne_nil hl
    obtain ⟨R, hR, -, k, hk, he⟩ := hi.core.accounts.list_blocks d hd e
      (by rw [hlist]; exact List.mem_cons_self)
    obtain ⟨-, f, hf⟩ := range_first hi.core.ranges hR
    obtain ⟨h', hpop, hhanded⟩ := popBlock_returns hlist (f := f) (by
      rw [he, blockToArena_block (range_page_lt hi.core.ranges hR) hk,
        Nat.mul_div_cancel_left _ (by norm_num), hf])
    exact ⟨e, h', hpop, Or.inr ⟨R, hhanded ▸ hR, Or.inr ⟨hsmall, d, hd, hfit, k, hk, he⟩⟩⟩

/-- On a consistent heap `sys_malloc` answers exactly the requests that are served. -/
theorem sys_malloc_answers_iff {fit : ℕ → ℕ → Prop} {h : HeapState} {L : List Live}
    (hi : HeapInv fit h L) {size : ℕ} (hsize : size < 2 ^ 32)
    (hw : ∀ n, pageRequest h size = some n → AddressFits h.mem (threadFlag h.mem) n) :
    Answers h size ↔ RequestServed h size := by
  have hc : Consistent h.mem := ⟨hi.core.ranges.pool, hi.core.ranges.zero_free⟩
  by_cases hbig : 1024 < size
  · have hbounds := divRoundUp_bounds hsize hbig
    have hreq : pageRequest h size = some (divRoundUp size 4096) := by
      rw [pageRequest, if_pos hbig]
    have hlarge := @sysMallocLarge_answers (threadFlag h.mem) h size
    rw [pagesGiven_iff hc (hw _ hreq), PagesServed, hbounds] at hlarge
    have hrun : sysMalloc size h = sysMallocLarge (threadFlag h.mem) size h := by
      rw [sysMalloc, get_bind, if_pos hbig]
    have hblock : ∀ h' p, IsBlock h' size p ↔ ∃ R ∈ h'.handed, p = 4096 * R.page + arenaSize := by
      intro h' p
      constructor
      · rintro ⟨R, hR, ⟨-, hp⟩ | ⟨hs, -⟩⟩
        · exact ⟨R, hR, hp⟩
        · omega
      · rintro ⟨R, hR, hp⟩
        exact ⟨R, hR, Or.inl ⟨hbig, hp⟩⟩
    simp only [Answers, RequestServed, hrun, hblock, hlarge, hbig, true_implies, hreq,
      Option.some.injEq, forall_eq']
    constructor
    · rintro ⟨⟨hle, hserved⟩, hexact⟩
      refine ⟨⟨hle, ?_⟩, hserved⟩
      rw [divRoundUp_eq hsize (hbounds.mpr hle).1] at hexact
      simp only [arenaSize] at *
      omega
    · rintro ⟨⟨hle, hroom⟩, hserved⟩
      refine ⟨⟨hle, hserved⟩, ?_⟩
      rw [divRoundUp_eq hsize (hbounds.mpr hle).1]
      simp only [arenaSize] at *
      omega
  · have hsmall : size ≤ 1024 := by omega
    have hrun : sysMalloc size h = sysMallocSmall (threadFlag h.mem) size h := by
      rw [sysMalloc, get_bind, if_neg (by omega)]
    simp only [Answers, RequestServed, hrun, hbig, false_implies, and_true, true_and,
      sysMallocSmall_answers hi hsmall]
    have hreq : ∀ n, pageRequest h size = some n ↔
        listsOf h (findDesc h.descs size 7 0) = [] ∧ n = 1 := by
      intro n
      rw [pageRequest, if_neg hbig]
      by_cases hl : listsOf h (findDesc h.descs size 7 0) = []
      · simp [hl, eq_comm]
      · simp [hl]
    simp only [hreq]
    constructor
    · rintro hg hu n ⟨hl, rfl⟩
      exact ((pagesGiven_iff hc (hw 1 ((hreq 1).mpr ⟨hl, rfl⟩))).mp (hg hl)).2 hu
    · intro hs hl
      exact (pagesGiven_iff hc (hw 1 ((hreq 1).mpr ⟨hl, rfl⟩))).mpr
        ⟨⟨one_pos, by norm_num⟩, fun hu => hs hu 1 ⟨hl, rfl⟩⟩

end SysMalloc

theorem inv_sampleHeap : HeapInv WithHeader sampleHeap [] := start_inv start_sampleHeap

theorem sys_malloc_answers_hundred_bytes :
    RequestServed sampleHeap 100 ∧ Answers sampleHeap 100 := by
  have hone : pageRequest sampleHeap 100 = some 1 := by decide +kernel
  have hrun : vaddrRun sampleHeap.mem .user 1 = some 0 := by decide +kernel
  have hfits : ∀ n, pageRequest sampleHeap 100 = some n →
      AddressFits sampleHeap.mem (threadFlag sampleHeap.mem) n := by
    intro n hn _ _ r hr
    cases hone.symm.trans hn
    cases hrun.symm.trans hr
    norm_num [PoolFlag.page]
  have hserved : RequestServed sampleHeap 100 := by
    refine ⟨by norm_num, fun _ n hn => ?_⟩
    cases hone.symm.trans hn
    have hfree : sampleHeap.mem.frameOf (PoolFlag.user.page 0) = none := by decide +kernel
    refine ⟨?_, not_crowded_one⟩
    rintro ⟨r, hr, hblock⟩
    cases hrun.symm.trans hr
    refine hblock.elim (by norm_num [PoolFlag.page]) fun hb => hb fun j hj _ => ?_
    rwa [Nat.lt_one_iff.mp hj]
  exact ⟨hserved, (sys_malloc_answers_iff inv_sampleHeap (by norm_num) hfits).mpr hserved⟩

/-- From 2^32 - 4095 bytes on the rounding wraps to no pages, which `malloc_pages` asserts away. -/
theorem sysMalloc_wraps (h : HeapState) {size : ℕ} (hs : 2 ^ 32 - 4096 < size)
    (hlt : size < 2 ^ 32) : sysMalloc size h = .error (.assertion .mallocPagesCnt) := by
  have hzero : divRoundUp size 4096 = 0 := by
    simp only [divRoundUp, u32]
    omega
  have hm : mallocPages (threadFlag h.mem) 0 h.mem = .error (.assertion .mallocPagesCnt) := by
    rw [mallocPages, assert, ensure_bind_of_false (by omega)]
  rw [sysMalloc, get_bind, if_pos (by omega), sysMallocLarge, hzero,
    bind_of_error (takePages_error hm)]

/-- The largest size halts the machine, and one page is asked for where 4108 bytes are needed. -/
theorem sys_malloc_halts : HeapInv WithHeader sampleHeap [] ∧
    sysMalloc 0xffffffff sampleHeap = .error (.assertion .mallocPagesCnt) ∧
    ¬ Answers sampleHeap 0xffffffff ∧ ¬ Answers sampleHeap 4096 := by
  have hhalt := @sysMalloc_wraps sampleHeap 0xffffffff (by norm_num) (by norm_num)
  refine ⟨inv_sampleHeap, hhalt, ?_, ?_⟩
  · rintro ⟨⟨p, h', hrun, -⟩, -⟩
    rw [hhalt] at hrun
    cases hrun
  · rintro ⟨-, hexact⟩
    have := hexact (by norm_num)
    simp [divRoundUp, u32, arenaSize] at this

end KernelHeapAnswers
