import Leeos.KernelHeapSteps

/-!
# `sys_malloc` and `sys_free` keep the accounts

Both calls are followed through their branches: a whole-page arena, a refilled or a waiting
free list; the release of a whole-page arena, of a block, and of an arena with its last block.
-/
namespace KernelHeapCalls

open ExecRules KernelPaging KernelPools KernelPoolSteps KernelPoolInvariant KernelPoolMapping
  KernelPoolCalls KernelPoolRanges KernelHeap KernelHeapAccounts KernelHeapSteps LibStdint

variable {fit : ℕ → ℕ → Prop} {s s' : HeapState} {PF : PoolFlag} {R : Range} {L : List Live} {d : ℕ}

/-! ## Ranges taken and given -/

theorem takePages_keeps (h : HeapCore fit s L) {n v : ℕ} (hPF : PF = threadFlag s.mem)
    (hfit : MallocFits 0 s.mem PF n) (hrun : takePages PF n s = .ok (v, s')) :
    (v = 0 → ∃ m, s' = { s with mem := m } ∧ SameThread s.mem m ∧ FramesKept s.mem m s.handed ∧
      RangesInv (m, s.handed)) ∧
    (v ≠ 0 → ∃ m R, v = 4096 * R.page ∧ R.count = n ∧ R.flag = threadFlag m ∧
      s' = { s with mem := m, handed := R :: s.handed } ∧ SameThread s.mem m ∧
      FramesKept s.mem m s.handed ∧ RangesInv (m, R :: s.handed)) := by
  cases hm : mallocPages PF n s.mem with
  | error e =>
    rw [takePages_error hm] at hrun
    cases hrun
  | ok r =>
    obtain ⟨w, m⟩ := r
    rw [takePages_apply hm] at hrun
    obtain ⟨hsame, hkept, hzero, hnew⟩ := mallocPages_keeps h.ranges hfit hm
    constructor
    · rintro rfl
      cases hrun
      exact ⟨m, by rw [if_pos rfl], hsame, hkept, hzero rfl⟩
    · intro hv
      cases hrun
      obtain ⟨hinv, hv4, -⟩ := hnew hv
      refine ⟨m, ⟨PF, v / 4096, n⟩, hv4, rfl, ?_, by rw [if_neg hv], hsame, hkept, hinv⟩
      rw [threadFlag_same hsame]
      exact hPF

theorem newPage_of_ranges {m : MemState} {H : List Range} (h : RangesInv (m, R :: H)) :
    NewPage H R := by
  intro R' hR' he
  have hap := (List.pairwise_cons.mp h.disjoint).1 R' hR'
  have h₁ := (range_first h List.mem_cons_self).1
  have h₂ := (range_first h (List.mem_cons_of_mem _ hR')).1
  exact hap R.page ⟨h₁, he ▸ h₂⟩

theorem flags_kept (h : HeapCore fit s L) {m : MemState} (hsame : SameThread s.mem m) :
    ∀ R ∈ s.handed, R.flag = threadFlag m := by
  intro R hR
  rw [h.flags R hR]
  exact (threadFlag_same hsame).symm

theorem flags_cons (h : HeapCore fit s L) {m : MemState} (hsame : SameThread s.mem m)
    (hflag : R.flag = threadFlag m) : ∀ R' ∈ R :: s.handed, R'.flag = threadFlag m := by
  intro R' hR'
  rcases List.mem_cons.mp hR' with rfl | hold
  · exact hflag
  · exact flags_kept h hsame R' hold

theorem inv_of_failed (h : HeapInv fit s L) {m : MemState} (hsame : SameThread s.mem m)
    (hkept : FramesKept s.mem m s.handed) (hinv : RangesInv (m, s.handed)) :
    HeapInv fit { s with mem := m } L := by
  have harena : ∀ R ∈ s.handed, arenaOf { s with mem := m } R = arenaOf s R :=
    fun R hR => arenaOf_kept (H := s.handed) h.core.ranges hkept hR
  refine ⟨⟨hinv, h.core.descs, flags_kept h.core hsame,
    h.core.accounts.congr harena fun _ _ => rfl⟩, fun R hR d hm => ?_⟩
  rw [harena R hR] at hm ⊢
  exact h.below R hR d hm

/-! ## `sys_malloc`, whole pages -/

theorem sysMallocLarge_keeps (h : HeapInv fit s L) {n p : ℕ} (hPF : PF = threadFlag s.mem)
    (hfit : MallocFits 0 s.mem PF (divRoundUp n 4096))
    (hsize : 0 < divRoundUp n 4096 → fit n (divRoundUp n 4096))
    (hrun : sysMallocLarge PF n s = .ok (p, s')) :
    (p = 0 → HeapInv fit s' L) ∧ (p ≠ 0 → HeapInv fit s' (⟨p, n⟩ :: L)) := by
  rw [sysMallocLarge] at hrun
  obtain ⟨v, t, htake, hrun⟩ := bind_ok_iff.mp hrun
  obtain ⟨hfail, hok⟩ := takePages_keeps h.core hPF hfit htake
  by_cases hv : v = 0
  · obtain ⟨m, rfl, hsame, hkept, hinv⟩ := hfail hv
    rw [if_pos hv] at hrun
    cases hrun
    exact ⟨fun _ => inv_of_failed h hsame hkept hinv, fun h0 => (h0 rfl).elim⟩
  · obtain ⟨m, R, rfl, hcount, hflag, rfl, hsame, hkept, hinv⟩ := hok hv
    obtain ⟨A, hA, hwrite⟩ := install_header
      (s := { s with mem := m, handed := R :: s.handed }) hinv rfl
    obtain ⟨A', hA', hnew, hold⟩ := hwrite ⟨none, R.count, true⟩
    rw [if_neg hv, ← hcount, bind_of_ok hA, bind_of_ok hA'] at hrun
    cases hrun
    refine ⟨fun h0 => by simp [arenaSize] at h0, fun _ => ?_⟩
    have harena : ∀ R' ∈ s.handed,
        arenaOf (setArenas { s with mem := m, handed := R :: s.handed } A') R' = arenaOf s R' :=
      fun R' hR' => (hold R' hR').trans (arenaOf_kept h.core.ranges hkept hR')
    refine ⟨⟨hinv, h.core.descs, flags_cons h.core hsame hflag, ?_⟩, fun R' hR' d hm => ?_⟩
    · have hpos : 0 < divRoundUp n 4096 := by
        have := (range_first hinv List.mem_cons_self).1.2
        omega
      exact h.core.accounts.add_large (newPage_of_ranges hinv) rfl
        (by rw [hcount]; exact hsize hpos) hnew harena
    · rcases List.mem_cons.mp hR' with rfl | hR'
      · rw [hnew] at hm
        cases hm
      · rw [harena R' hR'] at hm ⊢
        exact h.below R' hR' d hm

/-! ## `sys_malloc`, blocks -/

theorem blocksOf_pos (hd : d < 7) : 3 ≤ blocksOf d ∧ blocksOf d < 4096 := by
  have : ∀ d < 7, 3 ≤ blocksOf d ∧ blocksOf d < 4096 := by decide
  exact this d hd

theorem refill_keeps (h : HeapInv fit s L) (hd : d < 7) (hl : listsOf s d = [])
    (hPF : PF = threadFlag s.mem) (hfit : MallocFits 0 s.mem PF 1) {ready : Bool}
    (hrun : refill PF d s = .ok (ready, s')) :
    (ready = false → HeapInv fit s' L) ∧ (ready = true → HeapCore fit s' L ∧ ∃ R ∈ s'.handed,
      (∀ R' ∈ s'.handed, R' ≠ R → Below s' R') ∧
      listsOf s' d = (List.range (blocksOf d)).map (block R d)) := by
  rw [refill] at hrun
  obtain ⟨v, t, htake, hrun⟩ := bind_ok_iff.mp hrun
  obtain ⟨hfail, hok⟩ := takePages_keeps h.core hPF hfit htake
  by_cases hv : v = 0
  · obtain ⟨m, rfl, hsame, hkept, hinv⟩ := hfail hv
    rw [if_pos hv] at hrun
    cases hrun
    exact ⟨fun _ => inv_of_failed h hsame hkept hinv, fun h0 => by cases h0⟩
  · obtain ⟨m, R, rfl, hcount, hflag, rfl, hsame, hkept, hinv⟩ := hok hv
    obtain ⟨A, hA, hwrite⟩ := install_header
      (s := { s with mem := m, handed := R :: s.handed }) hinv rfl
    obtain ⟨A', hA', hnew, hold⟩ := hwrite ⟨some d, blocksOf d, false⟩
    have hbpa : (s.descs d).blocksPerArena = blocksOf d := (h.core.descs d hd).2
    rw [hcount] at hA
    rw [if_neg hv, bind_of_ok hA, get_bind] at hrun
    have hA'' : writeArena (4096 * R.page) ⟨some d, ((setArenas
        { s with mem := m, handed := R :: s.handed } A).descs d).blocksPerArena, false⟩
        (setArenas { s with mem := m, handed := R :: s.handed } A) =
        .ok ((), setArenas { s with mem := m, handed := R :: s.handed } A') := by
      have : ((setArenas { s with mem := m, handed := R :: s.handed } A).descs d).blocksPerArena =
          blocksOf d := hbpa
      rw [this]
      exact hA'
    rw [bind_of_ok hA''] at hrun
    set u := setArenas { s with mem := m, handed := R :: s.handed } A' with hu
    have hsplit := splitArena_apply (a := 4096 * R.page) hd (blocksOf d) u 0 h.core.descs hl
    rw [Nat.zero_add] at hsplit
    have hbpa' : ((setArenas { s with mem := m, handed := R :: s.handed } A).descs d).blocksPerArena =
        blocksOf d := hbpa
    rw [hbpa', bind_of_ok hsplit] at hrun
    cases hrun
    refine ⟨fun h0 => (by cases h0), fun _ => ?_⟩
    have harena : ∀ R' ∈ s.handed, arenaOf u R' = arenaOf s R' :=
      fun R' hR' => (hold R' hR').trans (arenaOf_kept h.core.ranges hkept hR')
    have hlist : listsOf (setFreeList u d ((List.range (blocksOf d)).map (block R d))) d =
        (List.range (blocksOf d)).map (block R d) := by
      rw [setFreeList_listsOf, if_pos rfl]
    refine ⟨⟨hinv, DescsReady.setFreeList (s := u) h.core.descs d _,
      flags_cons h.core hsame hflag, ?_⟩, R, List.mem_cons_self, fun R' hR' hne d' hm => ?_, hlist⟩
    · refine h.core.accounts.add_small (newPage_of_ranges hinv) hd hcount hl hnew harena hlist ?_
      intro d' hdd
      rw [setFreeList_listsOf, if_neg hdd]
      rfl
    · have hmem := (List.mem_cons.mp hR').resolve_left hne
      change (arenaOf u R').memDescAddr = some d' at hm
      change (arenaOf u R').cnt < blocksOf d'
      rw [harena R' hmem] at hm ⊢
      exact h.below R' hmem d' hm

theorem blockToArena_block {k : ℕ} (hp : R.page < 2 ^ 20) (hk : k < blocksOf d) :
    blockToArena (block R d k) = 4096 * R.page := by
  have hpage := block_page (R := R) hk
  have hlt : block R d k < 2 ^ 32 := by omega
  rw [blockToArena, pageBase_eq hlt, hpage, Nat.mul_comm]

theorem listed_pos {l : List ℕ} {k : ℕ} (hk : k < blocksOf d) (hin : block R d k ∈ l) :
    0 < listed l R d := by
  refine Finset.card_pos.mpr ⟨k, ?_⟩
  simp [hk, hin]

theorem arenaOf_update {H : List Range} (h : RangesInv (s.mem, H)) (hR : R ∈ H) {f : ℕ}
    (hf : s.mem.frameOf R.page = some f) (hd : Arena) :
    arenaOf (setArenas s (Function.update s.arenas f hd)) R = hd ∧
    ∀ R' ∈ H, R' ≠ R →
      arenaOf (setArenas s (Function.update s.arenas f hd)) R' = arenaOf s R' := by
  constructor
  · rw [arenaOf_frame (s := setArenas s (Function.update s.arenas f hd)) hf]
    exact Function.update_self ..
  · intro R' hR' hne
    obtain ⟨hfirst', f', hf'⟩ := range_first h hR'
    have hff : f' ≠ f := by
      rintro rfl
      exact frame_ne h hR hR' hne.symm (range_first h hR).1 hfirst' hf hf'
    rw [arenaOf_frame (s := setArenas s (Function.update s.arenas f hd)) hf', arenaOf_frame hf']
    exact Function.update_of_ne hff _ _

theorem popBlock_keeps (h : HeapCore fit s L) (hd : d < 7) {e n : ℕ} {rest : List ℕ}
    (hl : listsOf s d = e :: rest) (hsize : n ≤ blockSizeOf d)
    (hbelow : ∀ R ∈ s.handed, R.page ≠ e / 4096 → Below s R) :
    ∃ s', popBlock d s = .ok (e, s') ∧ e ≠ 0 ∧ HeapInv fit s' (⟨e, n⟩ :: L) := by
  have hin : e ∈ listsOf s d := by rw [hl]; exact List.mem_cons_self
  obtain ⟨R, hR, hm, k, hk, rfl⟩ := h.accounts.list_blocks d hd e hin
  have hpage := block_page (R := R) hk
  have hlt := range_page_lt h.ranges hR
  obtain ⟨hfirst, f, hf⟩ := range_first h.ranges hR
  have harena := arenaOf_frame hf
  -- the counter is positive, so its decrement does not wrap
  have hcnt : sub32 (s.arenas f).cnt 1 = (s.arenas f).cnt - 1 := by
    have h₁ := h.accounts.counts R hR d hm
    have h₂ := listed_pos hk hin
    have h₃ := listed_le (listsOf s d) R d
    have h₄ := blocksOf_pos hd
    rw [harena] at h₁
    rw [sub32, u32]
    omega
  have hdiv : 4096 * R.page / 4096 = R.page := by omega
  have hl' : (s.descs d).freeList = block R d k :: rest := hl
  obtain ⟨w, hw⟩ : ∃ w : Arena, w = { s.arenas f with cnt := sub32 (s.arenas f).cnt 1 } := ⟨_, rfl⟩
  obtain ⟨t, ht⟩ : ∃ t, t = setArenas (setFreeList s d rest) (Function.update s.arenas f w) :=
    ⟨_, rfl⟩
  have hrun : popBlock d s = .ok (block R d k, t) := by
    rw [popBlock, get_bind, hl']
    simp only [set_bind, blockToArena_block hlt hk]
    rw [bind_of_ok (readArena_apply (s := setFreeList s d rest) (by rw [hdiv]; exact hf)),
      bind_of_ok (writeArena_apply (s := setFreeList s d rest) (by rw [hdiv]; exact hf) _), ht, hw]
    rfl
  obtain ⟨hnew, hold⟩ : arenaOf t R = w ∧ ∀ R' ∈ s.handed, R' ≠ R → arenaOf t R' = arenaOf s R' := by
    rw [ht]
    exact arenaOf_update (s := setFreeList s d rest) h.ranges hR hf w
  have hlist : ∀ d', listsOf t d' = if d' = d then rest else listsOf s d' := by
    rw [ht]
    exact setFreeList_listsOf s d rest
  obtain ⟨hacc, hbel⟩ := h.accounts.pop (b := ⟨block R d k, n⟩) hd hsize hl hR hm hpage
    (by rw [hnew, hw, harena, hcnt]) hold ((hlist d).trans (if_pos rfl))
    (fun d' hdd => (hlist d').trans (if_neg hdd))
  refine ⟨t, hrun, by rw [block_eq]; omega, ⟨?_, ?_, ?_, ?_⟩, fun R' hR' d' hm' => ?_⟩
  · exact ht ▸ h.ranges
  · exact ht ▸ h.descs.setFreeList d rest
  · exact ht ▸ h.flags
  · exact ht ▸ hacc
  · rw [ht] at hR'
    have hR' : R' ∈ s.handed := hR'
    by_cases hRR : R' = R
    · subst hRR
      rw [hnew, hw] at hm'
      change (s.arenas f).memDescAddr = some d' at hm'
      rw [← harena, hm, Option.some.injEq] at hm'
      subst hm'
      exact hbel
    · rw [hold R' hR' hRR] at hm' ⊢
      exact hbelow R' hR' (fun he => hRR (h.accounts.pages R' hR' R hR (he.trans hpage))) d' hm'

theorem findDesc_spec {descs : ℕ → MemBlockDesc} {size : ℕ}
    (hr : ∀ d < 7, (descs d).blockSize = blockSizeOf d) (hs : size ≤ 1024) (left : ℕ) :
    ∀ i, i < 7 → i + left = 7 →
      findDesc descs size left i < 7 ∧ size ≤ blockSizeOf (findDesc descs size left i) := by
  induction left with
  | zero => omega
  | succ left ih =>
    intro i hi hl
    rw [findDesc]
    split
    case isTrue hle => exact ⟨hi, hr i hi ▸ hle⟩
    case isFalse hgt =>
      have hi6 : i ≠ 6 := by
        rintro rfl
        rw [hr 6 (by omega)] at hgt
        exact hgt hs
      exact ih (i + 1) (by omega) (by omega)

/-- The page tables that the call's page request may need are covered by kernel frames, and the
address of its run does not wrap. -/
def CallFits (s : HeapState) (n : ℕ) : Prop :=
  if n > 1024 then MallocFits 0 s.mem (threadFlag s.mem) (divRoundUp n 4096)
  else listsOf s (findDesc s.descs n 7 0) = [] → MallocFits 0 s.mem (threadFlag s.mem) 1

theorem sysMallocSmall_ok {n p : ℕ} (hrun : sysMallocSmall PF n s = .ok (p, s')) :
    listsOf s (findDesc s.descs n 7 0) = [] ∧
      (p = 0 ∧ refill PF (findDesc s.descs n 7 0) s = .ok (false, s') ∨
        ∃ t, refill PF (findDesc s.descs n 7 0) s = .ok (true, t) ∧
          popBlock (findDesc s.descs n 7 0) t = .ok (p, s')) ∨
    listsOf s (findDesc s.descs n 7 0) ≠ [] ∧
      popBlock (findDesc s.descs n 7 0) s = .ok (p, s') := by
  rw [sysMallocSmall, get_bind] at hrun
  by_cases hempty : (s.descs (findDesc s.descs n 7 0)).freeList = []
  · rw [if_pos hempty] at hrun
    obtain ⟨ready, t, hrefill, hrest⟩ := bind_ok_iff.mp hrun
    refine Or.inl ⟨hempty, ?_⟩
    cases ready with
    | false =>
      cases hrest
      exact Or.inl ⟨rfl, hrefill⟩
    | true => exact Or.inr ⟨t, hrefill, hrest⟩
  · rw [if_neg hempty, pure_bind] at hrun
    exact Or.inr ⟨hempty, hrun⟩

theorem sysMallocSmall_keeps (h : HeapInv fit s L) {n p : ℕ} (hPF : PF = threadFlag s.mem)
    (hn : n ≤ 1024) (hfit : listsOf s (findDesc s.descs n 7 0) = [] → MallocFits 0 s.mem PF 1)
    (hrun : sysMallocSmall PF n s = .ok (p, s')) :
    (p = 0 → HeapInv fit s' L) ∧ (p ≠ 0 → HeapInv fit s' (⟨p, n⟩ :: L)) := by
  obtain ⟨hd, hsize⟩ := findDesc_spec (fun d hd => (h.core.descs d hd).1) hn 7 0 (by omega) rfl
  rcases sysMallocSmall_ok hrun with ⟨hempty, ⟨rfl, hrefill⟩ | ⟨t, hrefill, hrest⟩⟩ |
    ⟨hlist, hrest⟩
  · have hfail := (refill_keeps h hd hempty hPF (hfit hempty) hrefill).1
    exact ⟨fun _ => hfail rfl, fun h0 => (h0 rfl).elim⟩
  · obtain ⟨hcore, R, hR, hbelow, hlist⟩ :=
      (refill_keeps h hd hempty hPF (hfit hempty) hrefill).2 rfl
    have hpos := (blocksOf_pos hd).1
    obtain ⟨m, hm⟩ : ∃ m, blocksOf (findDesc s.descs n 7 0) = m + 1 :=
      ⟨_, (Nat.sub_add_cancel (by omega)).symm⟩
    rw [hm, List.range_succ_eq_map, List.map_cons] at hlist
    obtain ⟨t', hpop, hne, hinv⟩ := popBlock_keeps hcore hd hlist hsize fun R' hR' hp =>
      hbelow R' hR' fun he => hp (by rw [he, block_page (by omega)])
    cases hpop.symm.trans hrest
    exact ⟨fun h0 => (hne h0).elim, fun _ => hinv⟩
  · obtain ⟨e, rest, hcons⟩ := List.exists_cons_of_ne_nil hlist
    obtain ⟨t', hpop, hne, hinv⟩ := popBlock_keeps h.core hd hcons hsize
      fun R hR _ => h.below R hR
    cases hpop.symm.trans hrest
    exact ⟨fun h0 => (hne h0).elim, fun _ => hinv⟩

theorem sysMalloc_keeps (h : HeapInv fit s L) {n p : ℕ} (hfit : CallFits s n)
    (hsize : n > 1024 → 0 < divRoundUp n 4096 → fit n (divRoundUp n 4096))
    (hrun : sysMalloc n s = .ok (p, s')) :
    (p = 0 → HeapInv fit s' L) ∧ (p ≠ 0 → HeapInv fit s' (⟨p, n⟩ :: L)) := by
  rw [sysMalloc, get_bind] at hrun
  by_cases hn : n > 1024
  · rw [if_pos hn] at hrun
    rw [CallFits, if_pos hn] at hfit
    exact sysMallocLarge_keeps h rfl hfit (hsize hn) hrun
  · rw [if_neg hn] at hrun
    rw [CallFits, if_neg hn] at hfit
    exact sysMallocSmall_keeps h rfl (by omega) hfit hrun

/-! ## `sys_free` -/

/-- The accounts are in order once range `R` is gone, and `R` is still to be given back. -/
structure Released (fit : ℕ → ℕ → Prop) (u : HeapState) (R : Range) (L : List Live) : Prop where
  ranges : RangesInv (u.mem, u.handed)
  mem : R ∈ u.handed
  descs : DescsReady u
  flags : ∀ R' ∈ u.handed, R'.flag = threadFlag u.mem
  accounts : Accounts fit (u.handed.erase R) (arenaOf u) (listsOf u) L
  below : ∀ R' ∈ u.handed.erase R, Below u R'

theorem givePages_keeps {u : HeapState} (h : Released fit u R L)
    (hrun : givePages R.flag R.count (4096 * R.page) u = .ok ((), s')) : HeapInv fit s' L := by
  cases hm : freePages R.flag R.count (4096 * R.page) u.mem with
  | error e =>
    rw [givePages_error hm] at hrun
    cases hrun
  | ok r =>
    obtain ⟨⟨⟩, m⟩ := r
    obtain ⟨hsame, hkept, hinv⟩ := freePages_keeps h.ranges h.mem hm
    have hR : (⟨R.flag, 4096 * R.page / 4096, R.count⟩ : Range) = R := by
      rw [Nat.mul_div_cancel_left R.page (by decide)]
    rw [givePages_apply hm, hR] at hrun
    cases hrun
    have harena : ∀ R' ∈ u.handed.erase R,
        arenaOf { u with mem := m, handed := u.handed.erase R } R' = arenaOf u R' := by
      intro R' hR'
      simp only [arenaOf]
      rw [hkept R' hR' R'.page (range_first h.ranges (List.mem_of_mem_erase hR')).1]
    refine ⟨⟨hinv, h.descs, fun R' hR' => ?_, h.accounts.congr harena fun _ _ => rfl⟩,
      fun R' hR' d hd => ?_⟩
    · rw [h.flags R' (List.mem_of_mem_erase hR')]
      exact (threadFlag_same hsame).symm
    · rw [harena R' hR'] at hd ⊢
      exact h.below R' hR' d hd

theorem push_core (h : HeapCore fit s L) {b : Live} {k f : ℕ} (hb : b ∈ L) (hR : R ∈ s.handed)
    (hm : (arenaOf s R).memDescAddr = some d) (hk : k < blocksOf d) (hbk : b.ptr = block R d k)
    (hf : s.mem.frameOf R.page = some f) {t : HeapState}
    (ht : t = setArenas (setFreeList s d (listsOf s d ++ [b.ptr]))
      (Function.update s.arenas f { s.arenas f with cnt := (s.arenas f).cnt + 1 })) :
    HeapCore fit t (L.erase b) ∧ (arenaOf t R).memDescAddr = some d ∧
      (arenaOf t R).cnt = (arenaOf s R).cnt + 1 ∧
      ∀ R' ∈ s.handed, R' ≠ R → arenaOf t R' = arenaOf s R' := by
  have harena := arenaOf_frame hf
  obtain ⟨hnew, hold⟩ : arenaOf t R = { s.arenas f with cnt := (s.arenas f).cnt + 1 } ∧
      ∀ R' ∈ s.handed, R' ≠ R → arenaOf t R' = arenaOf s R' := by
    rw [ht]
    exact arenaOf_update (s := setFreeList s d _) h.ranges hR hf _
  have hlist : ∀ d', listsOf t d' = if d' = d then listsOf s d ++ [b.ptr] else listsOf s d' := by
    rw [ht]
    exact setFreeList_listsOf s d _
  have hacc := h.accounts.push hb hR hm hk hbk (by rw [hnew, harena]) hold
    ((hlist d).trans (if_pos rfl)) fun d' hdd => (hlist d').trans (if_neg hdd)
  refine ⟨⟨?_, ?_, ?_, ?_⟩, ?_, ?_, hold⟩
  · exact ht ▸ h.ranges
  · exact ht ▸ h.descs.setFreeList d _
  · exact ht ▸ h.flags
  · exact ht ▸ hacc
  · rw [hnew]
    exact harena ▸ hm
  · rw [hnew, harena]

theorem live_arena (h : HeapCore fit s L) {b : Live} (hb : b ∈ L) :
    ∃ R ∈ s.handed, b.ptr / 4096 = R.page ∧ blockToArena b.ptr = 4096 * R.page ∧
      readArena (4096 * R.page) s = .ok (arenaOf s R, s) ∧
      ((arenaOf s R).memDescAddr = none ∨ ∃ d < 7, (arenaOf s R).memDescAddr = some d ∧
        ∃ k < blocksOf d, b.ptr = block R d k) := by
  obtain ⟨R, hR, hcase⟩ := h.accounts.live_blocks b hb
  have hlt := range_page_lt h.ranges hR
  obtain ⟨-, f, hf⟩ := range_first h.ranges hR
  have hdiv : 4096 * R.page / 4096 = R.page := by omega
  have hread : readArena (4096 * R.page) s = .ok (arenaOf s R, s) := by
    rw [arenaOf_frame hf]
    exact readArena_apply (by rwa [hdiv])
  rcases hcase with ⟨hm, hptr, -⟩ | ⟨d, hm, -, k, hk, hbk⟩
  · refine ⟨R, hR, by omega, ?_, hread, Or.inl hm⟩
    rw [blockToArena, pageBase_eq (by omega)]
    omega
  · have hd := h.accounts.class_lt hR hm
    refine ⟨R, hR, ?_, ?_, hread, Or.inr ⟨d, hd, hm, k, hk, hbk⟩⟩
    · rw [hbk, block_page hk]
    · rw [hbk, blockToArena_block hlt hk]

theorem sysFree_large (h : HeapInv fit s L) {b : Live} (hb : b ∈ L) (hR : R ∈ s.handed)
    (hto : blockToArena b.ptr = 4096 * R.page)
    (hread : readArena (4096 * R.page) s = .ok (arenaOf s R, s))
    (hm : (arenaOf s R).memDescAddr = none) (hp : b.ptr / 4096 = R.page) :
    Released fit s R (L.erase b) ∧
      sysFree b.ptr s = givePages R.flag R.count (4096 * R.page) s := by
  constructor
  · exact ⟨h.core.ranges, hR, h.core.descs, h.core.flags, h.core.accounts.drop_large hb hR hm hp,
      fun R' hR' => h.below R' (List.mem_of_mem_erase hR')⟩
  · have hcnt : (arenaOf s R).cnt = R.count := by
      rcases h.core.accounts.kinds R hR with ⟨-, hc⟩ | ⟨d, -, hm', -⟩
      · exact hc
      · cases hm.symm.trans hm'
    rw [sysFree, get_bind, hto, bind_of_ok hread]
    simp only [hm, hcnt]
    rw [← h.core.flags R hR]

theorem sysFree_push (h : HeapInv fit s L) {b : Live} {k f : ℕ} (hR : R ∈ s.handed)
    (hm : (arenaOf s R).memDescAddr = some d) (hk : k < blocksOf d) (hbk : b.ptr = block R d k)
    (hf : s.mem.frameOf R.page = some f) {t : HeapState}
    (ht : t = setArenas (setFreeList s d (listsOf s d ++ [b.ptr]))
      (Function.update s.arenas f { s.arenas f with cnt := (s.arenas f).cnt + 1 })) :
    sysFree b.ptr s =
      (if (arenaOf s R).cnt + 1 = blocksOf d then do
        removeBlocks d (4096 * R.page) (blocksOf d) 0
        givePages R.flag 1 (4096 * R.page)
      else pure ()) t := by
  have hd := h.core.accounts.class_lt hR hm
  have hlt := range_page_lt h.core.ranges hR
  have hdiv : 4096 * R.page / 4096 = R.page := by omega
  have hbound := h.below R hR d hm
  have hsmall := (blocksOf_pos hd).2
  have hbpa : (s.descs d).blocksPerArena = blocksOf d := (h.core.descs d hd).2
  rw [arenaOf_frame hf] at hm hbound ⊢
  have hwrap : u32 ((s.arenas f).cnt + 1) = (s.arenas f).cnt + 1 := by
    rw [u32]
    omega
  have hw : ({ s.arenas f with cnt := (s.arenas f).cnt + 1 } : Arena) =
      ⟨some d, (s.arenas f).cnt + 1, (s.arenas f).large⟩ := by rw [← hm]
  rw [sysFree, get_bind, hbk, blockToArena_block hlt hk,
    bind_of_ok (readArena_apply (by rwa [hdiv]))]
  simp only [hm, hwrap, hbpa]
  rw [listAppend, modify_bind, bind_of_ok (writeArena_apply (by rwa [hdiv]) _),
    ← h.core.flags R hR, ht, hbk, hw]
  rfl

theorem sysFree_retire (h : HeapCore fit s L) (hR : R ∈ s.handed)
    (hm : (arenaOf s R).memDescAddr = some d) (hcnt : (arenaOf s R).cnt = blocksOf d)
    (hbelow : ∀ R' ∈ s.handed, R' ≠ R → Below s R') :
    ∃ u, Released fit u R L ∧ (do
        removeBlocks d (4096 * R.page) (blocksOf d) 0
        givePages R.flag 1 (4096 * R.page) : HeapM Unit) s =
      givePages R.flag R.count (4096 * R.page) u := by
  have hd := h.accounts.class_lt hR hm
  have hin : ∀ k < blocksOf d, block R d k ∈ listsOf s d := by
    rw [← listed_full_iff, ← h.accounts.counts R hR d hm, hcnt]
  obtain ⟨l, hrem, hnd, hiff⟩ := removeBlocks_apply (R := R) hd (blocksOf d) s 0 h.descs
    (h.accounts.list_nodup d hd) fun k _ hk => hin k (by omega)
  have hone : R.count = 1 := by
    rcases h.accounts.kinds R hR with ⟨hn, -⟩ | ⟨-, -, -, hc⟩
    · cases hn.symm.trans hm
    · exact hc
  refine ⟨setFreeList s d l, ⟨h.ranges, hR, h.descs.setFreeList d l, h.flags, ?_, ?_⟩, ?_⟩
  · refine h.accounts.retire hR hm hin (fun e => ?_) ?_ fun d' hdd => ?_
    · rw [setFreeList_listsOf, if_pos rfl, hiff]
      exact and_congr_right fun _ =>
        ⟨fun hne k hk => hne k (Nat.zero_le k) (by omega), fun hne k _ hk => hne k (by omega)⟩
    · rw [setFreeList_listsOf, if_pos rfl]
      exact hnd
    · rw [setFreeList_listsOf, if_neg hdd]
  · intro R' hR'
    obtain ⟨hmem, hne⟩ := h.accounts.range_erase.mp hR'
    exact hbelow R' hmem hne
  · rw [bind_of_ok hrem, hone]

/-- Either the block just returns to its list, or its range is ready to be given back. -/
theorem sysFree_run (h : HeapInv fit s L) {b : Live} (hb : b ∈ L) :
    (∃ t, sysFree b.ptr s = .ok ((), t) ∧ HeapInv fit t (L.erase b)) ∨
    ∃ u R, Released fit u R (L.erase b) ∧
      sysFree b.ptr s = givePages R.flag R.count (4096 * R.page) u := by
  obtain ⟨R, hR, hpage, hto, hread, hm | ⟨d, hd, hm, k, hk, hbk⟩⟩ := live_arena h.core hb
  · exact Or.inr ⟨s, R, sysFree_large h hb hR hto hread hm hpage⟩
  · obtain ⟨-, f, hf⟩ := range_first h.core.ranges hR
    obtain ⟨t, ht⟩ : ∃ t, t = setArenas (setFreeList s d (listsOf s d ++ [b.ptr]))
      (Function.update s.arenas f { s.arenas f with cnt := (s.arenas f).cnt + 1 }) := ⟨_, rfl⟩
    obtain ⟨hcore, hmt, hcnt, hold⟩ := push_core h.core hb hR hm hk hbk hf ht
    have hbound := h.below R hR d hm
    have hhanded : t.handed = s.handed := by rw [ht]; rfl
    have hothers : ∀ R' ∈ t.handed, R' ≠ R → Below t R' := by
      intro R' hR' hne d' hm'
      rw [hhanded] at hR'
      rw [hold R' hR' hne] at hm' ⊢
      exact h.below R' hR' d' hm'
    rw [sysFree_push h hR hm hk hbk hf ht]
    by_cases hfull : (arenaOf s R).cnt + 1 = blocksOf d
    · obtain ⟨u, hrel, hu⟩ := sysFree_retire hcore (hhanded ▸ hR) hmt (hcnt.trans hfull) hothers
      rw [if_pos hfull]
      exact Or.inr ⟨u, R, hrel, hu⟩
    · rw [if_neg hfull]
      refine Or.inl ⟨t, rfl, hcore, fun R' hR' => ?_⟩
      by_cases hRR : R' = R
      · subst hRR
        intro d' hm'
        rw [hmt, Option.some.injEq] at hm'
        subst hm'
        omega
      · exact hothers R' hR' hRR

theorem sysFree_keeps (h : HeapInv fit s L) {b : Live} (hb : b ∈ L)
    (hrun : sysFree b.ptr s = .ok ((), s')) : HeapInv fit s' (L.erase b) := by
  rcases sysFree_run h hb with ⟨t, ht, hinv⟩ | ⟨u, R, hrel, hu⟩
  · rw [ht] at hrun
    cases hrun
    exact hinv
  · exact givePages_keeps hrel (hu.symm.trans hrun)

/-! ## Assertions on the lists -/

/-- The three assertions of `sys_malloc` and `sys_free` themselves. -/
def ListAssertion (e : Halt) : Prop :=
  e = .assertion .blockOnList ∨ e = .assertion .blockNotOnList ∨ e = .assertion .popElem

theorem load_raises (a : ℕ) : Raises (¬ ListAssertion ·) (load a) := by
  refine raises_get.bind fun s => ?_
  split
  · exact raises_pure _
  · exact raises_throw (by simp [ListAssertion])

theorem store_raises (a : ℕ) (w : Word) : Raises (¬ ListAssertion ·) (store a w) := by
  refine raises_get.bind fun s => ?_
  split
  · exact raises_set _
  · exact raises_throw (by simp [ListAssertion])

theorem zeroPage_raises (a : ℕ) : Raises (¬ ListAssertion ·) (zeroPage a) := by
  refine raises_get.bind fun s => ?_
  split
  · exact raises_set _
  · exact raises_throw (by simp [ListAssertion])

theorem palloc_raises (PF : PoolFlag) : Raises (¬ ListAssertion ·) (palloc PF) := by
  refine raises_get.bind fun s => ?_
  dsimp only
  split
  · exact raises_pure _
  · exact (raises_set _).bind fun _ => raises_pure _

theorem pageTableAdd_raises (v p : ℕ) : Raises (¬ ListAssertion ·) (pageTableAdd v p) := by
  have hput : Raises (¬ ListAssertion ·) (do
      let pte ← load (pteAddr v)
      KernelPools.assert .pteAbsent (present pte = false)
      store (pteAddr v) (pgEntry p)) :=
    (load_raises _).bind fun _ => (raises_ensure (by simp [ListAssertion])).bind
      fun _ => store_raises _ _
  refine (load_raises _).bind fun pde => ?_
  split
  · exact hput
  · exact (palloc_raises _).bind fun _ => (store_raises _ _).bind
      fun _ => (zeroPage_raises _).bind fun _ => hput

theorem mapPages_raises (PF : PoolFlag) (left : ℕ) :
    ∀ v, Raises (¬ ListAssertion ·) (mapPages PF left v) := by
  induction left with
  | zero => exact fun v => raises_pure _
  | succ left ih =>
    intro v
    rw [mapPages]
    refine (palloc_raises PF).bind fun a => ?_
    split
    · exact raises_pure _
    · exact (pageTableAdd_raises _ _).bind fun _ => ih _

theorem vaddrGetPages_raises (PF : PoolFlag) (n : ℕ) :
    Raises (¬ ListAssertion ·) (vaddrGetPages PF n) := by
  refine raises_get.bind fun s => ?_
  dsimp only
  split
  · exact raises_pure _
  · exact (raises_set _).bind fun _ => (raises_ensure (by simp [ListAssertion])).bind
      fun _ => raises_pure _

theorem mallocPages_raises (PF : PoolFlag) (n : ℕ) :
    Raises (¬ ListAssertion ·) (mallocPages PF n) := by
  refine (raises_ensure (by simp [ListAssertion])).bind fun _ =>
    (vaddrGetPages_raises PF n).bind fun v => ?_
  split
  · exact raises_pure _
  · exact (mapPages_raises PF n v).bind fun _ => raises_pure _

theorem takePages_raises (PF : PoolFlag) (n : ℕ) :
    Raises (¬ ListAssertion ·) (takePages PF n) := by
  intro s e hrun
  cases hm : mallocPages PF n s.mem with
  | error e' =>
    rw [takePages_error hm] at hrun
    cases hrun
    exact mallocPages_raises PF n _ _ hm
  | ok r =>
    rw [takePages_apply hm] at hrun
    cases hrun

theorem writeArena_raises (a : ℕ) (w : Arena) : Raises (¬ ListAssertion ·) (writeArena a w) := by
  refine raises_get.bind fun s => ?_
  split
  · exact raises_set _
  · exact raises_throw (by simp [ListAssertion])

theorem clearPages_raises (left : ℕ) : ∀ a, Raises (¬ ListAssertion ·) (clearPages left a) := by
  induction left with
  | zero => exact fun a => raises_pure _
  | succ left ih => exact fun a => (writeArena_raises a _).bind fun _ => ih _

/-! The free lists are not touched on the way to the loop over the new arena. -/

theorem takePages_descs {n v : ℕ} (h : takePages PF n s = .ok (v, s')) : s'.descs = s.descs := by
  cases hm : mallocPages PF n s.mem with
  | error e =>
    rw [takePages_error hm] at h
    cases h
  | ok r =>
    obtain ⟨w, m⟩ := r
    rw [takePages_apply hm] at h
    cases h
    by_cases h0 : v = 0
    · rw [if_pos h0]
    · rw [if_neg h0]

theorem writeArena_descs {a : ℕ} {w : Arena} {u : Unit} (h : writeArena a w s = .ok (u, s')) :
    s'.descs = s.descs := by
  cases hf : s.mem.frameOf (a / 4096) with
  | none =>
    rw [writeArena, get_bind, hf] at h
    cases h
  | some f =>
    rw [writeArena_apply hf] at h
    cases h
    rfl

theorem clearPages_descs (left : ℕ) : ∀ (s : HeapState) (a : ℕ) {u : Unit},
    clearPages left a s = .ok (u, s') → s'.descs = s.descs := by
  induction left with
  | zero =>
    intro s a u h
    cases h
    rfl
  | succ left ih =>
    intro s a u h
    obtain ⟨_, t, hw, h⟩ := bind_ok_iff.mp h
    exact (ih t _ h).trans (writeArena_descs hw)

theorem popBlock_mem {e : ℕ} (h : popBlock d s = .ok (e, s')) : e ∈ listsOf s d := by
  rw [popBlock, get_bind] at h
  cases hl : (s.descs d).freeList with
  | nil =>
    rw [hl] at h
    cases h
  | cons x rest =>
    rw [hl] at h
    obtain ⟨-, s₁, -, h⟩ := bind_ok_iff.mp h
    obtain ⟨hdr, s₂, -, h⟩ := bind_ok_iff.mp h
    obtain ⟨-, s₃, -, h⟩ := bind_ok_iff.mp h
    cases h
    rw [listsOf, hl]
    exact List.mem_cons_self

theorem refill_lists (hr : DescsReady s) (hd : d < 7) (hl : listsOf s d = []) :
    (∀ e, refill PF d s = .error e → ¬ ListAssertion e) ∧
    (refill PF d s = .ok (true, s') →
      ∃ v, listsOf s' d = (List.range (blocksOf d)).map (arenaToBlock v (blockSizeOf d))) := by
  have hsplit : ∀ {t t₁ t₂ : HeapState} {v : ℕ} {u w : Unit} {hdr : Arena},
      takePages PF 1 s = .ok (v, t) → clearPages 1 v t = .ok (u, t₁) →
      writeArena v hdr t₁ = .ok (w, t₂) →
      splitArena d v (t₁.descs d).blocksPerArena 0 t₂ = .ok ((), setFreeList t₂ d
        ((List.range (blocksOf d)).map (arenaToBlock v (blockSizeOf d)))) := by
    intro t t₁ t₂ v u w hdr h₁ h₂ h₃
    have hs₁ : t₁.descs = s.descs := (clearPages_descs 1 t v h₂).trans (takePages_descs h₁)
    have hs₂ : t₂.descs = s.descs := (writeArena_descs h₃).trans hs₁
    have hready : DescsReady t₂ := by
      intro d' hd'
      rw [hs₂]
      exact hr d' hd'
    rw [hs₁, (hr d hd).2, splitArena_apply hd (blocksOf d) t₂ 0 hready, Nat.zero_add]
    rw [listsOf, hs₂]
    exact hl
  constructor
  · intro e h
    rcases bind_error_iff.mp h with h | ⟨v, t, ht, h⟩
    · exact takePages_raises _ _ _ _ h
    split at h
    · cases h
    rcases bind_error_iff.mp h with h | ⟨u, t₁, ht₁, h⟩
    · exact clearPages_raises _ _ _ _ h
    rw [get_bind] at h
    rcases bind_error_iff.mp h with h | ⟨w, t₂, ht₂, h⟩
    · exact writeArena_raises _ _ _ _ h
    · rw [bind_of_ok (hsplit ht ht₁ ht₂)] at h
      cases h
  · intro h
    obtain ⟨v, t, ht, h⟩ := bind_ok_iff.mp h
    split at h
    · cases h
    obtain ⟨u, t₁, ht₁, h⟩ := bind_ok_iff.mp h
    rw [get_bind] at h
    obtain ⟨w, t₂, ht₂, h⟩ := bind_ok_iff.mp h
    rw [bind_of_ok (hsplit ht ht₁ ht₂)] at h
    cases h
    exact ⟨v, by rw [setFreeList_listsOf, if_pos rfl]⟩

section Memory

variable {P : MemState → Prop}

def OnMem (P : MemState → Prop) (s : HeapState) : Prop := P s.mem

theorem readArena_mem (a : ℕ) : Triple (OnMem P) (readArena a) fun _ => OnMem P := by
  rw [readArena]
  refine triple_get_bind fun t ht => ?_
  split
  · exact triple_pure_state ht
  · exact triple_throw

theorem writeArena_mem (a : ℕ) (h : Arena) :
    Triple (OnMem P) (writeArena a h) fun _ => OnMem P := by
  rw [writeArena]
  refine triple_get_bind fun t ht => ?_
  split
  · exact triple_set ht
  · exact triple_throw

theorem clearPages_mem (left : ℕ) : ∀ a : ℕ,
    Triple (OnMem P) (clearPages left a) fun _ => OnMem P := by
  induction left with
  | zero => exact fun a => triple_pure fun _ ht => ht
  | succ left ih => exact fun a => Triple.bind (writeArena_mem a _) fun _ => ih _

theorem listAppend_mem (d e : ℕ) : Triple (OnMem P) (listAppend d e) fun _ => OnMem P :=
  triple_modify fun _ ht => ht

theorem listRemove_mem (d e : ℕ) : Triple (OnMem P) (listRemove d e) fun _ => OnMem P :=
  triple_modify fun _ ht => ht

theorem splitArena_mem (a left : ℕ) : ∀ i : ℕ,
    Triple (OnMem P) (splitArena d a left i) fun _ => OnMem P := by
  induction left with
  | zero => exact fun i => triple_pure fun _ ht => ht
  | succ left ih =>
    intro i
    rw [splitArena]
    refine triple_get_bind fun t ht => triple_ensure_bind fun _ => ?_
    exact Triple.bind ((listAppend_mem _ _).of_state ht) fun _ => ih _

theorem removeBlocks_mem (a left : ℕ) : ∀ i : ℕ,
    Triple (OnMem P) (removeBlocks d a left i) fun _ => OnMem P := by
  induction left with
  | zero => exact fun i => triple_pure fun _ ht => ht
  | succ left ih =>
    intro i
    rw [removeBlocks]
    refine triple_get_bind fun t ht => triple_ensure_bind fun _ => ?_
    exact Triple.bind ((listRemove_mem _ _).of_state ht) fun _ => ih _

theorem popBlock_keeps_mem (d : ℕ) : Triple (OnMem P) (popBlock d) fun _ => OnMem P := by
  rw [popBlock]
  refine triple_get_bind fun t ht => ?_
  split
  · exact triple_throw
  · refine Triple.bind (Q := fun _ => OnMem P) (triple_set ht) fun _ => ?_
    exact Triple.bind (readArena_mem _) fun _ => Triple.bind (writeArena_mem _ _) fun _ =>
      triple_pure fun _ hu => hu

theorem sysMalloc_mem {n : ℕ} (hP : P s.mem)
    (hlarge : n > 1024 → ∀ v m, mallocPages (threadFlag s.mem) (divRoundUp n 4096) s.mem =
      .ok (v, m) → P m)
    (hsmall : n ≤ 1024 → listsOf s (findDesc s.descs n 7 0) = [] → ∀ v m,
      mallocPages (threadFlag s.mem) 1 s.mem = .ok (v, m) → P m) :
    Triple (· = s) (sysMalloc n) fun _ => OnMem P := by
  have htake : ∀ k, (∀ v m, mallocPages (threadFlag s.mem) k s.mem = .ok (v, m) → P m) →
      Triple (· = s) (takePages (threadFlag s.mem) k) fun _ => OnMem P := by
    rintro k hk u v t rfl hrun
    cases hm : mallocPages (threadFlag u.mem) k u.mem with
    | error e =>
      rw [takePages_error hm] at hrun
      cases hrun
    | ok r =>
      rw [takePages_apply hm] at hrun
      cases hrun
      have := hk _ _ hm
      split <;> exact this
  rw [sysMalloc]
  refine triple_get_bind ?_
  rintro t rfl
  by_cases hn : n > 1024
  · rw [if_pos hn, sysMallocLarge]
    refine Triple.bind (htake _ (hlarge hn)) fun v => triple_ite (triple_pure fun _ ht => ht) ?_
    exact Triple.bind (clearPages_mem _ _) fun _ => Triple.bind (writeArena_mem _ _) fun _ =>
      triple_pure fun _ ht => ht
  · rw [if_neg hn, sysMallocSmall]
    refine triple_get_bind ?_
    rintro t rfl
    by_cases hl : (t.descs (findDesc t.descs n 7 0)).freeList = []
    · rw [if_pos hl, refill]
      refine Triple.bind (Q := fun _ => OnMem P) (Triple.bind (htake _ (hsmall (by omega) hl))
        fun v => triple_ite (triple_pure fun _ ht => ht) ?_)
        fun ready => triple_ite (popBlock_keeps_mem _) (triple_pure fun _ ht => ht)
      refine Triple.bind (clearPages_mem _ _) fun _ => triple_get_bind fun u hu => ?_
      exact Triple.bind ((writeArena_mem _ _).of_state hu) fun _ =>
        Triple.bind (splitArena_mem _ _ _) fun _ => triple_pure fun _ ht => ht
    · rw [if_neg hl, pure_bind]
      exact (popBlock_keeps_mem _).of_state hP

/-- The page tables that the call's page request may need are covered by kernel frames. -/
def CallTables (s : HeapState) (n : ℕ) : Prop :=
  if n > 1024 then MallocTables s.mem (threadFlag s.mem) (divRoundUp n 4096)
  else listsOf s (findDesc s.descs n 7 0) = [] → MallocTables s.mem (threadFlag s.mem) 1

theorem callFits_of_topFree (h : TopFree s.mem) {n : ℕ} (ht : CallTables s n) : CallFits s n := by
  rw [CallTables] at ht
  rw [CallFits]
  split at ht
  case isTrue hn =>
    rw [if_pos hn]
    exact h.mallocFits ht
  case isFalse hn =>
    rw [if_neg hn]
    exact fun hl => h.mallocFits (ht hl)

theorem sysMalloc_topFree (h : HeapInv fit s L) (ht : TopFree s.mem) {n : ℕ}
    (hfit : CallFits s n) : Triple (· = s) (sysMalloc n) fun _ => OnMem TopFree := by
  refine sysMalloc_mem ht (fun hn v m hm => ?_) fun hn hl v m hm => ?_
  · rw [CallFits, if_pos hn] at hfit
    exact mallocPages_topFree ht h.core.ranges.pool hfit hm
  · rw [CallFits, if_neg (by omega)] at hfit
    exact mallocPages_topFree ht h.core.ranges.pool (hfit hl) hm

theorem givePages_topFree (n a : ℕ) :
    Triple (OnMem TopFree) (givePages PF n a) fun _ => OnMem TopFree := by
  rintro u ⟨⟩ t ht hrun
  cases hm : freePages PF n a u.mem with
  | error e =>
    rw [givePages_error hm] at hrun
    cases hrun
  | ok r =>
    rw [givePages_apply hm] at hrun
    cases hrun
    exact freePages_topFree ht hm

theorem sysFree_topFree (p : ℕ) :
    Triple (OnMem TopFree) (sysFree p) fun _ => OnMem TopFree := by
  rw [sysFree]
  refine triple_get_bind fun t ht => ?_
  refine Triple.bind ((readArena_mem _).of_state ht) fun h => ?_
  split
  · exact givePages_topFree _ _
  · refine Triple.bind (listAppend_mem _ _) fun _ => ?_
    refine Triple.bind (writeArena_mem _ _) fun _ => triple_ite ?_ (triple_pure fun _ hu => hu)
    exact Triple.bind (removeBlocks_mem _ _ _) fun _ => givePages_topFree _ _

end Memory

end KernelHeapCalls
