import Leeos.KernelPoolRoundTrip
import Leeos.KernelHeapRuns

/-!
# Requests that fail

`malloc_pages` marks its virtual range first and takes frames one by one. When the pool runs dry,
or when the address it has computed is 0, it returns 0 and undoes nothing. Only a request for which
no run of free pages is found leaves everything as it was.
-/
namespace KernelPoolExhaustion

open ExecRules KernelBitmap KernelPaging KernelPools KernelPoolSteps KernelPoolInvariant
  KernelPoolMapping KernelPoolCalls KernelPoolLoop KernelPoolRanges KernelPoolRoundTrip
  KernelHeap KernelHeapAccounts KernelHeapSteps KernelHeapCalls KernelHeapRuns LibStdint

variable {s s' : MemState} {PF : PoolFlag}

/-- Bitmaps and page-table entries are as before. -/
structure Restored (s s' : MemState) : Prop where
  vaddr_bits : ∀ PF, ∀ i < s.vaddrLen PF, s'.vaddrBit PF i = s.vaddrBit PF i
  pool_bits : ∀ PF, ∀ i < s.poolLen PF, s'.poolBit PF i = s.poolBit PF i
  entries : s'.frames = s.frames

theorem Restored.refl (s : MemState) : Restored s s := ⟨fun _ _ _ => rfl, fun _ _ _ => rfl, rfl⟩

/-! ## `malloc_pages` -/

/-- A failed call that had found a run leaves the run's first page marked. -/
theorem mallocPages_restored_iff {n : ℕ} (hrun : mallocPages PF n s = .ok (0, s')) :
    Restored s s' ↔ vaddrRun s PF n = none := by
  have hn := mallocPages_count hrun
  constructor
  · intro hres
    by_contra hsome
    obtain ⟨r, hr⟩ := Option.ne_none_iff_exists'.mp hsome
    obtain ⟨-, hlen, hone, hclear⟩ := vaddrRun_facts hn.1 hr
    have hgrow := mallocPages_grows hr hrun
    have hlt : r < s.vaddrLen PF := by omega
    have hsame : s'.vaddrs PF = s.vaddrs PF := by
      simp only [MemState.vaddrs, hgrow.layout, hgrow.curr]
      rfl
    have hset : s'.vaddrBit PF r = true := by
      rw [vaddrBit_eq, vaddrPos, hsame]
      refine hgrow.bits _ ?_
      have hmark : (setVaddr s PF r n true).vaddrBit PF r = true := by
        rw [setVaddr_vaddrBit, if_pos (by omega)]
      exact hmark
    have hfree : s.vaddrBit PF r = false := hclear 0 (by omega)
    rw [hres.vaddr_bits PF r hlt, hfree] at hset
    cases hset
  · intro hnone
    rw [mallocPages_no_run ⟨hn.1, hn.2⟩ hnone] at hrun
    cases hrun
    exact Restored.refl s

/-! ## `sys_malloc` -/

section SysMalloc

variable {h h' : HeapState}

/-- The page request that `sys_malloc` makes for `size` bytes. -/
def pageRequest (h : HeapState) (size : ℕ) : Option ℕ :=
  if size > 1024 then some (divRoundUp size 4096)
  else if listsOf h (findDesc h.descs size 7 0) = [] then some 1 else none

structure HeapReady (h : HeapState) : Prop where
  descs : DescsReady h
  blocks : ∀ d < 7, 0 ∉ listsOf h d

/-- The heap's own data and the allocator's are as before. -/
structure HeapRestored (h h' : HeapState) : Prop where
  mem : Restored h.mem h'.mem
  arenas : h'.arenas = h.arenas
  descs : h'.descs = h.descs
  handed : h'.handed = h.handed

theorem ready_of_inv {fit : ℕ → ℕ → Prop} {L : List Live} (hi : HeapInv fit h L) : HeapReady h where
  descs := hi.core.descs
  blocks d hd h0 := by
    obtain ⟨R, -, -, k, -, hk⟩ := hi.core.accounts.list_blocks d hd 0 h0
    rw [block_eq] at hk
    omega

theorem takePages_zero {n : ℕ} (ht : takePages PF n h = .ok (0, h')) :
    ∃ m, mallocPages PF n h.mem = .ok (0, m) ∧ h' = { h with mem := m } := by
  cases hm : mallocPages PF n h.mem with
  | error e =>
    rw [takePages_error hm] at ht
    cases ht
  | ok r =>
    obtain ⟨v, m⟩ := r
    rw [takePages_apply hm] at ht
    cases ht
    exact ⟨m, rfl, by rw [if_pos rfl]⟩

theorem sysMalloc_zero (hr : HeapReady h) {size : ℕ} (hrun : sysMalloc size h = .ok (0, h')) :
    ∃ n m, pageRequest h size = some n ∧ mallocPages (threadFlag h.mem) n h.mem = .ok (0, m) ∧
      h' = { h with mem := m } := by
  rw [sysMalloc, get_bind] at hrun
  by_cases hn : size > 1024
  · rw [if_pos hn, sysMallocLarge] at hrun
    obtain ⟨v, t, htake, hrun⟩ := bind_ok_iff.mp hrun
    by_cases hv : v = 0
    · rw [if_pos hv] at hrun
      cases hrun
      obtain ⟨m, hm, ht⟩ := takePages_zero (hv ▸ htake)
      exact ⟨_, m, by rw [pageRequest, if_pos hn], hm, ht⟩
    · rw [if_neg hv] at hrun
      obtain ⟨-, t₁, -, hrun⟩ := bind_ok_iff.mp hrun
      obtain ⟨-, t₂, -, hrun⟩ := bind_ok_iff.mp hrun
      have h0 : v + arenaSize = 0 := congrArg Prod.fst (Except.ok.inj hrun)
      simp [arenaSize] at h0
  · rw [if_neg hn] at hrun
    obtain ⟨hd, -⟩ := findDesc_spec (fun d hd => (hr.descs d hd).1)
      (show size ≤ 1024 by omega) 7 0 (by omega) rfl
    rcases sysMallocSmall_ok hrun with ⟨hl, ⟨-, hrefill⟩ | ⟨t, hrefill, hpop⟩⟩ | ⟨-, hpop⟩
    · rw [refill] at hrefill
      obtain ⟨v, t₁, htake, hrefill⟩ := bind_ok_iff.mp hrefill
      by_cases hv : v = 0
      · rw [if_pos hv] at hrefill
        cases hrefill
        obtain ⟨m, hm, ht⟩ := takePages_zero (hv ▸ htake)
        exact ⟨1, m, by rw [pageRequest, if_neg hn, if_pos hl], hm, ht⟩
      · rw [if_neg hv] at hrefill
        obtain ⟨-, t₂, -, hrefill⟩ := bind_ok_iff.mp hrefill
        rw [get_bind] at hrefill
        obtain ⟨-, t₃, -, hrefill⟩ := bind_ok_iff.mp hrefill
        obtain ⟨-, t₄, -, hrefill⟩ := bind_ok_iff.mp hrefill
        cases hrefill
    · obtain ⟨v, hlist⟩ := (refill_lists hr.descs hd hl).2 hrefill
      have hmem := popBlock_mem hpop
      rw [hlist, List.mem_map] at hmem
      obtain ⟨k, -, hk⟩ := hmem
      simp [arenaToBlock, arenaSize] at hk
    · exact (hr.blocks _ hd (popBlock_mem hpop)).elim

theorem sysMalloc_restored_iff (hr : HeapReady h) {size : ℕ}
    (hrun : sysMalloc size h = .ok (0, h')) : HeapRestored h h' ↔
      ∀ n, pageRequest h size = some n → vaddrRun h.mem (threadFlag h.mem) n = none := by
  obtain ⟨n, m, hreq, hm, rfl⟩ := sysMalloc_zero hr hrun
  have hiff := mallocPages_restored_iff hm
  constructor
  · intro hres k hk
    rw [hreq, Option.some.injEq] at hk
    exact hk ▸ hiff.mp hres.mem
  · intro hnone
    exact ⟨hiff.mpr (hnone n hreq), rfl, rfl, rfl⟩

end SysMalloc

/-- A failed request leaves the allocator as it was exactly when it found no run of free pages. -/
theorem failure_restores_iff (s : MemState) (PF : PoolFlag) (n : ℕ) :
    (∀ s', mallocPages PF n s = .ok (0, s') → (Restored s s' ↔ vaddrRun s PF n = none)) ∧
      ∀ heap heap' size, HeapReady heap → sysMalloc size heap = .ok (0, heap') →
        (HeapRestored heap heap' ↔ ∀ k, pageRequest heap size = some k →
          vaddrRun heap.mem (threadFlag heap.mem) k = none) :=
  ⟨fun _ => mallocPages_restored_iff, fun _ _ _ hr => sysMalloc_restored_iff hr⟩

theorem ready_sampleHeap : HeapReady sampleHeap := by
  have hinv : HeapInv WithHeader sampleHeap [] := start_inv start_sampleHeap
  exact ready_of_inv hinv

/-- Ten kernel pages do not fit into a virtual bitmap of eight bits, nor do nine of a process into
a pool of eight frames. -/
theorem failure_restores_ten_pages : Restored (sampleMachine 16) (sampleMachine 16) ∧
    ∃ h', sysMalloc 36864 sampleHeap = .ok (0, h') ∧ ¬ HeapRestored sampleHeap h' := by
  have hnone : vaddrRun (sampleMachine 16) .kernel 10 = none := by decide +kernel
  have hrun : yields (sysMalloc 36864) sampleHeap (fun p _ => p == 0) = true := by decide +kernel
  obtain ⟨p, h', hs, hp⟩ := yields_iff.mp hrun
  cases beq_iff_eq.mp hp
  obtain ⟨hpages, hheap⟩ := failure_restores_iff (sampleMachine 16) .kernel 10
  refine ⟨(hpages _ (mallocPages_no_run (by omega) hnone)).mpr hnone, h', hs, fun hres => ?_⟩
  have hnine : pageRequest sampleHeap 36864 = some 9 := by decide +kernel
  have hzero : vaddrRun sampleHeap.mem (threadFlag sampleHeap.mem) 9 = some 0 := by decide +kernel
  cases hzero.symm.trans ((hheap sampleHeap h' 36864 ready_sampleHeap hs).mp hres 9 hnine)

/-- Nine user pages are marked and eight of them mapped before the pool of eight is empty. -/
theorem failure_leaves_nine_pages : Start (sampleMachine 16, []) ∧
    ∃ s', mallocPages .user 9 (sampleMachine 16) = .ok (0, s') ∧
      ¬ Restored (sampleMachine 16) s' := by
  have hrun : yields (mallocPages .user 9) (sampleMachine 16)
      (fun v s => v == 0 && s.vaddrBit .user 0 && s.frameOf 0x8048 == some 0x208) = true := by
    decide +kernel
  obtain ⟨v, s', hs, hv⟩ := yields_iff.mp hrun
  simp only [Bool.and_eq_true, beq_iff_eq] at hv
  obtain ⟨⟨rfl, hbit⟩, -⟩ := hv
  refine ⟨start_sampleMachine 16, s', hs, fun hres => ?_⟩
  have hfree : (sampleMachine 16).vaddrBit .user 0 = false := by decide +kernel
  have := hres.vaddr_bits .user 0 (by decide +kernel)
  rw [hbit, hfree] at this
  cases this

end KernelPoolExhaustion
