import Leeos.KernelPoolCalls

/-!
# Releasing a range of pages (`free_pages`)

The loop releases one page after the other and reads the entry of the next one in advance, so
that after the last page it reads the entry of a page that does not belong to the range. The
pool of the first frame selects the loop; the user pool's first frame selects the wrong one.
-/
namespace KernelPoolRelease

open ExecRules RunSearch KernelBitmap KernelPaging KernelPools KernelPoolSteps
  KernelPoolInvariant KernelPoolMapping KernelPoolCalls LibStdint

variable {s s' : MemState} {PF : PoolFlag}

/-- Pages `p` to `p + n - 1` map the pool's frames `g 0`, …, all of which `pfree` can find. -/
def FreeReady (s : MemState) (PF : PoolFlag) (p n : ℕ) (g : ℕ → ℕ) : Prop :=
  ∀ j < n, PF.Managed (p + j) ∧ s.frameOf (p + j) = some (s.poolStart PF + g j) ∧
    g j < s.poolLen PF ∧ s.poolStart PF + g j ≠ s.pageDir ∧ (PF = .user → 0 < g j)

/-- The pages are unmapped and exactly their frames' bits are cleared. -/
structure PagesReleased (s s' : MemState) (PF : PoolFlag) (p n : ℕ) (g : ℕ → ℕ) : Prop where
  layout : s'.layout = s.layout
  curr : s'.curr = s.curr
  pageDir : s'.pageDir = s.pageDir
  tables : ∀ d, s'.tableOf d = s.tableOf d
  frames : ∀ q, Plain q → s'.frameOf q = if p ≤ q ∧ q < p + n then none else s.frameOf q
  cleared : ∀ j < n, memBit s'.bytes (poolPos s PF (g j)) = false
  kept : ∀ x, (∀ j < n, x ≠ poolPos s PF (g j)) → memBit s'.bytes x = memBit s.bytes x

theorem pages_released_one {p i : ℕ} {g : ℕ → ℕ} (hg : g 0 = i)
    (k : PageReleased s s' PF p i) : PagesReleased s s' PF p 1 g where
  layout := k.layout
  curr := k.curr
  pageDir := k.pageDir
  tables := k.tables
  frames q hq := by
    rw [k.frames q hq]
    by_cases h : q = p
    · rw [if_pos h, if_pos (by omega)]
    · rw [if_neg h, if_neg (by omega)]
  cleared j hj := by
    rw [show j = 0 by omega, hg, k.bytes, memBit_dropFrame, if_pos rfl]
  kept x hx := by
    rw [k.bytes, memBit_dropFrame, if_neg (hg ▸ hx 0 (by omega))]

theorem pages_released_cons {t : MemState} {p i n : ℕ} {g : ℕ → ℕ} (hg : g 0 = i)
    (a : PageReleased s s' PF p i) (b : PagesReleased s' t PF (p + 1) n fun j => g (j + 1)) :
    PagesReleased s t PF p (n + 1) g := by
  have hpos : ∀ j, poolPos s' PF j = poolPos s PF j := poolPos_of_layout a.layout PF
  constructor
  case layout => exact b.layout.trans a.layout
  case curr => exact b.curr.trans a.curr
  case pageDir => exact b.pageDir.trans a.pageDir
  case tables => exact fun d => (b.tables d).trans (a.tables d)
  case frames =>
    intro q hq
    rw [b.frames q hq, a.frames q hq]
    by_cases hqp : q = p
    · rw [if_neg (by omega), if_pos hqp, if_pos (by omega)]
    · by_cases hin : p + 1 ≤ q ∧ q < p + 1 + n
      · rw [if_pos hin, if_pos (by omega)]
      · rw [if_neg hin, if_neg hqp, if_neg (by omega)]
  case cleared =>
    intro j hj
    by_cases hlater : ∃ m < n, poolPos s PF (g j) = poolPos s' PF (g (m + 1))
    · obtain ⟨m, hm, he⟩ := hlater
      rw [he]
      exact b.cleared m hm
    · simp only [not_exists, not_and] at hlater
      rw [b.kept _ hlater, a.bytes, memBit_dropFrame, if_pos]
      have : j = 0 := by
        by_contra hj0
        refine hlater (j - 1) (by omega) ?_
        rw [hpos, show j - 1 + 1 = j by omega]
      rw [this, hg]
  case kept =>
    intro x hx
    rw [b.kept x fun j hj => hpos _ ▸ hx (j + 1) (by omega), a.bytes, memBit_dropFrame,
      if_neg (hg ▸ hx 0 (by omega))]

theorem freeLoop_turn (h : PoolInv s) {a : Assertion} {ok : MemLayout → ℕ → Bool} {p n : ℕ}
    {g : ℕ → ℕ} (hr : FreeReady s PF p (n + 1) g)
    (hok : ∀ i < s.poolLen PF, (PF = .user → 0 < i) →
      ok s.layout (4096 * (s.poolStart PF + i)) = true) :
    ∃ s₁, PoolInv s₁ ∧ PageReleased s s₁ PF p (g 0) ∧
      freeLoop a ok (n + 1) (4096 * p) (4096 * (s.poolStart PF + g 0)) s =
        (do let phyAddr ← addrVirtualToPhy (4096 * (p + 1))
            freeLoop a ok n (4096 * (p + 1)) phyAddr) s₁ := by
  obtain ⟨hm, hf, hlt, hdir, hu⟩ := hr 0 (by omega)
  rw [Nat.add_zero] at hm hf
  have hpl := managed_plain hm
  have hp20 : p + 1 < 2 ^ 20 := by
    simp only [Plain] at hpl
    omega
  obtain ⟨t, ht⟩ : ∃ t, s.tableOf (p / 1024) = some t := by
    rw [MemState.frameOf, KernelPaging.frameOf, KernelPaging.entryOf] at hf
    cases ht : s.tableOf (p / 1024) with
    | some t => exact ⟨t, rfl⟩
    | none =>
      rw [MemState.tableOf_eq ht] at hf
      cases hf
  have hrel : PageReleased s (unmapEntry (dropFrame s PF (g 0)) t p) PF p (g 0) :=
    h.page_released hpl ht
  refine ⟨_, h.release hrel hm hlt hf hdir, hrel, ?_⟩
  rw [freeLoop, get_bind, assert, ensure_bind_of_true (hok _ hlt hu),
    bind_of_ok (pfree_apply hlt hu)]
  rw [bind_of_ok (pageTablePteRemove_apply (s := dropFrame s PF (g 0)) h.self_mapped
    (by omega) ht)]
  rw [u32_next_page (by omega)]

theorem FreeReady.next {p n : ℕ} {g : ℕ → ℕ} (hr : FreeReady s PF p (n + 1) g)
    (k : PageReleased s s' PF p (g 0)) : FreeReady s' PF (p + 1) n fun j => g (j + 1) := by
  intro j hj
  obtain ⟨hm, hf, hlt, hdir, hu⟩ := hr (j + 1) (by omega)
  rw [show p + (j + 1) = p + 1 + j by omega] at hm hf
  refine ⟨hm, ?_, ?_, ?_, hu⟩
  · rw [k.frames _ (managed_plain hm), if_neg (by omega), hf, poolStart_of_layout k.layout]
  · rwa [poolLen_of_layout k.layout]
  · rwa [poolStart_of_layout k.layout, k.pageDir]

theorem freeLoop_spec (a : Assertion) (ok : MemLayout → ℕ → Bool) (n : ℕ) :
    ∀ (s : MemState) (p : ℕ) (g : ℕ → ℕ), PoolInv s → FreeReady s PF p (n + 1) g →
    (∀ i < s.poolLen PF, (PF = .user → 0 < i) →
      ok s.layout (4096 * (s.poolStart PF + i)) = true) →
    ∃ s', PoolInv s' ∧ PagesReleased s s' PF p (n + 1) g ∧
      freeLoop a ok (n + 1) (4096 * p) (4096 * (s.poolStart PF + g 0)) s =
        if s.tableOf ((p + (n + 1)) / 1024) = none
        then .error (.pageFault (pteAddr (4096 * (p + (n + 1))))) else .ok ((), s') := by
  induction n with
  | zero =>
    intro s p g h hr hok
    obtain ⟨s₁, hinv, hrel, hrun⟩ := freeLoop_turn (a := a) h hr hok
    have hp := managed_plain (hr 0 (by omega)).1
    simp only [Plain] at hp
    refine ⟨s₁, hinv, pages_released_one rfl hrel, ?_⟩
    rw [hrun, show p + (0 + 1) = p + 1 by omega]
    cases ht : s.tableOf ((p + 1) / 1024) with
    | none =>
      rw [bind_of_error (addrVirtualToPhy_fault hinv.self_mapped (by omega)
        ((hrel.tables _).trans ht))]
      rfl
    | some t =>
      rw [bind_of_ok (addrVirtualToPhy_apply hinv.self_mapped (by omega)
        ((hrel.tables _).trans ht))]
      rfl
  | succ n ih =>
    intro s p g h hr hok
    obtain ⟨s₁, hinv, hrel, hrun⟩ := freeLoop_turn (a := a) h hr hok
    have hnext := hr.next hrel
    have hm := (hnext 0 (by omega)).1
    have hp := managed_plain hm
    simp only [Plain] at hp
    obtain ⟨s', hinv', hrel', hrun'⟩ := ih s₁ (p + 1) _ hinv hnext
      (by
        rw [poolLen_of_layout hrel.layout, poolStart_of_layout hrel.layout, hrel.layout]
        exact hok)
    refine ⟨s', hinv', pages_released_cons rfl hrel hrel', ?_⟩
    have hf := (hnext 0 (by omega)).2.1
    rw [Nat.add_zero] at hf
    rw [hrun, bind_of_ok (addrVirtualToPhy_of_frame hinv.self_mapped (by omega) hf), hrun',
      hrel.tables, show p + 1 + (n + 1) = p + (n + 1 + 1) by omega]

/-! ## The call -/

theorem userPhyOk_pool {i : ℕ} (_ : i < s.poolLen .user) :
    userPhyOk s.layout (4096 * (s.poolStart .user + i)) = true := by
  have ho := pool_order s
  simp only [userPhyOk, decide_eq_true_eq]
  omega

theorem kernelPhyOk_pool {i : ℕ} (hi : i < s.poolLen .kernel) :
    kernelPhyOk s.layout (4096 * (s.poolStart .kernel + i)) = true := by
  have ho := pool_order s
  have hk := poolStart_kernel s
  have hk' := s.layout.kernel_phy
  simp only [kernelPhyOk, decide_eq_true_eq]
  omega

theorem vaddrRemovePages_apply {p n : ℕ} (hb : PF.base ≤ p) (hp : p < 2 ^ 20)
    (h0 : 0 < s.vaddrLen PF) :
    vaddrRemovePages PF n (4096 * p) s = .ok ((), setVaddr s PF (p - PF.base) n false) := by
  have hs := (vaddr_facts s PF h0).1
  rw [vaddrRemovePages, modify_apply]
  have : sub32 (4096 * p) (s.vaddrs PF).vaddrStart / 4096 = p - PF.base := by
    rw [hs, sub32, u32]
    omega
  simp only [this]
  rfl

theorem managed_base {p : ℕ} (h : PF.Managed p) : PF.base ≤ p := by
  cases PF <;> exact h.1

theorem freePages_spec (h : PoolInv s) {p n : ℕ} {g : ℕ → ℕ}
    (hr : FreeReady s PF p (n + 1) g) (h0 : 0 < s.vaddrLen PF)
    (hlen : p - PF.base + (n + 1) ≤ s.vaddrLen PF + 1) :
    ∃ s', PoolInv (setVaddr s' PF (p - PF.base) (n + 1) false) ∧
      PagesReleased s s' PF p (n + 1) g ∧ freePages PF (n + 1) (4096 * p) s =
        if s.tableOf ((p + (n + 1)) / 1024) = none
        then .error (.pageFault (pteAddr (4096 * (p + (n + 1)))))
        else .ok ((), setVaddr s' PF (p - PF.base) (n + 1) false) := by
  obtain ⟨hm, hf, hlt, -, hu⟩ := hr 0 (by omega)
  rw [Nat.add_zero] at hm hf
  have hpl := managed_plain hm
  have hbase := managed_base hm
  have ho := pool_order s
  have hk := poolStart_kernel s
  have hle := poolStart_le s PF
  simp only [Plain] at hpl
  have hloop : ∀ {a : Assertion} {ok : MemLayout → ℕ → Bool} (s' : MemState),
      PoolInv s' → PagesReleased s s' PF p (n + 1) g →
      freeLoop a ok (n + 1) (4096 * p) (4096 * (s.poolStart PF + g 0)) s =
        (if s.tableOf ((p + (n + 1)) / 1024) = none
        then .error (.pageFault (pteAddr (4096 * (p + (n + 1))))) else .ok ((), s')) →
      PoolInv (setVaddr s' PF (p - PF.base) (n + 1) false) ∧
      (freeLoop a ok (n + 1) (4096 * p) (4096 * (s.poolStart PF + g 0)) >>=
        fun _ => vaddrRemovePages PF (n + 1) (4096 * p)) s =
        if s.tableOf ((p + (n + 1)) / 1024) = none
        then .error (.pageFault (pteAddr (4096 * (p + (n + 1)))))
        else .ok ((), setVaddr s' PF (p - PF.base) (n + 1) false) := by
    intro a ok s' hinv hrel hrun
    have hvl : s'.vaddrLen PF = s.vaddrLen PF := by
      simp only [MemState.vaddrLen, MemState.vaddrs, hrel.layout, hrel.curr]
    refine ⟨unmark_inv hinv (by omega) (by omega) fun q hq h₁ h₂ => ?_, ?_⟩
    · rw [hrel.frames q (managed_plain hq), if_pos (by omega)]
    · split at hrun
      case isTrue ht => rw [bind_of_error hrun, if_pos ht]
      case isFalse ht =>
        rw [bind_of_ok hrun, vaddrRemovePages_apply hbase (by omega) (by omega), if_neg ht]
  have hstart : freePages PF (n + 1) (4096 * p) s =
      ((if 4096 * (s.poolStart PF + g 0) > s.layout.userPool.phyStartAddr then
        freeLoop .freePagesUserPhy userPhyOk (n + 1) (4096 * p) (4096 * (s.poolStart PF + g 0))
      else
        freeLoop .freePagesKernelPhy kernelPhyOk (n + 1) (4096 * p)
          (4096 * (s.poolStart PF + g 0))) >>=
        fun _ => vaddrRemovePages PF (n + 1) (4096 * p)) s := by
    rw [freePages, assert, ensure_bind_of_true ⟨by omega, by omega⟩,
      bind_of_ok (addrVirtualToPhy_of_frame h.self_mapped (by omega) hf), assert,
      ensure_bind_of_true ⟨by omega, by omega⟩, get_bind]
    split <;> rfl
  rw [hstart]
  cases PF with
  | user =>
    have := hu rfl
    obtain ⟨s', hinv, hrel, hrun⟩ := freeLoop_spec .freePagesUserPhy userPhyOk n s p g h hr
      fun i hi _ => userPhyOk_pool hi
    obtain ⟨h₁, h₂⟩ := hloop s' hinv hrel hrun
    exact ⟨s', h₁, hrel, by rw [if_pos (by omega)]; exact h₂⟩
  | kernel =>
    obtain ⟨s', hinv, hrel, hrun⟩ := freeLoop_spec .freePagesKernelPhy kernelPhyOk n s p g h hr
      fun i hi _ => kernelPhyOk_pool hi
    obtain ⟨h₁, h₂⟩ := hloop s' hinv hrel hrun
    exact ⟨s', h₁, hrel, by rw [if_neg (by omega)]; exact h₂⟩

theorem freePages_first_user_frame (h : PoolInv s) (PF : PoolFlag) {p n : ℕ}
    (hp : Plain p) (hf : s.frameOf p = some (s.poolStart .user)) :
    freePages PF (n + 1) (4096 * p) s = .error (.assertion .freePagesKernelPhy) := by
  have ho := pool_order s
  simp only [Plain] at hp
  rw [freePages, assert, ensure_bind_of_true ⟨by omega, by omega⟩,
    bind_of_ok (addrVirtualToPhy_of_frame h.self_mapped (by omega) hf), assert,
    ensure_bind_of_true ⟨by omega, by omega⟩, get_bind, if_neg (by omega), bind_of_error]
  rw [freeLoop, get_bind, assert, ensure_bind_of_false]
  simp only [kernelPhyOk, decide_eq_true_eq]
  omega

/-! ## The bits of a process's virtual pool -/

section Bits

variable {u : MemState}

/-- The step changes no bit of the kernel heap's pages, on which the processes' bitmaps lie. -/
structure HeapBitsKept (u s : MemState) : Prop where
  layout : s.layout = u.layout
  curr : s.curr = u.curr
  bits : ∀ x, 8 * kernelHeapStart ≤ x → memBit s.bytes x = memBit u.bytes x

theorem sub32_page (a b : ℕ) : sub32 a b / 4096 < 2 ^ 20 := by
  rw [sub32, u32]
  omega

theorem pfree_keeps (phyAddr : ℕ) : Triple (HeapBitsKept u) (pfree phyAddr) fun _ =>
    HeapBitsKept u := by
  have hset : ∀ (t : MemState) (PF : PoolFlag) (i : ℕ), i < 2 ^ 20 → HeapBitsKept u t →
      HeapBitsKept u (dropFrame t PF i) := by
    intro t PF i hi ht
    refine ⟨ht.layout, ht.curr, fun x hx => ?_⟩
    obtain ⟨nk, nu, hk, -, -, -, -, -, -, hkb, hub, -⟩ := layout_facts t.layout
    rw [memBit_dropFrame, if_neg, ht.bits x hx]
    simp only [poolPos, Bitmap.pos, MemState.pool, kernelHeapStart] at *
    cases PF <;> simp only <;> omega
  rw [pfree]
  refine triple_get_bind fun t ht => triple_ite ?_ ?_
  · exact triple_set (hset t .user _ (sub32_page _ _) ht)
  · exact triple_set (hset t .kernel _ (sub32_page _ _) ht)

theorem load_keeps (a : ℕ) : Triple (HeapBitsKept u) (load a) fun _ => HeapBitsKept u := by
  rw [load]
  refine triple_get_bind fun t ht => ?_
  split
  · exact triple_pure_state ht
  · exact triple_throw

theorem store_keeps (a : ℕ) (w : Word) :
    Triple (HeapBitsKept u) (store a w) fun _ => HeapBitsKept u := by
  rw [store]
  refine triple_get_bind fun t ht => ?_
  split
  · exact triple_set ⟨ht.layout, ht.curr, ht.bits⟩
  · exact triple_throw

theorem addrVirtualToPhy_keeps (v : ℕ) :
    Triple (HeapBitsKept u) (addrVirtualToPhy v) fun _ => HeapBitsKept u :=
  Triple.bind (load_keeps _) fun _ => triple_pure fun _ ht => ht

theorem freeLoop_keeps (a : Assertion) (ok : MemLayout → ℕ → Bool) (left : ℕ) : ∀ v phyAddr : ℕ,
    Triple (HeapBitsKept u) (freeLoop a ok left v phyAddr) fun _ => HeapBitsKept u := by
  induction left with
  | zero => exact fun v phyAddr => triple_pure fun _ ht => ht
  | succ left ih =>
    intro v phyAddr
    rw [freeLoop]
    refine triple_get_bind fun t ht => triple_ensure_bind fun _ => Triple.of_state ?_ ht
    have hremove : Triple (HeapBitsKept u) (pageTablePteRemove v) fun _ => HeapBitsKept u :=
      Triple.bind (load_keeps _) fun _ => store_keeps _ _
    exact Triple.bind (pfree_keeps phyAddr) fun _ => Triple.bind hremove fun _ =>
      Triple.bind (addrVirtualToPhy_keeps _) fun _ => ih _ _

theorem freePages_bits {n v : ℕ} (hrun : freePages PF n v s = .ok ((), s')) :
    ∃ t, HeapBitsKept s t ∧
      s' = setVaddr t PF (sub32 v (s.vaddrs PF).vaddrStart / 4096) n false := by
  have hremoved : ∀ t, HeapBitsKept s t → vaddrRemovePages PF n v t = .ok ((), s') →
      ∃ t, HeapBitsKept s t ∧
        s' = setVaddr t PF (sub32 v (s.vaddrs PF).vaddrStart / 4096) n false := by
    intro t ht hrun
    have hv : t.vaddrs PF = s.vaddrs PF := by simp only [MemState.vaddrs, ht.curr, ht.layout]
    cases hrun
    exact ⟨t, ht, by rw [← hv]; rfl⟩
  rw [freePages, assert, ensure_bind_ok_iff] at hrun
  obtain ⟨-, hrun⟩ := hrun
  obtain ⟨phyAddr, t, hread, hrun⟩ := bind_ok_iff.mp hrun
  have ht := addrVirtualToPhy_keeps v s phyAddr t ⟨rfl, rfl, fun _ _ => rfl⟩ hread
  rw [assert, ensure_bind_ok_iff, get_bind] at hrun
  obtain ⟨-, hrun⟩ := hrun
  split at hrun
  · obtain ⟨_, t', hloop, hrun⟩ := bind_ok_iff.mp hrun
    exact hremoved t' (freeLoop_keeps _ _ n v phyAddr t _ t' ht hloop) hrun
  · obtain ⟨_, t', hloop, hrun⟩ := bind_ok_iff.mp hrun
    exact hremoved t' (freeLoop_keeps _ _ n v phyAddr t _ t' ht hloop) hrun

theorem HeapBitsKept.vaddrBit {t : MemState} (h : HeapBitsKept s t) (h0 : 0 < s.vaddrLen .user)
    (j : ℕ) : t.vaddrBit .user j = s.vaddrBit .user j := by
  have hv : t.vaddrs .user = s.vaddrs .user := by simp only [MemState.vaddrs, h.curr]
  have hpos : vaddrPos t .user j = vaddrPos s .user j := by rw [vaddrPos, hv, vaddrPos]
  rw [vaddrBit_eq, vaddrBit_eq, hpos]
  refine h.bits _ ?_
  have hshape := s.curr.shape
  simp only [vaddrPos, Bitmap.pos, MemState.vaddrLen, MemState.vaddrs] at *
  omega

end Bits

end KernelPoolRelease
