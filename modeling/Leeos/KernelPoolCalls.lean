import Leeos.KernelPoolMapping

/-!
# The calls `malloc_pages`, `get_a_page` and `free_pages`

A call is put together from its bitmap part and its loop. Marking or unmarking a virtual range
keeps `PoolInv` because no pool bit lies in a virtual bitmap. A process's run begins on four times
the page its bit stands for, so its pages may be in use; then the assertion of `page_table_add`
halts the call. The specifications speak of the calls that return.
-/
namespace KernelPoolCalls

open ExecRules RunSearch KernelBitmap KernelPaging KernelPools KernelPoolSteps
  KernelPoolInvariant KernelPoolMapping LibStdint

variable {s s' : MemState} {PF : PoolFlag}

/-! ## The virtual range -/

/-- The run of free pages that `malloc_pages` finds in the virtual bitmap. -/
def vaddrRun (s : MemState) (PF : PoolFlag) (n : ℕ) : Option ℕ :=
  bitmapScan s.bytes (s.vaddrs PF).vaddrBitmap n

def setVaddr (s : MemState) (PF : PoolFlag) (r n : ℕ) (v : Bool) : MemState :=
  { s with bytes := setRange s.bytes (s.vaddrs PF).vaddrBitmap r v n }

theorem memBit_setVaddr (r n : ℕ) (v : Bool) (x : ℕ) : memBit (setVaddr s PF r n v).bytes x =
    if vaddrPos s PF r ≤ x ∧ x < vaddrPos s PF (r + n) then v else memBit s.bytes x :=
  memBit_setRange ..

theorem vaddrPos_add (s : MemState) (PF : PoolFlag) (r j : ℕ) :
    vaddrPos s PF (r + j) = vaddrPos s PF r + j := by
  simp only [vaddrPos, Bitmap.pos]
  omega

theorem setVaddr_vaddrBit {r n : ℕ} (v : Bool) (j : ℕ) : (setVaddr s PF r n v).vaddrBit PF j =
    if r ≤ j ∧ j < r + n then v else s.vaddrBit PF j := by
  have h0 := vaddrPos_add s PF 0
  rw [vaddrBit_eq, memBit_setVaddr]
  change (if vaddrPos s PF r ≤ vaddrPos s PF j ∧ vaddrPos s PF j < vaddrPos s PF (r + n) then v
    else s.vaddrBit PF j) = _
  have h₁ := h0 r
  have h₂ := h0 j
  have h₃ := h0 (r + n)
  simp only [Nat.zero_add] at h₁ h₂ h₃
  congr 1
  simp only [eq_iff_iff]
  omega

theorem setVaddr_poolBit {PF' : PoolFlag} {r n i : ℕ} (v : Bool) (hr : r + n ≤ s.vaddrLen PF + 1)
    (h0 : 0 < s.vaddrLen PF) (hi : i < s.poolLen PF') :
    (setVaddr s PF r n v).poolBit PF' i = s.poolBit PF' i := by
  rw [poolBit_eq, memBit_setVaddr, if_neg]
  · rfl
  · rintro ⟨h₁, h₂⟩
    change vaddrPos s PF r ≤ poolPos s PF' i at h₁
    change poolPos s PF' i < vaddrPos s PF (r + n) at h₂
    rw [vaddrPos_add] at h₂
    obtain ⟨j, hj⟩ := Nat.exists_eq_add_of_le h₁
    exact poolPos_ne_vaddrPos (j := r + j) hi (by omega) h0 (by rw [hj, vaddrPos_add])

theorem setVaddr_vaddrBit_ne {PF' : PoolFlag} {r n j : ℕ} (v : Bool) (hne : PF' ≠ PF)
    (hr : r + n ≤ s.vaddrLen PF + 1) (h0 : 0 < s.vaddrLen PF) (hj : j ≤ s.vaddrLen PF')
    (h0' : 0 < s.vaddrLen PF') : (setVaddr s PF r n v).vaddrBit PF' j = s.vaddrBit PF' j := by
  rw [vaddrBit_eq, memBit_setVaddr, if_neg]
  · rfl
  · rintro ⟨h₁, h₂⟩
    change vaddrPos s PF r ≤ vaddrPos s PF' j at h₁
    change vaddrPos s PF' j < vaddrPos s PF (r + n) at h₂
    rw [vaddrPos_add] at h₂
    obtain ⟨m, hm⟩ := Nat.exists_eq_add_of_le h₁
    exact vaddrPos_ne hne hj (j := r + m) (by omega) h0' h0 (by rw [hm, vaddrPos_add])

theorem setVaddr_grows (r n : ℕ) : BitsGrow s (setVaddr s PF r n true) := by
  refine ⟨rfl, rfl, fun x hx => ?_⟩
  rw [memBit_setVaddr]
  split
  · rfl
  · exact hx

theorem mark_inv (h : PoolInv s) (r n : ℕ) : PoolInv (setVaddr s PF r n true) :=
  h.grow_bits (setVaddr_grows r n) rfl rfl

theorem unmark_inv (h : PoolInv s) {r n : ℕ} (hr : r + n ≤ s.vaddrLen PF + 1)
    (h0 : 0 < s.vaddrLen PF) (hu : ∀ q, PF.Managed q → PF.base + r ≤ q → q < PF.base + r + n →
      s.frameOf q = none) : PoolInv (setVaddr s PF r n false) := by
  have hheld : ∀ PF' f, Held s PF' f → Held (setVaddr s PF r n false) PF' f := by
    rintro PF' f ⟨i, hi, he, hb⟩
    exact ⟨i, hi, he, by rw [setVaddr_poolBit false hr h0 hi, hb]⟩
  have hres : ∀ f, Reserved s f → Reserved (setVaddr s PF r n false) f :=
    fun f hf => hf.imp id (hheld .kernel f)
  refine ⟨h.self_mapped, h.kernel_tables, hres _ h.dir_reserved,
    fun d hd t ht => (h.table_frame d hd t ht).imp id (hres t), h.table_unshared,
    fun PF' p f hp hf => hheld _ _ (h.frame_held PF' p f hp hf), h.frame_low, h.frame_unshared,
    h.table_unmapped, fun p hp hf h0' hi => ?_, h.low_mapped⟩
  change 0 < s.vaddrLen .kernel at h0'
  change p - PoolFlag.kernel.base ≤ s.vaddrLen .kernel at hi
  have hm := h.page_marked p hp hf h0' hi
  cases PF with
  | kernel =>
    rw [setVaddr_vaddrBit, if_neg, hm]
    rintro ⟨h₁, h₂⟩
    have hbase : PoolFlag.kernel.base ≤ p := hp.1
    exact hf (hu p hp (by omega) (by omega))
  | user => rw [setVaddr_vaddrBit_ne false (by simp) hr h0 hi h0', hm]

theorem vaddrRun_facts {n r : ℕ} (hn : 1 ≤ n) (h : vaddrRun s PF n = some r) :
    0 < s.vaddrLen PF ∧ r + n ≤ s.vaddrLen PF + 1 ∧ (n = 1 → r + n ≤ s.vaddrLen PF) ∧
    ∀ j < n, s.vaddrBit PF (r + j) = false := by
  have hrun := bitmapScan_some hn h
  have hfit := hrun.fits
  have hlen : 0 < (s.vaddrs PF).vaddrBitmap.bitmapLen := by
    by_contra h0
    have h0 : (s.vaddrs PF).vaddrBitmap.bitmapLen = 0 := by omega
    rw [vaddrRun, bitmapScan, h0] at h
    simp [skipFull] at h
  simp only [scanLimit] at hfit
  refine ⟨?_, ?_, fun h1 => ?_, hrun.clear⟩
  · simp only [MemState.vaddrLen]
    omega
  · simp only [MemState.vaddrLen]
    split at hfit <;> omega
  · rw [if_pos h1] at hfit
    simpa only [MemState.vaddrLen, Nat.add_zero] using hfit

/-- The kernel's virtual bitmap names pages of its own pool, the bit behind its end included. -/
theorem kernel_managed {n r : ℕ} (hn : 1 ≤ n) (hr : vaddrRun s .kernel n = some r) {q : ℕ}
    (h₁ : PoolFlag.kernel.page r ≤ q) (h₂ : q < PoolFlag.kernel.page r + n) :
    PoolFlag.kernel.Managed q := by
  obtain ⟨h0, hlen, -, -⟩ := vaddrRun_facts hn hr
  have := (vaddr_facts s .kernel h0).2.1 rfl
  simp only [PoolFlag.page, PoolFlag.Managed] at *
  omega

theorem range_ready (h : PoolInv s) {n r : ℕ} (hn : 1 ≤ n) (hr : vaddrRun s PF n = some r)
    (hu : PF = .user → PF.page r ≤ 0xc0000) :
    RangeReady (setVaddr s PF r n true) PF (PF.page r) n := by
  cases PF with
  | user =>
    have := hu rfl
    simp only [RangeReady, PoolFlag.page] at *
    omega
  | kernel =>
    obtain ⟨h0, hlen, -, hclear⟩ := vaddrRun_facts hn hr
    intro q h₁ h₂
    have hm := kernel_managed hn hr h₁ h₂
    have hbase : PoolFlag.kernel.base ≤ q := hm.1
    have hpage : PoolFlag.kernel.page r = PoolFlag.kernel.base + r := rfl
    refine ⟨hm, ?_, fun _ _ => ?_⟩
    · by_contra hf
      have hmark : s.vaddrBit .kernel (q - PoolFlag.kernel.base) = true :=
        h.page_marked q hm hf h0 (by omega)
      have hbit := hclear (q - PoolFlag.kernel.page r) (by omega)
      rw [show r + (q - PoolFlag.kernel.page r) = q - PoolFlag.kernel.base by omega, hmark] at hbit
      cases hbit
    · rw [setVaddr_vaddrBit, if_pos (by omega)]

theorem freeCount_mark {PF' : PoolFlag} {n r : ℕ} (hn : 1 ≤ n) (hr : vaddrRun s PF n = some r) :
    freeCount (setVaddr s PF r n true) PF' = freeCount s PF' := by
  obtain ⟨h0, hlen, -, -⟩ := vaddrRun_facts hn hr
  exact freeCount_congr rfl fun i hi => setVaddr_poolBit true hlen h0 hi

/-! ## `malloc_pages` -/

/-- The address of a process's run does not wrap round to low memory. -/
def NoWrap (PF : PoolFlag) (r : ℕ) : Prop := PF = .user → r ≤ 253934

/-- The page tables of the run that `malloc_pages` finds can be provided, and its address does
not wrap. -/
def MallocFits (z : ℕ) (s : MemState) (PF : PoolFlag) (n : ℕ) : Prop :=
  0 < n ∧ n < 3840 → ∀ r, vaddrRun s PF n = some r →
    TablesFit z s PF (PF.page r) n ∧ NoWrap PF r

theorem tablesFit_mark {z n r : ℕ} (hn : 1 ≤ n) (hr : vaddrRun s PF n = some r) {p k : ℕ} :
    TablesFit z (setVaddr s PF r n true) PF p k ↔ TablesFit z s PF p k := by
  rw [TablesFit, freeCount_mark hn hr, freeCount_mark hn hr]
  rfl

/-- A run of a process at bit 253934 has the address 0. -/
theorem vaddr_address {r : ℕ} (hv : 0 < s.vaddrLen PF) (hr : r ≤ s.vaddrLen PF)
    (hw : NoWrap PF r) : allocedPagesAddr PF (s.vaddrs PF).vaddrStart r =
      if PF = .user ∧ r = 253934 then 0 else 4096 * PF.page r := by
  obtain ⟨hs, hk, -⟩ := vaddr_facts s PF hv
  rw [hs]
  cases PF with
  | kernel =>
    have := hk rfl
    rw [if_neg (by simp)]
    simp only [allocedPagesAddr, PoolFlag.base, PoolFlag.page, u32]
    omega
  | user =>
    have := hw rfl
    simp only [allocedPagesAddr, PoolFlag.base, PoolFlag.page, u32, true_and]
    split <;> omega

/-- Also an address that has wrapped is that of a page. -/
theorem vaddr_aligned (hv : 0 < s.vaddrLen PF) (r : ℕ) :
    allocedPagesAddr PF (s.vaddrs PF).vaddrStart r =
      4096 * (allocedPagesAddr PF (s.vaddrs PF).vaddrStart r / 4096) ∧
    allocedPagesAddr PF (s.vaddrs PF).vaddrStart r < 2 ^ 32 := by
  rw [(vaddr_facts s PF hv).1]
  cases PF <;> simp only [allocedPagesAddr, u32] <;> omega

theorem mallocPages_no_run {n : ℕ} (hn : 0 < n ∧ n < 3840) (h : vaddrRun s PF n = none) :
    mallocPages PF n s = .ok (0, s) := by
  have hv : vaddrGetPages PF n s = .ok (0, s) := by
    rw [vaddrGetPages, get_bind]
    rw [vaddrRun] at h
    rw [h]
    rfl
  rw [mallocPages, assert, ensure_bind_of_true hn, bind_of_ok hv]
  rfl

theorem vaddrGetPages_run {n r addr : ℕ} (h : vaddrRun s PF n = some r)
    (ha : allocedPagesAddr PF (s.vaddrs PF).vaddrStart r = addr) :
    vaddrGetPages PF n s = if PF = .user → addr < 0xc0000000 - 4096
      then .ok (addr, setVaddr s PF r n true) else .error (.assertion .vaddrBelowStack) := by
  subst ha
  rw [vaddrRun] at h
  rw [vaddrGetPages, get_bind]
  simp only [h, set_bind, assert]
  split
  case isTrue hlow => exact ensure_bind_of_true hlow _ _
  case isFalse hlow => exact ensure_bind_of_false hlow _ _

theorem mallocPages_stack {n r : ℕ} (hn : 0 < n ∧ n < 3840) (h : vaddrRun s .user n = some r)
    (hr : 0xbffff ≤ PoolFlag.user.page r) (hw : r < 253934) :
    mallocPages .user n s = .error (.assertion .vaddrBelowStack) := by
  obtain ⟨h0, hlen, -, -⟩ := vaddrRun_facts hn.1 h
  have ha := vaddr_address h0 (show r ≤ s.vaddrLen .user by omega) fun _ => hw.le
  rw [if_neg fun hu => hw.ne hu.2] at ha
  rw [mallocPages, assert, ensure_bind_of_true hn, bind_of_error]
  rw [vaddrGetPages_run h ha, if_neg]
  simp only [true_implies, not_lt]
  omega

theorem mallocPages_zero_address {n : ℕ} (hn : 0 < n ∧ n < 3840)
    (h : vaddrRun s .user n = some 253934) :
    mallocPages .user n s = .ok (0, setVaddr s .user 253934 n true) := by
  obtain ⟨h0, hlen, -, -⟩ := vaddrRun_facts hn.1 h
  have ha := vaddr_address h0 (show 253934 ≤ s.vaddrLen .user by omega) fun _ => le_rfl
  rw [if_pos ⟨rfl, rfl⟩] at ha
  have hv := vaddrGetPages_run h ha
  rw [if_pos fun _ => by norm_num] at hv
  rw [mallocPages, assert, ensure_bind_of_true hn, bind_of_ok hv]
  rfl

theorem mallocPages_run {n r : ℕ} (hn : 0 < n ∧ n < 3840) (h : vaddrRun s PF n = some r)
    (hr : PF = .user → PF.page r < 0xbffff) :
    mallocPages PF n s =
      (do let done ← mapPages PF n (4096 * PF.page r)
          pure (if done then 4096 * PF.page r else 0)) (setVaddr s PF r n true) := by
  obtain ⟨h0, hlen, -, -⟩ := vaddrRun_facts hn.1 h
  have hw : PF = .user → r < 253934 := by
    rintro rfl
    have := hr rfl
    simp only [PoolFlag.page] at this
    omega
  have ha := vaddr_address h0 (show r ≤ s.vaddrLen PF by omega) fun hu => (hw hu).le
  rw [if_neg fun hu => (hw hu.1).ne hu.2] at ha
  have hv := vaddrGetPages_run h ha
  rw [if_pos fun hu => by have := hr hu; omega] at hv
  rw [mallocPages, assert, ensure_bind_of_true hn, bind_of_ok hv, if_neg]
  cases PF <;> simp [PoolFlag.page]

theorem mallocPages_returns {n v : ℕ} (hw : ∀ r, vaddrRun s PF n = some r → NoWrap PF r)
    (hrun : mallocPages PF n s = .ok (v, s')) :
    (v = 0 ∧ s' = s) ∨ ∃ r, vaddrRun s PF n = some r ∧
      ((v = 0 ∧ s' = setVaddr s PF r n true) ∨ ∃ done : Bool, (PF = .user → PF.page r < 0xbffff) ∧
        v = (if done then 4096 * PF.page r else 0) ∧
        mapPages PF n (4096 * PF.page r) (setVaddr s PF r n true) = .ok (done, s')) := by
  have hn := mallocPages_count hrun
  cases hv : vaddrRun s PF n with
  | none =>
    rw [mallocPages_no_run hn hv] at hrun
    cases hrun
    exact Or.inl ⟨rfl, rfl⟩
  | some r =>
    refine Or.inr ⟨r, rfl, ?_⟩
    by_cases hr : PF = .user → PF.page r < 0xbffff
    · rw [mallocPages_run hn hv hr] at hrun
      obtain ⟨done, t, hloop, ht⟩ := bind_ok_iff.mp hrun
      cases ht
      exact Or.inr ⟨done, hr, rfl, hloop⟩
    · push Not at hr
      obtain ⟨rfl, hge⟩ := hr
      by_cases hlast : r = 253934
      · subst hlast
        rw [mallocPages_zero_address hn hv] at hrun
        cases hrun
        exact Or.inl ⟨rfl, rfl⟩
      · have := hw r hv rfl
        rw [mallocPages_stack hn hv hge (by omega)] at hrun
        cases hrun

/-- What a call that returns from a consistent state has done. -/
theorem mallocPages_spec (h : PoolInv s) {n v z : ℕ} (hfit : MallocFits z s PF n)
    (hz : ZeroSpare z s) (hrun : mallocPages PF n s = .ok (v, s')) :
    (v = 0 ∧ s' = s) ∨ ∃ r k g, vaddrRun s PF n = some r ∧ 1 ≤ n ∧ PoolInv s' ∧
      PagesMapped (setVaddr s PF r n true) s' PF (PF.page r) k g ∧
      ((v = 4096 * PF.page r ∧ k = n) ∨ (v = 0 ∧ k < n)) ∧
      (z = 0 → ∀ d < 1023, s'.tableOf d = some 0 → s.tableOf d = some 0) := by
  have hn := mallocPages_count hrun
  rcases mallocPages_returns (fun r hr => (hfit hn r hr).2) hrun with
    ⟨rfl, rfl⟩ | ⟨r, hr, ⟨rfl, rfl⟩ | ⟨done, hlow, rfl, hloop⟩⟩
  · exact Or.inl ⟨rfl, rfl⟩
  · exact Or.inr ⟨r, 0, id, hr, hn.1, mark_inv h r n, pages_mapped_zero _ _ _ _,
      Or.inr ⟨rfl, hn.1⟩, fun _ _ _ ht => ht⟩
  · obtain ⟨k, g, hinv, hmap, hend, hzero⟩ := mapPages_spec n (setVaddr s PF r n true)
      (PF.page r) z (mark_inv h r n)
      (range_ready h hn.1 hr fun hu => (hlow hu).le.trans (by omega))
      ((tablesFit_mark hn.1 hr).mpr (hfit hn r hr).1) hz hloop
    refine Or.inr ⟨r, k, g, hr, hn.1, hinv, hmap, ?_, hzero⟩
    rcases hend with ⟨rfl, hk⟩ | ⟨rfl, hk, -⟩
    · exact Or.inl ⟨rfl, hk⟩
    · exact Or.inr ⟨rfl, hk⟩

/-- A call that returns an address has come to the end of its loop. -/
theorem mallocPages_loop {n v : ℕ} (hrun : mallocPages PF n s = .ok (v, s')) (hv : v ≠ 0) :
    ∃ r, vaddrRun s PF n = some r ∧ v = allocedPagesAddr PF (s.vaddrs PF).vaddrStart r ∧
      (PF = .user → v < 0xbffff000) ∧
      mapPages PF n v (setVaddr s PF r n true) = .ok (true, s') := by
  have hn := mallocPages_count hrun
  cases hr : vaddrRun s PF n with
  | none =>
    rw [mallocPages_no_run hn hr] at hrun
    cases hrun
    exact (hv rfl).elim
  | some r =>
    rw [mallocPages, assert, ensure_bind_of_true hn] at hrun
    obtain ⟨addr, t, hget, hrun⟩ := bind_ok_iff.mp hrun
    rw [vaddrGetPages_run hr rfl] at hget
    split at hget
    case isFalse => cases hget
    case isTrue hlow =>
      cases hget
      split at hrun
      · cases hrun
        exact (hv rfl).elim
      · obtain ⟨done, t, hloop, ht⟩ := bind_ok_iff.mp hrun
        cases done with
        | false =>
          cases ht
          exact (hv rfl).elim
        | true =>
          cases ht
          exact ⟨r, rfl, rfl, hlow, hloop⟩

theorem mallocPages_aligned {n v : ℕ} (hrun : mallocPages PF n s = .ok (v, s')) (hv : v ≠ 0) :
    v = 4096 * (v / 4096) ∧ v < 2 ^ 32 := by
  obtain ⟨r, hr, rfl, -, -⟩ := mallocPages_loop hrun hv
  exact vaddr_aligned (vaddrRun_facts (mallocPages_count hrun).1 hr).1 r

/-! ## Allocations clear no bit -/

section Grows

variable {u : MemState}

theorem palloc_grows : Triple (BitsGrow u) (palloc PF) fun _ => BitsGrow u := by
  intro t a t' ht hrun
  cases hi : t.firstFree PF with
  | none =>
    rw [palloc_of_none hi] at hrun
    cases hrun
    exact ht
  | some i =>
    rw [palloc_of_some hi] at hrun
    cases hrun
    exact ht.trans (takeFrame_grows t PF i)

theorem load_grows (a : ℕ) : Triple (BitsGrow u) (load a) fun _ => BitsGrow u := by
  rw [load]
  refine triple_get_bind fun t ht => ?_
  split
  · exact triple_pure_state ht
  · exact triple_throw

theorem store_grows (a : ℕ) (w : Word) : Triple (BitsGrow u) (store a w) fun _ => BitsGrow u := by
  rw [store]
  refine triple_get_bind fun t ht => ?_
  split
  · exact triple_set ⟨ht.layout, ht.curr, ht.bits⟩
  · exact triple_throw

theorem zeroPage_grows (a : ℕ) : Triple (BitsGrow u) (zeroPage a) fun _ => BitsGrow u := by
  rw [zeroPage]
  refine triple_get_bind fun t ht => ?_
  split
  · exact triple_set ⟨ht.layout, ht.curr, ht.bits⟩
  · exact triple_throw

theorem pageTableAdd_grows (v phyAddr : ℕ) :
    Triple (BitsGrow u) (pageTableAdd v phyAddr) fun _ => BitsGrow u := by
  rw [pageTableAdd]
  refine Triple.bind (load_grows _) fun pde => triple_ite ?_ ?_
  · exact Triple.bind (load_grows _) fun _ => triple_ensure_bind fun _ => store_grows _ _
  · refine Triple.bind palloc_grows fun f => Triple.bind (store_grows _ _) fun _ =>
      Triple.bind (zeroPage_grows _) fun _ => ?_
    exact Triple.bind (load_grows _) fun _ => triple_ensure_bind fun _ => store_grows _ _

theorem mapPages_grows (left : ℕ) : ∀ v : ℕ,
    Triple (BitsGrow u) (mapPages PF left v) fun _ => BitsGrow u := by
  induction left with
  | zero => exact fun v => triple_pure fun _ ht => ht
  | succ left ih =>
    intro v
    rw [mapPages]
    refine Triple.bind palloc_grows fun f => triple_ite (triple_pure fun _ ht => ht) ?_
    exact Triple.bind (pageTableAdd_grows v f) fun _ => ih _

theorem mallocPages_grows {n r v : ℕ} (hr : vaddrRun s PF n = some r)
    (hrun : mallocPages PF n s = .ok (v, s')) : BitsGrow (setVaddr s PF r n true) s' := by
  rw [mallocPages, assert, ensure_bind_of_true (mallocPages_count hrun)] at hrun
  obtain ⟨addr, t, hget, hrun⟩ := bind_ok_iff.mp hrun
  rw [vaddrGetPages_run hr rfl] at hget
  split at hget
  case isFalse => cases hget
  case isTrue =>
    cases hget
    have hloop : Triple (BitsGrow (setVaddr s PF r n true)) (do
        let done ← mapPages PF n (allocedPagesAddr PF (s.vaddrs PF).vaddrStart r)
        pure (if done then allocedPagesAddr PF (s.vaddrs PF).vaddrStart r else 0))
        fun _ => BitsGrow (setVaddr s PF r n true) :=
      Triple.bind (mapPages_grows n _) fun _ => triple_pure fun _ ht => ht
    split at hrun
    · cases hrun
      exact BitsGrow.refl _
    · exact hloop _ _ _ (BitsGrow.refl _) hrun

end Grows

/-! ## `get_a_page` -/

/-- The flag is the one `get_a_page` has a bitmap for. -/
def FlagSuits (s : MemState) (PF : PoolFlag) : Prop :=
  (s.curr.pgdir ≠ 0 ∧ PF = .user) ∨ (s.curr.pgdir = 0 ∧ PF = .kernel)

theorem pageTableAdd_page {v phyAddr : ℕ} (hv : v < 2 ^ 32) :
    pageTableAdd v phyAddr = pageTableAdd (4096 * (v / 4096)) phyAddr := by
  have h₁ : 4096 * (v / 4096) / 4096 = v / 4096 := by omega
  have h₂ : 4096 * (v / 4096) / 4194304 = v / 4194304 := by omega
  have hpte : pteAddr (4096 * (v / 4096)) = pteAddr v := by
    rw [pteAddr_eq hv, pteAddr_eq (by omega), h₁]
  have hpde : pdeAddr (4096 * (v / 4096)) = pdeAddr v := by
    rw [pdeAddr_eq hv, pdeAddr_eq (by omega), h₂]
  rw [pageTableAdd, pageTableAdd, hpte, hpde]

theorem markPage_apply {v : ℕ} (hs : FlagSuits s PF) (hv : v < 2 ^ 32) (h0 : 0 < s.vaddrLen PF)
    (hb : PF.base ≤ v / 4096) : markPage PF v s = if PF.base < v / 4096
      then .ok ((), setVaddr s PF (v / 4096 - PF.base) 1 true)
      else .error (.assertion .getAPageIndex) := by
  have hstart := (vaddr_facts s PF h0).1
  have hidx : sub32 v (s.vaddrs PF).vaddrStart / 4096 = v / 4096 - PF.base := by
    rw [hstart, sub32, u32]
    omega
  rw [FlagSuits] at hs
  rw [markPage, get_bind, if_pos hs]
  simp only [hidx, assert]
  split
  · rw [ensure_bind_of_true (by omega)]
    rfl
  · rw [ensure_bind_of_false (by omega)]

theorem getAPage_spec (h : PoolInv s) {v w z : ℕ} (hs : FlagSuits s PF) (hv : v < 2 ^ 32)
    (hb : PF.base ≤ v / 4096) (hi : v / 4096 - PF.base < s.vaddrLen PF)
    (he : s.frameOf (v / 4096) = none) (hfree : 0 < freeCount s PF)
    (hfit : TablesFit z s PF (v / 4096) 1) (hz : ZeroSpare z s)
    (hrun : getAPage PF v s = .ok (w, s')) : PoolInv s' ∧
      ∃ g, PagesMapped (setVaddr s PF (v / 4096 - PF.base) 1 true) s' PF (v / 4096) 1 g ∧
        (z = 0 → ∀ d < 1023, s'.tableOf d = some 0 → s.tableOf d = some 0) := by
  have h0 : 0 < s.vaddrLen PF := by omega
  rw [getAPage] at hrun
  by_cases hlt : PF.base < v / 4096
  swap
  · rw [bind_of_error (by rw [markPage_apply hs hv h0 hb, if_neg hlt])] at hrun
    cases hrun
  rw [bind_of_ok (by rw [markPage_apply hs hv h0 hb, if_pos hlt])] at hrun
  have hinv : PoolInv (setVaddr s PF (v / 4096 - PF.base) 1 true) := mark_inv h _ 1
  have hcount : ∀ PF', freeCount (setVaddr s PF (v / 4096 - PF.base) 1 true) PF' =
      freeCount s PF' :=
    fun PF' => freeCount_congr rfl fun i hi' => setVaddr_poolBit true (by omega) h0 hi'
  obtain ⟨i, hff⟩ := firstFree_of_freeCount ((hcount PF).symm ▸ hfree)
  have hm : PF.Managed (v / 4096) := by
    obtain ⟨-, hker, huser⟩ := vaddr_facts s PF h0
    cases PF with
    | kernel =>
      have := hker rfl
      simp only [PoolFlag.Managed, PoolFlag.base] at *
      omega
    | user =>
      have := huser rfl
      simp only [PoolFlag.Managed, PoolFlag.base] at *
      omega
  have hr : RangeReady (setVaddr s PF (v / 4096 - PF.base) 1 true) PF (v / 4096) 1 := by
    cases PF with
    | kernel =>
      intro q h₁ h₂
      rw [show q = v / 4096 by omega]
      exact ⟨hm, he, fun _ _ => by rw [setVaddr_vaddrBit, if_pos (by omega)]⟩
    | user => exact ⟨hm.1, hm.2.le⟩
  have hloop := @mapPages_some _ PF hinv.self_mapped hinv.dir_reserved 0 _ _ hff hm he
  obtain ⟨k, g, hinv', hmapped, hstop, hzero⟩ := mapPages_spec 1 _ (v / 4096) z
    hinv hr (by rw [TablesFit, hcount, hcount]; exact hfit) hz hloop
  have hpl := managed_plain hm
  rw [bind_of_ok (palloc_of_some hff), pageTableAdd_page hv] at hrun
  have hadd := pageTableAdd_apply
    (s := takeFrame (setVaddr s PF (v / 4096 - PF.base) 1 true) PF i) (p := v / 4096)
    (f := (setVaddr s PF (v / 4096 - PF.base) 1 true).poolStart PF + i)
    hinv.self_mapped (plain_dir hpl).2 he (fun _ => (hinv.takeFrame i).tableFrame_ne_dir)
  rw [bind_of_ok hadd] at hrun
  cases hrun
  rcases hstop with ⟨-, rfl⟩ | ⟨hd, -⟩
  · exact ⟨hinv', g, hmapped, hzero⟩
  · cases hd

end KernelPoolCalls
