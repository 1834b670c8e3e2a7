import Leeos.KernelPoolRelease
import Mathlib.Data.List.Pairwise

/-!
# Runs of the page allocator

The runs interleave `malloc_pages`, `get_a_page` and `free_pages` of one address space, and
carry the list of ranges that are live. Four slips can break the accounting: `get_a_page`
and `page_table_add` map what `palloc` returns without checking it, a scan may hand out the bit
behind a bitmap, and the address of a process's run may wrap. `StepMeets` says of a state that the
next call meets none of them.
-/
namespace KernelPoolRanges

open ExecRules RunSearch KernelBitmap KernelPaging KernelPools KernelPoolSteps
  KernelPoolInvariant KernelPoolMapping KernelPoolCalls KernelPoolRelease

structure Range where
  flag : PoolFlag
  page : ℕ
  count : ℕ
  deriving DecidableEq

def Range.Has (R : Range) (p : ℕ) : Prop := R.page ≤ p ∧ p < R.page + R.count

def Apart (R R' : Range) : Prop := ∀ p, ¬ (R.Has p ∧ R'.Has p)

inductive PoolCall where
  | mallocPages (PF : PoolFlag) (cntPages : ℕ)
  | getAPage (PF : PoolFlag) (vaddr : ℕ)
  | freePages (R : Range)

abbrev PoolRun := MemState × List Range

inductive PoolStep : PoolCall → PoolRun → PoolRun → Prop
  | mallocPages {s s' : MemState} {L : List Range} {PF : PoolFlag} {n v : ℕ} :
      KernelPools.mallocPages PF n s = .ok (v, s') → v ≠ 0 →
      PoolStep (.mallocPages PF n) (s, L) (s', ⟨PF, v / 4096, n⟩ :: L)
  | mallocFails {s s' : MemState} {L : List Range} {PF : PoolFlag} {n : ℕ} :
      KernelPools.mallocPages PF n s = .ok (0, s') →
      PoolStep (.mallocPages PF n) (s, L) (s', L)
  | getAPage {s s' : MemState} {L : List Range} {PF : PoolFlag} {v w : ℕ} :
      v < 2 ^ 32 → s.frameOf (v / 4096) = none → KernelPools.getAPage PF v s = .ok (w, s') →
      PoolStep (.getAPage PF v) (s, L) (s', ⟨PF, v / 4096, 1⟩ :: L)
  | freePages {s s' : MemState} {L : List Range} {R : Range} :
      R ∈ L → KernelPools.freePages R.flag R.count (4096 * R.page) s = .ok ((), s') →
      PoolStep (.freePages R) (s, L) (s', L.erase R)

/-- A scan for several pages stays inside the kernel's virtual bitmap. -/
def RunInside (s : MemState) (PF : PoolFlag) (n : ℕ) : Prop :=
  PF = .kernel → ∀ r, vaddrRun s PF n = some r → r + n ≤ s.vaddrLen PF

def InPool (s : MemState) (PF : PoolFlag) (p : ℕ) : Prop :=
  PF.base ≤ p ∧ p - PF.base < s.vaddrLen PF

/-- The call never maps a frame that `palloc` did not deliver. -/
def StepMeets (s : MemState) : PoolCall → Prop
  | .mallocPages PF n => RunInside s PF n ∧ MallocFits 0 s PF n
  | .getAPage PF v => FlagSuits s PF ∧ InPool s PF (v / 4096) ∧ 0 < freeCount s PF ∧
      TablesFit 0 s PF (v / 4096) 1
  | .freePages _ => True

/-- What holds of the live ranges; pages below directory entry 0 and the window are left out,
as the loader maps low memory twice and the window maps the tables. -/
structure RangesSound (x : PoolRun) : Prop where
  disjoint : x.2.Pairwise Apart
  inside : ∀ R ∈ x.2, 1 ≤ R.count ∧ R.flag.base ≤ R.page ∧
    R.page - R.flag.base + R.count ≤ x.1.vaddrLen R.flag
  mapped : ∀ R ∈ x.2, ∀ p, R.Has p → ∃ i < x.1.poolLen R.flag,
    x.1.frameOf p = some (x.1.poolStart R.flag + i) ∧ x.1.poolBit R.flag i = true
  unshared : ∀ p q f, Plain p → Plain q → x.1.frameOf p = some f → x.1.frameOf q = some f → p = q
  no_table : ∀ p d f, Plain p → d < 1023 → x.1.frameOf p = some f → x.1.tableOf d ≠ some f
  no_directory : ∀ R ∈ x.2, ∀ p, R.Has p → x.1.frameOf p ≠ some x.1.pageDir

/-- A live range lies on ascending frames other than the directory's. Its last page may be the
one behind the virtual bitmap. -/
structure LiveRange (s : MemState) (R : Range) (g : ℕ → ℕ) : Prop where
  count : 1 ≤ R.count
  managed : ∀ p, R.Has p → R.flag.Managed p
  reach : R.page - R.flag.base + R.count ≤ s.vaddrLen R.flag + 1
  marked : 0 < s.vaddrLen R.flag
  frames : ∀ j < R.count, s.frameOf (R.page + j) = some (s.poolStart R.flag + g j)
  not_dir : ∀ j < R.count, s.poolStart R.flag + g j ≠ s.pageDir
  ascending : ∀ i j, i < j → j < R.count → g i < g j

/-- What allocations and releases keep, wherever the scans put the ranges. -/
structure RangesInv (x : PoolRun) : Prop where
  pool : PoolInv x.1
  zero_free : ∀ d < 1023, x.1.tableOf d ≠ some 0
  live : ∀ R ∈ x.2, ∃ g, LiveRange x.1 R g
  disjoint : x.2.Pairwise Apart

def AllInside (x : PoolRun) : Prop :=
  ∀ R ∈ x.2, R.page - R.flag.base + R.count ≤ x.1.vaddrLen R.flag

variable {s s' : MemState} {PF : PoolFlag} {R : Range} {g : ℕ → ℕ}

theorem LiveRange.frame (h : LiveRange s R g) {p : ℕ} (hp : R.Has p) :
    s.frameOf p = some (s.poolStart R.flag + g (p - R.page)) := by
  have := h.frames (p - R.page) (by simp only [Range.Has] at hp; omega)
  rwa [Nat.add_sub_cancel' hp.1] at this

theorem LiveRange.index_lt (h : LiveRange s R g) (hinv : PoolInv s) {j : ℕ} (hj : j < R.count) :
    g j < s.poolLen R.flag := by
  have hm := h.managed (R.page + j) ⟨by omega, by omega⟩
  obtain ⟨i, hi, he, -⟩ := hinv.frame_held _ _ _ hm (h.frames j hj)
  have : g j = i := by omega
  omega

theorem LiveRange.frame_kept (h : LiveRange s R g) (hl : s'.layout = s.layout)
    (hc : s'.curr = s.curr) (hd : s'.pageDir = s.pageDir)
    (hf : ∀ p, R.Has p → s'.frameOf p = s.frameOf p) : LiveRange s' R g where
  count := h.count
  managed := h.managed
  reach := by
    have := h.reach
    simpa only [MemState.vaddrLen, MemState.vaddrs, hl, hc] using this
  marked := by
    have := h.marked
    simpa only [MemState.vaddrLen, MemState.vaddrs, hl, hc] using this
  frames j hj := by
    rw [hf _ ⟨by omega, by omega⟩, h.frames j hj, poolStart_of_layout hl]
  not_dir j hj := by
    rw [poolStart_of_layout hl, hd]
    exact h.not_dir j hj
  ascending := h.ascending

theorem RangesInv.sound {x : PoolRun} (h : RangesInv x) (hin : AllInside x) : RangesSound x where
  disjoint := h.disjoint
  inside R hR := by
    obtain ⟨g, hg⟩ := h.live R hR
    have hc := hg.count
    exact ⟨hc, managed_base (hg.managed _ ⟨le_rfl, by omega⟩), hin R hR⟩
  mapped R hR p hp := by
    obtain ⟨g, hg⟩ := h.live R hR
    obtain ⟨i, hi, he, hb⟩ := h.pool.frame_held _ _ _ (hg.managed _ hp) (hg.frame hp)
    exact ⟨i, hi, he ▸ hg.frame hp, hb⟩
  unshared := h.pool.frame_unshared
  no_table p d f hp hd hf ht := by
    by_cases hm : Unmanaged p
    · have := h.pool.frame_low p f hp hm hf
      rcases h.pool.table_frame d hd f ht with h0 | hr | hk
      · exact h.zero_free d hd (h0 ▸ ht)
      · omega
      · have := held_pool hk
        omega
    · simp only [Unmanaged, not_forall, not_not] at hm
      obtain ⟨PF, hm⟩ := hm
      exact h.pool.table_unmapped PF p f hm hf d hd ht
  no_directory R hR p hp := by
    obtain ⟨g, hg⟩ := h.live R hR
    rw [hg.frame hp]
    simp only [Range.Has] at hp
    simpa using hg.not_dir (p - R.page) (by omega)

/-! ## Steps -/

theorem live_of_mapped {t : MemState} {p k : ℕ} {f : ℕ → ℕ} (h : LiveRange s R g)
    (hm : PagesMapped t s' PF p k f)
    (ht : t.layout = s.layout ∧ t.curr = s.curr ∧ t.pageDir = s.pageDir)
    (hframes : ∀ q, t.frameOf q = s.frameOf q)
    (hu : ∀ q, p ≤ q → q < p + k → s.frameOf q = none) :
    LiveRange s' R g ∧ ∀ q, R.Has q → ¬ (p ≤ q ∧ q < p + k) := by
  have hout : ∀ q, R.Has q → ¬ (p ≤ q ∧ q < p + k) := by
    intro q hq hin
    have := hu q hin.1 hin.2
    rw [h.frame hq] at this
    cases this
  refine ⟨h.frame_kept (hm.grows.layout.trans ht.1) (hm.grows.curr.trans ht.2.1)
    (hm.pageDir.trans ht.2.2) fun q hq => ?_, hout⟩
  rw [hm.frames q (managed_plain (h.managed _ hq)), if_neg (hout q hq), hframes]

theorem live_new {t : MemState} {p k : ℕ} {f : ℕ → ℕ} (hinv : PoolInv t)
    (hm : PagesMapped t s' PF p k f) (hk : 1 ≤ k) (h0 : 0 < t.vaddrLen PF)
    (hin : p - PF.base + k ≤ t.vaddrLen PF + 1)
    (hpl : ∀ q, p ≤ q → q < p + k → PF.Managed q) : LiveRange s' ⟨PF, p, k⟩ f where
  count := hk
  managed q hq := hpl q hq.1 hq.2
  reach := by
    simpa only [MemState.vaddrLen, MemState.vaddrs, hm.grows.layout, hm.grows.curr] using hin
  marked := by
    simpa only [MemState.vaddrLen, MemState.vaddrs, hm.grows.layout, hm.grows.curr] using h0
  frames j hj := by
    have hj : j < k := hj
    change s'.frameOf (p + j) = some (s'.poolStart PF + f j)
    rw [hm.frames _ (managed_plain (hpl (p + j) (by omega) (by omega))), if_pos (by omega),
      poolStart_of_layout hm.grows.layout, Nat.add_sub_cancel_left]
  not_dir j hj := by
    change s'.poolStart PF + f j ≠ s'.pageDir
    rw [poolStart_of_layout hm.grows.layout, hm.pageDir]
    exact (hinv.fresh (hm.inside j hj) (hm.free j hj)).not_dir
  ascending := hm.ascending

/-- The calls change neither the pools' layout nor the thread. -/
def SameThread (s s' : MemState) : Prop := s'.layout = s.layout ∧ s'.curr = s.curr

theorem SameThread.vaddrLen (h : SameThread s s') (PF : PoolFlag) :
    s'.vaddrLen PF = s.vaddrLen PF := by
  simp only [MemState.vaddrLen, MemState.vaddrs, h.1, h.2]

/-- The pages of the ranges keep their frames. -/
def FramesKept (s s' : MemState) (L : List Range) : Prop :=
  ∀ R ∈ L, ∀ p, R.Has p → s'.frameOf p = s.frameOf p

theorem ranges_cons {L : List Range} (h : ∀ R' ∈ L, Apart R R') (hp : L.Pairwise Apart) :
    (R :: L).Pairwise Apart := List.pairwise_cons.mpr ⟨h, hp⟩

/-- Pages that the user flag maps end in front of page 0xc0000, where the bitmap ends. -/
theorem user_reach {p k : ℕ} (h0 : 0 < s.vaddrLen .user) (hk : 1 ≤ k)
    (hm : ∀ q, p ≤ q → q < p + k → PoolFlag.user.Managed q) :
    p - PoolFlag.user.base + k ≤ s.vaddrLen .user := by
  have hlen := (vaddr_facts s .user h0).2.2 rfl
  have hfirst := hm p le_rfl (by omega)
  have hlast := hm (p + k - 1) (by omega) (by omega)
  simp only [PoolFlag.Managed, PoolFlag.base] at *
  omega

theorem mallocPages_keeps {L : List Range} {n v : ℕ} (h : RangesInv (s, L))
    (hfit : MallocFits 0 s PF n) (hrun : KernelPools.mallocPages PF n s = .ok (v, s')) :
    SameThread s s' ∧ FramesKept s s' L ∧ (v = 0 → RangesInv (s', L)) ∧
      (v ≠ 0 → RangesInv (s', ⟨PF, v / 4096, n⟩ :: L) ∧ v = 4096 * (v / 4096) ∧
        (RunInside s PF n → v / 4096 - PF.base + n ≤ s.vaddrLen PF)) := by
  have hinv : PoolInv s := h.pool
  rcases mallocPages_spec hinv hfit (Or.inl rfl) hrun with
    ⟨rfl, rfl⟩ | ⟨r, k, f, hr, hn, hinv', hm, hend, hzero⟩
  · exact ⟨⟨rfl, rfl⟩, fun _ _ _ _ => rfl, fun _ => h, fun h0 => (h0 rfl).elim⟩
  obtain ⟨h0, hlen, -, -⟩ := vaddrRun_facts hn hr
  have hlive : ∀ R ∈ L, ∀ g, LiveRange s R g → LiveRange s' R g ∧
      ∀ q, R.Has q → ¬ (PF.page r ≤ q ∧ q < PF.page r + k) :=
    fun R _ g hg => live_of_mapped hg hm ⟨rfl, rfl, rfl⟩ (fun _ => rfl)
      fun q h₁ h₂ => (hm.unmapped q h₁ h₂).2
  have hold : RangesInv (s', L) := by
    refine ⟨hinv', fun d hd ht => h.zero_free d hd (hzero rfl d hd ht), fun R hR => ?_, h.disjoint⟩
    obtain ⟨g, hg⟩ := h.live R hR
    exact ⟨g, (hlive R hR g hg).1⟩
  have hkept : FramesKept s s' L := by
    intro R hR p hp
    obtain ⟨g, hg⟩ := h.live R hR
    exact (hm.frames p (managed_plain (hg.managed p hp))).trans
      (if_neg ((hlive R hR g hg).2 p hp))
  refine ⟨⟨hm.grows.layout, hm.grows.curr⟩, hkept, fun _ => hold, fun hv => ?_⟩
  rcases hend with ⟨hv', rfl⟩ | ⟨hv', -⟩
  swap
  · exact (hv hv').elim
  have hpage : v / 4096 = PF.page r := by omega
  rw [hpage]
  have hreach : PF.page r - PF.base + k ≤ s.vaddrLen PF + 1 ∧
      (RunInside s PF k → PF.page r - PF.base + k ≤ s.vaddrLen PF) := by
    cases PF with
    | kernel =>
      have hpage : PoolFlag.kernel.page r = PoolFlag.kernel.base + r := rfl
      refine ⟨by omega, fun hinside => ?_⟩
      have := hinside rfl r hr
      omega
    | user =>
      have := user_reach h0 hn fun q h₁ h₂ => (hm.unmapped q h₁ h₂).1
      exact ⟨by omega, fun _ => this⟩
  have hnew : LiveRange s' ⟨PF, PF.page r, k⟩ f :=
    live_new (mark_inv hinv r k) hm hn h0 hreach.1 fun q h₁ h₂ => (hm.unmapped q h₁ h₂).1
  refine ⟨⟨hinv', hold.zero_free, fun R hR => ?_, ranges_cons (fun R hR p hp => ?_) h.disjoint⟩,
    by omega, hreach.2⟩
  · rcases List.mem_cons.mp hR with rfl | hR
    · exact ⟨f, hnew⟩
    · exact hold.live R hR
  · obtain ⟨g, hg⟩ := h.live R hR
    exact (hlive R hR g hg).2 p hp.2 hp.1

theorem getAPage_keeps {L : List Range} {v w : ℕ} (h : RangesInv (s, L))
    (hmeets : StepMeets s (.getAPage PF v)) (hv : v < 2 ^ 32)
    (he : s.frameOf (v / 4096) = none) (hrun : KernelPools.getAPage PF v s = .ok (w, s')) :
    SameThread s s' ∧ RangesInv (s', ⟨PF, v / 4096, 1⟩ :: L) := by
  obtain ⟨hflag, ⟨hb, hi⟩, hfree, hfit⟩ := hmeets
  have hinv : PoolInv s := h.pool
  obtain ⟨hinv', f, hm, hzero⟩ :=
    getAPage_spec hinv hflag hv hb hi he hfree hfit (Or.inl rfl) hrun
  have hlive : ∀ R ∈ L, ∀ g, LiveRange s R g → LiveRange s' R g ∧
      ∀ q, R.Has q → ¬ (v / 4096 ≤ q ∧ q < v / 4096 + 1) :=
    fun R _ g hg => live_of_mapped hg hm ⟨rfl, rfl, rfl⟩ (fun _ => rfl)
      fun q h₁ h₂ => by rw [show q = v / 4096 by omega]; exact he
  have hmanaged : PF.Managed (v / 4096) := by
    have hk := vaddr_facts s PF (by omega)
    cases PF with
    | kernel =>
      have := hk.2.1 rfl
      simp only [PoolFlag.Managed, PoolFlag.base] at *
      omega
    | user =>
      have := hk.2.2 rfl
      simp only [PoolFlag.Managed, PoolFlag.base] at *
      omega
  have hnew : LiveRange s' ⟨PF, v / 4096, 1⟩ f := by
    refine live_new (mark_inv hinv _ 1) hm le_rfl ?_ ?_ fun q h₁ h₂ => ?_
    · change 0 < s.vaddrLen PF
      omega
    · change v / 4096 - PF.base + 1 ≤ s.vaddrLen PF + 1
      omega
    · rw [show q = v / 4096 by omega]
      exact hmanaged
  refine ⟨⟨hm.grows.layout, hm.grows.curr⟩, hinv',
    fun d hd ht => h.zero_free d hd (hzero rfl d hd ht), fun R hR => ?_,
    ranges_cons (fun R hR p hp => ?_) h.disjoint⟩
  · rcases List.mem_cons.mp hR with rfl | hR
    · exact ⟨f, hnew⟩
    · obtain ⟨g, hg⟩ := h.live R hR
      exact ⟨g, (hlive R hR g hg).1⟩
  · obtain ⟨g, hg⟩ := h.live R hR
    exact (hlive R hR g hg).2 p hp.2 hp.1

instance : Std.Symm Apart := ⟨fun _ _ h p hp => h p ⟨hp.2, hp.1⟩⟩

theorem RangesInv.nodup {x : PoolRun} (h : RangesInv x) : x.2.Nodup := by
  refine h.disjoint.imp_of_mem fun {R R'} hR _ hap he => ?_
  obtain ⟨g, hg⟩ := h.live R hR
  have hc := hg.count
  exact hap R.page ⟨⟨le_rfl, by omega⟩, he ▸ ⟨le_rfl, by omega⟩⟩

theorem LiveRange.freeReady (h : LiveRange s R g) (hinv : PoolInv s)
    (hu : R.flag = .user → 0 < g 0) : FreeReady s R.flag R.page R.count g := by
  intro j hj
  refine ⟨h.managed _ ⟨by omega, by omega⟩, h.frames j hj, h.index_lt hinv hj, h.not_dir j hj,
    fun hf => ?_⟩
  by_cases hj0 : j = 0
  · exact hj0 ▸ hu hf
  · have := h.ascending 0 j (by omega) hj
    omega

theorem freePages_released {L : List Range} (h : RangesInv (s, L)) (hR : R ∈ L)
    (hrun : KernelPools.freePages R.flag R.count (4096 * R.page) s = .ok ((), s')) :
    ∃ g t, LiveRange s R g ∧ PagesReleased s t R.flag R.page R.count g ∧ PoolInv s' ∧
      s' = setVaddr t R.flag (R.page - R.flag.base) R.count false := by
  have hinv : PoolInv s := h.pool
  obtain ⟨g, hg⟩ : ∃ g, LiveRange s R g := h.live R hR
  obtain ⟨n, hn⟩ : ∃ n, R.count = n + 1 := ⟨R.count - 1, by have := hg.count; omega⟩
  have hu : R.flag = .user → 0 < g 0 := by
    intro hf
    by_contra h0
    have hfr := hg.frames 0 (by omega)
    rw [Nat.add_zero, hf, show g 0 = 0 by omega, Nat.add_zero] at hfr
    have hp := managed_plain (hg.managed R.page ⟨le_rfl, by omega⟩)
    rw [hn, freePages_first_user_frame hinv _ hp hfr] at hrun
    cases hrun
  have hready := hg.freeReady hinv hu
  have hin := hg.reach
  rw [hn] at hready hrun ⊢
  obtain ⟨t, hinv', hrel, hcall⟩ := freePages_spec hinv hready hg.marked (by omega)
  rw [hcall] at hrun
  split at hrun
  · cases hrun
  cases hrun
  exact ⟨g, t, hg, hrel, hinv', rfl⟩

theorem freePages_keeps {L : List Range} (h : RangesInv (s, L)) (hR : R ∈ L)
    (hrun : KernelPools.freePages R.flag R.count (4096 * R.page) s = .ok ((), s')) :
    SameThread s s' ∧ FramesKept s s' (L.erase R) ∧ RangesInv (s', L.erase R) := by
  obtain ⟨g, t, hg, hrel, hinv', rfl⟩ := freePages_released h hR hrun
  have hkept : FramesKept s (setVaddr t R.flag (R.page - R.flag.base) R.count false)
      (L.erase R) := by
    intro R' hR' p hp
    obtain ⟨hne, hmem⟩ := h.nodup.mem_erase_iff.mp hR'
    obtain ⟨g', hg'⟩ := h.live R' hmem
    have hap := h.disjoint.forall hR hmem hne.symm
    refine (hrel.frames p (managed_plain (hg'.managed _ hp))).trans (if_neg ?_)
    exact fun hin => hap p ⟨hin, hp⟩
  refine ⟨⟨hrel.layout, hrel.curr⟩, hkept, hinv', fun d hd ht => ?_, fun R' hR' => ?_,
    h.disjoint.sublist List.erase_sublist⟩
  · exact h.zero_free d hd ((hrel.tables d).symm.trans ht)
  · obtain ⟨g', hg'⟩ := h.live R' (List.mem_of_mem_erase hR')
    exact ⟨g', hg'.frame_kept hrel.layout hrel.curr hrel.pageDir (hkept R' hR')⟩

/-! ## The free end of a process's virtual pool -/

/-- No run that begins below the stack's page reaches these bits. -/
def TopFree (s : MemState) : Prop :=
  0 < s.vaddrLen .user → ∀ i, 192236 ≤ i → i < 753591 → s.vaddrBit .user i = false

/-- First fit finds its run in front of them. -/
theorem TopFree.run_le (h : TopFree s) {n r : ℕ} (hn : 1 ≤ n ∧ n < 3840)
    (hr : vaddrRun s .user n = some r) : r ≤ 192236 := by
  obtain ⟨h0, -, -, -⟩ := vaddrRun_facts hn.1 hr
  by_contra hlt
  exact (bitmapScan_some hn.1 hr).least 192236 (by omega) fun k hk =>
    h h0 (192236 + k) (by omega) (by omega)

def MallocTables (s : MemState) (PF : PoolFlag) (n : ℕ) : Prop :=
  ∀ r, vaddrRun s PF n = some r → TablesFit 0 s PF (PF.page r) n

theorem TopFree.mallocFits (h : TopFree s) {n : ℕ} (ht : MallocTables s PF n) :
    MallocFits 0 s PF n := by
  refine fun hn r hr => ⟨ht r hr, ?_⟩
  rintro rfl
  have := h.run_le hn hr
  omega

theorem mallocPages_topFree (h : TopFree s) (hinv : PoolInv s) {n v : ℕ}
    (hfit : MallocFits 0 s PF n) (hrun : KernelPools.mallocPages PF n s = .ok (v, s')) :
    TopFree s' := by
  have hn := mallocPages_count hrun
  rcases mallocPages_spec hinv hfit (Or.inl rfl) hrun with
    ⟨-, rfl⟩ | ⟨r, k, f, hr, -, -, hm, -, -⟩
  · exact h
  have hsame : s'.vaddrs .user = s.vaddrs .user := by
    simp only [MemState.vaddrs, hm.grows.curr]
    rfl
  obtain ⟨h0, hlen, -, -⟩ := vaddrRun_facts hn.1 hr
  intro h0' i h₁ h₂
  simp only [MemState.vaddrLen, hsame] at h0'
  have hlen' := (vaddr_facts s .user h0').2.2 rfl
  by_contra hb
  rw [Bool.not_eq_false, vaddrBit_eq, vaddrPos, hsame] at hb
  rcases hm.bits _ hb with hb | ⟨j, hj, hx⟩ | ⟨-, -, j, hj, hx, -⟩
  · have hold : (setVaddr s PF r n true).vaddrBit .user i = true := hb
    cases PF with
    | kernel =>
      rw [setVaddr_vaddrBit_ne true (by simp) hlen h0 (by omega) h0', h h0' i h₁ h₂] at hold
      cases hold
    | user =>
      have hle := h.run_le ⟨hn.1, hn.2⟩ hr
      have hlow : PoolFlag.user.page r < 0xbffff := by
        by_contra hge
        rw [mallocPages_stack hn hr (by omega) (by omega)] at hrun
        cases hrun
      simp only [PoolFlag.page] at hlow
      rw [setVaddr_vaddrBit, if_neg (by omega), h h0' i h₁ h₂] at hold
      cases hold
  · exact @poolPos_ne_vaddrPos s PF .user _ i (hm.inside j hj) (by omega) h0' hx.symm
  · exact @poolPos_ne_vaddrPos s .kernel .user _ i hj (by omega) h0' hx.symm

theorem freePages_topFree (ht : TopFree s) {n v : ℕ}
    (hrun : KernelPools.freePages PF n v s = .ok ((), s')) : TopFree s' := by
  obtain ⟨t, hkept, rfl⟩ := freePages_bits hrun
  have hsame : t.vaddrs .user = s.vaddrs .user := by simp only [MemState.vaddrs, hkept.curr]
  intro h0 i h₁ h₂
  change 0 < t.vaddrLen .user at h0
  simp only [MemState.vaddrLen, hsame] at h0
  rw [vaddrBit_eq, memBit_setVaddr]
  split
  · rfl
  · exact (hkept.vaddrBit h0 i).trans (ht h0 i h₁ h₂)

theorem step_keeps {c : PoolCall} {x y : PoolRun} (h : RangesInv x) (hin : AllInside x)
    (hm : StepMeets x.1 c) (hs : PoolStep c x y) : RangesInv y ∧ AllInside y := by
  cases hs with
  | mallocPages hrun hv =>
    obtain ⟨hsame, -, -, hnew⟩ := mallocPages_keeps h hm.2 hrun
    obtain ⟨hinv, -, hlast⟩ := hnew hv
    refine ⟨hinv, fun R hR => ?_⟩
    rw [hsame.vaddrLen]
    rcases List.mem_cons.mp hR with rfl | hR
    · exact hlast hm.1
    · exact hin R hR
  | mallocFails hrun =>
    obtain ⟨hsame, -, hold, -⟩ := mallocPages_keeps h hm.2 hrun
    exact ⟨hold rfl, fun R hR => by rw [hsame.vaddrLen]; exact hin R hR⟩
  | getAPage hv he hrun =>
    obtain ⟨hsame, hinv⟩ := getAPage_keeps h hm hv he hrun
    refine ⟨hinv, fun R hR => ?_⟩
    rw [hsame.vaddrLen]
    rcases List.mem_cons.mp hR with rfl | hR
    · exact hm.2.1.2
    · exact hin R hR
  | freePages hR hrun =>
    obtain ⟨hsame, -, hinv⟩ := freePages_keeps h hR hrun
    exact ⟨hinv, fun R' hR' => by rw [hsame.vaddrLen]; exact hin R' (List.mem_of_mem_erase hR')⟩

/-! ## Runs -/

/-- Frames the loader leaves for page tables, as long as nobody has written to them. -/
def BlankTables (ram : Frames) : Prop := ∀ f, 0x101 ≤ f → f < 0x200 → ∀ i, ram f i = 0#32

theorem tableOf_memInit (allMem : ℕ) (bytes : Bytes) (ram : Frames) (curr : Running) (d : ℕ) :
    (memInit allMem bytes ram curr).tableOf d =
      if d = 0 ∨ d = 768 then some 0x101
      else if 769 ≤ d ∧ d < 1023 then some (0x102 + (d - 769))
      else if d = 1023 then some 0x100 else none := by
  have h₁ : target (pgEntry 0x101000) = some 0x101 := target_pgEntry (f := 0x101) (by norm_num)
  have h₂ : target (pgEntry 0x100000) = some 0x100 := target_pgEntry (f := 0x100) (by norm_num)
  rw [MemState.tableOf, KernelPaging.tableOf]
  simp only [memInit, setPage, ↓reduceIte]
  split
  · exact h₁
  · split
    case isTrue hd =>
      rw [show 0x102000 + (d - 769) * 0x1000 = 4096 * (0x102 + (d - 769)) by omega,
        target_pgEntry (by omega)]
    case isFalse =>
      split
      · exact h₂
      · exact target_zero

theorem frameOf_memInit (allMem : ℕ) (bytes : Bytes) {ram : Frames} (hram : BlankTables ram)
    (curr : Running) {p : ℕ} (hp : Plain p) :
    (memInit allMem bytes ram curr).frameOf p =
      if 0xc0000 ≤ p ∧ p < 0xc0100 then some (p - 0xc0000) else none := by
  have ht := tableOf_memInit allMem bytes ram curr (p / 1024)
  simp only [Plain] at hp
  rw [MemState.frameOf, KernelPaging.frameOf, KernelPaging.entryOf]
  change (Option.map _ ((memInit allMem bytes ram curr).tableOf (p / 1024))).bind _ = _
  rw [ht]
  by_cases h768 : p / 1024 = 768
  · rw [if_pos (Or.inr h768)]
    change target (setPage ram 0x101 (p % 1024)) = _
    rw [setPage, if_neg (by norm_num)]
    by_cases hlow : p % 1024 < 256
    · rw [if_pos ⟨rfl, hlow⟩, if_pos (by omega),
        show p % 1024 * 0x1000 = 4096 * (p - 0xc0000) by omega, target_pgEntry (by omega)]
    · rw [if_neg (by simp [hlow]), if_neg (by omega), hram _ (by norm_num) (by norm_num),
        target_zero]
  · rw [if_neg (by omega), if_neg (show ¬ (0xc0000 ≤ p ∧ p < 0xc0100) by omega)]
    by_cases hd : 769 ≤ p / 1024 ∧ p / 1024 < 1023
    · have hfr : (memInit allMem bytes ram curr).frames = setPage ram := rfl
      rw [if_pos hd, Option.map_some, Option.bind_some, hfr]
      rw [setPage, if_neg (by omega), if_neg (by omega), hram _ (by omega) (by omega), target_zero]
    · rw [if_neg hd, if_neg (by omega)]
      rfl

/-- What `mem_init` leaves, and every address space before its first allocation call. -/
def Start (x : PoolRun) : Prop :=
  x.2 = [] ∧ PoolInv x.1 ∧ ∀ d < 1023, x.1.tableOf d ≠ some 0

theorem start_memInit (allMem : ℕ) (bytes : Bytes) {ram : Frames} (hram : BlankTables ram)
    (curr : Running) : Start (memInit allMem bytes ram curr, []) := by
  have ht := tableOf_memInit allMem bytes ram curr
  have hf : ∀ p, Plain p → _ := fun p hp => frameOf_memInit allMem bytes hram curr hp
  have hmanaged : ∀ (PF : PoolFlag) p, PF.Managed p →
      (memInit allMem bytes ram curr).frameOf p = none := by
    intro PF p hp
    rw [hf p (managed_plain hp), if_neg]
    cases PF <;> simp only [PoolFlag.Managed] at hp <;> omega
  have htab : ∀ d t, (memInit allMem bytes ram curr).tableOf d = some t →
      ((d = 0 ∨ d = 768) ∧ t = 0x101) ∨ (769 ≤ d ∧ d < 1023 ∧ t = 0x102 + (d - 769)) ∨
      (d = 1023 ∧ t = 0x100) := by
    intro d t h
    rw [ht] at h
    split at h
    · rw [Option.some.injEq] at h
      omega
    · split at h
      · rw [Option.some.injEq] at h
        omega
      · split at h
        · rw [Option.some.injEq] at h
          omega
        · cases h
  refine ⟨rfl, ?_, fun d _ h => by rcases htab d 0 h with h | h | h <;> omega⟩
  constructor
  case self_mapped =>
    refine ⟨(ht 1023).trans (by simp [memInit]), fun d hd h => ?_⟩
    have h' : (memInit allMem bytes ram curr).tableOf d = some 0x100 := h
    rcases htab d _ h' with h | h | h <;> omega
  case kernel_tables =>
    intro d h₁ h₂ hn
    rw [ht] at hn
    split at hn
    · cases hn
    · rw [if_pos (by omega)] at hn
      cases hn
  case dir_reserved => exact Or.inl ⟨le_refl 0x100, by simp [memInit]⟩
  case table_frame =>
    intro d hd t h
    refine Or.inr (Or.inl ?_)
    rcases htab d t h with h | h | h <;> omega
  case table_unshared =>
    intro d d' t h₁ h₂ h₃ h₄ h h'
    rcases htab d t h with h | h | h <;> rcases htab d' t h' with h' | h' | h' <;> omega
  case frame_held =>
    intro PF p f hp h
    rw [hmanaged PF p hp] at h
    cases h
  case frame_low =>
    intro p f hp _ h
    rw [hf p hp] at h
    split at h
    · rw [Option.some.injEq] at h
      omega
    · cases h
  case frame_unshared =>
    intro p q f hp hq h h'
    rw [hf p hp] at h
    rw [hf q hq] at h'
    split at h <;> split at h' <;> simp only [Option.some.injEq, reduceCtorEq] at h h'
    omega
  case table_unmapped =>
    intro PF p f hp h
    rw [hmanaged PF p hp] at h
    cases h
  case page_marked =>
    intro p hp h
    exact (h (hmanaged .kernel p hp)).elim
  case low_mapped =>
    rw [hf _ ⟨by norm_num, by norm_num⟩]
    exact Option.some_ne_none _

/-- A step of a run in which no call meets an unchecked failure of `palloc`. -/
def MeetingStep (x y : PoolRun) : Prop := ∃ c, StepMeets x.1 c ∧ PoolStep c x y

theorem run_inv {x : PoolRun} (h : Reachable Start MeetingStep x) : RangesInv x ∧ AllInside x := by
  have hstart : ∀ y, Start y → RangesInv y ∧ AllInside y := by
    rintro y ⟨h₁, h₂, h₃⟩
    exact ⟨⟨h₂, h₃, fun R hR => by simp [h₁] at hR, by simp [h₁]⟩, fun R hR => by simp [h₁] at hR⟩
  have hstep : ∀ y z, RangesInv y ∧ AllInside y → MeetingStep y z → RangesInv z ∧ AllInside z := by
    rintro y z hy ⟨c, hc, hs⟩
    exact step_keeps hy.1 hy.2 hc hs
  exact reachable_invariant (fun y => RangesInv y ∧ AllInside y) h hstart hstep

/-- In every run from `mem_init` whose calls meet the condition, the live ranges are sound. -/
theorem live_ranges_sound {allMem : ℕ} {bytes : Bytes} {ram : Frames} {curr : Running}
    (hram : BlankTables ram) {x : PoolRun}
    (h : Relation.ReflTransGen MeetingStep (memInit allMem bytes ram curr, []) x) :
    RangesSound x := by
  obtain ⟨hinv, hin⟩ := run_inv ⟨_, start_memInit allMem bytes hram curr, h⟩
  exact hinv.sound hin

theorem start_sampleMachine (pages : ℕ) : Start (sampleMachine pages, []) :=
  start_memInit _ _ (fun _ _ _ _ => rfl) _

theorem live_ranges_sound_two_pages : ∃ s, mallocPages .user 2 (sampleMachine 16) =
    .ok (0x8048000, s) ∧ RangesSound (s, [⟨.user, 0x8048, 2⟩]) := by
  have hrun : yields (mallocPages .user 2) (sampleMachine 16) (fun v _ => v == 0x8048000) = true := by
    decide +kernel
  obtain ⟨v, s, hs, hv⟩ := yields_iff.mp hrun
  cases beq_iff_eq.mp hv
  have hblank : BlankTables fun _ _ => 0#32 := fun _ _ _ _ => rfl
  have hstep : MeetingStep (sampleMachine 16, []) (s, [⟨.user, 0x8048, 2⟩]) := by
    refine ⟨.mallocPages .user 2, ⟨fun h => (by cases h), fun _ r hr => ?_⟩,
      .mallocPages hs (by decide)⟩
    have hzero : vaddrRun (sampleMachine 16) .user 2 = some 0 := by decide +kernel
    cases hzero.symm.trans hr
    refine ⟨?_, fun _ => by norm_num⟩
    unfold TablesFit
    decide +kernel
  exact ⟨s, hs, live_ranges_sound hblank (Relation.ReflTransGen.single hstep)⟩

/-- `get_a_page` maps frame 0 when the user pool is empty. -/
theorem live_ranges_unsound : Start (sampleMachine 16, []) ∧
    ∃ x, Relation.ReflTransGen (fun x y => ∃ c, PoolStep c x y) (sampleMachine 16, []) x ∧
      ¬ RangesSound x := by
  refine ⟨start_sampleMachine 16, ?_⟩
  have hrun : yields (mallocPages .user 8) (sampleMachine 16) (fun v s => v != 0 &&
      s.frameOf 0xbffff == none && yields (getAPage .user 0xbffff000) s
        fun _ t => t.frameOf 0xbffff == some 0) = true := by
    decide +kernel
  obtain ⟨v, s, hs, hv⟩ := yields_iff.mp hrun
  simp only [Bool.and_eq_true, bne_iff_ne, beq_iff_eq] at hv
  obtain ⟨⟨hv, he⟩, hget⟩ := hv
  obtain ⟨w, t, ht, hf⟩ := yields_iff.mp hget
  refine ⟨(t, [⟨.user, 0xbffff, 1⟩, ⟨.user, v / 4096, 8⟩]), ?_, fun hsound => ?_⟩
  · exact (Relation.ReflTransGen.single ⟨_, .mallocPages hs hv⟩).tail
      ⟨_, .getAPage (by norm_num) he ht⟩
  · obtain ⟨i, -, hi, -⟩ := hsound.mapped ⟨.user, 0xbffff, 1⟩ (by simp) 0xbffff
      ⟨le_rfl, by norm_num⟩
    rw [beq_iff_eq.mp hf, Option.some.injEq] at hi
    have hi : 0 = t.poolStart .user + i := hi
    have := poolStart_le t .user
    omega

end KernelPoolRanges
