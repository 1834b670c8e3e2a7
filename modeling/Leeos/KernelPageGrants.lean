import Leeos.KernelDirectoryRuns
import Leeos.KernelPoolLoop

/-!
# What a kernel allocation is given (`malloc_kernel_pages`)

Kernel pages need no new tables, so the loop of `malloc_pages` succeeds exactly when the pool has
as many frames as the run has pages. `Grant` says what a successful one takes; frame 0 may be the
page table of any user pages meanwhile.
-/
namespace KernelPageGrants

open ExecRules RunSearch KernelBitmap KernelPaging KernelPools KernelPoolSteps KernelPoolInvariant
  KernelPoolMapping KernelPoolCalls KernelPoolRanges KernelPoolLoop KernelDirectories
  KernelDirectorySteps KernelDirectoryRuns

variable {s s' t : MemState} {dirs pages : List ℕ}

/-- The clear bits of the kernel's virtual bitmap stand for unmapped pages. -/
structure KernelReady (s : MemState) (dirs pages : List ℕ) : Prop where
  spaces : SpacesInv ⟨s, dirs, pages⟩
  marked : ∀ p, PoolFlag.kernel.Managed p → kernelFrame s.frames p ≠ none → Marked s .kernel p

/-- The `n` kernel pages from `p` on got frames that were free. Bitmaps on other pages of the heap
are as before. -/
structure Grant (s s' : MemState) (p n : ℕ) : Prop where
  layout : s'.layout = s.layout
  curr : s'.curr = s.curr
  pageDir : s'.pageDir = s.pageDir
  vaddr : ∀ i ≤ s.vaddrLen .kernel, s'.vaddrBit .kernel i = s.vaddrBit .kernel i
  held : ∀ f, Held s .kernel f → Held s' .kernel f
  count : freeCount s' .kernel + n = freeCount s .kernel
  old : ∀ q, PoolFlag.kernel.Managed q → ¬ InRange p n q →
    kernelFrame s'.frames q = kernelFrame s.frames q
  new : ∀ q, InRange p n q →
    ∃ f, kernelFrame s'.frames q = some f ∧ Held s' .kernel f ∧ ¬ Held s .kernel f
  heap : ∀ k, 8 * kernelHeapStart ≤ k → ¬ InRange p n (k / 8 / 4096) →
    memBit s'.bytes k = memBit s.bytes k

theorem grant_zero (s : MemState) (p : ℕ) : Grant s s p 0 where
  layout := rfl
  curr := rfl
  pageDir := rfl
  vaddr _ _ := rfl
  held _ := id
  count := rfl
  old _ _ _ := rfl
  new q hq := by
    simp only [InRange] at hq
    omega
  heap _ _ _ := rfl

theorem Grant.rewritten {p n : ℕ} (g : Grant s t p n) (hp : ∀ q, InRange p n q →
    PoolFlag.kernel.Managed q) {fr : Frames}
    (hkf : ∀ q, PoolFlag.kernel.Managed q → kernelFrame fr q = kernelFrame t.frames q) :
    Grant s (setFrames t fr) p n where
  layout := g.layout
  curr := g.curr
  pageDir := g.pageDir
  vaddr := g.vaddr
  held := g.held
  count := g.count
  old q hq hout := (hkf q hq).trans (g.old q hq hout)
  new q hq := by
    obtain ⟨f, hf, hrest⟩ := g.new q hq
    exact ⟨f, (hkf q (hp q hq)).trans hf, hrest⟩
  heap := g.heap

theorem KernelReady.rewritten (h : KernelReady t dirs pages) {fr : Frames} {dirs' : List ℕ}
    (hs : SpacesInv ⟨setFrames t fr, dirs', pages⟩)
    (hkf : ∀ q, PoolFlag.kernel.Managed q → kernelFrame fr q = kernelFrame t.frames q) :
    KernelReady (setFrames t fr) dirs' pages where
  spaces := hs
  marked q hq hf := h.marked q hq (hkf q hq ▸ hf)

/-! ## One turn of the loop -/

theorem poolPos_low {i : ℕ} (hi : i < s.poolLen .kernel) :
    poolPos s .kernel i < 8 * kernelHeapStart := by
  obtain ⟨nk, nu, hk, hu, -, -, h₃, h₄, h₅, h₆, h₇, h₈⟩ := layout_facts s.layout
  simp only [kernelHeapStart, poolPos, Bitmap.pos, MemState.poolLen, MemState.pool] at *
  omega

theorem vaddrPos_low {i : ℕ} (hi : i ≤ s.vaddrLen .kernel) :
    vaddrPos s .kernel i < 8 * kernelHeapStart := by
  obtain ⟨nk, nu, hk, hu, -, -, h₃, h₄, h₅, h₆, h₇, h₈⟩ := layout_facts s.layout
  simp only [kernelHeapStart, vaddrPos, Bitmap.pos, MemState.vaddrLen, MemState.vaddrs] at *
  omega

theorem kernelBit_takeFrame {i j : ℕ} (hi : i < s.poolLen .kernel) (hj : j ≤ s.vaddrLen .kernel)
    (h0 : 0 < s.vaddrLen .kernel) :
    (takeFrame s .kernel i).vaddrBit .kernel j = s.vaddrBit .kernel j := by
  refine (memBit_takeFrame i _).trans (if_neg fun he => ?_)
  exact poolPos_ne_vaddrPos hi hj h0 he.symm

theorem grab_grant (h : SpacesInv ⟨s, dirs, pages⟩) {p i : ℕ} (hi : s.firstFree .kernel = some i)
    (hp : PoolFlag.kernel.Managed p) (hnone : kernelFrame s.frames p = none)
    (h0 : 0 < s.vaddrLen .kernel) :
    Grant s (grabPage s .kernel i p) p 1 ∧
      SpacesInv ⟨grabPage s .kernel i p, dirs, p :: pages⟩ := by
  obtain ⟨htake, hlt, hfresh⟩ := takeFrame_keeps h hi
  obtain ⟨hheld, hunused⟩ := hfresh rfl
  obtain ⟨hlen, hbit, -⟩ := firstFree_some hi
  have hp' := hp
  simp only [PoolFlag.Managed] at hp'
  have hframe : (takeFrame s .kernel i).frameOf p = none :=
    (h.frameOf_kernel h.active (by omega) hp'.2).trans hnone
  have hstep := addKernel_keeps htake hp hframe hlt (Or.inr ⟨hheld, hunused⟩)
  have hadd : grabPage s .kernel i p = mapEntry (takeFrame s .kernel i) (kernelTable (p / 1024)) p
      (s.poolStart .kernel + i) := addPage_kernel htake (by omega) hp'.2
  have hkf : ∀ q, PoolFlag.kernel.Managed q → kernelFrame (grabPage s .kernel i p).frames q =
      if q = p then some (s.poolStart .kernel + i) else kernelFrame s.frames q := by
    intro q hq
    rw [hadd, mapEntry, setFrames_frames, kernelFrame_setEntry (by omega) hq, target_pgEntry hlt,
      takeFrame_frames]
  refine ⟨?_, hstep⟩
  constructor
  case layout => rw [hadd]; rfl
  case curr => rw [hadd]; rfl
  case pageDir => rw [hadd]; rfl
  case vaddr =>
    intro j hj
    rw [hadd]
    exact kernelBit_takeFrame hlen hj h0
  case held =>
    intro f hf
    rw [hadd]
    exact (takeFrame_grows s .kernel i).held hf
  case count =>
    refine freeCount_grab hi fun _ => ?_
    have ht := h.kernel_table _ h.active (p / 1024) (by omega) (by omega)
    exact fun he => by cases ht.symm.trans he
  case old =>
    intro q hq hout
    rw [hkf q hq, if_neg]
    rintro rfl
    exact hout ⟨le_rfl, by omega⟩
  case new =>
    intro q hq
    simp only [InRange] at hq
    obtain rfl : q = p := by omega
    refine ⟨_, (hkf q hp).trans (if_pos rfl), ?_, fun hh => ?_⟩
    · rw [hadd]
      exact hheld
    · exact absurd (held_unique hlen hh).2 (by simp [hbit])
  case heap =>
    intro k hk _
    rw [hadd]
    have := poolPos_low hlen
    exact (memBit_takeFrame i k).trans (if_neg (by omega))

theorem Grant.cons {p n : ℕ} (g : Grant s t p 1) (g' : Grant t s' (p + 1) n)
    (hp : ∀ q, InRange p (n + 1) q → PoolFlag.kernel.Managed q) : Grant s s' p (n + 1) where
  layout := g'.layout.trans g.layout
  curr := g'.curr.trans g.curr
  pageDir := g'.pageDir.trans g.pageDir
  vaddr i hi := by
    have hlen : t.vaddrLen .kernel = s.vaddrLen .kernel :=
      SameThread.vaddrLen ⟨g.layout, g.curr⟩ .kernel
    exact (g'.vaddr i (hlen ▸ hi)).trans (g.vaddr i hi)
  held f hf := g'.held f (g.held f hf)
  count := by
    have := g.count
    have := g'.count
    omega
  old q hq hout := by
    simp only [InRange] at hout
    rw [g'.old q hq (by simp only [InRange]; omega), g.old q hq (by simp only [InRange]; omega)]
  new q hq := by
    have hm := hp q hq
    simp only [InRange] at hq
    by_cases hqp : q = p
    · subst hqp
      obtain ⟨f, hf, hh, hfree⟩ := g.new q ⟨le_rfl, by omega⟩
      refine ⟨f, ?_, g'.held f hh, hfree⟩
      rw [g'.old q hm (by simp only [InRange]; omega), hf]
    · obtain ⟨f, hf, hh, hfree⟩ := g'.new q ⟨by omega, by omega⟩
      exact ⟨f, hf, hh, fun h => hfree (g.held f h)⟩
  heap k hk hout := by
    simp only [InRange] at hout
    rw [g'.heap k hk (by simp only [InRange]; omega), g.heap k hk (by simp only [InRange]; omega)]

/-- The pages still to be mapped, in the state `s` of the loop. -/
structure Awaiting (s : MemState) (dirs : List ℕ) (p n : ℕ) : Prop where
  spaces : ∃ pages, SpacesInv ⟨s, dirs, pages⟩
  bitmap : 0 < s.vaddrLen .kernel
  managed : ∀ q, InRange p n q → PoolFlag.kernel.Managed q
  unmapped : ∀ q, InRange p n q → kernelFrame s.frames q = none

theorem Awaiting.turn {p n i : ℕ} (h : Awaiting s dirs p (n + 1))
    (hi : s.firstFree .kernel = some i) :
    Grant s (grabPage s .kernel i p) p 1 ∧ Awaiting (grabPage s .kernel i p) dirs (p + 1) n ∧
      mapPages .kernel (n + 1) (4096 * p) s =
        mapPages .kernel n (4096 * (p + 1)) (grabPage s .kernel i p) := by
  obtain ⟨pages, hs⟩ := h.spaces
  have hin : InRange p (n + 1) p := ⟨le_rfl, by omega⟩
  have hm := h.managed p hin
  obtain ⟨g, hinv⟩ := grab_grant hs hi hm (h.unmapped p hin) h.bitmap
  have hlater : ∀ q, InRange (p + 1) n q → InRange p (n + 1) q ∧ ¬ InRange p 1 q := by
    intro q hq
    simp only [InRange] at *
    omega
  refine ⟨g, ⟨⟨_, hinv⟩, ?_, fun q hq => h.managed q (hlater q hq).1, fun q hq => ?_⟩, ?_⟩
  · rw [SameThread.vaddrLen ⟨g.layout, g.curr⟩ .kernel]
    exact h.bitmap
  · obtain ⟨hq', hout⟩ := hlater q hq
    exact (g.old q (h.managed q hq') hout).trans (h.unmapped q hq')
  · have hframe : s.frameOf p = none := by
      have hm' := hm
      simp only [PoolFlag.Managed] at hm'
      exact (hs.frameOf_kernel hs.active (by omega) hm'.2).trans (h.unmapped p hin)
    exact mapPages_some hs.self_mapped hs.dir_reserved hi hm hframe

theorem mapPages_grants (left : ℕ) : ∀ (s : MemState) (p : ℕ), Awaiting s dirs p left →
    (left ≤ freeCount s .kernel →
      ∃ s', mapPages .kernel left (4096 * p) s = .ok (true, s') ∧ Grant s s' p left) ∧
    (freeCount s .kernel < left → ∃ s', mapPages .kernel left (4096 * p) s = .ok (false, s')) := by
  induction left with
  | zero => exact fun s p _ => ⟨fun _ => ⟨s, rfl, grant_zero s p⟩, fun h0 => by omega⟩
  | succ left ih =>
    intro s p h
    cases hi : s.firstFree .kernel with
    | none =>
      have h0 := freeCount_eq_zero hi
      exact ⟨fun hle => by omega, fun _ => ⟨s, mapPages_none hi⟩⟩
    | some i =>
      obtain ⟨g, hnext, hrun⟩ := h.turn hi
      obtain ⟨hserve, hshort⟩ := ih _ _ hnext
      have hcount := g.count
      rw [hrun]
      refine ⟨fun hle => ?_, fun hlt => hshort (by omega)⟩
      obtain ⟨s', hrest, g'⟩ := hserve (by omega)
      exact ⟨s', hrest, g.cons g' h.managed⟩

/-! ## A whole allocation -/

theorem held_mark {n r f : ℕ} (hn : 1 ≤ n) (hr : vaddrRun s .kernel n = some r) :
    Held (setVaddr s .kernel r n true) .kernel f ↔ Held s .kernel f := by
  obtain ⟨h0, hlen, -, -⟩ := vaddrRun_facts hn hr
  have hbit : ∀ i < s.poolLen .kernel,
      (setVaddr s .kernel r n true).poolBit .kernel i = s.poolBit .kernel i :=
    fun i hi => setVaddr_poolBit true hlen h0 hi
  constructor
  · rintro ⟨i, hi, rfl, hb⟩
    exact ⟨i, hi, rfl, hbit i hi ▸ hb⟩
  · rintro ⟨i, hi, rfl, hb⟩
    exact ⟨i, hi, rfl, (hbit i hi).symm ▸ hb⟩

theorem KernelReady.awaiting (h : KernelReady s dirs pages) {n r : ℕ} (hn : 1 ≤ n)
    (hr : vaddrRun s .kernel n = some r) :
    Awaiting (setVaddr s .kernel r n true) dirs (PoolFlag.kernel.base + r) n := by
  obtain ⟨h0, hlen, -, hclear⟩ := vaddrRun_facts hn hr
  have hmax := (vaddr_facts s .kernel h0).2.1 rfl
  have hbase : PoolFlag.kernel.base = 0xc0100 := rfl
  have hman : ∀ q, InRange (PoolFlag.kernel.base + r) n q → PoolFlag.kernel.Managed q := by
    intro q hq
    simp only [InRange, PoolFlag.Managed] at *
    omega
  refine ⟨⟨pages, mark_keeps h.spaces r n⟩, h0, hman, fun q hq => ?_⟩
  by_contra hf
  have hm := h.marked q (hman q hq) hf
  simp only [InRange] at hq
  have hbit := hclear (q - (PoolFlag.kernel.base + r)) (by omega)
  rw [show r + (q - (PoolFlag.kernel.base + r)) = q - PoolFlag.kernel.base by omega] at hbit
  have := hm h0 (by omega)
  rw [hbit] at this
  cases this

theorem kernel_page (r : ℕ) : PoolFlag.kernel.page r = PoolFlag.kernel.base + r := rfl

/-- `malloc_pages` returns 0 exactly without a free run or without frames for it. -/
def Refused (s : MemState) (n : ℕ) : Prop :=
  vaddrRun s .kernel n = none ∨ freeCount s .kernel < n

/-- What an allocation of `n` kernel pages has done when it returned page `p`. -/
structure Given (s s' : MemState) (r n : ℕ) : Prop where
  run : vaddrRun s .kernel n = some r
  grant : Grant (setVaddr s .kernel r n true) s' (PoolFlag.kernel.base + r) n

theorem Given.inRange {r n : ℕ} (g : Given s s' r n) (hn : 1 ≤ n) {q : ℕ}
    (hq : InRange (PoolFlag.kernel.base + r) n q) : PoolFlag.kernel.Managed q := by
  obtain ⟨h0, hlen, -, -⟩ := vaddrRun_facts hn g.run
  have hmax := (vaddr_facts s .kernel h0).2.1 rfl
  have hbase : PoolFlag.kernel.base = 0xc0100 := rfl
  simp only [InRange, PoolFlag.Managed] at *
  omega

theorem Given.marked {r n : ℕ} (g : Given s s' r n) (hn : 1 ≤ n)
    (h : ∀ p, PoolFlag.kernel.Managed p → kernelFrame s.frames p ≠ none → Marked s .kernel p) :
    ∀ p, PoolFlag.kernel.Managed p → kernelFrame s'.frames p ≠ none → Marked s' .kernel p := by
  intro p hp hf h0 hle
  have hlen : s'.vaddrLen .kernel = s.vaddrLen .kernel :=
    SameThread.vaddrLen ⟨g.grant.layout, g.grant.curr⟩ .kernel
  rw [hlen] at h0 hle
  rw [g.grant.vaddr _ hle, setVaddr_vaddrBit]
  by_cases hin : InRange (PoolFlag.kernel.base + r) n p
  · simp only [InRange] at hin
    rw [if_pos (by omega)]
  · have hold : kernelFrame s'.frames p = kernelFrame s.frames p := g.grant.old p hp hin
    split
    · rfl
    · exact h p hp (hold ▸ hf) h0 hle

theorem KernelReady.given (h : KernelReady s dirs pages) {n r : ℕ} (hn : 0 < n ∧ n < 3840)
    (hr : vaddrRun s .kernel n = some r) (hcount : n ≤ freeCount s .kernel) :
    ∃ s', mallocPages .kernel n s = .ok (4096 * (PoolFlag.kernel.base + r), s') ∧
      Given s s' r n := by
  obtain ⟨s', hrun, g⟩ := (mapPages_grants n _ _ (h.awaiting hn.1 hr)).1 (by
    rwa [freeCount_mark hn.1 hr])
  refine ⟨s', ?_, hr, g⟩
  rw [mallocPages_run hn hr (fun hu => by cases hu), kernel_page, bind_of_ok hrun]
  rfl

theorem Given.count {r n : ℕ} (g : Given s s' r n) (hn : 1 ≤ n) :
    freeCount s' .kernel + n = freeCount s .kernel := by
  rw [g.grant.count, freeCount_mark hn g.run]

theorem KernelReady.handed (h : KernelReady s dirs pages) {n r : ℕ} (hn : 0 < n ∧ n < 3840)
    (hr : vaddrRun s .kernel n = some r) (hcount : n ≤ freeCount s .kernel) :
    ∃ s', mallocKernelPages n s = .ok (4096 * (PoolFlag.kernel.base + r), s') ∧
      KernelReady s' dirs (List.range' (PoolFlag.kernel.base + r) n ++ pages) ∧
      Given s s' r n ∧ (n = 1 → ∃ f, kernelFrame s'.frames (PoolFlag.kernel.base + r) = some f ∧
        f ≠ 0 ∧ f ∉ dirs ∧ ∀ i, s'.frames f i = 0#32) := by
  obtain ⟨t, hrun, g⟩ := h.given hn hr hcount
  obtain ⟨fr, hclear, hinv, hkf, hpage⟩ := mallocKernelPages_of_malloc h.spaces hrun
  have hv : 4096 * (PoolFlag.kernel.base + r) ≠ 0 := by simp [PoolFlag.base]
  have hdiv : 4096 * (PoolFlag.kernel.base + r) / 4096 = PoolFlag.kernel.base + r := by omega
  have hout : handOut .kernel n (4096 * (PoolFlag.kernel.base + r)) pages =
      List.range' (PoolFlag.kernel.base + r) n ++ pages := by
    rw [handOut, if_pos ⟨rfl, hv⟩, hdiv]
  rw [hout] at hinv
  rw [hdiv] at hpage
  have g' : Given s (setFrames t fr) r n := ⟨hr, g.grant.rewritten (fun q => g.inRange hn.1) hkf⟩
  exact ⟨_, hclear, ⟨hinv, g'.marked hn.1 h.marked⟩, g', fun hn1 => (hpage hn1 hv).2⟩

/-- An allocation leaves the bitmaps on other pages alone. -/
theorem Given.heap {r n : ℕ} (g : Given s t r n) (hn : 1 ≤ n) {k : ℕ}
    (hk : 8 * kernelHeapStart ≤ k)
    (hout : ¬ InRange (PoolFlag.kernel.base + r) n (k / 8 / 4096)) :
    memBit t.bytes k = memBit s.bytes k := by
  obtain ⟨-, hlen, -, -⟩ := vaddrRun_facts hn g.run
  have hlast := @vaddrPos_low s (r + n - 1) (by omega)
  have hpos := vaddrPos_add s .kernel r
  rw [g.grant.heap k hk hout, memBit_setVaddr, if_neg]
  rintro ⟨-, hlt⟩
  have h₁ := hpos n
  have h₂ := hpos (n - 1)
  rw [show r + (n - 1) = r + n - 1 by omega] at h₂
  omega

/-! ## A new page directory -/

/-- The page directory of a process: the kernel's entries of the loaded directory, none below
them, and its own entry. -/
structure Directory (s : MemState) (f : ℕ) : Prop where
  kernel_half : ∀ i, 768 ≤ i → i < 1023 → s.frames f i = s.frames s.pageDir i
  user_half : ∀ i < 768, s.frames f i = 0#32
  self : s.frames f 1023 = pgEntry (4096 * f)

theorem KernelReady.directory (h : KernelReady s dirs pages) {r : ℕ}
    (hr : vaddrRun s .kernel 1 = some r) (hcount : 1 ≤ freeCount s .kernel) :
    ∃ s' f, createPageDir s = .ok (4096 * (PoolFlag.kernel.base + r), s') ∧
      KernelReady s' (f :: dirs) ((PoolFlag.kernel.base + r) :: pages) ∧ Given s s' r 1 ∧
      s'.frameOf (PoolFlag.kernel.base + r) = some f ∧ Directory s' f := by
  obtain ⟨t, hrun, hready, g, hpage⟩ := h.handed (by omega) hr hcount
  obtain ⟨f, hf, h0, hd, hzero⟩ := hpage rfl
  have hmem : PoolFlag.kernel.base + r ∈ (PoolFlag.kernel.base + r) :: pages := List.mem_cons_self
  obtain ⟨fr, hfill, hinv, hkf, hother, hwords⟩ :=
    fillDirectory_keeps hready.spaces hmem hf h0 hd hzero
  have hm := hready.spaces.page_managed _ hmem
  have hv : 4096 * (PoolFlag.kernel.base + r) ≠ 0 := by simp [PoolFlag.base]
  refine ⟨setFrames t fr, f, ?_, hready.rewritten hinv hkf, ⟨hr, g.grant.rewritten
    (fun q => g.inRange le_rfl) hkf⟩, frameOf_page hinv hmem ((hkf _ hm).trans hf), ?_⟩
  · rw [createPageDir, bind_of_ok hrun, if_neg hv]
    exact hfill
  · have hne : t.pageDir ≠ f := fun he => hd (he ▸ hready.spaces.active)
    constructor
    case kernel_half =>
      intro i h₁ h₂
      change fr f i = fr t.pageDir i
      rw [hwords i (by omega), if_neg (by omega), if_pos h₁, hother _ hne]
    case user_half =>
      intro i hi
      exact (hwords i (by omega)).trans ((if_neg (by omega)).trans (if_neg (by omega)))
    case self => exact (hwords 1023 (by norm_num)).trans (if_pos rfl)

end KernelPageGrants
