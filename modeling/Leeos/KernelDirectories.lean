import Leeos.KernelPoolRanges
import Mathlib.Data.List.Range

/-!
# Page directories of all processes (`create_page_dir`)

Directory entries 768 to 1022 are copied once, when a process is created. All directories then
share the loader's page tables in frames 0x101 to 0x1ff, so a page mapped below them appears
everywhere. Runs create directories, switch between them, and allocate and free pages under
whichever is loaded.
-/
namespace KernelDirectories

open ExecRules RunSearch KernelBitmap KernelPaging KernelPools KernelPoolSteps
  KernelPoolInvariant KernelPoolMapping KernelPoolCalls KernelPoolRanges

/-! ## `create_page_dir` -/

/-- `memset(vaddr, 0, PAGE_SIZE * cnt)` -/
def clearPages : ℕ → ℕ → MemM Unit
  | 0, _ => pure ()
  | left + 1, vaddr => do
    zeroPage vaddr
    clearPages left (vaddr + 4096)

def mallocKernelPages (cnt : ℕ) : MemM ℕ := do
  let vaddr ← mallocPages .kernel cnt
  if vaddr ≠ 0 then
    clearPages cnt vaddr
    pure vaddr
  else pure vaddr

def copyWords : ℕ → ℕ → ℕ → MemM Unit
  | 0, _, _ => pure ()
  | left + 1, dst, src => do
    let w ← load src
    store dst w
    copyWords left (dst + 4) (src + 4)

def createPageDir : MemM ℕ := do
  let pageDirVaddr ← mallocKernelPages 1
  if pageDirVaddr = 0 then pure 0
  else
    copyWords 256 (pageDirVaddr + 0x300 * 4) (0xfffff000 + 0x300 * 4)
    let phy ← addrVirtualToPhy pageDirVaddr
    store (pageDirVaddr + 1023 * 4) (pgEntry phy)
    pure pageDirVaddr

/-! ## Runs over all address spaces -/

/-- `dirs` are the frames of the existing page directories, `pages` the kernel pages that have
been handed out and not freed; `mem.pageDir` is the directory in CR3. -/
structure Spaces where
  mem : MemState
  dirs : List ℕ
  pages : List ℕ

/-- Page `q` may be freed: a kernel page was handed out before, and a page of a process lies on a
frame of the user pool. -/
structure Freeable (x : Spaces) (PF : PoolFlag) (q : ℕ) : Prop where
  handed : PF = .kernel → q ∈ x.pages
  owned : PF = .user → q < 0xc0000 ∧ ∃ f, x.mem.frameOf q = some f ∧ x.mem.poolStart .user ≤ f
  inactive : x.mem.frameOf q ≠ some x.mem.pageDir

def InRange (p n q : ℕ) : Prop := p ≤ q ∧ q < p + n

instance (p n q : ℕ) : Decidable (InRange p n q) := inferInstanceAs (Decidable (_ ∧ _))

/-- The directories whose own page is not among the `n` pages from `p` on. -/
def dirsKept (x : Spaces) (p n : ℕ) : List ℕ :=
  x.dirs.filter fun D => ∀ j < n, x.mem.frameOf (p + j) ≠ some D

/-- The handed pages after an allocation of `n` kernel pages that returned address `v`. -/
def handOut (PF : PoolFlag) (n v : ℕ) (pages : List ℕ) : List ℕ :=
  if PF = .kernel ∧ v ≠ 0 then List.range' (v / 4096) n ++ pages else pages

/-- The physical address that a directory gives address `a`. -/
def translate (fr : Frames) (dir a : ℕ) : Option ℕ :=
  (frameOf fr dir (a / 4096)).map fun f => 4096 * f + a % 4096

/-- Kernel addresses mean the same under every directory, and each maps itself. -/
structure KernelShared (x : Spaces) : Prop where
  same : ∀ D ∈ x.dirs, ∀ a, 0xc0000000 ≤ a → a ≤ 0xffbfffff →
    translate x.mem.frames D a = translate x.mem.frames 0x100 a
  self : ∀ D ∈ x.dirs, tableOf x.mem.frames D 1023 = some D

/-! ## The invariant -/

/-- The loader's page table for directory entry `d`. -/
def kernelTable (d : ℕ) : ℕ := 0x101 + (d - 768)

theorem kernelTable_range {d : ℕ} (h : 768 ≤ d) (h' : d < 1023) :
    0x101 ≤ kernelTable d ∧ kernelTable d < 0x200 := by
  unfold kernelTable
  omega

/-- The loader's tables are neither a directory nor a frame of a pool. -/
theorem kernelTable_ne {d f : ℕ} (h : 768 ≤ d) (h' : d < 1023) (hf : f < 0x101 ∨ 0x200 ≤ f) :
    kernelTable d ≠ f := by
  rintro rfl
  have := kernelTable_range h h'
  omega

/-- The frame of a kernel page, by the shared tables. -/
def kernelFrame (fr : Frames) (p : ℕ) : Option ℕ := target (fr (kernelTable (p / 1024)) (p % 1024))

/-- Frame `t` is a page table of the user part of some directory. The loader's directory has the
first shared table below entry 0 as well. -/
def UserTable (fr : Frames) (dirs : List ℕ) (t : ℕ) : Prop :=
  t ≠ 0x101 ∧ ∃ D ∈ dirs, ∃ d < 768, tableOf fr D d = some t

/-- A user page lies on a user frame, or on frame 0, which an empty pool's `palloc` gives. -/
def UserFrame (s : MemState) (g : ℕ) : Prop := g = 0 ∨ s.poolStart .user ≤ g

structure SpacesInv (x : Spaces) : Prop where
  kernel_dir : 0x100 ∈ x.dirs
  active : x.mem.pageDir ∈ x.dirs
  dir_frame : ∀ D ∈ x.dirs, D = 0x100 ∨ Held x.mem .kernel D
  dir_self : ∀ D ∈ x.dirs, tableOf x.mem.frames D 1023 = some D
  kernel_table : ∀ D ∈ x.dirs, ∀ d, 768 ≤ d → d < 1023 →
    tableOf x.mem.frames D d = some (kernelTable d)
  alias_table : ∀ D ∈ x.dirs, ∀ d, 1 ≤ d → d < 768 → tableOf x.mem.frames D d ≠ some 0x101
  user_table : ∀ t, UserTable x.mem.frames x.dirs t →
    t = 0 ∨ (Held x.mem .kernel t ∧ t ∉ x.dirs)
  user_entry : ∀ t, UserTable x.mem.frames x.dirs t → ∀ i g,
    target (x.mem.frames t i) = some g → UserFrame x.mem g
  page_managed : ∀ p ∈ x.pages, PoolFlag.kernel.Managed p
  page_mapped : ∀ p ∈ x.pages, kernelFrame x.mem.frames p ≠ none
  page_frame : ∀ p ∈ x.pages, ∀ f, kernelFrame x.mem.frames p = some f →
    f = 0 ∨ Held x.mem .kernel f
  page_unshared : ∀ p ∈ x.pages, ∀ q ∈ x.pages, ∀ f, f ≠ 0 →
    kernelFrame x.mem.frames p = some f → kernelFrame x.mem.frames q = some f → p = q
  page_no_table : ∀ p ∈ x.pages, ∀ f, f ≠ 0 → kernelFrame x.mem.frames p = some f →
    ¬ UserTable x.mem.frames x.dirs f

variable {x : Spaces} {s s' : MemState} {dirs pages : List ℕ} {PF : PoolFlag}

theorem SpacesInv.frameOf_kernel (h : SpacesInv x) {D p : ℕ} (hD : D ∈ x.dirs) (hp : 0xc0000 ≤ p)
    (hp' : p < 0xffc00) : frameOf x.mem.frames D p = kernelFrame x.mem.frames p := by
  have ht := h.kernel_table D hD (p / 1024) (by omega) (by omega)
  simp only [frameOf, entryOf, ht, Option.map_some, Option.bind_some, kernelFrame]

theorem SpacesInv.shared (h : SpacesInv x) : KernelShared x where
  same D hD a h₁ h₂ := by
    rw [translate, translate, h.frameOf_kernel hD (by omega) (by omega),
      h.frameOf_kernel h.kernel_dir (by omega) (by omega)]
  self := h.dir_self

theorem SpacesInv.dir_range (h : SpacesInv x) {D : ℕ} (hD : D ∈ x.dirs) :
    D = 0x100 ∨ 0x200 ≤ D := by
  rcases h.dir_frame D hD with h0 | hh
  · exact Or.inl h0
  · exact Or.inr (held_pool hh).1

theorem SpacesInv.user_range (h : SpacesInv x) {t : ℕ}
    (ht : UserTable x.mem.frames x.dirs t) : t = 0 ∨ 0x200 ≤ t := by
  rcases h.user_table t ht with h0 | ⟨hh, -⟩
  · exact Or.inl h0
  · exact Or.inr (held_pool hh).1

theorem SpacesInv.self_mapped (h : SpacesInv x) : SelfMapped x.mem.frames x.mem.pageDir where
  self := h.dir_self _ h.active
  distinct d hd ht := by
    have hdir := h.dir_range h.active
    by_cases hk : 768 ≤ d
    · have htab := h.kernel_table _ h.active d hk hd
      exact kernelTable_ne hk hd (by omega) (Option.some.inj (htab.symm.trans ht))
    · rcases h.user_table _ ⟨by omega, _, h.active, d, by omega, ht⟩ with hz | ⟨-, hno⟩
      · omega
      · exact hno h.active

theorem SpacesInv.dir_reserved (h : SpacesInv x) : Reserved x.mem x.mem.pageDir := by
  rcases h.dir_frame _ h.active with h0 | hh
  · exact Or.inl (by omega)
  · exact Or.inr hh

theorem SpacesInv.fewer (h : SpacesInv ⟨s, dirs, pages⟩) {dirs' pages' : List ℕ}
    (hd : ∀ D ∈ dirs', D ∈ dirs) (h₀ : 0x100 ∈ dirs') (ha : s.pageDir ∈ dirs')
    (hp : ∀ p ∈ pages', p ∈ pages) : SpacesInv ⟨s, dirs', pages'⟩ := by
  have hsub : ∀ t, UserTable s.frames dirs' t → UserTable s.frames dirs t := by
    rintro t ⟨hne, D, hD, hrest⟩
    exact ⟨hne, D, hd D hD, hrest⟩
  constructor
  case kernel_dir => exact h₀
  case active => exact ha
  case dir_frame => exact fun D hD => h.dir_frame D (hd D hD)
  case dir_self => exact fun D hD => h.dir_self D (hd D hD)
  case kernel_table => exact fun D hD => h.kernel_table D (hd D hD)
  case alias_table => exact fun D hD => h.alias_table D (hd D hD)
  case user_table =>
    intro t ht
    exact (h.user_table t (hsub t ht)).imp id fun h' => ⟨h'.1, fun hm => h'.2 (hd t hm)⟩
  case user_entry => exact fun t ht => h.user_entry t (hsub t ht)
  case page_managed => exact fun p hm => h.page_managed p (hp p hm)
  case page_mapped => exact fun p hm => h.page_mapped p (hp p hm)
  case page_frame => exact fun p hm => h.page_frame p (hp p hm)
  case page_unshared => exact fun p hm q hq => h.page_unshared p (hp p hm) q (hp q hq)
  case page_no_table =>
    exact fun p hm f h0 hf ht => h.page_no_table p (hp p hm) f h0 hf (hsub f ht)

theorem SpacesInv.fewerPages (h : SpacesInv ⟨s, dirs, pages⟩) {pages' : List ℕ}
    (hp : ∀ p ∈ pages', p ∈ pages) : SpacesInv ⟨s, dirs, pages'⟩ :=
  h.fewer (fun _ hD => hD) h.kernel_dir h.active hp

/-- Kernel frames that are in use stay in use. -/
structure Keeps (s s' : MemState) : Prop where
  layout : s'.layout = s.layout
  pageDir : s'.pageDir = s.pageDir
  held : ∀ f, Held s .kernel f → Held s' .kernel f

theorem Keeps.of_grows (g : BitsGrow s s') (hd : s'.pageDir = s.pageDir) : Keeps s s' :=
  ⟨g.layout, hd, fun _ => g.held⟩

theorem Keeps.userFrame (k : Keeps s s') {g : ℕ} (h : UserFrame s g) : UserFrame s' g := by
  rw [UserFrame, poolStart_of_layout k.layout]
  exact h

/-- The words that give kernel addresses their meaning. -/
structure SameKernel (dirs : List ℕ) (fr fr' : Frames) : Prop where
  rows : ∀ D ∈ dirs, ∀ d, 768 ≤ d → fr' D d = fr D d
  low : ∀ D ∈ dirs, ∀ d, 1 ≤ d → tableOf fr' D d = some 0x101 → tableOf fr D d = some 0x101
  tables : ∀ d, 768 ≤ d → d < 1023 → fr' (kernelTable d) = fr (kernelTable d)

theorem SameKernel.kernelFrame {fr fr' : Frames} (k : SameKernel dirs fr fr') {p : ℕ}
    (hp : PoolFlag.kernel.Managed p) : kernelFrame fr' p = kernelFrame fr p := by
  simp only [PoolFlag.Managed] at hp
  rw [KernelDirectories.kernelFrame, k.tables _ (by omega) (by omega),
    KernelDirectories.kernelFrame]

theorem SpacesInv.userPart (h : SpacesInv ⟨s, dirs, pages⟩) (k : Keeps s s')
    (hker : SameKernel dirs s.frames s'.frames)
    (htab : ∀ t, UserTable s'.frames dirs t → UserTable s.frames dirs t ∨ t = 0 ∨
      (Held s' .kernel t ∧ ¬ Held s .kernel t))
    (hent : ∀ t, UserTable s'.frames dirs t → ∀ i g, target (s'.frames t i) = some g →
      UserFrame s g) : SpacesInv ⟨s', dirs, pages⟩ := by
  have hkf : ∀ p ∈ pages, kernelFrame s'.frames p = kernelFrame s.frames p :=
    fun p hp => hker.kernelFrame (h.page_managed p hp)
  have hrow : ∀ D ∈ dirs, ∀ d, 768 ≤ d → tableOf s'.frames D d = tableOf s.frames D d := by
    intro D hD d hd
    rw [tableOf, tableOf, hker.rows D hD d hd]
  constructor
  case kernel_dir => exact h.kernel_dir
  case active => exact k.pageDir ▸ h.active
  case dir_frame => exact fun D hD => (h.dir_frame D hD).imp id (k.held D)
  case dir_self =>
    intro D hD
    exact (hrow D hD 1023 (by omega)).trans (h.dir_self D hD)
  case kernel_table =>
    intro D hD d h₁ h₂
    exact (hrow D hD d h₁).trans (h.kernel_table D hD d h₁ h₂)
  case alias_table =>
    exact fun D hD d h₁ h₂ ht => h.alias_table D hD d h₁ h₂ (hker.low D hD d h₁ ht)
  case user_table =>
    intro t ht
    rcases htab t ht with hold | h0 | ⟨hnew, hfree⟩
    · exact (h.user_table t hold).imp id fun h' => ⟨k.held t h'.1, h'.2⟩
    · exact Or.inl h0
    · refine Or.inr ⟨hnew, fun hD => ?_⟩
      rcases h.dir_frame t hD with h0 | hh
      · have := (held_pool hnew).1
        omega
      · exact hfree hh
  case user_entry =>
    intro t ht i g hg
    exact k.userFrame (hent t ht i g hg)
  case page_managed => exact h.page_managed
  case page_mapped => exact fun p hp => hkf p hp ▸ h.page_mapped p hp
  case page_frame =>
    intro p hp f hf
    exact (h.page_frame p hp f ((hkf p hp).symm.trans hf)).imp id (k.held f)
  case page_unshared =>
    intro p hp q hq f h0 hf hf'
    exact h.page_unshared p hp q hq f h0 ((hkf p hp).symm.trans hf) ((hkf q hq).symm.trans hf')
  case page_no_table =>
    intro p hp f h0 hf ht
    have hf : kernelFrame s.frames p = some f := (hkf p hp).symm.trans hf
    rcases htab f ht with hold | hz | ⟨-, hfree⟩
    · exact h.page_no_table p hp f h0 hf hold
    · exact h0 hz
    · exact hfree ((h.page_frame p hp f hf).resolve_left h0)

theorem SpacesInv.bits (h : SpacesInv ⟨s, dirs, pages⟩) (hf : s'.frames = s.frames)
    (k : Keeps s s') : SpacesInv ⟨s', dirs, pages⟩ := by
  refine h.userPart k ⟨fun D _ d _ => by rw [hf], fun D _ d _ ht => hf ▸ ht, fun d _ _ => by rw [hf]⟩
    (fun t ht => Or.inl (hf ▸ ht)) fun t ht i g hg => ?_
  exact h.user_entry t (hf ▸ ht) i g (hf ▸ hg)

/-! ## Frames nobody uses -/

structure Unused (fr : Frames) (dirs pages : List ℕ) (f : ℕ) : Prop where
  not_dir : f ∉ dirs
  not_table : ¬ UserTable fr dirs f
  not_page : ∀ q ∈ pages, kernelFrame fr q ≠ some f

theorem SpacesInv.unused (h : SpacesInv ⟨s, dirs, pages⟩) {f : ℕ} (hf : 0x200 ≤ f)
    (hfree : ¬ Held s .kernel f) : Unused s.frames dirs pages f where
  not_dir hD := by
    rcases h.dir_frame f hD with h0 | hh
    · omega
    · exact hfree hh
  not_table ht := by
    rcases h.user_table f ht with h0 | ⟨hh, -⟩
    · omega
    · exact hfree hh
  not_page q hq hqf := by
    rcases h.page_frame q hq f hqf with h0 | hh
    · omega
    · exact hfree hh

/-- Clearing the bit of a frame that nobody uses. -/
theorem SpacesInv.dropBit (h : SpacesInv ⟨s, dirs, pages⟩) (hf : s'.frames = s.frames)
    (hl : s'.layout = s.layout) (hd : s'.pageDir = s.pageDir) {f : ℕ}
    (hu : Unused s.frames dirs pages f)
    (hb : ∀ g, g ≠ f → Held s .kernel g → Held s' .kernel g) : SpacesInv ⟨s', dirs, pages⟩ := by
  constructor
  case kernel_dir => exact h.kernel_dir
  case active => exact hd ▸ h.active
  case dir_frame =>
    intro D hD
    exact (h.dir_frame D hD).imp id (hb D fun he => hu.not_dir (he ▸ hD))
  case dir_self => exact hf ▸ h.dir_self
  case kernel_table => exact hf ▸ h.kernel_table
  case alias_table => exact hf ▸ h.alias_table
  case user_table =>
    intro t ht
    have ht : UserTable s.frames dirs t := hf ▸ ht
    exact (h.user_table t ht).imp id fun h' => ⟨hb t (fun he => hu.not_table (he ▸ ht)) h'.1, h'.2⟩
  case user_entry =>
    intro t ht i g hg
    rw [UserFrame, poolStart_of_layout hl]
    exact h.user_entry t (hf ▸ ht) i g (hf ▸ hg)
  case page_managed => exact h.page_managed
  case page_mapped => exact hf ▸ h.page_mapped
  case page_frame =>
    intro p hp g hg
    have hg : kernelFrame s.frames p = some g := hf ▸ hg
    exact (h.page_frame p hp g hg).imp id (hb g fun he => hu.not_page p hp (he ▸ hg))
  case page_unshared => exact hf ▸ h.page_unshared
  case page_no_table => exact hf ▸ h.page_no_table

/-! ## Entries of the shared tables -/

theorem kernelFrame_setEntry {fr : Frames} {p q : ℕ} (hp : 0xc0000 ≤ p)
    (hq : PoolFlag.kernel.Managed q) (w : Word) :
    kernelFrame (setEntry fr (kernelTable (p / 1024)) (p % 1024) w) q =
      if q = p then target w else kernelFrame fr q := by
  rw [kernelFrame, setEntry_apply]
  by_cases hqp : q = p
  · rw [if_pos hqp, if_pos (by rw [hqp]; exact ⟨rfl, rfl⟩)]
  · rw [if_neg hqp, if_neg, kernelFrame]
    rintro ⟨ht, hi⟩
    simp only [PoolFlag.Managed] at hq
    unfold kernelTable at ht
    omega

theorem SpacesInv.sameRows (h : SpacesInv ⟨s, dirs, pages⟩) {p : ℕ} (hp : 0xc0000 ≤ p)
    (hp' : p < 0xffc00) (w : Word) :
    (∀ D ∈ dirs, setEntry s.frames (kernelTable (p / 1024)) (p % 1024) w D = s.frames D) ∧
    ∀ t, UserTable s.frames dirs t →
      setEntry s.frames (kernelTable (p / 1024)) (p % 1024) w t = s.frames t := by
  have hk : ∀ f, f < 0x101 ∨ 0x200 ≤ f → f ≠ kernelTable (p / 1024) :=
    fun f hf => (kernelTable_ne (by omega) (by omega) hf).symm
  refine ⟨fun D hD => Function.update_of_ne (hk D ?_) _ _,
    fun t ht => Function.update_of_ne (hk t ?_) _ _⟩
  · have := h.dir_range hD
    omega
  · have := h.user_range ht
    omega

theorem SpacesInv.kernelEntry (h : SpacesInv ⟨s, dirs, pages⟩) {p : ℕ} (w : Word)
    (hp : 0xc0000 ≤ p) (hp' : p < 0xffc00) (hno : p ∉ pages) :
    SpacesInv ⟨setFrames s (setEntry s.frames (kernelTable (p / 1024)) (p % 1024) w),
      dirs, pages⟩ ∧ ∀ t, UserTable (setEntry s.frames (kernelTable (p / 1024)) (p % 1024) w) dirs t →
      UserTable s.frames dirs t := by
  obtain ⟨hdir, htab⟩ := h.sameRows hp hp' w
  set fr := setEntry s.frames (kernelTable (p / 1024)) (p % 1024) w with hfr
  have hrow : ∀ D ∈ dirs, ∀ d, tableOf fr D d = tableOf s.frames D d := by
    intro D hD d
    rw [tableOf, tableOf, hdir D hD]
  have hold : ∀ t, UserTable fr dirs t → UserTable s.frames dirs t := by
    rintro t ⟨hne, D, hD, d, hd, ht⟩
    exact ⟨hne, D, hD, d, hd, (hrow D hD d).symm.trans ht⟩
  have hkf : ∀ q ∈ pages, kernelFrame fr q = kernelFrame s.frames q := by
    intro q hq
    have hne : q ≠ p := fun he => hno (he ▸ hq)
    exact (kernelFrame_setEntry hp (h.page_managed q hq) w).trans (if_neg hne)
  refine ⟨?_, hold⟩
  constructor
  case kernel_dir => exact h.kernel_dir
  case active => exact h.active
  case dir_frame => exact h.dir_frame
  case dir_self => exact fun D hD => (hrow D hD 1023).trans (h.dir_self D hD)
  case kernel_table =>
    exact fun D hD d h₁ h₂ => (hrow D hD d).trans (h.kernel_table D hD d h₁ h₂)
  case alias_table =>
    exact fun D hD d h₁ h₂ ht => h.alias_table D hD d h₁ h₂ ((hrow D hD d).symm.trans ht)
  case user_table => exact fun t ht => h.user_table t (hold t ht)
  case user_entry =>
    intro t ht i g hg
    have hg : target (fr t i) = some g := hg
    rw [htab t (hold t ht)] at hg
    exact h.user_entry t (hold t ht) i g hg
  case page_managed => exact h.page_managed
  case page_mapped => exact fun q hq => (hkf q hq).symm ▸ h.page_mapped q hq
  case page_frame => exact fun q hq f hf => h.page_frame q hq f ((hkf q hq).symm.trans hf)
  case page_unshared =>
    exact fun q hq q' hq' f h0 hf hf' => h.page_unshared q hq q' hq' f h0
      ((hkf q hq).symm.trans hf) ((hkf q' hq').symm.trans hf')
  case page_no_table =>
    exact fun q hq f h0 hf ht =>
      h.page_no_table q hq f h0 ((hkf q hq).symm.trans hf) (hold f ht)

theorem SpacesInv.handed (h : SpacesInv ⟨s, dirs, pages⟩) {p f : ℕ}
    (hp : PoolFlag.kernel.Managed p) (hf : kernelFrame s.frames p = some f)
    (hu : f = 0 ∨ (Held s .kernel f ∧ Unused s.frames dirs pages f)) :
    SpacesInv ⟨s, dirs, p :: pages⟩ := by
  have hcase : ∀ q ∈ p :: pages, ∀ g, kernelFrame s.frames q = some g →
      q ∈ pages ∨ (q = p ∧ g = f) := by
    intro q hq g hg
    rcases List.mem_cons.mp hq with rfl | hq
    · exact Or.inr ⟨rfl, Option.some.inj (hg.symm.trans hf)⟩
    · exact Or.inl hq
  refine { h with page_managed := ?_, page_mapped := ?_, page_frame := ?_, page_unshared := ?_,
                  page_no_table := ?_ }
  · intro q hq
    rcases List.mem_cons.mp hq with rfl | hq
    · exact hp
    · exact h.page_managed q hq
  · intro q hq
    rcases List.mem_cons.mp hq with rfl | hq
    · exact hf ▸ Option.some_ne_none f
    · exact h.page_mapped q hq
  · intro q hq g hg
    rcases hcase q hq g hg with hq | ⟨-, rfl⟩
    · exact h.page_frame q hq g hg
    · exact hu.imp id And.left
  · intro q hq q' hq' g h0 hg hg'
    rcases hcase q hq g hg with hq | ⟨e, eg⟩ <;> rcases hcase q' hq' g hg' with hq' | ⟨e', eg'⟩
    · exact h.page_unshared q hq q' hq' g h0 hg hg'
    · exact ((hu.resolve_left (eg' ▸ h0)).2.not_page q hq (eg' ▸ hg)).elim
    · exact ((hu.resolve_left (eg ▸ h0)).2.not_page q' hq' (eg ▸ hg')).elim
    · exact e.trans e'.symm
  · intro q hq g h0 hg ht
    rcases hcase q hq g hg with hq | ⟨-, rfl⟩
    · exact h.page_no_table q hq g h0 hg ht
    · exact (hu.resolve_left h0).2.not_table ht

end KernelDirectories
