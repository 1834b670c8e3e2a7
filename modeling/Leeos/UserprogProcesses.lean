import Leeos.UserprogSyscalls

/-!
# Processes that trap

Several processes on one machine. Each has its own directory, its own virtual bitmap and its own
descriptors in its PCB, and the calls of a process run on the machine as it sees it. The accounts
of every process hold in every run of their traps, and no trap reaches what another owns.
-/
namespace UserprogProcesses

open ExecRules KernelBitmap KernelPaging KernelPools KernelPoolSteps KernelPoolInvariant
  KernelPoolCalls KernelPoolRanges KernelHeap KernelHeapAccounts KernelHeapSteps KernelHeapRuns
  UserprogIsolation UserprogSyscalls

variable {s s' : MemState} {c : Running} {D f : ℕ}

/-! ## The address space of another process -/

/-- The memory under the PCB and the directory of another process. -/
def spaceAt (s : MemState) (c : Running) (D : ℕ) : MemState := { s with curr := c, pageDir := D }

/-- The directory, the user page tables and the user pages of a process. -/
def Owns (s : MemState) (f : ℕ) : Prop :=
  f = s.pageDir ∨ (∃ d < 768, s.tableOf d = some f) ∨
    ∃ p, PoolFlag.user.Managed p ∧ s.frameOf p = some f

/-- Nothing of the other process belongs to the running one: neither its frames, nor the kernel's
page tables, nor its virtual bitmap with the bit behind its end. -/
structure Apart (s : MemState) (c : Running) (D : ℕ) : Prop where
  foreign : ∀ f, Owns (spaceAt s c D) f → Foreign s f
  kernel_tables : ∀ d, 768 ≤ d → d < 1023 → ∀ t, (spaceAt s c D).tableOf d = some t → Foreign s t
  bitmaps : 0 < (spaceAt s c D).vaddrLen .user → 0 < s.vaddrLen .user →
    ∀ j ≤ (spaceAt s c D).vaddrLen .user, ∀ k ≤ s.vaddrLen .user,
      vaddrPos (spaceAt s c D) .user j ≠ vaddrPos s .user k

theorem Apart.table_foreign (h : Apart s c D) {d t : ℕ} (hd : d < 1023)
    (ht : (spaceAt s c D).tableOf d = some t) : Foreign s t := by
  by_cases hlow : d < 768
  · exact h.foreign t (Or.inr (Or.inl ⟨d, hlow, ht⟩))
  · exact h.kernel_tables d (by omega) hd t ht

theorem Apart.tableOf (h : Apart s c D) (hiso : MemIsolated s s') (d : ℕ) :
    (spaceAt s' c D).tableOf d = (spaceAt s c D).tableOf d := by
  have hdir := hiso.contents D (h.foreign D (Or.inl rfl))
  exact congrArg (fun w => target (w d)) hdir

theorem Apart.frameOf (h : Apart s c D) (hiso : MemIsolated s s') {p : ℕ} (hp : p / 1024 < 1023) :
    (spaceAt s' c D).frameOf p = (spaceAt s c D).frameOf p := by
  have ht := h.tableOf hiso (p / 1024)
  change (((spaceAt s' c D).tableOf (p / 1024)).map _).bind _ =
    (((spaceAt s c D).tableOf (p / 1024)).map _).bind _
  rw [ht]
  cases htable : (spaceAt s c D).tableOf (p / 1024) with
  | none => rfl
  | some t =>
    have hcontents := hiso.contents t (h.table_foreign hp htable)
    exact congrArg (fun w => target (w (p % 1024))) hcontents

theorem Apart.owns (h : Apart s c D) (hiso : MemIsolated s s') :
    Owns (spaceAt s' c D) f ↔ Owns (spaceAt s c D) f := by
  have hpages : (∃ p, PoolFlag.user.Managed p ∧ (spaceAt s' c D).frameOf p = some f) ↔
      ∃ p, PoolFlag.user.Managed p ∧ (spaceAt s c D).frameOf p = some f := by
    apply exists_congr
    intro p
    apply and_congr_right
    intro hp
    rw [h.frameOf hiso (plain_dir (managed_plain hp)).2]
  simp only [Owns, h.tableOf hiso, hpages]
  rfl

theorem Apart.vaddrBit (h : Apart s c D) (hiso : MemIsolated s s')
    (h0 : 0 < (spaceAt s c D).vaddrLen .user) {j : ℕ} (hj : j ≤ (spaceAt s c D).vaddrLen .user) :
    (spaceAt s' c D).vaddrBit .user j = (spaceAt s c D).vaddrBit .user j := by
  refine hiso.bits (vaddrPos (spaceAt s c D) .user j) ⟨fun PF i hi => ?_, fun hs k hk => ?_⟩
  · exact (poolPos_ne_vaddrPos (s := spaceAt s c D) hi hj h0).symm
  · exact h.bitmaps h0 hs j hj k hk

theorem Apart.vaddrLen (hiso : MemIsolated s s') (PF : PoolFlag) :
    (spaceAt s' c D).vaddrLen PF = (spaceAt s c D).vaddrLen PF :=
  @vaddrLen_congr (spaceAt s c D) (spaceAt s' c D) hiso.layout rfl PF

theorem Apart.marked (h : Apart s c D) (hiso : MemIsolated s s') {PF : PoolFlag} {p : ℕ}
    (hm : Marked (spaceAt s c D) PF p) : Marked (spaceAt s' c D) PF p := by
  intro h0 hp
  rw [Apart.vaddrLen hiso] at h0 hp
  cases PF with
  | kernel => exact (hiso.kernel_vaddr h0 hp).trans (hm h0 hp)
  | user => exact (h.vaddrBit hiso h0 hp).trans (hm h0 hp)

/-- `handed` and `live` are ghosts: the ranges and the blocks that the process holds. -/
structure Process where
  curr : Running
  pageDir : ℕ
  pid : ℕ
  text : ℕ → Option (BitVec 8)
  handed : List Range
  live : List Live

/-- A header names its descriptor by its number: the kernel's seven come first, those in the PCB
of process `i` are `7 * (i + 1)` to `7 * (i + 1) + 6`. -/
structure System (N : ℕ) where
  layout : MemLayout
  bytes : Bytes
  frames : Frames
  arenas : ℕ → Arena
  descs : ℕ → MemBlockDesc
  screen : List (BitVec 8)
  procs : Fin N → Process

/-- For the calls of a process its own descriptors are the first seven: they change places with
those of the kernel. -/
def descNumber (i d : ℕ) : ℕ :=
  if d < 7 then 7 * (i + 1) + d
  else if 7 * (i + 1) ≤ d ∧ d < 7 * (i + 2) then d - 7 * (i + 1) else d

def renumber (i : ℕ) (h : Arena) : Arena :=
  { h with memDescAddr := h.memDescAddr.map (descNumber i) }

variable {N : ℕ} {σ τ : System N} {i j : Fin N}

def space (σ : System N) (i : Fin N) : MemState :=
  ⟨σ.layout, (σ.procs i).curr, σ.bytes, σ.frames, (σ.procs i).pageDir⟩

/-- The machine as the calls of process `i` see it. -/
def view (σ : System N) (i : Fin N) : Machine where
  heap := ⟨space σ i, fun f => renumber i (σ.arenas f), fun d => σ.descs (descNumber i d),
    (σ.procs i).handed⟩
  pid := (σ.procs i).pid
  text := (σ.procs i).text
  screen := σ.screen

/-- The machine after a call of process `i` has left its view as `m`. -/
def put (i : Fin N) (m : Machine) (live : List Live) (σ : System N) : System N where
  layout := m.heap.mem.layout
  bytes := m.heap.mem.bytes
  frames := m.heap.mem.frames
  arenas f := renumber i (m.heap.arenas f)
  descs d := m.heap.descs (descNumber i d)
  screen := m.screen
  procs := Function.update σ.procs i
    ⟨m.heap.mem.curr, m.heap.mem.pageDir, m.pid, m.text, m.heap.handed, live⟩

/-- What stores of process `i` into its own pages leave alone. -/
structure WithinPages (i : Fin N) (σ τ : System N) : Prop where
  layout : τ.layout = σ.layout
  bytes : τ.bytes = σ.bytes
  frames : τ.frames = σ.frames
  screen : τ.screen = σ.screen
  process : ∃ text, τ.procs i = { σ.procs i with text := text }
  others : ∀ j ≠ i, τ.procs j = σ.procs j
  arenas : ∀ f, (∀ p, PoolFlag.user.Managed p → (space σ i).frameOf p ≠ some f) →
    τ.arenas f = σ.arenas f
  descs : ∀ d, (∀ k < 7, d ≠ descNumber i k) → τ.descs d = σ.descs d

/-- The instructions of process `i` have written the bytes of `touched`. All mappings carry the
user bit, so these may lie anywhere. The headers and links in its pages are bytes as any others;
overwritten they may name any descriptor and make any list. -/
structure Stored (i : Fin N) (touched : ℕ → Prop) (σ τ : System N) : Prop where
  pages : (∀ a, touched a → InOwnPage (view σ i).heap a) → WithinPages i σ τ
  heap : StoreFits (view σ i).heap touched → τ.arenas = σ.arenas ∧ τ.descs = σ.descs

/-- User processes before their first allocation, in address spaces apart from each other. Their
virtual bitmaps are empty but for the stack's page. -/
structure SystemStart (σ : System N) : Prop where
  user : ∀ i, (σ.procs i).curr.pgdir ≠ 0
  fresh : ∀ i, HeapStart ((view σ i).heap, (σ.procs i).live)
  empty : ∀ i, TopFree (space σ i)
  apart : ∀ i j, i ≠ j → Apart (space σ i) (σ.procs j).curr (σ.procs j).pageDir

structure SystemInv (σ : System N) : Prop where
  user : ∀ i, (σ.procs i).curr.pgdir ≠ 0
  heaps : ∀ i, HeapInv (fun _ _ => True) (view σ i).heap (σ.procs i).live
  top : ∀ i, TopFree (space σ i)
  apart : ∀ i j, i ≠ j → Apart (space σ i) (σ.procs j).curr (σ.procs j).pageDir

theorem foreign_iff {s : MemState} {f : ℕ} :
    Foreign s f ↔ (Reserved s f ∨ Held s .user f) ∧ ¬ Owns s f := by
  constructor
  · rintro ⟨huse, hdir, htable, hpage⟩
    refine ⟨huse, ?_⟩
    rintro (h | ⟨d, hd, h⟩ | ⟨p, hp, h⟩)
    · exact hdir h
    · exact htable d hd h
    · exact hpage p hp h
  · rintro ⟨huse, hown⟩
    exact ⟨huse, fun h => hown (Or.inl h), fun d hd h => hown (Or.inr (Or.inl ⟨d, hd, h⟩)),
      fun p hp h => hown (Or.inr (Or.inr ⟨p, hp, h⟩))⟩

theorem Apart.kept (h : Apart s c D) (hiso : MemIsolated s s') : Apart s' c D where
  foreign f hf := hiso.foreign f (h.foreign f ((h.owns hiso).mp hf))
  kernel_tables d h₁ h₂ t ht :=
    hiso.foreign t (h.kernel_tables d h₁ h₂ t ((h.tableOf hiso d).symm.trans ht))
  bitmaps h0 h1 j hj k hk := by
    rw [Apart.vaddrLen hiso] at h0 hj
    rw [vaddrLen_congr hiso.layout hiso.curr] at h1 hk
    rw [vaddrPos_congr hiso.layout hiso.curr]
    exact h.bitmaps h0 h1 j hj k hk

variable {m : Machine} {live : List Live}

theorem start_inv (h : SystemStart σ) : SystemInv σ :=
  ⟨h.user, fun i => KernelHeapRuns.start_inv (h.fresh i), h.empty, h.apart⟩

variable {behind : ℕ → Option Handler}

/-- What `create_page_dir` writes: the kernel's entries and the entry of the directory itself. -/
def newDirectory (fr : Frames) (dir D : ℕ) : ℕ → Word := fun d =>
  if d = 1023 then pgEntry (4096 * D) else if 768 ≤ d then fr dir d else 0#32

/-- `D` is the directory of a process that has no pages yet. -/
structure FreshSpace (s : MemState) (fr : Frames) (D : ℕ) : Prop where
  held : Held s .kernel D
  no_table : ∀ d < 1023, s.tableOf d ≠ some D
  directory : fr D = newDirectory s.frames s.pageDir D
  kept : ∀ d, 768 ≤ d → d < 1023 → ∀ t, s.tableOf d = some t → fr t = s.frames t

def freshSpace (s : MemState) (fr : Frames) (c : Running) (D : ℕ) : MemState :=
  ⟨s.layout, c, s.bytes, fr, D⟩

variable {fr : Frames}

theorem FreshSpace.tableOf (h : FreshSpace s fr D) {d : ℕ} (hd : d < 1023) :
    (freshSpace s fr c D).tableOf d = if 768 ≤ d then s.tableOf d else none := by
  change target (fr D d) = _
  rw [h.directory, newDirectory, if_neg (by omega)]
  split
  · rfl
  · exact target_zero

theorem FreshSpace.frameOf (h : FreshSpace s fr D) {p : ℕ} (hp : p / 1024 < 1023) :
    (freshSpace s fr c D).frameOf p = if 768 ≤ p / 1024 then s.frameOf p else none := by
  change (((freshSpace s fr c D).tableOf (p / 1024)).map _).bind _ = _
  rw [h.tableOf hp]
  split
  case isTrue hge =>
    change _ = ((s.tableOf (p / 1024)).map _).bind _
    cases ht : s.tableOf (p / 1024) with
    | none => rfl
    | some t => exact congrArg (fun w => target (w (p % 1024))) (h.kept _ hge hp t ht)
  case isFalse => rfl

/-- It translates no address otherwise than the kernel's directory. -/
theorem FreshSpace.of_frame (h : FreshSpace s fr D) {p : ℕ} (hp : Plain p)
    (hf : (freshSpace s fr c D).frameOf p = some f) : s.frameOf p = some f ∧ 0xc0000 ≤ p := by
  rw [h.frameOf (plain_dir hp).2] at hf
  split at hf
  · exact ⟨hf, by omega⟩
  · cases hf

theorem FreshSpace.of_table (h : FreshSpace s fr D) {d t : ℕ} (hd : d < 1023)
    (ht : (freshSpace s fr c D).tableOf d = some t) : s.tableOf d = some t ∧ 768 ≤ d := by
  rw [h.tableOf hd] at ht
  split at ht
  · exact ⟨ht, by assumption⟩
  · cases ht

theorem FreshSpace.owns (h : FreshSpace s fr D) (hf : Owns (freshSpace s fr c D) f) : f = D := by
  rcases hf with hf | ⟨d, hd, ht⟩ | ⟨p, hp, hfp⟩
  · exact hf
  · have := (h.of_table (by omega) ht).2
    omega
  · have := (h.of_frame (managed_plain hp) hfp).2
    simp only [PoolFlag.Managed] at hp
    omega

theorem FreshSpace.apart {c' : Running} {D' : ℕ} (h : FreshSpace s fr D)
    (h' : FreshSpace s fr D') (hs : RangesInv (s, [])) (hne : D' ≠ D)
    (hbits : ∀ j ≤ 8 * c'.userprogVaddr.vaddrBitmap.bitmapLen,
      ∀ k ≤ 8 * c.userprogVaddr.vaddrBitmap.bitmapLen,
        c'.userprogVaddr.vaddrBitmap.pos j ≠ c.userprogVaddr.vaddrBitmap.pos k) :
    Apart (freshSpace s fr c D) c' D' := by
  constructor
  case foreign =>
    intro f hf
    obtain rfl := h'.owns (c := c') hf
    exact foreign_iff.mpr ⟨Or.inl (Or.inr h'.held), fun hown => hne (h.owns hown)⟩
  case kernel_tables =>
    intro d h₁ h₂ t ht
    have hst := (h'.of_table (c := c') h₂ ht).1
    have hreserved := (hs.pool.table_frame d h₂ t hst).resolve_left fun h0 =>
      hs.zero_free d h₂ (h0 ▸ hst)
    refine foreign_iff.mpr ⟨Or.inl hreserved, fun hown => ?_⟩
    exact h.no_table d h₂ (h.owns hown ▸ hst)
  case bitmaps => exact fun _ _ => hbits

end UserprogProcesses
