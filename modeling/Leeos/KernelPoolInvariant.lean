import Leeos.KernelPoolSteps

/-!
# Invariant of the page allocator

`PoolInv` relates the page tables, the two pool bitmaps and the kernel's virtual bitmap: mapped
pages hold distinct frames of their own pool whose bits are set, and page tables lie in frames
no page maps. A process's pages say nothing about its virtual bitmap, whose bits they do not
match. Taking a frame, mapping a fresh frame and releasing a page keep it.
-/
namespace KernelPoolInvariant

open ExecRules KernelBitmap KernelPaging KernelPools KernelPoolSteps

variable {s : MemState} {PF : PoolFlag}

/-- Pages outside the loader's alias of low memory (directory entry 0) and the window. -/
def Plain (p : ℕ) : Prop := 1024 ≤ p ∧ p < 1023 * 1024

def Unmanaged (p : ℕ) : Prop := ∀ PF : PoolFlag, ¬ PF.Managed p

/-- Frame `f` belongs to the pool and its bit is set. -/
def Held (s : MemState) (PF : PoolFlag) (f : ℕ) : Prop :=
  ∃ i < s.poolLen PF, f = s.poolStart PF + i ∧ s.poolBit PF i = true

/-- A frame for the loader's own tables, or a kernel frame in use. -/
def Reserved (s : MemState) (f : ℕ) : Prop := (0x100 ≤ f ∧ f < 0x200) ∨ Held s .kernel f

/-- The page's bit in its virtual bitmap; the bit behind the end counts, since scans reach it. -/
def Marked (s : MemState) (PF : PoolFlag) (p : ℕ) : Prop :=
  0 < s.vaddrLen PF → p - PF.base ≤ s.vaddrLen PF → s.vaddrBit PF (p - PF.base) = true

structure PoolInv (s : MemState) : Prop where
  self_mapped : SelfMapped s.frames s.pageDir
  kernel_tables : ∀ d, 768 ≤ d → d < 1023 → s.tableOf d ≠ none
  dir_reserved : Reserved s s.pageDir
  table_frame : ∀ d < 1023, ∀ t, s.tableOf d = some t → t = 0 ∨ Reserved s t
  table_unshared : ∀ d d' t, 1 ≤ d → d < 1023 → 1 ≤ d' → d' < 1023 →
    s.tableOf d = some t → s.tableOf d' = some t → d = d'
  frame_held : ∀ (PF : PoolFlag) p f, PF.Managed p → s.frameOf p = some f → Held s PF f
  frame_low : ∀ p f, Plain p → Unmanaged p → s.frameOf p = some f → f < 0x100
  frame_unshared : ∀ p q f, Plain p → Plain q → s.frameOf p = some f →
    s.frameOf q = some f → p = q
  table_unmapped : ∀ (PF : PoolFlag) p f, PF.Managed p → s.frameOf p = some f →
    ∀ d < 1023, s.tableOf d ≠ some f
  page_marked : ∀ p, PoolFlag.kernel.Managed p → s.frameOf p ≠ none → Marked s .kernel p
  low_mapped : s.frameOf 0xc0000 ≠ none

theorem managed_plain {p : ℕ} (h : PF.Managed p) : Plain p := by
  cases PF <;> simp only [PoolFlag.Managed, Plain] at * <;> omega

theorem plain_dir {p : ℕ} (h : Plain p) : 1 ≤ p / 1024 ∧ p / 1024 < 1023 := by
  simp only [Plain] at h
  omega

theorem managed_unique {PF' : PoolFlag} {p : ℕ} (h : PF.Managed p) (h' : PF'.Managed p) :
    PF = PF' := by
  cases PF <;> cases PF' <;> first | rfl | (simp only [PoolFlag.Managed] at *; omega)

theorem held_pool {f : ℕ} (h : Held s PF f) : 0x200 ≤ f ∧ f < 2 ^ 20 := by
  obtain ⟨i, hi, rfl, -⟩ := h
  have := poolStart_le s PF
  omega

theorem held_unique {PF' : PoolFlag} {i : ℕ} (hi : i < s.poolLen PF)
    (h : Held s PF' (s.poolStart PF + i)) : PF' = PF ∧ s.poolBit PF i = true := by
  obtain ⟨j, hj, he, hb⟩ := h
  cases PF <;> cases PF'
  · have : i = j := by omega
    exact ⟨rfl, this ▸ hb⟩
  · exact (pool_disjoint hi j he).elim
  · exact (pool_disjoint hj i he.symm).elim
  · have : i = j := by omega
    exact ⟨rfl, this ▸ hb⟩

/-! ## Frames nobody uses -/

structure Fresh (s : MemState) (f : ℕ) : Prop where
  pool : 0x200 ≤ f ∧ f < 2 ^ 20
  unmapped : ∀ p, Plain p → s.frameOf p ≠ some f
  no_table : ∀ d < 1023, s.tableOf d ≠ some f
  not_dir : f ≠ s.pageDir

theorem reserved_clear {i : ℕ} (hi : i < s.poolLen PF) (hb : s.poolBit PF i = false) :
    ¬ Reserved s (s.poolStart PF + i) := by
  have hle := poolStart_le s PF
  rintro (h | h)
  · omega
  · exact absurd (held_unique hi h).2 (by simp [hb])

theorem PoolInv.fresh (h : PoolInv s) {i : ℕ} (hi : i < s.poolLen PF)
    (hb : s.poolBit PF i = false) : Fresh s (s.poolStart PF + i) := by
  have hle := poolStart_le s PF
  refine ⟨by omega, fun p hp hf => ?_, fun d hd ht => ?_, fun he => ?_⟩
  · by_cases hm : Unmanaged p
    · have := h.frame_low p _ hp hm hf
      omega
    · simp only [Unmanaged, not_forall, not_not] at hm
      obtain ⟨PF', hm⟩ := hm
      exact absurd (held_unique hi (h.frame_held PF' p _ hm hf)).2 (by simp [hb])
  · rcases h.table_frame d hd _ ht with h0 | hr
    · omega
    · exact reserved_clear hi hb hr
  · exact reserved_clear hi hb (he ▸ h.dir_reserved)

theorem PoolInv.fresh_of_firstFree (h : PoolInv s) {i : ℕ} (hi : s.firstFree PF = some i) :
    Fresh s (s.poolStart PF + i) :=
  h.fresh (firstFree_some hi).1 (firstFree_some hi).2.1

/-! ## Setting bits -/

/-- The step leaves the layout and the thread alone and clears no bit. -/
structure BitsGrow (s s' : MemState) : Prop where
  layout : s'.layout = s.layout
  curr : s'.curr = s.curr
  bits : ∀ k, memBit s.bytes k = true → memBit s'.bytes k = true

variable {s' : MemState}

theorem BitsGrow.refl (s : MemState) : BitsGrow s s := ⟨rfl, rfl, fun _ h => h⟩

theorem BitsGrow.trans {t : MemState} (g : BitsGrow s s') (g' : BitsGrow s' t) : BitsGrow s t :=
  ⟨g'.layout.trans g.layout, g'.curr.trans g.curr, fun k h => g'.bits k (g.bits k h)⟩

theorem pool_of_layout (h : s'.layout = s.layout) (PF : PoolFlag) : s'.pool PF = s.pool PF := by
  simp only [MemState.pool, h]

theorem poolLen_of_layout (h : s'.layout = s.layout) (PF : PoolFlag) :
    s'.poolLen PF = s.poolLen PF := by
  simp only [MemState.poolLen, pool_of_layout h]

theorem poolStart_of_layout (h : s'.layout = s.layout) (PF : PoolFlag) :
    s'.poolStart PF = s.poolStart PF := by
  simp only [MemState.poolStart, pool_of_layout h]

theorem poolPos_of_layout (h : s'.layout = s.layout) (PF : PoolFlag) (i : ℕ) :
    poolPos s' PF i = poolPos s PF i := by
  simp only [poolPos, pool_of_layout h]

theorem BitsGrow.poolBit (g : BitsGrow s s') {i : ℕ} (h : s.poolBit PF i = true) :
    s'.poolBit PF i = true := by
  rw [poolBit_eq, poolPos_of_layout g.layout]
  exact g.bits _ h

theorem BitsGrow.held (g : BitsGrow s s') {f : ℕ} (h : Held s PF f) : Held s' PF f := by
  obtain ⟨l, c, m, fr, d⟩ := s
  obtain ⟨l', c', m', fr', d'⟩ := s'
  obtain ⟨hl, -, hm⟩ := g
  cases hl
  obtain ⟨i, hi, he, hb⟩ := h
  exact ⟨i, hi, he, hm _ hb⟩

theorem BitsGrow.reserved (g : BitsGrow s s') {f : ℕ} (h : Reserved s f) : Reserved s' f :=
  h.imp id fun h => g.held h

theorem BitsGrow.marked (g : BitsGrow s s') {p : ℕ} (h : Marked s PF p) : Marked s' PF p := by
  obtain ⟨l, c, m, fr, d⟩ := s
  obtain ⟨l', c', m', fr', d'⟩ := s'
  obtain ⟨hl, hc, hm⟩ := g
  cases hl
  cases hc
  exact fun h0 hi => hm _ (h h0 hi)

theorem PoolInv.grow_bits (h : PoolInv s) (g : BitsGrow s s') (hf : s'.frames = s.frames)
    (hd : s'.pageDir = s.pageDir) : PoolInv s' := by
  have ht : ∀ d, s'.tableOf d = s.tableOf d := fun d => by rw [MemState.tableOf, hf, hd]; rfl
  have hp : ∀ p, s'.frameOf p = s.frameOf p := fun p => by rw [MemState.frameOf, hf, hd]; rfl
  constructor
  case self_mapped => rw [hf, hd]; exact h.self_mapped
  case kernel_tables => simpa only [ht] using h.kernel_tables
  case dir_reserved => exact hd ▸ g.reserved h.dir_reserved
  case table_frame =>
    intro d hd t hdt
    exact (h.table_frame d hd t (ht d ▸ hdt)).imp id g.reserved
  case table_unshared => simpa only [ht] using h.table_unshared
  case frame_held => exact fun PF p f hm hpf => g.held (h.frame_held PF p f hm (hp p ▸ hpf))
  case frame_low => simpa only [hp] using h.frame_low
  case frame_unshared => simpa only [hp] using h.frame_unshared
  case table_unmapped => simpa only [hp, ht] using h.table_unmapped
  case page_marked => exact fun p hm hpf => g.marked (h.page_marked p hm (hp p ▸ hpf))
  case low_mapped => simpa only [hp] using h.low_mapped

theorem takeFrame_grows (s : MemState) (PF : PoolFlag) (i : ℕ) : BitsGrow s (takeFrame s PF i) := by
  refine ⟨rfl, rfl, fun k hk => ?_⟩
  rw [memBit_takeFrame]
  split
  · rfl
  · exact hk

theorem PoolInv.takeFrame (h : PoolInv s) (i : ℕ) : PoolInv (takeFrame s PF i) :=
  h.grow_bits (takeFrame_grows s PF i) rfl rfl

/-! ## Mapping a fresh frame -/

/-- The table that page `p` needs is there, or can be put in a frame that is no table yet. -/
def TableReady (s : MemState) (d : ℕ) : Prop :=
  s.tableOf d = none → ∀ d' < 1023, s.tableOf d' ≠ some (tableFrame s)

theorem tableFrame_free (s : MemState) :
    tableFrame s = 0 ∨ ∃ j, s.firstFree .kernel = some j ∧ tableFrame s = s.poolStart .kernel + j := by
  rw [tableFrame]
  cases h : s.firstFree .kernel with
  | none => exact Or.inl rfl
  | some j => exact Or.inr ⟨j, rfl, rfl⟩

theorem tableFrame_ne_of_reserved {f : ℕ} (h : Reserved s f) : tableFrame s ≠ f := by
  rintro rfl
  rcases tableFrame_free s with h0 | ⟨j, hj, he⟩
  · rcases h with hr | hr
    · omega
    · have := held_pool hr
      omega
  · exact reserved_clear (firstFree_some hj).1 (firstFree_some hj).2.1 (he ▸ h)

theorem PoolInv.tableFrame_ne_dir (h : PoolInv s) : tableFrame s ≠ s.pageDir :=
  tableFrame_ne_of_reserved h.dir_reserved

theorem PoolInv.tableFrame_unmapped (h : PoolInv s) {p : ℕ} (hp : PF.Managed p) :
    s.frameOf p ≠ some (tableFrame s) := by
  intro hf
  rcases tableFrame_free s with h0 | ⟨j, hj, he⟩
  · have := held_pool (h.frame_held PF p _ hp hf)
    omega
  · exact (h.fresh_of_firstFree hj).unmapped p (managed_plain hp) (he ▸ hf)

theorem PoolInv.tableFor_ne_dir (h : PoolInv s) {d : ℕ} (hd : d < 1023) :
    tableFor s d ≠ s.pageDir := by
  cases ht : s.tableOf d with
  | none => rw [tableFor_of_none ht]; exact h.tableFrame_ne_dir
  | some t =>
    rw [tableFor_of_some ht]
    rintro rfl
    exact h.self_mapped.distinct d hd ht

/-- No other directory entry points at the table of page `p`. -/
theorem PoolInv.tableFor_apart (h : PoolInv s) {d d' : ℕ} (hd : 1 ≤ d ∧ d < 1023)
    (hd' : 1 ≤ d' ∧ d' < 1023) (hr : TableReady s d) (hne : d' ≠ d) :
    s.tableOf d' ≠ some (tableFor s d) := by
  cases ht : s.tableOf d with
  | none => rw [tableFor_of_none ht]; exact hr ht d' hd'.2
  | some t =>
    rw [tableFor_of_some ht]
    intro ht'
    exact hne (h.table_unshared d' d t hd'.1 hd'.2 hd.1 hd.2 ht' ht)

theorem PoolInv.frameOf_addPage (h : PoolInv s) {p q f : ℕ} (hp : Plain p) (hq : Plain q)
    (hr : TableReady s (p / 1024)) (hf : f < 2 ^ 20) :
    (addPage s p f).frameOf q = if q = p then some f else s.frameOf q := by
  have hdir := h.tableFor_ne_dir (plain_dir hp).2
  by_cases hqp : q = p
  · rw [if_pos hqp, hqp, frameOf_addPage_self hdir hf]
  · rw [if_neg hqp, frameOf_addPage_of_apart h.self_mapped hdir hf (plain_dir hq).2 hqp]
    by_cases hd : q / 1024 = p / 1024
    · exact Or.inl hd
    · exact Or.inr (h.tableFor_apart (plain_dir hp) (plain_dir hq) hr hd)

theorem addPage_grows (s : MemState) (p f : ℕ) : BitsGrow s (addPage s p f) := by
  refine ⟨addPage_layout p f, addPage_curr p f, fun k hk => ?_⟩
  rw [addPage_bytes]
  split
  · rw [memBit_takeTable]
    split
    · rfl
    · exact hk
  · exact hk

theorem tableFrame_reserved {p f : ℕ} (hq : s.tableOf (p / 1024) = none) :
    tableFrame s = 0 ∨ Reserved (addPage s p f) (tableFrame s) := by
  rcases tableFrame_free s with h0 | ⟨j, hj, he⟩
  · exact Or.inl h0
  · refine Or.inr (Or.inr ⟨j, ?_, ?_, ?_⟩)
    · simpa only [MemState.poolLen, MemState.pool, addPage_layout] using (firstFree_some hj).1
    · simpa only [MemState.poolStart, MemState.pool, addPage_layout] using he
    · rw [poolBit_eq, addPage_bytes, if_pos hq, memBit_takeTable, if_pos]
      exact ⟨j, hj, by simp only [poolPos, MemState.pool, addPage_layout]⟩

/-- Page `p` gets frame `f`; its directory entry gets a table if it had none. -/
structure PageAdded (s s' : MemState) (p f : ℕ) : Prop where
  grows : BitsGrow s s'
  pageDir : s'.pageDir = s.pageDir
  tables : ∀ d, s'.tableOf d =
    if d = p / 1024 then some (tableFor s (p / 1024)) else s.tableOf d
  table_frame : tableFor s (p / 1024) = 0 ∨ Reserved s' (tableFor s (p / 1024))
  frames : ∀ q, Plain q → s'.frameOf q = if q = p then some f else s.frameOf q

theorem PoolInv.page_added (h : PoolInv s) {p f : ℕ} (hp : Plain p)
    (hr : TableReady s (p / 1024)) (hf : f < 2 ^ 20) : PageAdded s (addPage s p f) p f where
  grows := addPage_grows s p f
  pageDir := addPage_pageDir p f
  tables := tableOf_addPage (h.tableFor_ne_dir (plain_dir hp).2)
  table_frame := by
    cases hq : s.tableOf (p / 1024) with
    | none =>
      rw [tableFor_of_none hq]
      exact tableFrame_reserved hq
    | some t =>
      rw [tableFor_of_some hq]
      exact (h.table_frame _ (plain_dir hp).2 t hq).imp id (addPage_grows s p f).reserved
  frames := fun _ hq => h.frameOf_addPage hp hq hr hf

section PageAdded

variable {p f : ℕ}

theorem PageAdded.self_mapped (k : PageAdded s s' p f) (h : PoolInv s) (hd : p / 1024 < 1023) :
    SelfMapped s'.frames s'.pageDir := by
  have ht : ∀ d, KernelPaging.tableOf s'.frames s'.pageDir d = _ := k.tables
  constructor
  · rw [ht, if_neg (by omega), k.pageDir]
    exact h.self_mapped.self
  · intro d hd'
    rw [ht, k.pageDir]
    split
    · simpa using h.tableFor_ne_dir hd
    · exact h.self_mapped.distinct d hd'

theorem PageAdded.table_unshared (k : PageAdded s s' p f) (h : PoolInv s)
    (hd : 1 ≤ p / 1024 ∧ p / 1024 < 1023) (hr : TableReady s (p / 1024)) {d d' t : ℕ}
    (h₁ : 1 ≤ d ∧ d < 1023) (h₂ : 1 ≤ d' ∧ d' < 1023) (ht : s'.tableOf d = some t)
    (ht' : s'.tableOf d' = some t) : d = d' := by
  rw [k.tables] at ht ht'
  split at ht <;> split at ht'
  case isTrue.isTrue e e' => rw [e, e']
  case isTrue.isFalse e e' =>
    cases ht
    exact (h.tableFor_apart hd h₂ hr e' ht').elim
  case isFalse.isTrue e e' =>
    cases ht'
    exact (h.tableFor_apart hd h₁ hr e ht).elim
  case isFalse.isFalse => exact h.table_unshared d d' t h₁.1 h₁.2 h₂.1 h₂.2 ht ht'

theorem PageAdded.frame_unshared (k : PageAdded s s' p f) (h : PoolInv s)
    (hf : ∀ q, Plain q → s.frameOf q ≠ some f) {q q' g : ℕ} (hq : Plain q) (hq' : Plain q')
    (hg : s'.frameOf q = some g) (hg' : s'.frameOf q' = some g) : q = q' := by
  rw [k.frames q hq] at hg
  rw [k.frames q' hq'] at hg'
  split at hg <;> split at hg'
  case isTrue.isTrue e e' => rw [e, e']
  case isTrue.isFalse =>
    cases hg
    exact (hf q' hq' hg').elim
  case isFalse.isTrue =>
    cases hg'
    exact (hf q hq hg).elim
  case isFalse.isFalse => exact h.frame_unshared q q' g hq hq' hg hg'

/-- The table that serves `p` is neither the new frame nor one that a page maps. -/
theorem PoolInv.tableFor_unmapped (h : PoolInv s) {d : ℕ} (hd : d < 1023) {q : ℕ}
    (hq : PF.Managed q) : s.frameOf q ≠ some (tableFor s d) := by
  cases ht : s.tableOf d with
  | none => rw [tableFor_of_none ht]; exact h.tableFrame_unmapped hq
  | some t =>
    rw [tableFor_of_some ht]
    exact fun hf => h.table_unmapped PF q t hq hf d hd ht

theorem Fresh.ne_tableFor (h : Fresh s f) {d : ℕ} (hd : d < 1023) (hne : f ≠ tableFrame s) :
    f ≠ tableFor s d := by
  cases ht : s.tableOf d with
  | none => rwa [tableFor_of_none ht]
  | some t =>
    rw [tableFor_of_some ht]
    rintro rfl
    exact h.no_table d hd ht

theorem PageAdded.table_unmapped (k : PageAdded s s' p f) (h : PoolInv s) (hd : p / 1024 < 1023)
    (hf : Fresh s f) (hne : f ≠ tableFrame s) {q g d : ℕ} (hq : PF.Managed q)
    (hg : s'.frameOf q = some g) (hd' : d < 1023) : s'.tableOf d ≠ some g := by
  rw [k.frames q (managed_plain hq)] at hg
  rw [k.tables]
  by_cases hqp : q = p
  · rw [if_pos hqp] at hg
    cases hg
    split
    · simpa using (hf.ne_tableFor hd hne).symm
    · exact hf.no_table d hd'
  · rw [if_neg hqp] at hg
    split
    · rintro e
      cases e
      exact h.tableFor_unmapped hd hq hg
    · exact h.table_unmapped PF q g hq hg d hd'

theorem PoolInv.addPage (h : PoolInv s) (hp : PF.Managed p)
    (hr : TableReady s (p / 1024)) (hf : Fresh s f) (hh : Held s PF f)
    (hm : PF = .kernel → Marked s .kernel p) (hne : f ≠ tableFrame s) :
    PoolInv (addPage s p f) := by
  have hpl := managed_plain hp
  have hd := plain_dir hpl
  have k := h.page_added hpl hr hf.pool.2
  constructor
  case self_mapped => exact k.self_mapped h hd.2
  case kernel_tables =>
    intro d h₁ h₂
    rw [k.tables]
    split
    · exact Option.some_ne_none _
    · exact h.kernel_tables d h₁ h₂
  case dir_reserved => exact k.pageDir ▸ k.grows.reserved h.dir_reserved
  case table_frame =>
    intro d hd' t ht
    rw [k.tables] at ht
    split at ht
    · cases ht
      exact k.table_frame
    · exact (h.table_frame d hd' t ht).imp id k.grows.reserved
  case table_unshared =>
    exact fun d d' t h₁ h₂ h₃ h₄ => k.table_unshared h hd hr ⟨h₁, h₂⟩ ⟨h₃, h₄⟩
  case frame_held =>
    intro PF' q g hq hg
    rw [k.frames q (managed_plain hq)] at hg
    split at hg
    case isTrue e =>
      cases hg
      rw [managed_unique hq (e ▸ hp)]
      exact k.grows.held hh
    case isFalse => exact k.grows.held (h.frame_held PF' q g hq hg)
  case frame_low =>
    intro q g hq hu hg
    rw [k.frames q hq, if_neg (fun e : q = p => hu PF (e ▸ hp))] at hg
    exact h.frame_low q g hq hu hg
  case frame_unshared => exact fun q q' g => k.frame_unshared h hf.unmapped
  case table_unmapped => exact fun PF' q g hq hg d hd' => k.table_unmapped h hd.2 hf hne hq hg hd'
  case page_marked =>
    intro q hq hg
    rw [k.frames q (managed_plain hq)] at hg
    split at hg
    case isTrue e =>
      rw [e]
      exact k.grows.marked (hm (managed_unique (e ▸ hp) hq))
    case isFalse => exact k.grows.marked (h.page_marked q hq hg)
  case low_mapped =>
    rw [k.frames _ ⟨by norm_num, by norm_num⟩]
    split
    · exact Option.some_ne_none _
    · exact h.low_mapped

end PageAdded

/-! ## Releasing a page -/

theorem held_dropFrame {PF' : PoolFlag} {i g : ℕ} (hi : i < s.poolLen PF) (h : Held s PF' g)
    (hne : g ≠ s.poolStart PF + i) : Held (dropFrame s PF i) PF' g := by
  obtain ⟨j, hj, he, hb⟩ := h
  refine ⟨j, hj, he, ?_⟩
  rw [poolBit_eq, memBit_dropFrame, if_neg]
  · exact hb
  · change poolPos s PF' j ≠ poolPos s PF i
    by_cases hPF : PF' = PF
    · subst hPF
      rw [Ne, poolPos_inj]
      rintro rfl
      exact hne he
    · exact poolPos_ne hPF hj hi

/-- Page `p` loses frame `poolStart PF + i`, whose bit is cleared. -/
structure PageReleased (s s' : MemState) (PF : PoolFlag) (p i : ℕ) : Prop where
  layout : s'.layout = s.layout
  curr : s'.curr = s.curr
  pageDir : s'.pageDir = s.pageDir
  bytes : s'.bytes = (dropFrame s PF i).bytes
  tables : ∀ d, s'.tableOf d = s.tableOf d
  frames : ∀ q, Plain q → s'.frameOf q = if q = p then none else s.frameOf q

variable {p i : ℕ}

theorem PoolInv.page_released (h : PoolInv s) (hp : Plain p) {t : ℕ}
    (ht : s.tableOf (p / 1024) = some t) :
    PageReleased s (unmapEntry (dropFrame s PF i) t p) PF p i := by
  have htd : t ≠ s.pageDir := by
    rintro rfl
    exact h.self_mapped.distinct _ (plain_dir hp).2 ht
  refine ⟨rfl, rfl, rfl, rfl, fun d => tableOf_unmapEntry (s := dropFrame s PF i) htd d,
    fun q hq => ?_⟩
  rw [frameOf_unmapEntry (s := dropFrame s PF i) htd]
  have hd := plain_dir hp
  have hd' := plain_dir hq
  by_cases he : q = p
  · subst he
    rw [if_pos ⟨ht, rfl⟩, if_pos rfl]
  · rw [if_neg he, if_neg]
    · rfl
    · rintro ⟨h₁, h₂⟩
      have := h.table_unshared _ _ t hd'.1 hd'.2 hd.1 hd.2 h₁ ht
      omega

theorem PageReleased.held (k : PageReleased s s' PF p i) {PF' : PoolFlag} {g : ℕ}
    (hi : i < s.poolLen PF) (h : Held s PF' g) (hne : g ≠ s.poolStart PF + i) :
    Held s' PF' g := by
  have hd := held_dropFrame hi h hne
  obtain ⟨l', c', m', fr', d'⟩ := s'
  obtain ⟨hl, -, -, hb, -, -⟩ := k
  cases hl
  cases hb
  exact hd

theorem PageReleased.marked (k : PageReleased s s' PF p i) {PF' : PoolFlag} {q : ℕ}
    (hi : i < s.poolLen PF) (h : Marked s PF' q) : Marked s' PF' q := by
  intro h0 hq
  have hv : s'.vaddrs PF' = s.vaddrs PF' := by
    simp only [MemState.vaddrs, k.layout, k.curr]
  simp only [MemState.vaddrLen, hv] at h0 hq
  rw [vaddrBit_eq, k.bytes, memBit_dropFrame, if_neg]
  · simpa only [vaddrBit_eq, vaddrPos, hv] using h h0 hq
  · simp only [vaddrPos, hv]
    exact (poolPos_ne_vaddrPos hi hq h0).symm

theorem PoolInv.release (h : PoolInv s) (k : PageReleased s s' PF p i) (hp : PF.Managed p)
    (hi : i < s.poolLen PF) (hf : s.frameOf p = some (s.poolStart PF + i))
    (hdir : s.poolStart PF + i ≠ s.pageDir) : PoolInv s' := by
  have hpl := managed_plain hp
  have hres : ∀ g, g ≠ s.poolStart PF + i → Reserved s g → Reserved s' g :=
    fun g hne hr => hr.imp id fun hh => k.held hi hh hne
  have hold : ∀ q g, Plain q → s'.frameOf q = some g → q ≠ p ∧ s.frameOf q = some g := by
    intro q g hq hg
    rw [k.frames q hq] at hg
    split at hg
    · cases hg
    · exact ⟨‹_›, hg⟩
  constructor
  case self_mapped =>
    have ht : ∀ d, KernelPaging.tableOf s'.frames s'.pageDir d =
        KernelPaging.tableOf s.frames s.pageDir d := k.tables
    refine ⟨?_, fun d hd => ?_⟩
    · rw [ht, k.pageDir]
      exact h.self_mapped.self
    · rw [ht, k.pageDir]
      exact h.self_mapped.distinct d hd
  case kernel_tables => simpa only [k.tables] using h.kernel_tables
  case dir_reserved => exact k.pageDir ▸ hres _ hdir.symm h.dir_reserved
  case table_frame =>
    intro d hd t ht
    rw [k.tables] at ht
    refine (h.table_frame d hd t ht).imp id (hres t ?_)
    rintro rfl
    exact h.table_unmapped PF p _ hp hf d hd ht
  case table_unshared => simpa only [k.tables] using h.table_unshared
  case frame_held =>
    intro PF' q g hq hg
    obtain ⟨hqp, hg⟩ := hold q g (managed_plain hq) hg
    refine k.held hi (h.frame_held PF' q g hq hg) ?_
    rintro rfl
    exact hqp (h.frame_unshared q p _ (managed_plain hq) hpl hg hf)
  case frame_low => exact fun q g hq hu hg => h.frame_low q g hq hu (hold q g hq hg).2
  case frame_unshared =>
    exact fun q q' g hq hq' hg hg' =>
      h.frame_unshared q q' g hq hq' (hold q g hq hg).2 (hold q' g hq' hg').2
  case table_unmapped =>
    intro PF' q g hq hg d hd
    rw [k.tables]
    exact h.table_unmapped PF' q g hq (hold q g (managed_plain hq) hg).2 d hd
  case page_marked =>
    intro q hq hg
    obtain ⟨g, hg⟩ := Option.ne_none_iff_exists'.mp hg
    exact k.marked hi (h.page_marked q hq (by simp [(hold q g (managed_plain hq) hg).2]))
  case low_mapped =>
    rw [k.frames _ ⟨by norm_num, by norm_num⟩, if_neg]
    · exact h.low_mapped
    · rintro rfl
      cases PF <;> simp [PoolFlag.Managed] at hp

end KernelPoolInvariant
