import Leeos.KernelPoolInvariant
import Mathlib.Data.Finset.Card
import Mathlib.Data.Finset.Image

/-!
# Mapping a range of pages (`malloc_pages`)

One turn of the loop takes the first free frame of the pool and maps it; a page below an
absent directory entry costs a kernel frame as well. `TablesFit` counts these tables before
the loop starts, and the loop then keeps the invariant on both of its exits.
-/
namespace KernelPoolMapping

open ExecRules KernelBitmap KernelPaging KernelPools KernelPoolSteps KernelPoolInvariant LibStdint

variable {s s' : MemState} {PF : PoolFlag}

/-! ## Counting frames and tables -/

def freeCount (s : MemState) (PF : PoolFlag) : ℕ :=
  ((Finset.range (s.poolLen PF)).filter fun i => s.poolBit PF i = false).card

/-- The directory entries without a table among those of pages `p` to `p + n - 1`. -/
def absentTables (s : MemState) (p n : ℕ) : ℕ :=
  (((Finset.range n).image fun j => (p + j) / 1024).filter fun d => s.tableOf d = none).card

/-- The tables that the pages still to be mapped need are covered by the free kernel frames
and, for `z = 1`, by frame 0, which an empty kernel pool hands out once unharmed. -/
def TablesFit (z : ℕ) (s : MemState) (PF : PoolFlag) (p n : ℕ) : Prop :=
  absentTables s p (min n (freeCount s PF)) ≤ freeCount s .kernel + z

def ZeroSpare (z : ℕ) (s : MemState) : Prop :=
  z = 0 ∨ (z = 1 ∧ ∀ d < 1023, s.tableOf d ≠ some 0)

theorem firstFree_of_freeCount (h : 0 < freeCount s PF) : ∃ i, s.firstFree PF = some i := by
  cases hf : s.firstFree PF with
  | some i => exact ⟨i, rfl⟩
  | none =>
    obtain ⟨i, hi⟩ := Finset.card_pos.mp h
    simp only [Finset.mem_filter, Finset.mem_range] at hi
    have := firstFree_none hf i hi.1
    simp [this] at hi

theorem freeCount_pos (h : ∃ i, s.firstFree PF = some i) : 0 < freeCount s PF := by
  obtain ⟨i, hi⟩ := h
  obtain ⟨hlt, hb, -⟩ := firstFree_some hi
  exact Finset.card_pos.mpr ⟨i, by simp [hlt, hb]⟩

theorem freeCount_eq_zero (h : s.firstFree PF = none) : freeCount s PF = 0 := by
  by_contra hne
  obtain ⟨i, hi⟩ := firstFree_of_freeCount (Nat.pos_of_ne_zero hne)
  simp [h] at hi

theorem freeCount_congr (hl : s'.layout = s.layout)
    (hb : ∀ i < s.poolLen PF, s'.poolBit PF i = s.poolBit PF i) :
    freeCount s' PF = freeCount s PF := by
  rw [freeCount, freeCount, poolLen_of_layout hl]
  congr 1
  apply Finset.filter_congr
  intro i hi
  rw [hb i (Finset.mem_range.mp hi)]

theorem freeCount_take {i : ℕ} (hl : s'.layout = s.layout) (hi : i < s.poolLen PF)
    (hc : s.poolBit PF i = false) (ht : s'.poolBit PF i = true)
    (hb : ∀ j < s.poolLen PF, j ≠ i → s'.poolBit PF j = s.poolBit PF j) :
    freeCount s' PF + 1 = freeCount s PF := by
  have hset : (Finset.range (s.poolLen PF)).filter (fun j => s'.poolBit PF j = false) =
      ((Finset.range (s.poolLen PF)).filter fun j => s.poolBit PF j = false).erase i := by
    ext j
    simp only [Finset.mem_filter, Finset.mem_range, Finset.mem_erase]
    by_cases hj : j = i
    · subst hj; simp [ht]
    · constructor
      · rintro ⟨h₁, h₂⟩
        exact ⟨hj, h₁, by rw [← hb j h₁ hj, h₂]⟩
      · rintro ⟨-, h₁, h₂⟩
        exact ⟨h₁, by rw [hb j h₁ hj, h₂]⟩
  have hmem : i ∈ (Finset.range (s.poolLen PF)).filter fun j => s.poolBit PF j = false := by
    simp [hi, hc]
  rw [freeCount, freeCount, poolLen_of_layout hl, hset, Finset.card_erase_add_one hmem]

theorem absentTables_pos {p n : ℕ} (hn : 0 < n) (ht : s.tableOf (p / 1024) = none) :
    0 < absentTables s p n := by
  refine Finset.card_pos.mpr ⟨p / 1024, ?_⟩
  simp only [Finset.mem_filter, Finset.mem_image, Finset.mem_range]
  exact ⟨⟨0, hn, rfl⟩, ht⟩

/-- Serving page `p` leaves the tables of the later pages, less the one it added. -/
theorem absentTables_step {p n : ℕ} (hs : ∀ d, s'.tableOf d = none → s.tableOf d = none)
    (hp : s'.tableOf (p / 1024) ≠ none) :
    absentTables s' (p + 1) n + (if s.tableOf (p / 1024) = none then 1 else 0) ≤
      absentTables s p (n + 1) := by
  have hsub : ((Finset.range n).image fun j => (p + 1 + j) / 1024).filter
      (fun d => s'.tableOf d = none) ⊆
      (((Finset.range (n + 1)).image fun j => (p + j) / 1024).filter
        fun d => s.tableOf d = none).erase (p / 1024) := by
    intro d hd
    simp only [Finset.mem_filter, Finset.mem_image, Finset.mem_range, Finset.mem_erase] at hd ⊢
    obtain ⟨⟨j, hj, hjd⟩, hd⟩ := hd
    refine ⟨?_, ⟨j + 1, by omega, by rw [← hjd]; congr 1; omega⟩, hs d hd⟩
    rintro rfl
    exact hp hd
  have hle := Finset.card_le_card hsub
  split
  case isTrue ht =>
    have hmem : p / 1024 ∈ ((Finset.range (n + 1)).image fun j => (p + j) / 1024).filter
        fun d => s.tableOf d = none := by
      simp only [Finset.mem_filter, Finset.mem_image, Finset.mem_range]
      exact ⟨⟨0, by omega, rfl⟩, ht⟩
    have := Finset.card_erase_add_one hmem
    simp only [absentTables]
    omega
  case isFalse =>
    have := Finset.card_erase_le (s := ((Finset.range (n + 1)).image fun j => (p + j) / 1024).filter
        fun d => s.tableOf d = none) (a := p / 1024)
    simp only [absentTables]
    omega

/-! ## One turn of the loop -/

/-- The pool's frame `i` is taken and mapped at page `p`. -/
def grabPage (s : MemState) (PF : PoolFlag) (i p : ℕ) : MemState :=
  addPage (takeFrame s PF i) p (s.poolStart PF + i)

theorem takeFrame_poolBit {PF' : PoolFlag} {i j : ℕ} (hi : i < s.poolLen PF)
    (hj : j < s.poolLen PF') : (takeFrame s PF i).poolBit PF' j =
      if PF' = PF ∧ j = i then true else s.poolBit PF' j := by
  rw [poolBit_eq, memBit_takeFrame]
  change (if poolPos s PF' j = poolPos s PF i then true else s.poolBit PF' j) = _
  by_cases hPF : PF' = PF
  · subst hPF
    simp [poolPos_inj]
  · rw [if_neg (poolPos_ne hPF hj hi), if_neg (by simp [hPF])]

theorem takeFrame_kernel_free {i j : ℕ} (hi : s.firstFree PF = some i)
    (hj : (takeFrame s PF i).firstFree .kernel = some j) :
    s.poolStart PF + i ≠ s.poolStart .kernel + j := by
  have hlt := (firstFree_some hi).1
  have hjlt : j < s.poolLen .kernel := (firstFree_some hj).1
  cases PF with
  | user => exact (pool_disjoint hjlt i).symm
  | kernel =>
    intro he
    have hb := (firstFree_some hj).2.1
    rw [takeFrame_poolBit hlt hjlt, if_pos ⟨rfl, by omega⟩] at hb
    cases hb

theorem grab_ne_table {i : ℕ} (hi : s.firstFree PF = some i) :
    s.poolStart PF + i ≠ tableFrame (takeFrame s PF i) := by
  rcases tableFrame_free (takeFrame s PF i) with h0 | ⟨j, hj, he⟩
  · have := poolStart_le s PF
    omega
  · exact he ▸ takeFrame_kernel_free hi hj

theorem takeFrame_fresh (h : PoolInv s) {i : ℕ} (hi : s.firstFree PF = some i) :
    Fresh (takeFrame s PF i) (s.poolStart PF + i) := by
  obtain ⟨h₁, h₂, h₃, h₄⟩ := h.fresh_of_firstFree hi
  exact ⟨h₁, h₂, h₃, h₄⟩

theorem takeFrame_held {i : ℕ} (hi : s.firstFree PF = some i) :
    Held (takeFrame s PF i) PF (s.poolStart PF + i) := by
  refine ⟨i, (firstFree_some hi).1, rfl, ?_⟩
  rw [takeFrame_poolBit (firstFree_some hi).1 (firstFree_some hi).1, if_pos ⟨rfl, rfl⟩]

theorem takeFrame_userCount {i : ℕ} (hi : s.firstFree .user = some i) :
    freeCount (takeFrame s .user i) .kernel = freeCount s .kernel := by
  refine freeCount_congr rfl fun j hj => ?_
  rw [takeFrame_poolBit (firstFree_some hi).1 hj, if_neg (by simp)]

theorem kernel_table_present (h : PoolInv s) {p : ℕ} (hp : PoolFlag.kernel.Managed p) :
    s.tableOf (p / 1024) ≠ none := by
  simp only [PoolFlag.Managed] at hp
  exact h.kernel_tables _ (by omega) (by omega)

theorem table_ready (h : PoolInv s) {i p n z : ℕ} (hi : s.firstFree PF = some i)
    (hp : PF.Managed p) (hfit : TablesFit z s PF p (n + 1)) (hz : ZeroSpare z s) :
    TableReady (takeFrame s PF i) (p / 1024) := by
  intro ht
  change s.tableOf (p / 1024) = none at ht
  cases PF with
  | kernel => exact (kernel_table_present h hp ht).elim
  | user =>
    intro d hd
    cases hj : (takeFrame s .user i).firstFree .kernel with
    | some j =>
      have he : tableFrame (takeFrame s .user i) = s.poolStart .kernel + j := by
        rw [tableFrame, hj]
        rfl
      rw [he]
      exact ((h.takeFrame i).fresh_of_firstFree hj).no_table d hd
    | none =>
      have h0 := freeCount_eq_zero hj
      rw [takeFrame_userCount hi] at h0
      have hpos := absentTables_pos (n := min (n + 1) (freeCount s .user))
        (by have := freeCount_pos ⟨i, hi⟩; omega) ht
      simp only [TablesFit] at hfit
      have he : tableFrame (takeFrame s .user i) = 0 := by rw [tableFrame, hj]
      rw [he]
      exact (hz.resolve_left (by omega)).2 d hd

/-- The effect of `grabPage`, field by field. -/
structure PageGrabbed (s s' : MemState) (PF : PoolFlag) (p i : ℕ) : Prop where
  grows : BitsGrow s s'
  pageDir : s'.pageDir = s.pageDir
  free : i < s.poolLen PF ∧ s.poolBit PF i = false
  least : ∀ j < i, s.poolBit PF j = true
  taken : s'.poolBit PF i = true
  frames : ∀ q, Plain q → s'.frameOf q = if q = p then some (s.poolStart PF + i) else s.frameOf q
  tables : ∀ d t, s.tableOf d = some t → s'.tableOf d = some t
  other_tables : ∀ d, d ≠ p / 1024 → s'.tableOf d = s.tableOf d
  table_present : s'.tableOf (p / 1024) ≠ none
  bits : ∀ x, memBit s'.bytes x = true → memBit s.bytes x = true ∨ x = poolPos s PF i ∨
    (s.tableOf (p / 1024) = none ∧ ∃ j, j < s.poolLen .kernel ∧
      (takeFrame s PF i).firstFree .kernel = some j ∧ x = poolPos s .kernel j ∧
      s'.tableOf (p / 1024) = some (s.poolStart .kernel + j))

theorem page_grabbed (h : PoolInv s) {p i : ℕ} (hi : s.firstFree PF = some i)
    (hp : PF.Managed p) (hr : TableReady (takeFrame s PF i) (p / 1024)) :
    PageGrabbed s (grabPage s PF i p) PF p i := by
  have hfree := firstFree_some hi
  have hpl := managed_plain hp
  have hinv : PoolInv (takeFrame s PF i) := h.takeFrame i
  have k := hinv.page_added hpl hr (takeFrame_fresh h hi).pool.2
  refine ⟨(takeFrame_grows s PF i).trans k.grows, k.pageDir, ⟨hfree.1, hfree.2.1⟩, hfree.2.2,
    ?_, k.frames, fun d t ht => ?_, fun d hd => ?_, ?_, fun x hx => ?_⟩
  · refine k.grows.poolBit ?_
    rw [takeFrame_poolBit hfree.1 hfree.1, if_pos ⟨rfl, rfl⟩]
  · rw [grabPage, k.tables]
    split
    case isTrue hd =>
      rw [tableFor_of_some]
      exact hd ▸ ht
    case isFalse => exact ht
  · rw [grabPage, k.tables, if_neg hd]
    rfl
  · rw [grabPage, k.tables, if_pos rfl]
    exact Option.some_ne_none _
  · have hold : memBit (takeFrame s PF i).bytes x = true →
        memBit s.bytes x = true ∨ x = poolPos s PF i := by
      rw [memBit_takeFrame]
      split
      · exact fun _ => Or.inr ‹_›
      · exact Or.inl
    rw [grabPage, addPage_bytes] at hx
    split at hx
    case isTrue ht =>
      rw [memBit_takeTable] at hx
      split at hx
      case isTrue hj =>
        obtain ⟨j, hj, hxj⟩ := hj
        refine Or.inr (Or.inr ⟨ht, j, (firstFree_some hj).1, hj, hxj, ?_⟩)
        rw [grabPage, k.tables, if_pos rfl, tableFor_of_none ht, tableFrame, hj]
        rfl
      case isFalse => exact (hold hx).imp id Or.inl
    case isFalse => exact (hold hx).imp id Or.inl

theorem grab_inv (h : PoolInv s) {p i : ℕ} (hi : s.firstFree PF = some i) (hp : PF.Managed p)
    (hr : TableReady (takeFrame s PF i) (p / 1024)) (hm : PF = .kernel → Marked s .kernel p) :
    PoolInv (grabPage s PF i p) :=
  (h.takeFrame i).addPage hp hr (takeFrame_fresh h hi) (takeFrame_held hi)
    (fun hPF => (takeFrame_grows s PF i).marked (hm hPF)) (grab_ne_table hi)

theorem mapPages_none {left v : ℕ} (h : s.firstFree PF = none) :
    mapPages PF (left + 1) v s = .ok (false, s) := by
  rw [mapPages, bind_of_ok (palloc_of_none h), if_pos rfl]
  rfl

theorem mapPages_some (hself : SelfMapped s.frames s.pageDir) (hdir : Reserved s s.pageDir)
    {left p i : ℕ} (hi : s.firstFree PF = some i) (hp : PF.Managed p) (he : s.frameOf p = none) :
    mapPages PF (left + 1) (4096 * p) s = mapPages PF left (4096 * (p + 1)) (grabPage s PF i p) := by
  have hpl := managed_plain hp
  have hle := poolStart_le s PF
  rw [mapPages, bind_of_ok (palloc_of_some hi), if_neg (by omega)]
  have hadd := pageTableAdd_apply (s := takeFrame s PF i) (p := p) (f := s.poolStart PF + i)
    hself (plain_dir hpl).2 he
    (fun _ => tableFrame_ne_of_reserved ((takeFrame_grows s PF i).reserved hdir))
  rw [bind_of_ok hadd]
  have hw : u32 (4096 * p + 4096) = 4096 * (p + 1) := by
    simp only [Plain] at hpl
    rw [u32]
    omega
  rw [hw]
  rfl

theorem mapPages_present (hself : SelfMapped s.frames s.pageDir) {left p i : ℕ}
    (hi : s.firstFree PF = some i) (hp : p / 1024 < 1023) (he : s.frameOf p ≠ none) :
    mapPages PF (left + 1) (4096 * p) s = .error (.assertion .pteAbsent) := by
  have hle := poolStart_le s PF
  rw [mapPages, bind_of_ok (palloc_of_some hi), if_neg (by omega)]
  exact bind_of_error (pageTableAdd_present (s := takeFrame s PF i) hself hp he)

/-! ## Counts after a turn -/

theorem addPage_poolBit {PF' : PoolFlag} {p f j : ℕ} (hj : j < s.poolLen PF') :
    (addPage s p f).poolBit PF' j = if PF' = .kernel ∧ s.tableOf (p / 1024) = none ∧
      s.firstFree .kernel = some j then true else s.poolBit PF' j := by
  rw [poolBit_eq, poolPos_of_layout (addPage_layout p f), addPage_bytes]
  by_cases ht : s.tableOf (p / 1024) = none
  · rw [if_pos ht, memBit_takeTable]
    cases PF' with
    | user =>
      rw [if_neg, if_neg (by simp)]
      · rfl
      · rintro ⟨k, hk, he⟩
        exact poolPos_ne (by simp) hj (firstFree_some hk).1 he
    | kernel =>
      refine if_congr ?_ rfl rfl
      constructor
      · rintro ⟨k, hk, he⟩
        exact ⟨rfl, ht, (poolPos_inj.mp he) ▸ hk⟩
      · rintro ⟨-, -, hk⟩
        exact ⟨j, hk, rfl⟩
  · rw [if_neg ht, if_neg (fun h => ht h.2.1)]
    rfl

theorem freeCount_grab {i p : ℕ} (hi : s.firstFree PF = some i)
    (hk : PF = .kernel → s.tableOf (p / 1024) ≠ none) :
    freeCount (grabPage s PF i p) PF + 1 = freeCount s PF := by
  obtain ⟨hlt, hclear, -⟩ := firstFree_some hi
  have hbit : ∀ j < s.poolLen PF, (grabPage s PF i p).poolBit PF j =
      (takeFrame s PF i).poolBit PF j := by
    intro j hj
    refine (addPage_poolBit (s := takeFrame s PF i) hj).trans (if_neg ?_)
    rintro ⟨hPF, ht, -⟩
    exact hk hPF ht
  refine freeCount_take (addPage_layout _ _) hlt hclear ?_ fun j hj hne => ?_
  · rw [hbit i hlt, takeFrame_poolBit hlt hlt, if_pos ⟨rfl, rfl⟩]
  · rw [hbit j hj, takeFrame_poolBit hlt hj, if_neg (by simp [hne])]

theorem tableFrame_eq_zero : tableFrame s = 0 ↔ freeCount s .kernel = 0 := by
  rw [tableFrame]
  cases hj : s.firstFree .kernel with
  | none => simp [freeCount_eq_zero hj]
  | some j =>
    have hpos := freeCount_pos ⟨j, hj⟩
    have hle := poolStart_le s .kernel
    exact ⟨fun h0 => by change s.poolStart .kernel + j = 0 at h0; omega, fun h0 => by omega⟩

theorem grab_kernelCount {i : ℕ} (hi : s.firstFree .user = some i) (p : ℕ) :
    freeCount (grabPage s .user i p) .kernel =
      freeCount s .kernel - if s.tableOf (p / 1024) = none then 1 else 0 := by
  have hbit : ∀ j < s.poolLen .kernel, (grabPage s .user i p).poolBit .kernel j = _ :=
    fun j hj => addPage_poolBit (s := takeFrame s .user i) (f := s.poolStart .user + i) hj
  have hsame : (s.tableOf (p / 1024) = none → (takeFrame s .user i).firstFree .kernel = none) →
      freeCount (grabPage s .user i p) .kernel = freeCount (takeFrame s .user i) .kernel := by
    intro hc
    refine freeCount_congr (s := takeFrame s .user i) (addPage_layout _ _) fun j hj => ?_
    refine (hbit j hj).trans (if_neg ?_)
    rintro ⟨-, ht, hj'⟩
    rw [hc ht] at hj'
    cases hj'
  rw [← takeFrame_userCount hi]
  by_cases ht : s.tableOf (p / 1024) = none
  · rw [if_pos ht]
    cases hj : (takeFrame s .user i).firstFree .kernel with
    | none => rw [hsame fun _ => hj, freeCount_eq_zero hj]
    | some j =>
      obtain ⟨hlt, hclear, -⟩ := firstFree_some hj
      have htake : freeCount (grabPage s .user i p) .kernel + 1 =
          freeCount (takeFrame s .user i) .kernel := by
        refine freeCount_take (addPage_layout _ _) hlt hclear
          ((hbit j hlt).trans (if_pos ⟨rfl, ht, hj⟩)) fun m hm hne => (hbit m hm).trans (if_neg ?_)
        rintro ⟨-, -, hm'⟩
        rw [hj, Option.some.injEq] at hm'
        exact hne hm'.symm
      omega
  · rw [if_neg ht, Nat.sub_zero, hsame fun h => (ht h).elim]

/-! ## The loop -/

theorem PageGrabbed.tables_none {p i d : ℕ} (k : PageGrabbed s s' PF p i)
    (h : s'.tableOf d = none) : s.tableOf d = none := by
  cases ht : s.tableOf d with
  | none => rfl
  | some t => rw [k.tables d t ht] at h; cases h

theorem absentTables_kernel (h : PoolInv s) {p n : ℕ}
    (hp : ∀ q, p ≤ q → q < p + n → PoolFlag.kernel.Managed q) : absentTables s p n = 0 := by
  rw [absentTables, Finset.card_eq_zero, Finset.filter_eq_empty_iff]
  intro d hd
  simp only [Finset.mem_image, Finset.mem_range] at hd
  obtain ⟨j, hj, rfl⟩ := hd
  exact kernel_table_present h (hp (p + j) (by omega) (by omega))

theorem tablesFit_step (h : PoolInv s) {i p n z : ℕ} (hi : s.firstFree .user = some i)
    (hp : PoolFlag.user.Managed p) (hfit : TablesFit z s .user p (n + 1)) (hz : ZeroSpare z s) :
    ∃ z', TablesFit z' (grabPage s .user i p) .user (p + 1) n ∧
      ZeroSpare z' (grabPage s .user i p) ∧ (z = 0 → z' = 0 ∧
        ∀ d < 1023, (grabPage s .user i p).tableOf d = some 0 → s.tableOf d = some 0) := by
  have hr := table_ready h hi hp hfit hz
  have k := page_grabbed h hi hp hr
  have htab := (PoolInv.page_added (h.takeFrame i) (managed_plain hp) hr
    (takeFrame_fresh h hi).pool.2).tables
  change ∀ d, (grabPage s .user i p).tableOf d = if d = p / 1024
    then some (tableFor (takeFrame s .user i) (p / 1024)) else s.tableOf d at htab
  have hu := freeCount_grab (p := p) hi (by simp)
  have hk := grab_kernelCount hi p
  obtain ⟨s', hs'⟩ : ∃ s', s' = grabPage s .user i p := ⟨_, rfl⟩
  rw [← hs'] at k htab hu hk ⊢
  have hstep := absentTables_step (n := min n (freeCount s' .user)) (fun d => k.tables_none)
    k.table_present
  rw [TablesFit, show min (n + 1) (freeCount s .user) = min n (freeCount s' .user) + 1 by omega]
    at hfit
  -- the only new table is that of page `p`
  have hold : (s.tableOf (p / 1024) = none → tableFrame (takeFrame s .user i) ≠ 0) →
      ∀ d < 1023, s'.tableOf d = some 0 → s.tableOf d = some 0 := by
    intro hne d _ hd
    by_cases hdp : d = p / 1024
    · subst hdp
      cases ht : s.tableOf (p / 1024) with
      | some t => rw [k.tables _ t ht] at hd; exact hd
      | none =>
        rw [htab, if_pos rfl, tableFor_of_none (s := takeFrame s .user i) ht,
          Option.some.injEq] at hd
        exact (hne ht hd).elim
    · exact k.other_tables d hdp ▸ hd
  by_cases hspare : s.tableOf (p / 1024) = none ∧ freeCount s .kernel = 0
  · obtain ⟨ht, h0⟩ := hspare
    rw [if_pos ht] at hstep
    rcases hz with hz | ⟨hz, -⟩
    · omega
    · exact ⟨0, by rw [TablesFit]; omega, Or.inl rfl, fun h => by omega⟩
  · have hzero := hold fun ht h0 => hspare
      ⟨ht, (takeFrame_userCount hi) ▸ tableFrame_eq_zero.mp h0⟩
    refine ⟨z, ?_, hz.imp id fun h => ⟨h.1, fun d hd he => h.2 d hd (hzero d hd he)⟩,
      fun h0 => ⟨h0, hzero⟩⟩
    rw [TablesFit]
    by_cases ht : s.tableOf (p / 1024) = none
    · have : freeCount s .kernel ≠ 0 := fun h0 => hspare ⟨ht, h0⟩
      rw [if_pos ht] at hstep hk
      omega
    · rw [if_neg ht] at hstep hk
      omega

/-- Pages `p` to `p + k - 1`, none of which was mapped, were given frames `g 0 < g 1 < …` of the
pool, and their directory entries tables where those were absent. -/
structure PagesMapped (s s' : MemState) (PF : PoolFlag) (p k : ℕ) (g : ℕ → ℕ) : Prop where
  unmapped : ∀ q, p ≤ q → q < p + k → PF.Managed q ∧ s.frameOf q = none
  grows : BitsGrow s s'
  pageDir : s'.pageDir = s.pageDir
  inside : ∀ j < k, g j < s.poolLen PF
  free : ∀ j < k, s.poolBit PF (g j) = false
  ascending : ∀ i j, i < j → j < k → g i < g j
  least : 0 < k → ∀ i < g 0, s.poolBit PF i = true
  frames : ∀ q, Plain q → s'.frameOf q =
    if p ≤ q ∧ q < p + k then some (s.poolStart PF + g (q - p)) else s.frameOf q
  tables : ∀ d t, s.tableOf d = some t → s'.tableOf d = some t
  other_tables : ∀ d, (∀ q, p ≤ q → q < p + k → d ≠ q / 1024) → s'.tableOf d = s.tableOf d
  table_present : ∀ q, p ≤ q → q < p + k → s'.tableOf (q / 1024) ≠ none
  bits : ∀ x, memBit s'.bytes x = true → memBit s.bytes x = true ∨
    (∃ j < k, x = poolPos s PF (g j)) ∨
    ∃ d, s.tableOf d = none ∧ ∃ j < s.poolLen .kernel, x = poolPos s .kernel j ∧
      s'.tableOf d = some (s.poolStart .kernel + j)

theorem pages_mapped_zero (s : MemState) (PF : PoolFlag) (p : ℕ) (g : ℕ → ℕ) :
    PagesMapped s s PF p 0 g where
  unmapped q h₁ h₂ := by omega
  grows := BitsGrow.refl s
  pageDir := rfl
  inside j hj := by omega
  free j hj := by omega
  ascending i j _ hj := by omega
  least h0 := by omega
  frames q _ := by rw [if_neg (by omega)]
  tables d t ht := ht
  other_tables d _ := rfl
  table_present q h₁ h₂ := by omega
  bits x hx := Or.inl hx

theorem PageGrabbed.cons {t : MemState} {p i k : ℕ} {g : ℕ → ℕ}
    (a : PageGrabbed s s' PF p i) (hp : PF.Managed p) (he : s.frameOf p = none)
    (b : PagesMapped s' t PF (p + 1) k g) :
    PagesMapped s t PF p (k + 1) (fun j => if j = 0 then i else g (j - 1)) := by
  have hlen : s'.poolLen PF = s.poolLen PF := poolLen_of_layout a.grows.layout PF
  have hklen : s'.poolLen .kernel = s.poolLen .kernel := poolLen_of_layout a.grows.layout _
  have hstart : s'.poolStart PF = s.poolStart PF := poolStart_of_layout a.grows.layout PF
  have hkstart : s'.poolStart .kernel = s.poolStart .kernel := poolStart_of_layout a.grows.layout _
  have hfree : ∀ j, s'.poolBit PF j = false → s.poolBit PF j = false := by
    intro j hj
    cases hb : s.poolBit PF j with
    | false => rfl
    | true => rw [a.grows.poolBit hb] at hj; cases hj
  -- every frame taken later lies above `i`: the bits up to `i` are set by now
  have habove : ∀ j < k, i < g j := by
    intro j hj
    have hb := b.free j hj
    rcases Nat.lt_trichotomy (g j) i with hlt | heq | hgt
    · rw [a.grows.poolBit (a.least _ hlt)] at hb; cases hb
    · rw [heq, a.taken] at hb; cases hb
    · exact hgt
  constructor
  case unmapped =>
    intro q h₁ h₂
    by_cases hqp : q = p
    · exact hqp ▸ ⟨hp, he⟩
    · obtain ⟨hm, hq⟩ := b.unmapped q (by omega) (by omega)
      rw [a.frames q (managed_plain hm), if_neg hqp] at hq
      exact ⟨hm, hq⟩
  case grows => exact a.grows.trans b.grows
  case pageDir => exact b.pageDir.trans a.pageDir
  case inside =>
    intro j hj
    split
    · exact a.free.1
    · exact hlen ▸ b.inside (j - 1) (by omega)
  case free =>
    intro j hj
    split
    · exact a.free.2
    · exact hfree _ (b.free (j - 1) (by omega))
  case ascending =>
    intro i' j hij hj
    rw [if_neg (show j ≠ 0 by omega)]
    split
    · exact habove (j - 1) (by omega)
    · exact b.ascending _ _ (by omega) (by omega)
  case least => exact fun _ => a.least
  case frames =>
    intro q hq
    rw [b.frames q hq, a.frames q hq, hstart]
    by_cases hqp : q = p
    · subst hqp
      rw [if_neg (by omega), if_pos rfl, if_pos (by omega)]
      simp
    · by_cases hin : p + 1 ≤ q ∧ q < p + 1 + k
      · rw [if_pos hin, if_pos (by omega), if_neg (by omega), show q - p - 1 = q - (p + 1) by omega]
      · rw [if_neg hin, if_neg hqp, if_neg (by omega)]
  case tables => exact fun d t ht => b.tables d t (a.tables d t ht)
  case other_tables =>
    intro d hd
    rw [b.other_tables d fun q h₁ h₂ => hd q (by omega) (by omega)]
    exact a.other_tables d (hd p (by omega) (by omega))
  case table_present =>
    intro q h₁ h₂
    by_cases hqp : q = p
    · obtain ⟨t', ht'⟩ := Option.ne_none_iff_exists'.mp a.table_present
      rw [hqp, b.tables _ t' ht']
      exact Option.some_ne_none _
    · exact b.table_present q (by omega) (by omega)
  case bits =>
    intro x hx
    rcases b.bits x hx with hx | ⟨j, hj, hx⟩ | ⟨d, hd, j, hj, hx, ht⟩
    · rcases a.bits x hx with hx | hx | ⟨hd, j, hj, -, hx, ht⟩
      · exact Or.inl hx
      · exact Or.inr (Or.inl ⟨0, by omega, by simpa using hx⟩)
      · exact Or.inr (Or.inr ⟨_, hd, j, hj, hx, b.tables _ _ ht⟩)
    · refine Or.inr (Or.inl ⟨j + 1, by omega, ?_⟩)
      rw [hx, poolPos_of_layout a.grows.layout]
      simp
    · refine Or.inr (Or.inr ⟨d, a.tables_none hd, j, hklen ▸ hj, ?_, hkstart ▸ ht⟩)
      rw [hx, poolPos_of_layout a.grows.layout]

/-- What the loop finds at the pages from `p` on: those of a free kernel run are unmapped and
marked. A process's pages may be mapped already; page 0xc0000 always is, and ends the loop. -/
def RangeReady (s : MemState) : PoolFlag → ℕ → ℕ → Prop
  | .kernel, p, n => ∀ q, p ≤ q → q < p + n →
      PoolFlag.kernel.Managed q ∧ s.frameOf q = none ∧ Marked s .kernel q
  | .user, p, _ => 0x8048 ≤ p ∧ p ≤ 0xc0000

/-- The first page of the range belongs to the pool if it is unmapped. -/
theorem RangeReady.head {p n : ℕ} (hr : RangeReady s PF p (n + 1))
    (hlow : PF = .user → s.frameOf 0xc0000 ≠ none) (he : s.frameOf p = none) :
    PF.Managed p ∧ (PF = .kernel → Marked s .kernel p) := by
  cases PF with
  | kernel =>
    obtain ⟨hm, -, hb⟩ := hr p le_rfl (by omega)
    exact ⟨hm, fun _ => hb⟩
  | user =>
    have hne : p ≠ 0xc0000 := by
      rintro rfl
      exact hlow rfl he
    simp only [RangeReady] at hr
    exact ⟨⟨hr.1, by omega⟩, nofun⟩

theorem RangeReady.dir {p n : ℕ} (hr : RangeReady s PF p (n + 1)) : p / 1024 < 1023 := by
  cases PF with
  | kernel => exact (plain_dir (managed_plain (hr p le_rfl (by omega)).1)).2
  | user =>
    simp only [RangeReady] at hr
    omega

theorem RangeReady.next {p n : ℕ} (hr : RangeReady s PF p (n + 1)) (hp : PF.Managed p)
    (hg : BitsGrow s s')
    (hf : ∀ q, PF.Managed q → p < q → q < p + (n + 1) → s'.frameOf q = s.frameOf q) :
    RangeReady s' PF (p + 1) n := by
  cases PF with
  | kernel =>
    intro q h₁ h₂
    obtain ⟨hm, he, hb⟩ := hr q (by omega) (by omega)
    exact ⟨hm, (hf q hm (by omega) (by omega)).trans he, hg.marked hb⟩
  | user =>
    simp only [RangeReady, PoolFlag.Managed] at *
    omega

theorem tablesFit_turn (h : PoolInv s) {i p n z : ℕ} (hi : s.firstFree PF = some i)
    (hp : PF.Managed p) (hrange : RangeReady s PF p (n + 1))
    (hfit : TablesFit z s PF p (n + 1)) (hz : ZeroSpare z s) :
    ∃ z', TablesFit z' (grabPage s PF i p) PF (p + 1) n ∧
      ZeroSpare z' (grabPage s PF i p) ∧ (z = 0 → z' = 0 ∧
        ∀ d < 1023, (grabPage s PF i p).tableOf d = some 0 → s.tableOf d = some 0) := by
  cases PF with
  | user => exact tablesFit_step h hi hp hfit hz
  | kernel =>
    have hready := table_ready h hi hp hfit hz
    have hgrab := page_grabbed h hi hp hready
    refine ⟨0, ?_, Or.inl rfl, fun _ => ⟨rfl, fun d _ hd => ?_⟩⟩
    · rw [TablesFit, absentTables_kernel (grab_inv h hi hp hready fun _ =>
        (hrange p le_rfl (by omega)).2.2)]
      · omega
      · exact fun q h₁ h₂ => (hrange q (by omega) (by omega)).1
    · by_cases hdp : d = p / 1024
      · obtain ⟨t, ht⟩ := Option.ne_none_iff_exists'.mp (kernel_table_present h hp)
        rw [hdp, hgrab.tables _ t ht] at hd
        rw [hdp, ht, hd]
      · rwa [hgrab.other_tables d hdp] at hd

/-- A turn of the loop that is not refused, and what the loop finds behind it. -/
structure MapTurn (s : MemState) (PF : PoolFlag) (p left i z : ℕ) : Prop where
  managed : PF.Managed p
  unmapped : s.frameOf p = none
  grabbed : PageGrabbed s (grabPage s PF i p) PF p i
  inv : PoolInv (grabPage s PF i p)
  range : RangeReady (grabPage s PF i p) PF (p + 1) left
  fits : ∃ z', TablesFit z' (grabPage s PF i p) PF (p + 1) left ∧
    ZeroSpare z' (grabPage s PF i p) ∧ (z = 0 → z' = 0 ∧
      ∀ d < 1023, (grabPage s PF i p).tableOf d = some 0 → s.tableOf d = some 0)

theorem mapPages_turn (h : PoolInv s) {p left i z : ℕ} {r : Bool × MemState}
    (hr : RangeReady s PF p (left + 1)) (hfit : TablesFit z s PF p (left + 1))
    (hz : ZeroSpare z s) (hi : s.firstFree PF = some i)
    (hrun : mapPages PF (left + 1) (4096 * p) s = .ok r) :
    MapTurn s PF p left i z ∧
      mapPages PF left (4096 * (p + 1)) (grabPage s PF i p) = .ok r := by
  -- the assertion of `page_table_add` lets an unmapped page through only
  by_cases he : s.frameOf p = none
  swap
  · rw [mapPages_present h.self_mapped hi hr.dir he] at hrun
    cases hrun
  obtain ⟨hm, hb⟩ := hr.head (fun _ => h.low_mapped) he
  have hready := table_ready h hi hm hfit hz
  have hk := page_grabbed h hi hm hready
  rw [mapPages_some h.self_mapped h.dir_reserved hi hm he] at hrun
  refine ⟨⟨hm, he, hk, grab_inv h hi hm hready hb, ?_, tablesFit_turn h hi hm hr hfit hz⟩, hrun⟩
  exact hr.next hm hk.grows fun q hq hlt _ =>
    (hk.frames q (managed_plain hq)).trans (if_neg hlt.ne')

theorem mapPages_spec (left : ℕ) : ∀ (s : MemState) (p z : ℕ) {done : Bool} {s' : MemState},
    PoolInv s → RangeReady s PF p left → TablesFit z s PF p left → ZeroSpare z s →
    mapPages PF left (4096 * p) s = .ok (done, s') →
    ∃ k g, PoolInv s' ∧ PagesMapped s s' PF p k g ∧
      ((done = true ∧ k = left) ∨ (done = false ∧ k < left ∧ s'.firstFree PF = none)) ∧
      (z = 0 → ∀ d < 1023, s'.tableOf d = some 0 → s.tableOf d = some 0) := by
  induction left with
  | zero =>
    intro s p z done s' h _ _ _ hrun
    cases hrun
    exact ⟨0, id, h, pages_mapped_zero s PF p id, Or.inl ⟨rfl, rfl⟩, fun _ _ _ ht => ht⟩
  | succ left ih =>
    intro s p z done s' h hr hfit hz hrun
    cases hi : s.firstFree PF with
    | none =>
      rw [mapPages_none hi] at hrun
      cases hrun
      exact ⟨0, id, h, pages_mapped_zero s PF p id, Or.inr ⟨rfl, by omega, hi⟩,
        fun _ _ _ ht => ht⟩
    | some i =>
      obtain ⟨k, hrest⟩ := mapPages_turn h hr hfit hz hi hrun
      obtain ⟨z', hfit', hz', hzero⟩ := k.fits
      obtain ⟨n, g, hinv, hmap, hend, hz0⟩ := ih _ (p + 1) z' k.inv k.range hfit' hz' hrest
      refine ⟨n + 1, _, hinv, k.grabbed.cons k.managed k.unmapped hmap, ?_, fun h0 d hd ht => ?_⟩
      · exact hend.imp (fun h => ⟨h.1, by omega⟩) (fun h => ⟨h.1, by omega, h.2.2⟩)
      · exact (hzero h0).2 d hd (hz0 (hzero h0).1 d hd ht)

theorem absentTables_mono (s : MemState) (p : ℕ) {m n : ℕ} (h : m ≤ n) :
    absentTables s p m ≤ absentTables s p n := by
  refine Finset.card_le_card (Finset.filter_subset_filter _ (Finset.image_subset_image ?_))
  exact Finset.range_subset_range.mpr h

end KernelPoolMapping
