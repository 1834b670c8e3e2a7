import Leeos.KernelPools

/-!
# What one allocation step does

Each primitive of `kernel/memory.c` is given once as an equation between states: taking a
frame, adding a table, writing and clearing a page's entry. Bits are compared by their
absolute positions, which the layout keeps apart for the four bitmaps.
-/
namespace KernelPoolSteps

open ExecRules RunSearch KernelBitmap KernelPaging KernelPools LibStdint

variable {s : MemState} {PF : PoolFlag}

theorem mallocPages_count {n : ℕ} {r : ℕ × MemState} (h : mallocPages PF n s = .ok r) :
    0 < n ∧ n < 3840 := by
  rw [mallocPages, assert, ensure_bind_ok_iff] at h
  exact h.1

/-! ## Layout -/

theorem layout_facts (l : MemLayout) : ∃ nk nu, nk < 65536 ∧ nu < 65536 ∧
    l.kernelPool.phyStartAddr = 0x200000 ∧ l.userPool.phyStartAddr = 0x200000 + nk * 4096 ∧
    l.kernelPool.poolBitmap.bitmapLen = nk / 8 ∧ l.userPool.poolBitmap.bitmapLen = nu / 8 ∧
    l.kernelVaddr.vaddrBitmap.bitmapLen = nk / 8 ∧
    l.kernelPool.poolBitmap.bits = 0xc009a000 ∧
    l.userPool.poolBitmap.bits = 0xc009a000 + nk / 8 ∧
    l.kernelVaddr.vaddrBitmap.bits = 0xc009a000 + nk / 8 + nu / 8 := by
  obtain ⟨nk, hk, hks, hkl⟩ := l.kernel_size
  obtain ⟨nu, hu, _, hul⟩ := l.user_size
  have h₁ := l.kernel_phy
  have h₂ := l.user_phy
  have h₃ := l.vaddr_len
  have h₄ := l.kernel_bits
  have h₅ := l.user_bits
  have h₆ := l.vaddr_bits
  simp only [kernelBitmapStart] at h₄
  exact ⟨nk, nu, hk, hu, h₁, by omega, hkl, hul, by omega, h₄, by omega, by omega⟩

theorem poolStart_kernel (s : MemState) : s.poolStart .kernel = 0x200 := by
  simp [MemState.poolStart, MemState.pool, s.layout.kernel_phy]

/-- The frames of the two pools: kernel frames first, none beyond 2^20. -/
theorem pool_order (s : MemState) :
    0x200 + s.poolLen .kernel ≤ s.poolStart .user ∧
    s.poolStart .user + s.poolLen .user ≤ 0x200 + 131072 ∧
    s.layout.userPool.phyStartAddr = s.poolStart .user * 4096 := by
  obtain ⟨nk, nu, hk, hu, h₁, h₂, h₃, h₄, -⟩ := layout_facts s.layout
  simp only [MemState.poolStart, MemState.poolLen, MemState.pool]
  omega

theorem poolStart_le (s : MemState) (PF : PoolFlag) :
    0x200 ≤ s.poolStart PF ∧ s.poolStart PF + s.poolLen PF ≤ 0x200 + 131072 := by
  have h := pool_order s
  have hk := poolStart_kernel s
  cases PF <;> omega

theorem pool_phy (s : MemState) (PF : PoolFlag) :
    (s.pool PF).phyStartAddr = s.poolStart PF * 4096 := by
  have h := pool_order s
  have hk := poolStart_kernel s
  cases PF
  · simp [MemState.pool, s.layout.kernel_phy, hk]
  · exact h.2.2

theorem pool_disjoint {i : ℕ} (hi : i < s.poolLen .kernel) (j : ℕ) :
    s.poolStart .kernel + i ≠ s.poolStart .user + j := by
  have h := pool_order s
  have hk := poolStart_kernel s
  omega

def poolPos (s : MemState) (PF : PoolFlag) (i : ℕ) : ℕ := (s.pool PF).poolBitmap.pos i
def vaddrPos (s : MemState) (PF : PoolFlag) (i : ℕ) : ℕ := (s.vaddrs PF).vaddrBitmap.pos i

theorem poolPos_inj {i j : ℕ} : poolPos s PF i = poolPos s PF j ↔ i = j := by
  simp only [poolPos, Bitmap.pos]
  omega

/-- The pool bitmaps share no bit, although they are neighbours. -/
theorem poolPos_ne {PF' : PoolFlag} {i j : ℕ} (h : PF ≠ PF') (hi : i < s.poolLen PF)
    (hj : j < s.poolLen PF') : poolPos s PF i ≠ poolPos s PF' j := by
  obtain ⟨nk, nu, -, -, -, -, h₃, h₄, -, h₆, h₇, -⟩ := layout_facts s.layout
  simp only [poolPos, Bitmap.pos, MemState.poolLen, MemState.pool] at *
  cases PF <;> cases PF' <;> first | exact absurd rfl h | (simp only at *; omega)

/-- Neither does a pool bitmap share one with a virtual bitmap, the bit behind its end
included. -/
theorem poolPos_ne_vaddrPos {PF' : PoolFlag} {i j : ℕ} (hi : i < s.poolLen PF)
    (hj : j ≤ s.vaddrLen PF') (h0 : 0 < s.vaddrLen PF') :
    poolPos s PF i ≠ vaddrPos s PF' j := by
  obtain ⟨nk, nu, hk, hu, -, -, h₃, h₄, h₅, h₆, h₇, h₈⟩ := layout_facts s.layout
  have hc := s.curr.shape
  simp only [kernelHeapStart, poolPos, vaddrPos, Bitmap.pos, MemState.poolLen,
    MemState.vaddrLen, MemState.pool, MemState.vaddrs] at *
  cases PF <;> cases PF' <;> simp only at * <;> omega

theorem vaddrPos_ne {PF' : PoolFlag} {i j : ℕ} (h : PF ≠ PF') (hi : i ≤ s.vaddrLen PF)
    (hj : j ≤ s.vaddrLen PF') (h0 : 0 < s.vaddrLen PF) (h1 : 0 < s.vaddrLen PF') :
    vaddrPos s PF i ≠ vaddrPos s PF' j := by
  obtain ⟨nk, nu, hk, hu, -, -, h₃, h₄, h₅, h₆, h₇, h₈⟩ := layout_facts s.layout
  have hc := s.curr.shape
  simp only [kernelHeapStart, vaddrPos, Bitmap.pos, MemState.vaddrLen, MemState.vaddrs] at *
  cases PF <;> cases PF' <;> first | exact absurd rfl h | (simp only at *; omega)

/-- What the virtual pools look like: the kernel's one has at most 65535 bits, a process's
one ends at 0xc0000000. -/
theorem vaddr_facts (s : MemState) (PF : PoolFlag) (h : 0 < s.vaddrLen PF) :
    (s.vaddrs PF).vaddrStart = PF.base * 4096 ∧
    (PF = .kernel → s.vaddrLen PF < 65536) ∧ (PF = .user → s.vaddrLen PF = 753592) := by
  obtain ⟨nk, nu, hk, hu, -, -, h₃, h₄, h₅, -⟩ := layout_facts s.layout
  have hc := s.curr.shape
  have hv := s.layout.vaddr_start
  cases PF
  · simp only [MemState.vaddrLen, MemState.vaddrs, PoolFlag.base, kernelHeapStart] at *
    refine ⟨by omega, fun _ => by omega, fun h => by cases h⟩
  · simp only [MemState.vaddrLen, MemState.vaddrs, PoolFlag.base, userProgStartVaddr] at *
    refine ⟨by omega, fun h => (by cases h), fun _ => by omega⟩

/-! ## Bits -/

theorem memBit_setRange (m : Bytes) (btmp : Bitmap) (index : ℕ) (v : Bool) (n k : ℕ) :
    memBit (setRange m btmp index v n) k =
      if btmp.pos index ≤ k ∧ k < btmp.pos (index + n) then v else memBit m k := by
  have hp : ∀ i, btmp.pos i = 8 * btmp.bits + i := fun _ => rfl
  induction n with
  | zero =>
    have h0 := hp index
    rw [setRange, if_neg (by rw [Nat.add_zero]; omega)]
  | succ n ih =>
    have h₁ := hp (index + n)
    have h₂ := hp (index + (n + 1))
    have h₃ := hp index
    rw [setRange, memBit_bitmapSet, ih]
    by_cases he : k = btmp.pos (index + n)
    · rw [if_pos he, if_pos (by omega)]
    · rw [if_neg he]
      by_cases hr : btmp.pos index ≤ k ∧ k < btmp.pos (index + n)
      · rw [if_pos hr, if_pos (by omega)]
      · rw [if_neg hr, if_neg (by omega)]

theorem poolBit_eq (s : MemState) (PF : PoolFlag) (i : ℕ) :
    s.poolBit PF i = memBit s.bytes (poolPos s PF i) := rfl

theorem vaddrBit_eq (s : MemState) (PF : PoolFlag) (i : ℕ) :
    s.vaddrBit PF i = memBit s.bytes (vaddrPos s PF i) := rfl

/-! ## Taking a frame -/

def takeFrame (s : MemState) (PF : PoolFlag) (i : ℕ) : MemState :=
  { s with bytes := bitmapSet s.bytes (s.pool PF).poolBitmap i true }

@[simp] theorem takeFrame_layout (i : ℕ) : (takeFrame s PF i).layout = s.layout := rfl
@[simp] theorem takeFrame_curr (i : ℕ) : (takeFrame s PF i).curr = s.curr := rfl
@[simp] theorem takeFrame_frames (i : ℕ) : (takeFrame s PF i).frames = s.frames := rfl
@[simp] theorem takeFrame_pageDir (i : ℕ) : (takeFrame s PF i).pageDir = s.pageDir := rfl

theorem memBit_takeFrame (i k : ℕ) : memBit (takeFrame s PF i).bytes k =
    if k = poolPos s PF i then true else memBit s.bytes k := memBit_bitmapSet ..

theorem firstFree_some {i : ℕ} (h : s.firstFree PF = some i) :
    i < s.poolLen PF ∧ s.poolBit PF i = false ∧ ∀ j < i, s.poolBit PF j = true := by
  have hf := bitmapScan_one_some h
  exact ⟨hf.inside, hf.clear, hf.least⟩

theorem firstFree_none (h : s.firstFree PF = none) :
    ∀ i < s.poolLen PF, s.poolBit PF i = true := bitmapScan_one_none h

theorem palloc_of_none (h : s.firstFree PF = none) : palloc PF s = .ok (0, s) := by
  rw [palloc, get_bind]
  simp only [MemState.firstFree] at h
  rw [h]
  rfl

theorem palloc_of_some {i : ℕ} (h : s.firstFree PF = some i) :
    palloc PF s = .ok (4096 * (s.poolStart PF + i), takeFrame s PF i) := by
  have hi := (firstFree_some h).1
  have hb := poolStart_le s PF
  have hp := pool_phy s PF
  rw [palloc, get_bind]
  simp only [MemState.firstFree] at h
  rw [h]
  simp only [set_bind, pure_apply, u32, hp, takeFrame]
  rw [Nat.mod_eq_of_lt (by omega)]
  congr 2
  omega

/-! ## Adding a page to the tables -/

def setFrames (s : MemState) (fr : Frames) : MemState := { s with frames := fr }

@[simp] theorem setFrames_layout (fr : Frames) : (setFrames s fr).layout = s.layout := rfl
@[simp] theorem setFrames_curr (fr : Frames) : (setFrames s fr).curr = s.curr := rfl
@[simp] theorem setFrames_bytes (fr : Frames) : (setFrames s fr).bytes = s.bytes := rfl
@[simp] theorem setFrames_frames (fr : Frames) : (setFrames s fr).frames = fr := rfl
@[simp] theorem setFrames_pageDir (fr : Frames) : (setFrames s fr).pageDir = s.pageDir := rfl

theorem load_bind {α : Type} {a : ℕ} {w : Word} (h : readWord s.frames s.pageDir a = some w)
    (f : Word → MemM α) : (load a >>= f) s = f w s := by
  apply bind_of_ok
  rw [load, get_bind, h]
  rfl

theorem load_fault {α : Type} {a : ℕ} (h : readWord s.frames s.pageDir a = none)
    (f : Word → MemM α) : (load a >>= f) s = .error (.pageFault a) := by
  apply bind_of_error
  rw [load, get_bind, h]
  rfl

theorem store_apply {a : ℕ} {w : Word} {fr : Frames}
    (h : writeWord s.frames s.pageDir a w = some fr) :
    store a w s = .ok ((), setFrames s fr) := by
  rw [store, get_bind, h]
  rfl

theorem zeroPage_apply {a : ℕ} {fr : Frames} (h : clearPage s.frames s.pageDir a = some fr) :
    zeroPage a s = .ok ((), setFrames s fr) := by
  rw [zeroPage, get_bind, h]
  rfl

/-- The state after writing the entry of page `p` into its table `t`. -/
def mapEntry (s : MemState) (t p f : ℕ) : MemState :=
  setFrames s (setEntry s.frames t (p % 1024) (pgEntry (4096 * f)))

/-- The frame a new page table gets: a kernel frame, or frame 0 when none is left. -/
def tableFrame (s : MemState) : ℕ :=
  match s.firstFree .kernel with
  | some j => s.poolStart .kernel + j
  | none => 0

def takeTable (s : MemState) : MemState :=
  match s.firstFree .kernel with
  | some j => takeFrame s .kernel j
  | none => s

def newTable (s : MemState) (d : ℕ) : MemState :=
  setFrames (takeTable s) (addTable s.frames s.pageDir d (tableFrame s))

def addPage (s : MemState) (p f : ℕ) : MemState :=
  match s.tableOf (p / 1024) with
  | some t => mapEntry s t p f
  | none => mapEntry (newTable s (p / 1024)) (tableFrame s) p f

theorem palloc_table (s : MemState) :
    palloc .kernel s = .ok (4096 * tableFrame s, takeTable s) := by
  rw [tableFrame, takeTable]
  cases h : s.firstFree .kernel with
  | none => exact palloc_of_none h
  | some j => exact palloc_of_some h

theorem tableFrame_lt (s : MemState) : tableFrame s < 2 ^ 20 := by
  rw [tableFrame]
  split
  case h_1 j h =>
    have := (firstFree_some h).1
    have := poolStart_le s .kernel
    omega
  case h_2 => norm_num

@[simp] theorem takeTable_layout : (takeTable s).layout = s.layout := by
  rw [takeTable]; split <;> rfl
@[simp] theorem takeTable_curr : (takeTable s).curr = s.curr := by
  rw [takeTable]; split <;> rfl
@[simp] theorem takeTable_frames : (takeTable s).frames = s.frames := by
  rw [takeTable]; split <;> rfl
@[simp] theorem takeTable_pageDir : (takeTable s).pageDir = s.pageDir := by
  rw [takeTable]; split <;> rfl

theorem memBit_takeTable (k : ℕ) : memBit (takeTable s).bytes k =
    if ∃ j, s.firstFree .kernel = some j ∧ k = poolPos s .kernel j then true
    else memBit s.bytes k := by
  rw [takeTable]
  cases h : s.firstFree .kernel with
  | none => simp
  | some j => simp [memBit_takeFrame]

theorem pageTableAdd_table (h : s.tableOf 1023 = some s.pageDir) {p f t : ℕ}
    (hp : p / 1024 < 1023) (hq : s.tableOf (p / 1024) = some t)
    (he : s.frameOf p = none) :
    pageTableAdd (4096 * p) (4096 * f) s = .ok ((), mapEntry s t p f) := by
  have hv : 4096 * p < 2 ^ 32 := by omega
  have hpg : 4096 * p / 4096 = p := by omega
  have hpr : present (s.frames s.pageDir (p / 1024)) = true := (target_eq_some_iff.mp hq).1
  have hread : readWord s.frames s.pageDir (pteAddr (4096 * p)) = some (s.frames t (p % 1024)) := by
    rw [readWord_pteAddr h hv, hpg, KernelPaging.entryOf, MemState.tableOf_eq hq]
    rfl
  have habs : present (s.frames t (p % 1024)) = false := by
    rw [← target_eq_none_iff, ← he, MemState.frameOf, KernelPaging.frameOf,
      KernelPaging.entryOf, MemState.tableOf_eq hq]
    rfl
  rw [pageTableAdd, load_bind (readWord_pdeAddr h hv), hpg, if_pos hpr, load_bind hread, assert,
    ensure_bind_of_true habs]
  have hw := writeWord_pteAddr h hv (t := t) (by rw [hpg]; exact hq) (pgEntry (4096 * f))
  rw [hpg] at hw
  exact store_apply hw

theorem pageTableAdd_apply (h : SelfMapped s.frames s.pageDir) {p f : ℕ} (hp : p / 1024 < 1023)
    (he : s.frameOf p = none) (ht : s.tableOf (p / 1024) = none → tableFrame s ≠ s.pageDir) :
    pageTableAdd (4096 * p) (4096 * f) s = .ok ((), addPage s p f) := by
  have hv : 4096 * p < 2 ^ 32 := by omega
  have hpg : 4096 * p / 4096 = p := by omega
  rw [addPage]
  cases hq : s.tableOf (p / 1024) with
  | some t => exact pageTableAdd_table h.self hp hq he
  | none =>
    have hpr : present (s.frames s.pageDir (p / 1024)) = false := (target_eq_none_iff _).mp hq
    have hne := ht hq
    have hlt := tableFrame_lt s
    rw [pageTableAdd, load_bind (readWord_pdeAddr h.self hv), hpg, if_neg (by simp [hpr]),
      bind_of_ok (palloc_table s)]
    have hw := writeWord_pdeAddr h.self hv (pgEntry (4096 * tableFrame s))
    rw [hpg] at hw
    rw [bind_of_ok (store_apply (by simpa using hw))]
    -- the entry is in place: the new table's page is reachable through the window
    set fr := setEntry s.frames s.pageDir (p / 1024) (pgEntry (4096 * tableFrame s)) with hfr
    have hself : SelfMapped fr s.pageDir := h.enterTable hne hlt hp
    have hclear := clearPage_pteAddr hself.self hv (t := tableFrame s)
      (by rw [hfr, hpg, tableOf_enterTable hlt, if_pos rfl])
    rw [bind_of_ok (zeroPage_apply (by simpa using hclear))]
    have hadd : clearFrame fr (tableFrame s) =
        addTable s.frames s.pageDir (p / 1024) (tableFrame s) := rfl
    rw [hadd]
    set fr' := addTable s.frames s.pageDir (p / 1024) (tableFrame s)
    have hself' : SelfMapped fr' s.pageDir := h.addTable hne hlt hp
    have hread : readWord fr' s.pageDir (pteAddr (4096 * p)) = some 0#32 := by
      rw [readWord_pteAddr hself'.self hv, hpg, entryOf_addTable h hne hlt hp, if_pos (Or.inl rfl)]
    rw [load_bind (by simpa using hread), assert, ensure_bind_of_true (by simp)]
    have hw' := writeWord_pteAddr hself'.self hv (t := tableFrame s)
      (by rw [tableOf_addTable hne hlt, hpg, if_pos rfl]) (pgEntry (4096 * f))
    rw [hpg] at hw'
    rw [store_apply (by simpa using hw')]
    rfl

theorem pageTableAdd_present (h : SelfMapped s.frames s.pageDir) {p phyAddr : ℕ}
    (hp : p / 1024 < 1023) (he : s.frameOf p ≠ none) :
    pageTableAdd (4096 * p) phyAddr s = .error (.assertion .pteAbsent) := by
  have hv : 4096 * p < 2 ^ 32 := by omega
  have hpg : 4096 * p / 4096 = p := by omega
  rw [pageTableAdd, load_bind (readWord_pdeAddr h.self hv), hpg]
  cases hq : s.tableOf (p / 1024) with
  | none =>
    refine (he ?_).elim
    rw [MemState.frameOf, KernelPaging.frameOf, KernelPaging.entryOf,
      MemState.tableOf_eq hq]
    rfl
  | some t =>
    have hpr : present (s.frames s.pageDir (p / 1024)) = true := (target_eq_some_iff.mp hq).1
    have htab : KernelPaging.tableOf s.frames s.pageDir (p / 1024) = some t := hq
    have hread : readWord s.frames s.pageDir (pteAddr (4096 * p)) =
        some (s.frames t (p % 1024)) := by
      rw [readWord_pteAddr h.self hv, hpg, KernelPaging.entryOf, htab]
      rfl
    have hpre : ¬ present (s.frames t (p % 1024)) = false := by
      rw [← target_eq_none_iff]
      rwa [MemState.frameOf, KernelPaging.frameOf, KernelPaging.entryOf, htab] at he
    rw [if_pos hpr, load_bind hread, assert, ensure_bind_of_false hpre]

/-- The frame that holds the table of directory entry `d` once a page below it is added. -/
def tableFor (s : MemState) (d : ℕ) : ℕ := (s.tableOf d).getD (tableFrame s)

theorem tableFor_of_some {d t : ℕ} (h : s.tableOf d = some t) : tableFor s d = t := by
  rw [tableFor, h, Option.getD_some]

theorem tableFor_of_none {d : ℕ} (h : s.tableOf d = none) : tableFor s d = tableFrame s := by
  rw [tableFor, h, Option.getD_none]

theorem tableOf_mapEntry {t p f : ℕ} (ht : t ≠ s.pageDir) (d : ℕ) :
    (mapEntry s t p f).tableOf d = s.tableOf d := tableOf_setEntry ht _ _ d

theorem frameOf_mapEntry {t p f : ℕ} (ht : t ≠ s.pageDir) (hf : f < 2 ^ 20) (q : ℕ) :
    (mapEntry s t p f).frameOf q =
      if s.tableOf (q / 1024) = some t ∧ q % 1024 = p % 1024 then some f else s.frameOf q := by
  have h : KernelPaging.entryOf (setEntry s.frames t (p % 1024) (pgEntry (4096 * f))) s.pageDir q
      = if s.tableOf (q / 1024) = some t ∧ q % 1024 = p % 1024 then some (pgEntry (4096 * f))
        else s.entryOf q := entryOf_setEntry ht _ _ q
  rw [MemState.frameOf, KernelPaging.frameOf, mapEntry, setFrames_frames, setFrames_pageDir, h]
  by_cases hc : s.tableOf (q / 1024) = some t ∧ q % 1024 = p % 1024
  · rw [if_pos hc, if_pos hc]
    exact target_pgEntry hf
  · rw [if_neg hc, if_neg hc]
    rfl

theorem tableOf_newTable {d : ℕ} (ht : tableFrame s ≠ s.pageDir) (d' : ℕ) :
    (newTable s d).tableOf d' = if d' = d then some (tableFrame s) else s.tableOf d' := by
  have h := @tableOf_addTable s.frames s.pageDir d _ ht (tableFrame_lt s) d'
  rw [MemState.tableOf, newTable, setFrames_frames, setFrames_pageDir, takeTable_pageDir, h]
  rfl

theorem frameOf_newTable (h : SelfMapped s.frames s.pageDir) {d : ℕ}
    (ht : tableFrame s ≠ s.pageDir) {q : ℕ} (hq : q / 1024 < 1023) :
    (newTable s d).frameOf q =
      if q / 1024 = d ∨ s.tableOf (q / 1024) = some (tableFrame s) then none
      else s.frameOf q := by
  have he : KernelPaging.entryOf (addTable s.frames s.pageDir d (tableFrame s)) s.pageDir q =
      if q / 1024 = d ∨ s.tableOf (q / 1024) = some (tableFrame s) then some 0#32
      else s.entryOf q := entryOf_addTable h ht (tableFrame_lt s) hq
  rw [MemState.frameOf, KernelPaging.frameOf, newTable, setFrames_frames, setFrames_pageDir,
    takeTable_pageDir, he]
  by_cases hc : q / 1024 = d ∨ s.tableOf (q / 1024) = some (tableFrame s)
  · rw [if_pos hc, if_pos hc]
    exact target_zero
  · rw [if_neg hc, if_neg hc]
    rfl

@[simp] theorem addPage_layout (p f : ℕ) : (addPage s p f).layout = s.layout := by
  rw [addPage]; split <;> simp [mapEntry, newTable]

@[simp] theorem addPage_curr (p f : ℕ) : (addPage s p f).curr = s.curr := by
  rw [addPage]; split <;> simp [mapEntry, newTable]

@[simp] theorem addPage_pageDir (p f : ℕ) : (addPage s p f).pageDir = s.pageDir := by
  rw [addPage]; split <;> simp [mapEntry, newTable]

theorem addPage_bytes (p f : ℕ) : (addPage s p f).bytes =
    if s.tableOf (p / 1024) = none then (takeTable s).bytes else s.bytes := by
  rw [addPage]
  cases h : s.tableOf (p / 1024) <;> simp [mapEntry, newTable]

theorem tableOf_addPage {p f : ℕ} (ht : tableFor s (p / 1024) ≠ s.pageDir) (d : ℕ) :
    (addPage s p f).tableOf d =
      if d = p / 1024 then some (tableFor s (p / 1024)) else s.tableOf d := by
  rw [addPage]
  cases hq : s.tableOf (p / 1024) with
  | some t =>
    rw [tableFor_of_some hq] at ht ⊢
    simp only [tableOf_mapEntry ht]
    split
    case isTrue hd => rw [hd, hq]
    case isFalse => rfl
  | none =>
    rw [tableFor_of_none hq] at ht ⊢
    have hd : (newTable s (p / 1024)).pageDir = s.pageDir := by simp [newTable]
    simp only [tableOf_mapEntry (s := newTable s (p / 1024)) (hd ▸ ht), tableOf_newTable ht]

theorem frameOf_addPage_self {p f : ℕ}
    (ht : tableFor s (p / 1024) ≠ s.pageDir) (hf : f < 2 ^ 20) :
    (addPage s p f).frameOf p = some f := by
  rw [addPage]
  cases hq : s.tableOf (p / 1024) with
  | some t =>
    rw [tableFor_of_some hq] at ht
    simp [frameOf_mapEntry ht hf, hq]
  | none =>
    rw [tableFor_of_none hq] at ht
    have hd : (newTable s (p / 1024)).pageDir = s.pageDir := by simp [newTable]
    simp [frameOf_mapEntry (s := newTable s (p / 1024)) (hd ▸ ht) hf, tableOf_newTable ht]

theorem frameOf_addPage_of_apart (h : SelfMapped s.frames s.pageDir) {p q f : ℕ}
    (ht : tableFor s (p / 1024) ≠ s.pageDir) (hf : f < 2 ^ 20) (hq : q / 1024 < 1023)
    (hne : q ≠ p)
    (ha : q / 1024 = p / 1024 ∨ s.tableOf (q / 1024) ≠ some (tableFor s (p / 1024))) :
    (addPage s p f).frameOf q = s.frameOf q := by
  rw [addPage]
  cases hp : s.tableOf (p / 1024) with
  | some t =>
    rw [tableFor_of_some hp] at ht ha
    simp only [frameOf_mapEntry ht hf]
    rw [if_neg]
    rintro ⟨h₁, h₂⟩
    rcases ha with ha | ha
    · omega
    · exact ha h₁
  | none =>
    rw [tableFor_of_none hp] at ht ha
    have hd : (newTable s (p / 1024)).pageDir = s.pageDir := by simp [newTable]
    simp only [frameOf_mapEntry (s := newTable s (p / 1024)) (hd ▸ ht) hf, tableOf_newTable ht,
      frameOf_newTable h ht hq]
    by_cases hs : q / 1024 = p / 1024
    · have hn : s.frameOf q = none := by
        rw [MemState.tableOf, ← hs] at hp
        rw [MemState.frameOf, KernelPaging.frameOf, KernelPaging.entryOf, hp]
        rfl
      rw [if_neg (by omega), if_pos (Or.inl hs), hn]
    · have ha' := ha.resolve_left hs
      rw [if_neg (by simp [hs, ha']), if_neg (by simp [hs, ha'])]

/-! ## Releasing a page -/

def dropFrame (s : MemState) (PF : PoolFlag) (i : ℕ) : MemState :=
  { s with bytes := bitmapSet s.bytes (s.pool PF).poolBitmap i false }

@[simp] theorem dropFrame_layout (i : ℕ) : (dropFrame s PF i).layout = s.layout := rfl
@[simp] theorem dropFrame_curr (i : ℕ) : (dropFrame s PF i).curr = s.curr := rfl
@[simp] theorem dropFrame_frames (i : ℕ) : (dropFrame s PF i).frames = s.frames := rfl
@[simp] theorem dropFrame_pageDir (i : ℕ) : (dropFrame s PF i).pageDir = s.pageDir := rfl

theorem memBit_dropFrame (i k : ℕ) : memBit (dropFrame s PF i).bytes k =
    if k = poolPos s PF i then false else memBit s.bytes k := memBit_bitmapSet ..

theorem pfree_apply {i : ℕ} (hi : i < s.poolLen PF) (hu : PF = .user → 0 < i) :
    pfree (4096 * (s.poolStart PF + i)) s = .ok ((), dropFrame s PF i) := by
  have ho := pool_order s
  have hk := poolStart_kernel s
  have hk' := s.layout.kernel_phy
  rw [pfree, get_bind]
  cases PF with
  | kernel =>
    rw [if_neg (by omega), set_apply]
    have : sub32 (4096 * (s.poolStart .kernel + i)) s.layout.kernelPool.phyStartAddr / 4096 = i := by
      rw [hk', hk, sub32, u32]
      omega
    rw [this]
    rfl
  | user =>
    have := hu rfl
    rw [if_pos (by omega), set_apply]
    have : sub32 (4096 * (s.poolStart .user + i)) s.layout.userPool.phyStartAddr / 4096 = i := by
      rw [ho.2.2, sub32, u32]
      omega
    rw [this]
    rfl

/-- The state after clearing the present bit of page `p` in its table `t`. -/
def unmapEntry (s : MemState) (t p : ℕ) : MemState :=
  setFrames s (setEntry s.frames t (p % 1024) (s.frames t (p % 1024) &&& ~~~1#32))

theorem readWord_entry (h : SelfMapped s.frames s.pageDir) {p t : ℕ} (hp : p < 2 ^ 20)
    (ht : s.tableOf (p / 1024) = some t) :
    readWord s.frames s.pageDir (pteAddr (4096 * p)) = some (s.frames t (p % 1024)) := by
  rw [readWord_pteAddr h.self (by omega), Nat.mul_div_cancel_left p (by decide), KernelPaging.entryOf]
  rw [MemState.tableOf_eq ht]
  rfl

theorem pageTablePteRemove_apply (h : SelfMapped s.frames s.pageDir) {p t : ℕ} (hp : p < 2 ^ 20)
    (ht : s.tableOf (p / 1024) = some t) :
    pageTablePteRemove (4096 * p) s = .ok ((), unmapEntry s t p) := by
  rw [pageTablePteRemove, load_bind (readWord_entry h hp ht)]
  have hw := writeWord_pteAddr h.self (v := 4096 * p) (by omega) (t := t)
    (by rw [Nat.mul_div_cancel_left p (by decide)]; exact ht) (s.frames t (p % 1024) &&& ~~~1#32)
  rw [Nat.mul_div_cancel_left p (by decide)] at hw
  exact store_apply hw

theorem tableOf_unmapEntry {t p : ℕ} (ht : t ≠ s.pageDir) (d : ℕ) :
    (unmapEntry s t p).tableOf d = s.tableOf d := tableOf_setEntry ht _ _ d

theorem frameOf_unmapEntry {t p : ℕ} (ht : t ≠ s.pageDir) (q : ℕ) :
    (unmapEntry s t p).frameOf q =
      if s.tableOf (q / 1024) = some t ∧ q % 1024 = p % 1024 then none else s.frameOf q := by
  have h : KernelPaging.entryOf (setEntry s.frames t (p % 1024) (s.frames t (p % 1024) &&& ~~~1#32))
      s.pageDir q = if s.tableOf (q / 1024) = some t ∧ q % 1024 = p % 1024
        then some (s.frames t (p % 1024) &&& ~~~1#32) else s.entryOf q := entryOf_setEntry ht _ _ q
  rw [MemState.frameOf, KernelPaging.frameOf, unmapEntry, setFrames_frames, setFrames_pageDir, h]
  by_cases hc : s.tableOf (q / 1024) = some t ∧ q % 1024 = p % 1024
  · rw [if_pos hc, if_pos hc]
    exact target_clear _
  · rw [if_neg hc, if_neg hc]
    rfl

theorem addrVirtualToPhy_apply (h : SelfMapped s.frames s.pageDir) {p t : ℕ} (hp : p < 2 ^ 20)
    (ht : s.tableOf (p / 1024) = some t) :
    addrVirtualToPhy (4096 * p) s = .ok (4096 * entryFrame (s.frames t (p % 1024)), s) := by
  rw [addrVirtualToPhy, load_bind (readWord_entry h hp ht), pure_apply]
  have hlow : 4096 * p &&& 0xfff = 0 := by
    have := and_field (4096 * p) 0 12
    norm_num at this
    exact this
  have hhigh := and_field (s.frames t (p % 1024)).toNat 12 20
  have hlt := (s.frames t (p % 1024)).isLt
  norm_num at hhigh
  rw [hlow, entryFrame_eq, BitVec.toNat_and]
  change Except.ok ((s.frames t (p % 1024)).toNat &&& 4294963200, s) = _
  rw [hhigh]
  congr 2
  omega

theorem addrVirtualToPhy_of_frame (h : SelfMapped s.frames s.pageDir) {p f : ℕ} (hp : p < 2 ^ 20)
    (hf : s.frameOf p = some f) : addrVirtualToPhy (4096 * p) s = .ok (4096 * f, s) := by
  cases ht : s.tableOf (p / 1024) with
  | none =>
    rw [MemState.frameOf, KernelPaging.frameOf, KernelPaging.entryOf,
      MemState.tableOf_eq ht] at hf
    cases hf
  | some t =>
    rw [addrVirtualToPhy_apply h hp ht]
    rw [MemState.frameOf, KernelPaging.frameOf, KernelPaging.entryOf,
      MemState.tableOf_eq ht] at hf
    rw [(target_eq_some_iff.mp hf).2]

theorem addrVirtualToPhy_fault (h : SelfMapped s.frames s.pageDir) {p : ℕ} (hp : p < 2 ^ 20)
    (ht : s.tableOf (p / 1024) = none) :
    addrVirtualToPhy (4096 * p) s = .error (.pageFault (pteAddr (4096 * p))) := by
  rw [addrVirtualToPhy, load_fault]
  rw [readWord_pteAddr h.self (by omega), Nat.mul_div_cancel_left p (by decide), KernelPaging.entryOf]
  rw [MemState.tableOf_eq ht]
  rfl

end KernelPoolSteps
