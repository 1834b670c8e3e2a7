import Leeos.KernelPoolLoop
import Leeos.KernelPoolRelease

/-!
# Frames that no entry names any more

Two page tables in frame 0 are one table: setting up the second clears the entries of the first.
Some page of the range then has lost its frame. `free_pages` finds frames by the entries of the
range only, so the lost frame's bit stays set.
-/
namespace KernelPoolLostFrames

open ExecRules KernelBitmap KernelPaging KernelPools KernelPoolSteps KernelPoolInvariant
  KernelPoolMapping KernelPoolCalls KernelPoolRelease KernelPoolLoop

variable {s s' : MemState}

/-- The frame that page `q`'s entry names, present or not; 0 without a table. -/
def slotFrame (s : MemState) (q : ℕ) : ℕ := ((s.entryOf q).map entryFrame).getD 0

theorem slotFrame_mapEntry {t p f : ℕ} (ht : t ≠ s.pageDir) (hf : f < 2 ^ 20) (q : ℕ) :
    slotFrame (mapEntry s t p f) q =
      if s.tableOf (q / 1024) = some t ∧ q % 1024 = p % 1024 then f else slotFrame s q := by
  have h : (mapEntry s t p f).entryOf q = if s.tableOf (q / 1024) = some t ∧ q % 1024 = p % 1024
      then some (pgEntry (4096 * f)) else s.entryOf q := entryOf_setEntry ht _ _ q
  rw [slotFrame, h]
  by_cases hc : s.tableOf (q / 1024) = some t ∧ q % 1024 = p % 1024
  · rw [if_pos hc, if_pos hc, Option.map_some, Option.getD_some, entryFrame_pgEntry hf]
  · rw [if_neg hc, if_neg hc]
    rfl

theorem slotFrame_newTable (h : SelfMapped s.frames s.pageDir) {d : ℕ}
    (ht : tableFrame s ≠ s.pageDir) {q : ℕ} (hq : q / 1024 < 1023) :
    slotFrame (newTable s d) q =
      if q / 1024 = d ∨ s.tableOf (q / 1024) = some (tableFrame s) then 0 else slotFrame s q := by
  have he : (newTable s d).entryOf q = if q / 1024 = d ∨
      s.tableOf (q / 1024) = some (tableFrame s) then some 0#32 else s.entryOf q := by
    have := entryOf_addTable h (d := d) ht (tableFrame_lt s) hq
    rw [MemState.entryOf, newTable, setFrames_frames, setFrames_pageDir, takeTable_pageDir]
    exact this
  rw [slotFrame, he]
  by_cases hc : q / 1024 = d ∨ s.tableOf (q / 1024) = some (tableFrame s)
  · rw [if_pos hc, if_pos hc]
    rfl
  · rw [if_neg hc, if_neg hc]
    rfl

theorem slotFrame_addPage_self {p f : ℕ} (ht : tableFor s (p / 1024) ≠ s.pageDir)
    (hf : f < 2 ^ 20) : slotFrame (addPage s p f) p = f := by
  rw [addPage]
  cases hp : s.tableOf (p / 1024) with
  | some t =>
    rw [tableFor_of_some hp] at ht
    exact (slotFrame_mapEntry ht hf p).trans (if_pos ⟨hp, rfl⟩)
  | none =>
    rw [tableFor_of_none hp] at ht
    have hd : (newTable s (p / 1024)).pageDir = s.pageDir := by simp [newTable]
    refine (slotFrame_mapEntry (s := newTable s (p / 1024)) (hd ▸ ht) hf p).trans (if_pos ⟨?_, rfl⟩)
    rw [tableOf_newTable ht, if_pos rfl]

theorem slotFrame_addPage (h : SelfMapped s.frames s.pageDir) {p f : ℕ}
    (ht : tableFor s (p / 1024) ≠ s.pageDir) (hf : f < 2 ^ 20) {q : ℕ} (hq : q / 1024 < 1023) :
    (slotFrame (addPage s p f) q = f ∧
      (addPage s p f).tableOf (q / 1024) = some (tableFor s (p / 1024))) ∨
    slotFrame (addPage s p f) q = 0 ∨
    (slotFrame (addPage s p f) q = slotFrame s q ∧
      (s.tableOf (p / 1024) = none → s.tableOf (q / 1024) ≠ some (tableFrame s))) := by
  rw [tableOf_addPage ht, addPage]
  cases hp : s.tableOf (p / 1024) with
  | some t =>
    rw [tableFor_of_some hp] at ht ⊢
    simp only [slotFrame_mapEntry ht hf]
    by_cases hc : s.tableOf (q / 1024) = some t ∧ q % 1024 = p % 1024
    · rw [if_pos hc]
      refine Or.inl ⟨rfl, ?_⟩
      split
      · rfl
      · exact hc.1
    · rw [if_neg hc]
      exact Or.inr (Or.inr ⟨rfl, fun hn => by cases hn⟩)
  | none =>
    rw [tableFor_of_none hp] at ht ⊢
    have hd : (newTable s (p / 1024)).pageDir = s.pageDir := by simp [newTable]
    have hmap := slotFrame_mapEntry (s := newTable s (p / 1024)) (p := p) (hd ▸ ht) hf q
    rw [tableOf_newTable ht, slotFrame_newTable h ht hq] at hmap
    simp only [hmap]
    by_cases hc : (if q / 1024 = p / 1024 then some (tableFrame s) else s.tableOf (q / 1024)) =
        some (tableFrame s) ∧ q % 1024 = p % 1024
    · rw [if_pos hc]
      exact Or.inl ⟨rfl, hc.1⟩
    · rw [if_neg hc]
      by_cases hz : q / 1024 = p / 1024 ∨ s.tableOf (q / 1024) = some (tableFrame s)
      · rw [if_pos hz]
        exact Or.inr (Or.inl rfl)
      · rw [if_neg hz]
        exact Or.inr (Or.inr ⟨rfl, fun _ he => hz (Or.inr he)⟩)

/-! ## One turn of the allocation loop -/

theorem absentTables_after {p n : ℕ}
    (hs : ∀ d, d ≠ p / 1024 → s'.tableOf d = s.tableOf d) :
    absentTables s p (n + 1) ≤
      absentTables s' (p + 1) n + if s.tableOf (p / 1024) = none then 1 else 0 := by
  have hsub : (((Finset.range (n + 1)).image fun j => (p + j) / 1024).filter
      fun d => s.tableOf d = none).erase (p / 1024) ⊆
      ((Finset.range n).image fun j => (p + 1 + j) / 1024).filter fun d => s'.tableOf d = none := by
    intro d hd
    simp only [Finset.mem_filter, Finset.mem_image, Finset.mem_range, Finset.mem_erase] at hd ⊢
    obtain ⟨hne, ⟨j, hj, hjd⟩, hd⟩ := hd
    have hj0 : j ≠ 0 := by
      rintro rfl
      exact hne hjd.symm
    exact ⟨⟨j - 1, by omega, by rw [← hjd]; congr 1; omega⟩, hs d hne ▸ hd⟩
  have hle := Finset.card_le_card hsub
  by_cases ht : s.tableOf (p / 1024) = none
  · rw [if_pos ht]
    exact Nat.le_trans (Nat.le_add_of_sub_le Finset.pred_card_le_card_erase)
      (Nat.add_le_add_right hle 1)
  · rw [if_neg ht, Nat.add_zero]
    refine Nat.le_trans (Nat.le_of_eq ?_) hle
    rw [Finset.erase_eq_of_notMem]
    · rfl
    · simp only [Finset.mem_filter, not_and]
      exact fun _ => ht

structure Turn (s s' : MemState) (p i : ℕ) : Prop where
  layout : s'.layout = s.layout
  free : i < s.poolLen .user ∧ s.poolBit .user i = false ∧ ∀ j < i, s.poolBit .user j = true
  bits : ∀ j < s.poolLen .user, s'.poolBit .user j = if j = i then true else s.poolBit .user j
  self_slot : slotFrame s' p = s.poolStart .user + i
  slots : ∀ q, q / 1024 < 1023 →
    (slotFrame s' q = s.poolStart .user + i ∧ s'.tableOf (q / 1024) = s'.tableOf (p / 1024)) ∨
    slotFrame s' q = 0 ∨ (slotFrame s' q = slotFrame s q ∧
      (s.tableOf (p / 1024) = none → freeCount s .kernel = 0 → s.tableOf (q / 1024) ≠ some 0))
  tables : ∀ d, d ≠ p / 1024 → s'.tableOf d = s.tableOf d
  zero_table : s.tableOf (p / 1024) = none → freeCount s .kernel = 0 → s'.tableOf (p / 1024) = some 0
  old_table : ∀ t, s.tableOf (p / 1024) = some t → s'.tableOf (p / 1024) = some t
  kernel : freeCount s' .kernel =
    freeCount s .kernel - if s.tableOf (p / 1024) = none then 1 else 0

theorem turn_of_ahead {p left i : ℕ} (h : Ahead s .user p (left + 1))
    (hi : s.firstFree .user = some i) : Turn s (grabPage s .user i p) p i := by
  obtain ⟨u, hu⟩ : ∃ u, u = takeFrame s .user i := ⟨_, rfl⟩
  have hfree := firstFree_some hi
  have hle := poolStart_le s .user
  have hself : SelfMapped u.frames u.pageDir := hu ▸ h.self_mapped
  have hne : tableFor u (p / 1024) ≠ u.pageDir := hu ▸ h.tableFor_ne_dir
  have htabs := tableOf_addPage (s := u) (f := s.poolStart .user + i) hne
  have htab : ∀ d, u.tableOf d = s.tableOf d := fun d => hu ▸ rfl
  have hcount : freeCount u .kernel = freeCount s .kernel := hu ▸ takeFrame_userCount hi
  rw [grabPage, ← hu]
  constructor
  case layout => exact (addPage_layout _ _).trans (hu ▸ rfl)
  case free => exact hfree
  case bits =>
    intro j hj
    subst hu
    refine (addPage_poolBit (s := takeFrame s .user i) hj).trans ?_
    rw [if_neg (by simp), takeFrame_poolBit hfree.1 hj]
    simp
  case self_slot => exact slotFrame_addPage_self hne (by omega)
  case slots =>
    intro q hq
    rcases slotFrame_addPage hself hne (f := s.poolStart .user + i) (by omega) hq with
      ⟨hq, ht⟩ | hq | ⟨hq, hn⟩
    · refine Or.inl ⟨hq, ?_⟩
      rw [ht, htabs, if_pos rfl]
    · exact Or.inr (Or.inl hq)
    · refine Or.inr (Or.inr ⟨hq.trans (hu ▸ rfl), fun ht h0 => ?_⟩)
      have := hn ((htab _).trans ht)
      rwa [tableFrame_eq_zero.mpr (hcount.trans h0), htab] at this
  case tables =>
    intro d hd
    rw [htabs, if_neg hd, htab]
  case zero_table =>
    intro ht h0
    rw [htabs, if_pos rfl, tableFor_of_none ((htab _).trans ht),
      tableFrame_eq_zero.mpr (hcount.trans h0)]
  case old_table =>
    intro t ht
    rw [htabs, if_pos rfl, tableFor_of_some ((htab _).trans ht)]
  case kernel => exact hu ▸ grab_kernelCount hi p

theorem Turn.start {p i : ℕ} (k : Turn s s' p i) : s'.poolStart .user = s.poolStart .user :=
  poolStart_of_layout k.layout .user

theorem Turn.len {p i : ℕ} (k : Turn s s' p i) : s'.poolLen .user = s.poolLen .user :=
  poolLen_of_layout k.layout .user

theorem Turn.taken {p i f : ℕ} (k : Turn s s' p i)
    (h : f < s.poolLen .user ∧ s.poolBit .user f = true) :
    (f < s'.poolLen .user ∧ s'.poolBit .user f = true) ∧ i ≠ f := by
  refine ⟨⟨k.len ▸ h.1, ?_⟩, ?_⟩
  · rw [k.bits f h.1]
    split
    · rfl
    · exact h.2
  · rintro rfl
    have := k.free.2.1
    rw [h.2] at this
    cases this

/-! ## Losing a frame -/

/-- The entries of pages `p₀` to `p - 1` name nothing or taken frames, and the pool's first frame
only in the first of them. -/
structure Named (s : MemState) (p₀ p : ℕ) : Prop where
  slots : ∀ q, p₀ ≤ q → q < p → slotFrame s q = 0 ∨ ∃ i < s.poolLen .user,
    slotFrame s q = s.poolStart .user + i ∧ s.poolBit .user i = true ∧ (q = p₀ ∨ 0 < i)
  zero_taken : p₀ < p → s.poolBit .user 0 = true

/-- Frame `f` is taken, and the entries that name it lie in a table in frame 0. -/
structure Parked (s : MemState) (p₀ p f : ℕ) : Prop where
  taken : f < s.poolLen .user ∧ s.poolBit .user f = true
  slots : ∀ q, p₀ ≤ q → q < p → slotFrame s q = s.poolStart .user + f →
    s.tableOf (q / 1024) = some 0

/-- Frame `f` is taken, and no entry names it. -/
structure Lost (s : MemState) (p₀ p f : ℕ) : Prop where
  taken : f < s.poolLen .user ∧ s.poolBit .user f = true
  slots : ∀ q, p₀ ≤ q → q < p → slotFrame s q ≠ s.poolStart .user + f

variable {p₀ p i : ℕ}

theorem Turn.named (k : Turn s s' p i) (hp : p₀ ≤ p) (hplain : ∀ q, p₀ ≤ q → q ≤ p → q / 1024 < 1023)
    (h : Named s p₀ p) : Named s' p₀ (p + 1) := by
  have hpos : p₀ < p → 0 < i := by
    intro hlt
    refine Nat.pos_of_ne_zero ?_
    rintro rfl
    have := k.free.2.1
    rw [h.zero_taken hlt] at this
    cases this
  have hset : s'.poolBit .user i = true := by rw [k.bits i k.free.1, if_pos rfl]
  refine ⟨fun q h₁ h₂ => ?_, fun _ => ?_⟩
  · rw [k.start, k.len]
    by_cases hq : q = p
    · subst hq
      refine Or.inr ⟨i, k.free.1, k.self_slot, hset, ?_⟩
      rcases Nat.eq_or_lt_of_le hp with he | hlt
      · exact Or.inl he.symm
      · exact Or.inr (hpos hlt)
    · rcases k.slots q (hplain q h₁ (by omega)) with ⟨hs, -⟩ | hs | ⟨hs, -⟩
      · exact Or.inr ⟨i, k.free.1, hs, hset, Or.inr (hpos (by omega))⟩
      · exact Or.inl hs
      · rw [hs]
        refine (h.slots q h₁ (by omega)).imp id ?_
        rintro ⟨j, hj, he, hb, hcase⟩
        exact ⟨j, hj, he, (k.taken ⟨hj, hb⟩).1.2, hcase⟩
  · have h0 : 0 < s.poolLen .user := by
      have := k.free.1
      omega
    rw [k.bits 0 h0]
    split
    · rfl
    · exact k.free.2.2 0 (by omega)

theorem Turn.parked (k : Turn s s' p i) (hplain : ∀ q, p₀ ≤ q → q ≤ p → q / 1024 < 1023) {f : ℕ}
    (h : Parked s p₀ p f) : Parked s' p₀ (p + 1) f := by
  obtain ⟨htaken, hne⟩ := k.taken h.taken
  have hle := poolStart_le s .user
  refine ⟨htaken, fun q h₁ h₂ hs => ?_⟩
  rw [k.start] at hs
  by_cases hq : q = p
  · rw [hq, k.self_slot] at hs
    omega
  · rcases k.slots q (hplain q h₁ (by omega)) with ⟨hs', -⟩ | hs' | ⟨hs', -⟩
    · omega
    · omega
    · have ht := h.slots q h₁ (by omega) (hs'.symm.trans hs)
      by_cases hd : q / 1024 = p / 1024
      · rw [hd] at ht ⊢
        exact k.old_table 0 ht
      · rw [k.tables _ hd, ht]

theorem Turn.lost (k : Turn s s' p i) (hplain : ∀ q, p₀ ≤ q → q ≤ p → q / 1024 < 1023) {f : ℕ}
    (htaken : f < s.poolLen .user ∧ s.poolBit .user f = true)
    (h : ∀ q, p₀ ≤ q → q < p → slotFrame s q = s.poolStart .user + f →
      s.tableOf (p / 1024) = none ∧ freeCount s .kernel = 0 ∧ s.tableOf (q / 1024) = some 0) :
    Lost s' p₀ (p + 1) f := by
  obtain ⟨htaken', hne⟩ := k.taken htaken
  have hle := poolStart_le s .user
  refine ⟨htaken', fun q h₁ h₂ hs => ?_⟩
  rw [k.start] at hs
  by_cases hq : q = p
  · rw [hq, k.self_slot] at hs
    omega
  · rcases k.slots q (hplain q h₁ (by omega)) with ⟨hs', -⟩ | hs' | ⟨hs', hkept⟩
    · omega
    · omega
    · obtain ⟨ht, h0, hz⟩ := h q h₁ (by omega) (hs'.symm.trans hs)
      exact hkept ht h0 hz

theorem Turn.park (k : Turn s s' p i) (hplain : ∀ q, p₀ ≤ q → q ≤ p → q / 1024 < 1023)
    (h : Named s p₀ p) (ht : s.tableOf (p / 1024) = none) (h0 : freeCount s .kernel = 0) :
    Parked s' p₀ (p + 1) i := by
  have hle := poolStart_le s .user
  have hz := k.zero_table ht h0
  refine ⟨⟨k.len ▸ k.free.1, by rw [k.bits i k.free.1, if_pos rfl]⟩, fun q h₁ h₂ hs => ?_⟩
  rw [k.start] at hs
  by_cases hq : q = p
  · rw [hq, hz]
  · rcases k.slots q (hplain q h₁ (by omega)) with ⟨-, he⟩ | hs' | ⟨hs', -⟩
    · rw [he, hz]
    · omega
    · rcases h.slots q h₁ (by omega) with hn | ⟨j, -, hj, hb, -⟩
      · omega
      · have hji : j = i := by omega
        rw [hji, k.free.2.1] at hb
        cases hb

/-- A frame of the set is lost, or the absent tables ahead outnumber the kernel frames so far
that one will be. -/
def Losing (C : ℕ → Prop) (s : MemState) (p₀ p left : ℕ) : Prop :=
  freeCount s .kernel + 2 ≤ absentTables s p left ∨
  (∃ f, C f ∧ Parked s p₀ p f ∧ freeCount s .kernel + 1 ≤ absentTables s p left) ∨
  ∃ f, C f ∧ Lost s p₀ p f

theorem Turn.losing (k : Turn s s' p i) {C : ℕ → Prop} {left : ℕ}
    (hplain : ∀ q, p₀ ≤ q → q ≤ p → q / 1024 < 1023) (hC : C i) (hn : Named s p₀ p)
    (h : Losing C s p₀ p (left + 1)) : Losing C s' p₀ (p + 1) left := by
  have habs := absentTables_after (n := left) k.tables
  have hker := k.kernel
  by_cases hspill : s.tableOf (p / 1024) = none ∧ freeCount s .kernel = 0
  · obtain ⟨ht, h0⟩ := hspill
    rw [if_pos ht] at habs hker
    rcases h with h | ⟨f, hf, hpark, -⟩ | ⟨f, hf, hlost⟩
    · exact Or.inr (Or.inl ⟨i, hC, k.park hplain hn ht h0, by omega⟩)
    · exact Or.inr (Or.inr ⟨f, hf, k.lost hplain hpark.taken fun q h₁ h₂ hs =>
        ⟨ht, h0, hpark.slots q h₁ h₂ hs⟩⟩)
    · exact Or.inr (Or.inr ⟨f, hf, k.lost hplain hlost.taken fun q h₁ h₂ hs =>
        (hlost.slots q h₁ h₂ hs).elim⟩)
  · have hbalance : freeCount s' .kernel + absentTables s p (left + 1) ≤
        freeCount s .kernel + absentTables s' (p + 1) left := by
      by_cases ht : s.tableOf (p / 1024) = none
      · have : freeCount s .kernel ≠ 0 := fun h0 => hspill ⟨ht, h0⟩
        rw [if_pos ht] at habs hker
        omega
      · rw [if_neg ht] at habs hker
        omega
    rcases h with h | ⟨f, hf, hpark, h⟩ | ⟨f, hf, hlost⟩
    · exact Or.inl (by omega)
    · exact Or.inr (Or.inl ⟨f, hf, k.parked hplain hpark, by omega⟩)
    · exact Or.inr (Or.inr ⟨f, hf, k.lost hplain hlost.taken fun q h₁ h₂ hs =>
        (hlost.slots q h₁ h₂ hs).elim⟩)

theorem mapPages_loses (C : ℕ → Prop) (left : ℕ) : ∀ (s : MemState) (p : ℕ), p₀ ≤ p →
    Ahead s .user p left → (∀ q, p₀ ≤ q → q < p → q / 1024 < 1023) → Named s p₀ p →
    Losing C s p₀ p left → (∀ f < s.poolLen .user, s.poolBit .user f = false → C f) →
    ∀ t, mapPages .user left (4096 * p) s = .ok (true, t) →
      SelfMapped t.frames t.pageDir ∧ Named t p₀ (p + left) ∧ ∃ f, C f ∧ Lost t p₀ (p + left) f := by
  induction left with
  | zero =>
    intro s p _ hahead _ hn h _ t hrun
    cases hrun
    refine ⟨hahead.self_mapped, hn, ?_⟩
    have habs : absentTables s p 0 = 0 := by simp [absentTables]
    rcases h with h | ⟨f, hf, -, h⟩ | h
    · omega
    · omega
    · exact h
  | succ left ih =>
    intro s p hp hahead hplain hn h hC t hrun
    cases hi : s.firstFree .user with
    | none =>
      rw [mapPages_none hi] at hrun
      cases hrun
    | some i =>
      by_cases he : s.frameOf p = none
      swap
      · rw [mapPages_present hahead.self_mapped hi hahead.range.dir he] at hrun
        cases hrun
      obtain ⟨hm, -⟩ := hahead.range.head (fun hPF => (hahead.low_apart hPF).1) he
      have k := turn_of_ahead hahead hi
      have hplain' : ∀ q, p₀ ≤ q → q ≤ p → q / 1024 < 1023 := by
        intro q h₁ h₂
        rcases Nat.eq_or_lt_of_le h₂ with rfl | hlt
        · exact (plain_dir (managed_plain hm)).2
        · exact hplain q h₁ hlt
      rw [mapPages_some hahead.self_mapped hahead.dir_reserved hi hm he] at hrun
      rw [show p + (left + 1) = p + 1 + left by omega]
      refine ih _ (p + 1) (by omega) (hahead.next hi hm) (fun q h₁ h₂ => hplain' q h₁ (by omega))
        (k.named hp hplain' hn) (k.losing hplain' (hC i k.free.1 k.free.2.1) hn h) ?_ t hrun
      intro f hf hb
      rw [k.len] at hf
      rw [k.bits f hf] at hb
      split at hb
      · cases hb
      · exact hC f hf hb

/-! ## `free_pages` does not find it -/

theorem slotFrame_unmapEntry {t p : ℕ} (ht : t ≠ s.pageDir) (q : ℕ) :
    slotFrame (unmapEntry s t p) q = slotFrame s q := by
  have h : (unmapEntry s t p).entryOf q = if s.tableOf (q / 1024) = some t ∧ q % 1024 = p % 1024
      then some (s.frames t (p % 1024) &&& ~~~1#32) else s.entryOf q := entryOf_setEntry ht _ _ q
  rw [slotFrame, h]
  by_cases hc : s.tableOf (q / 1024) = some t ∧ q % 1024 = p % 1024
  · have hq : s.entryOf q = some (s.frames t (p % 1024)) := by
      rw [MemState.entryOf, KernelPaging.entryOf,
        MemState.tableOf_eq hc.1, hc.2]
      rfl
    rw [if_pos hc, slotFrame, hq, Option.map_some, Option.map_some, entryFrame_clear]
  · rw [if_neg hc]
    rfl

theorem addrVirtualToPhy_slot (h : SelfMapped s.frames s.pageDir) {p phy : ℕ} {t : MemState}
    (hp : p < 2 ^ 20) (hrun : addrVirtualToPhy (4096 * p) s = .ok (phy, t)) :
    phy = 4096 * slotFrame s p ∧ t = s := by
  cases ht : s.tableOf (p / 1024) with
  | none =>
    rw [addrVirtualToPhy_fault h hp ht] at hrun
    cases hrun
  | some u =>
    rw [addrVirtualToPhy_apply h hp ht] at hrun
    cases hrun
    rw [slotFrame, MemState.entryOf, KernelPaging.entryOf,
      MemState.tableOf_eq ht]
    exact ⟨rfl, rfl⟩

theorem freeLoop_misses (left : ℕ) {f : ℕ} : ∀ (s : MemState) (p phy : ℕ),
    SelfMapped s.frames s.pageDir → p + left < 1023 * 1024 →
    (∀ q, p ≤ q → q < p + left → slotFrame s q = 0 ∨
      ∃ i < s.poolLen .user, slotFrame s q = s.poolStart .user + i ∧ 0 < i ∧ i ≠ f) →
    f < s.poolLen .user → s.poolBit .user f = true → (0 < left → phy = 4096 * slotFrame s p) →
    ∀ t, freeLoop .freePagesUserPhy userPhyOk left (4096 * p) phy s = .ok ((), t) →
      t.poolBit .user f = true ∧ t.layout = s.layout ∧ t.curr = s.curr := by
  induction left with
  | zero =>
    intro s p phy _ _ _ _ hb _ t hrun
    cases hrun
    exact ⟨hb, rfl, rfl⟩
  | succ left ih =>
    intro s p phy hself hp hslots hf hb hphy t hrun
    have hle := poolStart_le s .user
    have ho := pool_order s
    rw [hphy (by omega), freeLoop, get_bind, assert, ensure_bind_ok_iff] at hrun
    obtain ⟨hok, hrun⟩ := hrun
    simp only [userPhyOk, decide_eq_true_eq] at hok
    rcases hslots p le_rfl (by omega) with h0 | ⟨i, hi, hs, hpos, hne⟩
    · omega
    · rw [hs, bind_of_ok (pfree_apply hi fun _ => hpos)] at hrun
      obtain ⟨_, u, hremove, hrun⟩ := bind_ok_iff.mp hrun
      cases ht : s.tableOf (p / 1024) with
      | none =>
        rw [slotFrame, MemState.entryOf, KernelPaging.entryOf,
          MemState.tableOf_eq ht] at hs
        simp only [Option.map_none, Option.getD_none] at hs
        omega
      | some x =>
        rw [pageTablePteRemove_apply (s := dropFrame s .user i) hself (by omega) ht] at hremove
        cases hremove
        have hx : x ≠ s.pageDir := by
          rintro rfl
          exact hself.distinct _ (by omega) ht
        have hself' : SelfMapped (unmapEntry (dropFrame s .user i) x p).frames s.pageDir :=
          hself.setEntry hx _ _
        have hslot : ∀ q, slotFrame (unmapEntry (dropFrame s .user i) x p) q = slotFrame s q :=
          slotFrame_unmapEntry (s := dropFrame s .user i) hx
        obtain ⟨phy', u, hread, hrun⟩ := bind_ok_iff.mp hrun
        rw [u32_next_page (by omega)] at hread hrun
        obtain ⟨rfl, rfl⟩ := addrVirtualToPhy_slot hself' (by omega) hread
        refine ih _ (p + 1) _ hself' (by omega) (fun q h₁ h₂ => ?_) hf ?_ (fun _ => rfl) t hrun
        · rw [hslot]
          exact hslots q (by omega) (by omega)
        · rw [poolBit_eq]
          change memBit (dropFrame s .user i).bytes (poolPos s .user f) = true
          rw [memBit_dropFrame, if_neg (fun h => hne (poolPos_inj.mp h).symm)]
          exact hb

theorem freePages_misses {n f : ℕ} (hself : SelfMapped s.frames s.pageDir)
    (hn : Named s p (p + n)) (hl : Lost s p (p + n) f) (hn1 : 1 ≤ n) (hp : p + n < 1023 * 1024)
    (hbase : PoolFlag.user.base ≤ p) (h0 : 0 < s.vaddrLen .user)
    (hlen : p - PoolFlag.user.base + n ≤ s.vaddrLen .user + 1) {t : MemState}
    (hrun : freePages .user n (4096 * p) s = .ok ((), t)) : t.poolBit .user f = true := by
  have hle := poolStart_le s .user
  have ho := pool_order s
  rw [freePages, assert, ensure_bind_ok_iff] at hrun
  obtain ⟨-, hrun⟩ := hrun
  obtain ⟨phy, u, hread, hrun⟩ := bind_ok_iff.mp hrun
  obtain ⟨rfl, rfl⟩ := addrVirtualToPhy_slot hself (by omega) hread
  rw [assert, ensure_bind_ok_iff] at hrun
  obtain ⟨⟨-, hlow⟩, hrun⟩ := hrun
  rw [get_bind] at hrun
  rcases hn.slots p le_rfl (by omega) with hs | ⟨i, hi, hs, -, -⟩
  · omega
  by_cases hi0 : i = 0
  · -- the first frame is sent to the kernel loop
    rw [if_neg (by omega)] at hrun
    obtain ⟨m, rfl⟩ : ∃ m, n = m + 1 := ⟨n - 1, by omega⟩
    obtain ⟨_, u', hloop, -⟩ := bind_ok_iff.mp hrun
    rw [freeLoop, get_bind, assert, ensure_bind_ok_iff] at hloop
    obtain ⟨hok, -⟩ := hloop
    simp only [kernelPhyOk, decide_eq_true_eq] at hok
    omega
  · rw [if_pos (by omega)] at hrun
    obtain ⟨_, v, hloop, hrun⟩ := bind_ok_iff.mp hrun
    have hslots : ∀ q, p ≤ q → q < p + n → slotFrame u q = 0 ∨
        ∃ i < u.poolLen .user, slotFrame u q = u.poolStart .user + i ∧ 0 < i ∧ i ≠ f := by
      intro q h₁ h₂
      refine (hn.slots q h₁ h₂).imp id ?_
      rintro ⟨j, hj, hq, -, hcase⟩
      refine ⟨j, hj, hq, ?_, ?_⟩
      · rcases hcase with rfl | hpos
        · omega
        · exact hpos
      · rintro rfl
        exact hl.slots q h₁ h₂ hq
    obtain ⟨hb, hlay, hcur⟩ := freeLoop_misses n u p _ hself hp hslots hl.taken.1 hl.taken.2
      (fun _ => rfl) v hloop
    have hvl : v.vaddrLen .user = u.vaddrLen .user := by
      simp only [MemState.vaddrLen, MemState.vaddrs, hcur]
    have hrun : vaddrRemovePages .user n (4096 * p) v = .ok ((), t) := hrun
    rw [vaddrRemovePages_apply hbase (by omega) (by omega)] at hrun
    cases hrun
    rw [setVaddr_poolBit false (by omega) (by omega) (by
      rw [poolLen_of_layout hlay]
      exact hl.taken.1), hb]

end KernelPoolLostFrames
