import Leeos.KernelPoolLoop
import Mathlib.Data.Finset.Max

/-!
# Page tables in frame 0

When the kernel pool is empty, `page_table_add` puts every new page table into frame 0 and clears
it. The tables made before share that frame, so their pages lose the entries that the last one
has not got back. `Served` follows this through the loop of `malloc_pages`.
-/
namespace KernelPoolFrameZero

open ExecRules KernelPaging KernelPools KernelPoolSteps KernelPoolInvariant KernelPoolMapping
  KernelPoolCalls KernelPoolLoop

variable {s s' : MemState}

/-! ## Frames and tables after a turn -/

theorem frameOf_addPage (h : SelfMapped s.frames s.pageDir) {p q f : ℕ}
    (ht : tableFor s (p / 1024) ≠ s.pageDir) (hf : f < 2 ^ 20) (hq : q / 1024 < 1023) :
    (addPage s p f).frameOf q =
      if (addPage s p f).tableOf (q / 1024) = some (tableFor s (p / 1024)) then
        if q % 1024 = p % 1024 then some f
        else if s.tableOf (p / 1024) = none then none else s.frameOf q
      else s.frameOf q := by
  rw [tableOf_addPage ht]
  rw [addPage]
  cases hp : s.tableOf (p / 1024) with
  | some t =>
    rw [tableFor_of_some hp] at ht ⊢
    have htab : (if q / 1024 = p / 1024 then some t else s.tableOf (q / 1024)) =
        s.tableOf (q / 1024) := by
      split
      case isTrue he => rw [he, hp]
      case isFalse => rfl
    simp only [frameOf_mapEntry ht hf, htab]
    by_cases h₁ : s.tableOf (q / 1024) = some t <;> simp [h₁]
  | none =>
    rw [tableFor_of_none hp] at ht ⊢
    have hd : (newTable s (p / 1024)).pageDir = s.pageDir := by simp [newTable]
    simp only [frameOf_mapEntry (s := newTable s (p / 1024)) (hd ▸ ht) hf, tableOf_newTable ht,
      frameOf_newTable h ht hq]
    by_cases h₁ : q / 1024 = p / 1024
    · simp [h₁]
    · by_cases h₂ : s.tableOf (q / 1024) = some (tableFrame s) <;> simp [h₁, h₂]

/-- The number of page tables in frame 0. -/
def zeroTables (s : MemState) : ℕ :=
  ((Finset.range 1023).filter fun d => s.tableOf d = some 0).card

theorem zeroTables_eq_zero (h : ∀ d < 1023, s.tableOf d ≠ some 0) : zeroTables s = 0 := by
  rw [zeroTables, Finset.card_eq_zero, Finset.filter_eq_empty_iff]
  intro d hd
  exact h d (Finset.mem_range.mp hd)

theorem zeroTables_congr (h : ∀ d < 1023, s'.tableOf d = some 0 ↔ s.tableOf d = some 0) :
    zeroTables s' = zeroTables s := by
  have hset : (Finset.range 1023).filter (fun d => s'.tableOf d = some 0) =
      (Finset.range 1023).filter fun d => s.tableOf d = some 0 := by
    apply Finset.filter_congr
    intro d hd
    exact h d (Finset.mem_range.mp hd)
  rw [zeroTables, hset, zeroTables]

theorem zeroTables_add {d : ℕ} (hd : d < 1023) (hn : s.tableOf d ≠ some 0)
    (h : ∀ d' < 1023, s'.tableOf d' = some 0 ↔ s.tableOf d' = some 0 ∨ d' = d) :
    zeroTables s' = zeroTables s + 1 := by
  have hset : (Finset.range 1023).filter (fun d' => s'.tableOf d' = some 0) =
      insert d ((Finset.range 1023).filter fun d' => s.tableOf d' = some 0) := by
    ext d'
    simp only [Finset.mem_filter, Finset.mem_range, Finset.mem_insert]
    constructor
    · rintro ⟨h₁, h₂⟩
      exact ((h d' h₁).mp h₂).elim (fun h₃ => Or.inr ⟨h₁, h₃⟩) Or.inl
    · rintro (rfl | ⟨h₁, h₂⟩)
      · exact ⟨hd, (h d' hd).mpr (Or.inr rfl)⟩
      · exact ⟨h₁, (h d' h₁).mpr (Or.inl h₂)⟩
  rw [zeroTables, hset, Finset.card_insert_of_notMem (by simp [hn]), zeroTables]

theorem absentTables_turn {p n : ℕ}
    (hs : ∀ d, s'.tableOf d = none ↔ s.tableOf d = none ∧ d ≠ p / 1024) :
    absentTables s' (p + 1) n + (if s.tableOf (p / 1024) = none then 1 else 0) =
      absentTables s p (n + 1) := by
  have hset : ((Finset.range n).image fun j => (p + 1 + j) / 1024).filter
      (fun d => s'.tableOf d = none) =
      (((Finset.range (n + 1)).image fun j => (p + j) / 1024).filter
        fun d => s.tableOf d = none).erase (p / 1024) := by
    ext d
    simp only [Finset.mem_filter, Finset.mem_image, Finset.mem_range, Finset.mem_erase, hs]
    constructor
    · rintro ⟨⟨j, hj, rfl⟩, ht, hne⟩
      exact ⟨hne, ⟨j + 1, by omega, by congr 1; omega⟩, ht⟩
    · rintro ⟨hne, ⟨j, hj, rfl⟩, ht⟩
      have hj0 : j ≠ 0 := by
        rintro rfl
        exact hne rfl
      exact ⟨⟨j - 1, by omega, by congr 1; omega⟩, ht, hne⟩
  rw [absentTables, hset, absentTables]
  split
  case isTrue ht =>
    apply Finset.card_erase_add_one
    simp only [Finset.mem_filter, Finset.mem_image, Finset.mem_range]
    exact ⟨⟨0, by omega, rfl⟩, ht⟩
  case isFalse ht => rw [Finset.erase_eq_of_notMem (by simp [ht]), Nat.add_zero]

/-! ## The loop -/

/-- The table made last among those in frame 0. -/
def LastZero (s : MemState) (z : ℕ) : Prop :=
  z < 1023 ∧ s.tableOf z = some 0 ∧ ∀ d < 1023, s.tableOf d = some 0 → d ≤ z

/-- The loop, started on page `b` in state `s₀`, has served the pages before `p`. A page whose
table lies in frame 0 is mapped if the page of that index below the last such table is. -/
structure Served (s₀ s : MemState) (b p left : ℕ) : Prop where
  ahead : Ahead s .user p left
  kept : ∀ d t, s₀.tableOf d = some t → s.tableOf d = some t
  given : ∀ q, b ≤ q → q < p → s.tableOf (q / 1024) ≠ none
  touched : ∀ d, s.tableOf d ≠ s₀.tableOf d → ∃ q, b ≤ q ∧ q < p ∧ d = q / 1024
  mapped : ∀ q, b ≤ q → q < p → s.tableOf (q / 1024) ≠ some 0 → s.frameOf q ≠ none
  zero_mapped : ∀ z, LastZero s z → ∀ q, q / 1024 < 1023 → s.tableOf (q / 1024) = some 0 →
    (s.frameOf q ≠ none ↔ b ≤ 1024 * z + q % 1024 ∧ 1024 * z + q % 1024 < p)
  dry : ∀ d < 1023, s.tableOf d = some 0 → freeCount s .kernel = 0
  later_zero : ∀ d d', d < d' → d' < 1023 → s₀.tableOf d' = none → s.tableOf d = some 0 →
    ∀ t, s.tableOf d' = some t → t = 0

theorem served_start {b n : ℕ} (h : Ahead s .user b n) (hz : ∀ d < 1023, s.tableOf d ≠ some 0) :
    Served s s b b n where
  ahead := h
  kept _ _ ht := ht
  given q h₁ h₂ := by omega
  touched d hd := (hd rfl).elim
  mapped q h₁ h₂ := by omega
  zero_mapped z hz' := (hz z hz'.1 hz'.2.1).elim
  dry d hd ht := (hz d hd ht).elim
  later_zero d d' hd hd' _ ht := (hz d (by omega) ht).elim

/-- A turn gives page `p` frame `f` and puts its table, if it had none, into frame `T`. -/
structure Turn (s s' : MemState) (p T f : ℕ) : Prop where
  tables : ∀ d, s'.tableOf d = if d = p / 1024 then some T else s.tableOf d
  table : ∀ t, s.tableOf (p / 1024) = some t → T = t
  fresh : s.tableOf (p / 1024) = none → ∀ d < 1023, s.tableOf d = some T → T = 0
  zero_iff : s.tableOf (p / 1024) = none → (T = 0 ↔ freeCount s .kernel = 0)
  count : freeCount s' .kernel =
    freeCount s .kernel - if s.tableOf (p / 1024) = none then 1 else 0
  frames : ∀ q, q / 1024 < 1023 → s'.frameOf q =
    if s'.tableOf (q / 1024) = some T then
      if q % 1024 = p % 1024 then some f
      else if s.tableOf (p / 1024) = none then none else s.frameOf q
    else s.frameOf q

theorem ahead_turn {p left i : ℕ} (h : Ahead s .user p (left + 1))
    (hi : s.firstFree .user = some i) :
    ∃ T f, Turn s (grabPage s .user i p) p T f := by
  have hlt := (firstFree_some hi).1
  have hle := poolStart_le s .user
  have hne := h.tableFor_ne_dir (i := i)
  refine ⟨tableFor (takeFrame s .user i) (p / 1024), s.poolStart .user + i, ?_⟩
  constructor
  case tables => exact tableOf_addPage hne
  case table => exact fun t ht => tableFor_of_some (s := takeFrame s .user i) ht
  case fresh =>
    intro hp d hd ht
    rw [tableFor_of_none (s := takeFrame s .user i) hp] at ht ⊢
    have htab : ∀ d < 1023, ∀ t, (takeFrame s .user i).tableOf d = some t →
        t = 0 ∨ Reserved (takeFrame s .user i) t :=
      fun d hd t ht => (h.table_frame d hd t ht).imp id (takeFrame_grows s .user i).reserved
    exact Option.some.inj (ht.symm.trans (tableFrame_new htab hd ht))
  case zero_iff =>
    intro hp
    rw [tableFor_of_none (s := takeFrame s .user i) hp, tableFrame_eq_zero, takeFrame_userCount hi]
  case count => exact grab_kernelCount hi p
  case frames =>
    intro q hq
    exact frameOf_addPage (s := takeFrame s .user i) h.self_mapped hne (by omega) hq

section Turn

variable {s₀ : MemState} {b p left T f : ℕ}

theorem Turn.tables_none (k : Turn s s' p T f) (d : ℕ) :
    s'.tableOf d = none ↔ s.tableOf d = none ∧ d ≠ p / 1024 := by
  rw [k.tables]
  split
  case isTrue hd => simp [hd]
  case isFalse hd => simp [hd]

theorem Turn.kept (k : Turn s s' p T f) {d t : ℕ} (h : s.tableOf d = some t) :
    s'.tableOf d = some t := by
  rw [k.tables]
  split
  case isTrue hd => rw [k.table t (hd ▸ h)]
  case isFalse => exact h

/-- All tables in frame 0 were made for pages of the range. -/
theorem Served.zero_touched (h : Served s₀ s b p left) (hz : ∀ d < 1023, s₀.tableOf d ≠ some 0)
    {d : ℕ} (hd : d < 1023) (ht : s.tableOf d = some 0) : ∃ q, b ≤ q ∧ q < p ∧ d = q / 1024 :=
  h.touched d fun he => hz d hd (he ▸ ht)

theorem Turn.zero_old (k : Turn s s' p T f) (hT : T ≠ 0) (d : ℕ) :
    s'.tableOf d = some 0 ↔ s.tableOf d = some 0 := by
  rw [k.tables]
  split
  case isTrue hd =>
    refine iff_of_false (by simpa using hT) fun h => hT (k.table 0 (hd ▸ h))
  case isFalse => rfl

theorem Served.turn_touched (h : Served s₀ s b p (left + 1)) (hb : b ≤ p) (k : Turn s s' p T f)
    {d : ℕ} (hd : s'.tableOf d ≠ s₀.tableOf d) : ∃ q, b ≤ q ∧ q < p + 1 ∧ d = q / 1024 := by
  by_cases hdp : d = p / 1024
  · exact ⟨p, hb, by omega, hdp⟩
  · rw [k.tables, if_neg hdp] at hd
    obtain ⟨q, h₁, h₂, h₃⟩ := h.touched d hd
    exact ⟨q, h₁, by omega, h₃⟩

theorem Served.turn_mapped (h : Served s₀ s b p (left + 1)) (hp : p / 1024 < 1023)
    (k : Turn s s' p T f) {q : ℕ} (h₁ : b ≤ q) (h₂ : q < p + 1)
    (ht : s'.tableOf (q / 1024) ≠ some 0) : s'.frameOf q ≠ none := by
  have hkept : s.tableOf (q / 1024) ≠ some 0 := fun h0 => ht (k.kept h0)
  rw [k.frames q (by omega)]
  split
  case isFalse hT =>
    have hqp : q ≠ p := by
      rintro rfl
      rw [k.tables, if_pos rfl] at hT
      exact hT rfl
    exact h.mapped q h₁ (by omega) hkept
  case isTrue hT =>
    split
    case isTrue => exact Option.some_ne_none _
    case isFalse hne =>
      have hqp : q ≠ p := fun he => hne (by rw [he])
      split
      case isFalse => exact h.mapped q h₁ (by omega) hkept
      case isTrue hnone =>
        -- a new table outside frame 0 is no older page's table
        obtain ⟨t, hq⟩ := Option.ne_none_iff_exists'.mp (h.given q h₁ (by omega))
        have htT : t = T := Option.some.inj ((k.kept hq).symm.trans hT)
        have h0 := k.fresh hnone (q / 1024) (by omega) (htT ▸ hq)
        exact (ht (h0 ▸ hT)).elim

theorem Served.turn_zero (h : Served s₀ s b p (left + 1)) (hz : ∀ d < 1023, s₀.tableOf d ≠ some 0)
    (hb : b ≤ p) (hp : p / 1024 < 1023) (k : Turn s s' p 0 f) {z q : ℕ} (hlast : LastZero s' z)
    (hq : q / 1024 < 1023) (hq0 : s'.tableOf (q / 1024) = some 0) :
    s'.frameOf q ≠ none ↔ b ≤ 1024 * z + q % 1024 ∧ 1024 * z + q % 1024 < p + 1 := by
  have hz0 : s'.tableOf (p / 1024) = some 0 := by rw [k.tables, if_pos rfl]
  have hzp : z = p / 1024 := by
    have hge := hlast.2.2 _ hp hz0
    obtain ⟨q', -, hq', he⟩ := h.turn_touched hb k fun he => hz z hlast.1 (he ▸ hlast.2.1)
    omega
  rw [k.frames q hq, if_pos hq0]
  by_cases hidx : q % 1024 = p % 1024
  · rw [if_pos hidx]
    refine iff_of_true (Option.some_ne_none _) ?_
    omega
  · rw [if_neg hidx]
    cases ht : s.tableOf (p / 1024) with
    | none =>
      rw [if_pos rfl]
      refine iff_of_false (fun hn => hn rfl) fun hr => ?_
      -- a page served before below the same entry would have a table
      refine h.given (1024 * z + q % 1024) hr.1 (by omega) ?_
      have hentry : (1024 * z + q % 1024) / 1024 = p / 1024 := by omega
      rw [hentry, ht]
    | some t =>
      have ht0 : t = 0 := (k.table t ht).symm
      subst ht0
      have hold : ∀ d < 1023, s'.tableOf d = some 0 → s.tableOf d = some 0 := by
        intro d _ hd
        rw [k.tables] at hd
        split at hd
        case isTrue he => rw [he, ht]
        case isFalse => exact hd
      have hlast' : LastZero s z :=
        ⟨hlast.1, hold z hlast.1 hlast.2.1, fun d hd h0 => hlast.2.2 d hd (k.kept h0)⟩
      rw [if_neg (Option.some_ne_none _), h.zero_mapped z hlast' q hq (hold _ hq hq0)]
      omega

theorem Served.turn_elsewhere (h : Served s₀ s b p (left + 1)) (hT : T ≠ 0)
    (k : Turn s s' p T f) {z q : ℕ} (hlast : LastZero s' z) (hq : q / 1024 < 1023)
    (hq0 : s'.tableOf (q / 1024) = some 0) :
    s'.frameOf q ≠ none ↔ b ≤ 1024 * z + q % 1024 ∧ 1024 * z + q % 1024 < p + 1 := by
  have hold := k.zero_old hT
  have hother : ¬ s'.tableOf (q / 1024) = some T := by
    rw [hq0]
    simpa using Ne.symm hT
  have hlast' : LastZero s z :=
    ⟨hlast.1, (hold z).mp hlast.2.1, fun d hd h0 => hlast.2.2 d hd ((hold d).mpr h0)⟩
  have hne : z ≠ p / 1024 := by
    rintro rfl
    exact hT (k.table 0 ((hold _).mp hlast.2.1))
  rw [k.frames q hq, if_neg hother, h.zero_mapped z hlast' q hq ((hold _).mp hq0)]
  omega

theorem Served.turn_dry (h : Served s₀ s b p (left + 1)) (k : Turn s s' p T f) {d : ℕ}
    (hd : d < 1023) (ht : s'.tableOf d = some 0) : freeCount s' .kernel = 0 := by
  have hcount := k.count
  by_cases hold : s.tableOf d = some 0
  · have := h.dry d hd hold
    omega
  · rw [k.tables] at ht
    split at ht
    case isFalse => exact (hold ht).elim
    case isTrue hdp =>
      have hT : T = 0 := Option.some.inj ht
      cases hp0 : s.tableOf (p / 1024) with
      | some t =>
        have h0 := k.table t hp0
        exact (hold (by rw [hdp, hp0, ← h0, hT])).elim
      | none =>
        have := (k.zero_iff hp0).mp hT
        omega

theorem Served.turn_later_zero (h : Served s₀ s b p (left + 1)) (k : Turn s s' p T f)
    {d d' t : ℕ} (hlt : d < d') (hd' : d' < 1023) (hnone : s₀.tableOf d' = none)
    (hd : s'.tableOf d = some 0) (ht : s'.tableOf d' = some t) : t = 0 := by
  by_cases hdp : d' = p / 1024
  · subst hdp
    have hd0 : s.tableOf d = some 0 := by
      rw [k.tables, if_neg (by omega)] at hd
      exact hd
    rw [k.tables, if_pos rfl] at ht
    cases hp0 : s.tableOf (p / 1024) with
    | some t' =>
      have := h.later_zero d _ hlt hd' hnone hd0 t' hp0
      have := k.table t' hp0
      have := Option.some.inj ht
      omega
    | none =>
      have := (k.zero_iff hp0).mpr (h.dry d (by omega) hd0)
      have := Option.some.inj ht
      omega
  · rw [k.tables, if_neg hdp] at ht
    obtain ⟨q, h₁, h₂, h₃⟩ := h.touched d' (by rw [hnone, ht]; exact Option.some_ne_none _)
    rw [k.tables, if_neg (by omega)] at hd
    exact h.later_zero d d' hlt hd' hnone hd t ht

theorem Served.next (h : Served s₀ s b p (left + 1)) (hz : ∀ d < 1023, s₀.tableOf d ≠ some 0)
    (hb : b ≤ p) (hp : p / 1024 < 1023) (ha : Ahead s' .user (p + 1) left)
    (k : Turn s s' p T f) : Served s₀ s' b (p + 1) left := by
  constructor
  case ahead => exact ha
  case kept => exact fun d t ht => k.kept (h.kept d t ht)
  case touched => exact fun d hd => h.turn_touched hb k hd
  case given =>
    intro q h₁ h₂ ht
    obtain ⟨hq, hne⟩ := (k.tables_none _).mp ht
    by_cases hqp : q = p
    · exact hne (by rw [hqp])
    · exact h.given q h₁ (by omega) hq
  case mapped => exact fun q h₁ h₂ ht => h.turn_mapped hp k h₁ h₂ ht
  case zero_mapped =>
    intro z hlast q hq hq0
    by_cases hT : T = 0
    · subst hT
      exact h.turn_zero hz hb hp k hlast hq hq0
    · exact h.turn_elsewhere hT k hlast hq hq0
  case dry => exact fun d hd ht => h.turn_dry k hd ht
  case later_zero => exact fun d d' hlt hd' hnone hd t ht => h.turn_later_zero k hlt hd' hnone hd ht

theorem Turn.zeroTables (k : Turn s s' p T f) (hp : p / 1024 < 1023) : zeroTables s' =
    zeroTables s + if s.tableOf (p / 1024) = none ∧ freeCount s .kernel = 0 then 1 else 0 := by
  by_cases hnew : s.tableOf (p / 1024) = none ∧ freeCount s .kernel = 0
  · have hT := (k.zero_iff hnew.1).mpr hnew.2
    rw [if_pos hnew]
    refine zeroTables_add hp (by rw [hnew.1]; simp) fun d hd => ?_
    rw [k.tables, hT]
    by_cases hdp : d = p / 1024 <;> simp [hdp]
  · rw [if_neg hnew, Nat.add_zero]
    refine zeroTables_congr fun d hd => ?_
    by_cases hT : T = 0
    · rw [k.tables]
      split
      case isFalse => rfl
      case isTrue hdp =>
        cases hp0 : s.tableOf (p / 1024) with
        | none => exact (hnew ⟨hp0, (k.zero_iff hp0).mp hT⟩).elim
        | some t => rw [hdp, hp0, k.table t hp0]
    · exact k.zero_old hT d

end Turn

theorem mapPages_served {s₀ : MemState} {b : ℕ} (hz : ∀ d < 1023, s₀.tableOf d ≠ some 0)
    (left : ℕ) : ∀ (s : MemState) (p : ℕ) {s' : MemState}, b ≤ p → Served s₀ s b p left →
    mapPages .user left (4096 * p) s = .ok (true, s') →
      Served s₀ s' b (p + left) 0 ∧
      zeroTables s' = zeroTables s + (absentTables s p left - freeCount s .kernel) := by
  induction left with
  | zero =>
    intro s p s' _ h hrun
    cases hrun
    refine ⟨h, ?_⟩
    simp [absentTables]
  | succ left ih =>
    intro s p s' hb h hrun
    cases hi : s.firstFree .user with
    | none =>
      rw [mapPages_none hi] at hrun
      cases hrun
    | some i =>
      have hp := h.ahead.range.dir
      by_cases he : s.frameOf p = none
      swap
      · rw [mapPages_present h.ahead.self_mapped hi hp he] at hrun
        cases hrun
      obtain ⟨hm, -⟩ := h.ahead.range.head (fun hPF => (h.ahead.low_apart hPF).1) he
      obtain ⟨T, f, k⟩ := ahead_turn h.ahead hi
      rw [mapPages_some h.ahead.self_mapped h.ahead.dir_reserved hi hm he] at hrun
      obtain ⟨hserved, hzero⟩ := ih _ (p + 1) (by omega)
        (h.next hz hb hp (h.ahead.next hi hm) k) hrun
      refine ⟨?_, ?_⟩
      · rwa [show p + (left + 1) = p + 1 + left by omega]
      · have hturn := absentTables_turn (n := left) k.tables_none
        have hk := k.count
        have h0 := k.zeroTables hp
        by_cases hnone : s.tableOf (p / 1024) = none
        · simp only [hnone, true_and, ↓reduceIte] at hturn hk h0
          by_cases hdry : freeCount s .kernel = 0
          · rw [if_pos hdry] at h0
            omega
          · rw [if_neg hdry] at h0
            omega
        · simp only [hnone, false_and, ↓reduceIte] at hturn hk h0
          omega

/-! ## The pages that keep their entries -/

def AllMapped (s : MemState) (p n : ℕ) : Prop := ∀ q, p ≤ q → q < p + n → s.frameOf q ≠ none

/-- Several tables share frame 0, and the last one's pages do not cover all its indices. -/
def CutShort (s₀ : MemState) (e : ℕ) : Prop := s₀.tableOf ((e - 1) / 1024) = none ∧ e % 1024 ≠ 0

theorem exists_lastZero {d : ℕ} (hd : d < 1023) (h : s.tableOf d = some 0) :
    ∃ z, LastZero s z := by
  have hne : ((Finset.range 1023).filter fun d => s.tableOf d = some 0).Nonempty :=
    ⟨d, by simp [hd, h]⟩
  have hmem := Finset.max'_mem _ hne
  simp only [Finset.mem_filter, Finset.mem_range] at hmem
  refine ⟨_, hmem.1, hmem.2, fun d' hd' h' => Finset.le_max' _ _ ?_⟩
  simp [hd', h']

theorem LastZero.earlier {z : ℕ} (h : LastZero s z) :
    2 ≤ zeroTables s ↔ ∃ d < z, s.tableOf d = some 0 := by
  have hz : z ∈ (Finset.range 1023).filter fun d => s.tableOf d = some 0 := by
    simp [h.1, h.2.1]
  constructor
  · intro h2
    obtain ⟨d, hd, hne⟩ := Finset.exists_mem_ne (show 1 < Finset.card _ from h2) z
    simp only [Finset.mem_filter, Finset.mem_range] at hd
    have := h.2.2 d hd.1 hd.2
    exact ⟨d, by omega, hd.2⟩
  · rintro ⟨d, hd, h0⟩
    refine Finset.one_lt_card.mpr ⟨d, ?_, z, hz, by omega⟩
    have := h.1
    simp only [Finset.mem_filter, Finset.mem_range]
    exact ⟨by omega, h0⟩

theorem Served.allMapped_iff {s₀ : MemState} {b n : ℕ} (h : Served s₀ s b (b + n) 0)
    (hz : ∀ d < 1023, s₀.tableOf d ≠ some 0) (hd : (b + n - 1) / 1024 < 1023) (hn : 1 ≤ n) :
    AllMapped s b n ↔ ¬ (2 ≤ zeroTables s ∧ CutShort s₀ (b + n)) := by
  constructor
  · rintro hall ⟨h2, hnone, hcut⟩
    obtain ⟨d, hd2⟩ := Finset.card_pos.mp (show 0 < Finset.card _ from Nat.lt_of_lt_of_le two_pos h2)
    simp only [Finset.mem_filter, Finset.mem_range] at hd2
    obtain ⟨z, hlast⟩ := exists_lastZero hd2.1 hd2.2
    obtain ⟨c, hcz, hc⟩ := hlast.earlier.mp h2
    have hz1 := hlast.1
    obtain ⟨q, hq₁, hq₂, rfl⟩ := h.zero_touched hz (by omega) hc
    obtain ⟨q', hq₁', hq₂', rfl⟩ := h.zero_touched hz hlast.1 hlast.2.1
    -- the last page below the earlier table is in the range
    have hmap := hall (1024 * (q / 1024) + 1023) (by omega) (by omega)
    have hdiv : (1024 * (q / 1024) + 1023) / 1024 = q / 1024 := by omega
    rw [h.zero_mapped _ hlast _ (by omega) (by rw [hdiv, hc])] at hmap
    obtain ⟨t, ht⟩ := Option.ne_none_iff_exists'.mp (h.given (b + n - 1) (by omega) (by omega))
    have ht0 := h.later_zero (q' / 1024) ((b + n - 1) / 1024) (by omega) hd hnone hlast.2.1 t ht
    have := hlast.2.2 _ hd (ht0 ▸ ht)
    omega
  · intro hcut q h₁ h₂
    by_cases hq : s.tableOf (q / 1024) = some 0
    swap
    · exact h.mapped q h₁ h₂ hq
    obtain ⟨z, hlast⟩ := exists_lastZero (by omega) hq
    rw [h.zero_mapped z hlast q (by omega) hq]
    by_cases h2 : 2 ≤ zeroTables s
    · obtain ⟨c, hcz, hc⟩ := hlast.earlier.mp h2
      have hz1 := hlast.1
      obtain ⟨q', hq₁', hq₂', rfl⟩ := h.zero_touched hz (by omega) hc
      obtain ⟨q'', hq₁'', hq₂'', rfl⟩ := h.zero_touched hz hlast.1 hlast.2.1
      have hend : q'' / 1024 = (b + n - 1) / 1024 → (b + n) % 1024 = 0 := by
        intro he
        by_contra hne
        refine hcut ⟨h2, ?_, hne⟩
        cases ht : s₀.tableOf ((b + n - 1) / 1024) with
        | none => rfl
        | some t =>
          have ht' := h.kept _ t ht
          rw [← he, hlast.2.1, Option.some.injEq] at ht'
          exact (hz _ hd (ht'.symm ▸ ht)).elim
      omega
    · -- a single table in frame 0: the page lies below it
      have hone : q / 1024 = z := by
        have := hlast.2.2 _ (by omega) hq
        by_contra hne
        exact h2 (hlast.earlier.mpr ⟨_, by omega, hq⟩)
      omega

end KernelPoolFrameZero
