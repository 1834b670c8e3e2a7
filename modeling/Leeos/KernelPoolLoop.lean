import Leeos.KernelPoolCalls

/-!
# The loop of `malloc_pages` on any page tables

Where kernel frames run out, new tables fall on frame 0 and pages lose their entries, but the
loop goes on. It halts exactly when one of the pages it comes to is mapped already, and returns
early exactly when the pool has fewer frames than the run has pages.
-/
namespace KernelPoolLoop

open ExecRules KernelBitmap KernelPaging KernelPools KernelPoolSteps KernelPoolInvariant
  KernelPoolMapping KernelPoolCalls

variable {s s' : MemState} {PF : PoolFlag}

structure Consistent (s : MemState) : Prop where
  pool : PoolInv s
  zero_free : ∀ d < 1023, s.tableOf d ≠ some 0

/-- What the loop needs of the `left` pages from `p` on. New tables may share frame 0, so only
the entries of pages still to come are known to be as before. -/
structure Ahead (s : MemState) (PF : PoolFlag) (p left : ℕ) : Prop where
  self_mapped : SelfMapped s.frames s.pageDir
  kernel_tables : ∀ d, 768 ≤ d → d < 1023 → s.tableOf d ≠ none
  dir_reserved : Reserved s s.pageDir
  table_frame : ∀ d < 1023, ∀ t, s.tableOf d = some t → t = 0 ∨ Reserved s t
  range : RangeReady s PF p left
  unshared : ∀ q q', PF.Managed q → PF.Managed q' → p ≤ q → q < p + left → p ≤ q' →
    q' < p + left → q / 1024 ≠ q' / 1024 →
    ∀ t, s.tableOf (q / 1024) = some t → s.tableOf (q' / 1024) ≠ some t
  later_nonzero : ∀ q, PF.Managed q → p ≤ q → q < p + left → q / 1024 ≠ p / 1024 →
    s.tableOf (q / 1024) ≠ some 0
  low_apart : PF = .user → s.frameOf 0xc0000 ≠ none ∧ s.tableOf 768 ≠ some 0 ∧
    ∀ q, PF.Managed q → p ≤ q → q < p + left → s.tableOf (q / 1024) ≠ none →
      s.tableOf (q / 1024) ≠ s.tableOf 768

theorem ahead_of_consistent (h : Consistent s) {p n : ℕ} (hr : RangeReady s PF p n) :
    Ahead s PF p n where
  self_mapped := h.pool.self_mapped
  kernel_tables := h.pool.kernel_tables
  dir_reserved := h.pool.dir_reserved
  table_frame := h.pool.table_frame
  range := hr
  unshared q q' hm hm' _ _ _ _ hne t ht ht' := by
    have hq := plain_dir (managed_plain hm)
    have hq' := plain_dir (managed_plain hm')
    exact hne (h.pool.table_unshared _ _ t hq.1 hq.2 hq'.1 hq'.2 ht ht')
  later_nonzero q hm _ _ _ := h.zero_free _ (plain_dir (managed_plain hm)).2
  low_apart hPF := by
    refine ⟨h.pool.low_mapped, h.zero_free 768 (by omega), fun q hm _ _ ht he => ?_⟩
    obtain ⟨t, ht⟩ := Option.ne_none_iff_exists'.mp ht
    have hq := plain_dir (managed_plain hm)
    have := h.pool.table_unshared _ 768 t hq.1 hq.2 (by omega) (by omega) ht (he ▸ ht)
    rw [hPF, PoolFlag.Managed] at hm
    omega

theorem tableFrame_new (htab : ∀ d < 1023, ∀ t, s.tableOf d = some t → t = 0 ∨ Reserved s t)
    {d : ℕ} (hd : d < 1023) (h : s.tableOf d = some (tableFrame s)) : s.tableOf d = some 0 := by
  rcases htab d hd _ h with h0 | hr
  · rw [h, h0]
  · exact (tableFrame_ne_of_reserved hr rfl).elim

theorem Ahead.tableFor_ne_dir {p left i : ℕ} (h : Ahead s PF p (left + 1)) :
    tableFor (takeFrame s PF i) (p / 1024) ≠ (takeFrame s PF i).pageDir := by
  cases ht : (takeFrame s PF i).tableOf (p / 1024) with
  | none =>
    rw [tableFor_of_none ht]
    exact tableFrame_ne_of_reserved ((takeFrame_grows s PF i).reserved h.dir_reserved)
  | some t =>
    rw [tableFor_of_some ht]
    rintro rfl
    exact h.self_mapped.distinct _ h.range.dir ht

theorem Ahead.tableOf_grab {p left i : ℕ} (h : Ahead s PF p (left + 1)) (d : ℕ) :
    (grabPage s PF i p).tableOf d =
      if d = p / 1024 then some (tableFor (takeFrame s PF i) (p / 1024)) else s.tableOf d := by
  rw [grabPage, tableOf_addPage h.tableFor_ne_dir]
  rfl

theorem Ahead.tables_taken {p left i : ℕ} (h : Ahead s PF p (left + 1)) :
    ∀ d < 1023, ∀ t, (takeFrame s PF i).tableOf d = some t →
      t = 0 ∨ Reserved (takeFrame s PF i) t :=
  fun d hd t ht => (h.table_frame d hd t ht).imp id (takeFrame_grows s PF i).reserved

theorem Ahead.apart {p left i q : ℕ} (h : Ahead s PF p (left + 1)) (hp : PF.Managed p)
    (hm : PF.Managed q) (h₁ : p ≤ q) (h₂ : q < p + (left + 1)) (hqp : q / 1024 ≠ p / 1024) :
    s.tableOf (q / 1024) ≠ some (tableFor (takeFrame s PF i) (p / 1024)) := by
  intro ht
  cases hpt : (takeFrame s PF i).tableOf (p / 1024) with
  | some t =>
    rw [tableFor_of_some hpt] at ht
    exact h.unshared q p hm hp h₁ h₂ le_rfl (by omega) hqp t ht hpt
  | none =>
    rw [tableFor_of_none hpt] at ht
    have hq := plain_dir (managed_plain hm)
    exact h.later_nonzero q hm h₁ h₂ hqp (tableFrame_new h.tables_taken hq.2 ht)

theorem Ahead.low_table_apart {p left i : ℕ} (h : Ahead s PF p (left + 1)) (hp : PF.Managed p)
    (hPF : PF = .user) : s.tableOf 768 ≠ some (tableFor (takeFrame s PF i) (p / 1024)) := by
  obtain ⟨-, hlow0, hlowq⟩ := h.low_apart hPF
  intro ht
  cases hpt : (takeFrame s PF i).tableOf (p / 1024) with
  | some t =>
    have hsome : s.tableOf (p / 1024) = some t := hpt
    rw [tableFor_of_some hpt, ← hsome] at ht
    exact hlowq p hp le_rfl (by omega) (by simp [hsome]) ht.symm
  | none =>
    rw [tableFor_of_none hpt] at ht
    exact hlow0 (tableFrame_new h.tables_taken (by omega) ht)

theorem Ahead.self_mapped_grab {p left i : ℕ} (h : Ahead s PF p (left + 1)) :
    SelfMapped (grabPage s PF i p).frames (grabPage s PF i p).pageDir := by
  have hdir := h.range.dir
  have hpd : (grabPage s PF i p).pageDir = s.pageDir := addPage_pageDir _ _
  have ht : ∀ d, KernelPaging.tableOf (grabPage s PF i p).frames (grabPage s PF i p).pageDir d =
      _ := h.tableOf_grab
  constructor
  · rw [ht, if_neg (by omega), hpd]
    exact h.self_mapped.self
  · intro d hd
    rw [ht, hpd]
    split
    · rw [ne_eq, Option.some.injEq]
      exact h.tableFor_ne_dir
    · exact h.self_mapped.distinct d hd

theorem Ahead.tables_grab {p left i : ℕ} (h : Ahead s PF p (left + 1)) :
    ∀ d < 1023, ∀ t, (grabPage s PF i p).tableOf d = some t →
      t = 0 ∨ Reserved (grabPage s PF i p) t := by
  have hdir := h.range.dir
  have hgrow : BitsGrow (takeFrame s PF i) (grabPage s PF i p) := addPage_grows _ _ _
  intro d hd t ht
  rw [h.tableOf_grab] at ht
  split at ht
  · cases ht
    cases hpt : (takeFrame s PF i).tableOf (p / 1024) with
    | some t =>
      rw [tableFor_of_some hpt]
      exact (h.tables_taken _ hdir t hpt).imp id hgrow.reserved
    | none =>
      rw [tableFor_of_none hpt]
      exact tableFrame_reserved hpt
  · exact (h.tables_taken d hd t ht).imp id hgrow.reserved

theorem Ahead.frameOf_grab {p left i q : ℕ} (h : Ahead s PF p (left + 1))
    (hi : s.firstFree PF = some i) (hq : q / 1024 < 1023) (hne : q ≠ p)
    (happ : q / 1024 = p / 1024 ∨
      s.tableOf (q / 1024) ≠ some (tableFor (takeFrame s PF i) (p / 1024))) :
    (grabPage s PF i p).frameOf q = s.frameOf q := by
  have hle := poolStart_le s PF
  have hlt := (firstFree_some hi).1
  have hself : SelfMapped (takeFrame s PF i).frames (takeFrame s PF i).pageDir := h.self_mapped
  rw [grabPage, frameOf_addPage_of_apart hself h.tableFor_ne_dir (by omega) hq hne happ]
  rfl

/-- A turn leaves the pages to come as they are. -/
theorem Ahead.frameOf_later {p left i q : ℕ} (h : Ahead s PF p (left + 1)) (hp : PF.Managed p)
    (hi : s.firstFree PF = some i) (h₁ : p < q) (h₂ : q < p + (left + 1)) (hm : PF.Managed q) :
    (grabPage s PF i p).frameOf q = s.frameOf q := by
  refine h.frameOf_grab hi (plain_dir (managed_plain hm)).2 (by omega) ?_
  by_cases hqp : q / 1024 = p / 1024
  · exact Or.inl hqp
  · exact Or.inr (h.apart hp hm (by omega) h₂ hqp)

theorem Ahead.next {p left i : ℕ} (h : Ahead s PF p (left + 1)) (hi : s.firstFree PF = some i)
    (hp : PF.Managed p) : Ahead (grabPage s PF i p) PF (p + 1) left := by
  have hpd : (grabPage s PF i p).pageDir = s.pageDir := addPage_pageDir _ _
  have hgrow : BitsGrow (takeFrame s PF i) (grabPage s PF i p) := addPage_grows _ _ _
  constructor
  case self_mapped => exact h.self_mapped_grab
  case kernel_tables =>
    intro d h₁ h₂
    rw [h.tableOf_grab]
    split
    · exact Option.some_ne_none _
    · exact h.kernel_tables d h₁ h₂
  case dir_reserved =>
    exact hpd ▸ hgrow.reserved ((takeFrame_grows s PF i).reserved h.dir_reserved)
  case table_frame => exact h.tables_grab
  case range =>
    refine h.range.next hp ((takeFrame_grows s PF i).trans hgrow) fun q hm h₁ h₂ => ?_
    exact h.frameOf_later hp hi h₁ h₂ hm
  case unshared =>
    intro q q' hm hm' h₁ h₂ h₃ h₄ hqq t ht ht'
    rw [h.tableOf_grab] at ht ht'
    split at ht <;> split at ht'
    case isTrue.isTrue e e' => exact hqq (e.trans e'.symm)
    case isTrue.isFalse e e' =>
      exact h.apart hp hm' (by omega) (by omega) e' (ht'.trans ht.symm)
    case isFalse.isTrue e e' =>
      exact h.apart hp hm (by omega) (by omega) e (ht.trans ht'.symm)
    case isFalse.isFalse =>
      exact h.unshared q q' hm hm' (by omega) (by omega) (by omega) (by omega) hqq t ht ht'
  case later_nonzero =>
    intro q hm h₁ h₂ hqp
    rw [h.tableOf_grab, if_neg (by omega)]
    exact h.later_nonzero q hm (by omega) (by omega) (by omega)
  case low_apart =>
    intro hPF
    obtain ⟨hlow, hlow0, hlowq⟩ := h.low_apart hPF
    have hapart := h.low_table_apart (i := i) hp hPF
    have hlt : p < 0xc0000 := by
      rw [hPF] at hp
      exact hp.2
    have hkeep : (grabPage s PF i p).tableOf 768 = s.tableOf 768 := by
      rw [h.tableOf_grab, if_neg (by omega)]
    refine ⟨?_, hkeep ▸ hlow0, fun q hm h₁ h₂ ht => ?_⟩
    · rwa [h.frameOf_grab hi (by omega) (by omega) (Or.inr hapart)]
    rw [hkeep]
    rw [h.tableOf_grab] at ht ⊢
    split
    case isTrue => exact hapart.symm
    case isFalse hqp =>
      rw [if_neg hqp] at ht
      exact hlowq q hm (by omega) (by omega) ht

theorem Ahead.kernel_present {p left : ℕ} (h : Ahead s PF p left) (hp : PF.Managed p)
    (hPF : PF = .kernel) : s.tableOf (p / 1024) ≠ none := by
  subst hPF
  simp only [PoolFlag.Managed] at hp
  exact h.kernel_tables _ (by omega) (by omega)

/-- As long as the pages of the range are unmapped they belong to the pool. -/
theorem managed_of_clear {u : MemState} {p left j : ℕ} (hr : RangeReady s PF p left) (hj : j < left)
    (hlow : PF = .user → u.frameOf 0xc0000 ≠ none) (hn : ∀ m ≤ j, u.frameOf (p + m) = none) :
    PF.Managed (p + j) := by
  cases PF with
  | kernel => exact (hr (p + j) (by omega) (by omega)).1
  | user =>
    simp only [RangeReady] at hr
    refine ⟨by omega, ?_⟩
    by_contra hge
    have := hn (0xc0000 - p) (by omega)
    rw [Nat.add_sub_cancel' hr.2] at this
    exact hlow rfl this

/-- The pages that the loop has frames for are unmapped. -/
def Clear (s : MemState) (PF : PoolFlag) (p left : ℕ) : Prop :=
  ∀ j < left, j < freeCount s PF → s.frameOf (p + j) = none

/-- The loop halts at the first page that is mapped already; else it returns, and stops early
exactly when frames are short. -/
theorem mapPages_total (left : ℕ) : ∀ (s : MemState) (p : ℕ), Ahead s PF p left →
    (¬ Clear s PF p left ∧ mapPages PF left (4096 * p) s = .error (.assertion .pteAbsent)) ∨
    (Clear s PF p left ∧ ∃ done s', mapPages PF left (4096 * p) s = .ok (done, s') ∧
      BitsGrow s s' ∧
      ((done = true ∧ freeCount s' PF + left = freeCount s PF) ∨
        (done = false ∧ freeCount s PF < left))) := by
  induction left with
  | zero => exact fun s p h => Or.inr ⟨fun j hj => by omega, true, s, rfl, BitsGrow.refl s,
      Or.inl ⟨rfl, rfl⟩⟩
  | succ left ih =>
    intro s p h
    cases hi : s.firstFree PF with
    | none =>
      have h0 := freeCount_eq_zero hi
      exact Or.inr ⟨fun j _ hj => by omega, false, s, mapPages_none hi, BitsGrow.refl s,
        Or.inr ⟨rfl, by omega⟩⟩
    | some i =>
      have hpos := freeCount_pos ⟨i, hi⟩
      by_cases he : s.frameOf p = none
      swap
      · exact Or.inl ⟨fun hc => he (hc 0 (by omega) hpos),
          mapPages_present h.self_mapped hi h.range.dir he⟩
      obtain ⟨hm, -⟩ := h.range.head (fun hPF => (h.low_apart hPF).1) he
      have hcount := freeCount_grab hi (h.kernel_present hm)
      rw [mapPages_some h.self_mapped h.dir_reserved hi hm he]
      rcases ih _ (p + 1) (h.next hi hm) with ⟨hb, hrun⟩ | ⟨hc, done, t, hrun, hgrow, hend⟩
      · refine Or.inl ⟨fun hc => hb fun j hj hfree => ?_, hrun⟩
        have hmj := managed_of_clear h.range (show j + 1 < left + 1 by omega)
          (fun hPF => (h.low_apart hPF).1) fun m hmj => hc m (by omega) (by omega)
        rw [show p + 1 + j = p + (j + 1) by omega,
          h.frameOf_later hm hi (by omega) (by omega) hmj]
        exact hc (j + 1) (by omega) (by omega)
      · refine Or.inr ⟨fun j hj hfree => ?_, done, t, hrun,
          ((takeFrame_grows s PF i).trans (addPage_grows _ _ _)).trans hgrow, ?_⟩
        · cases j with
          | zero => exact he
          | succ j =>
            have hnext := h.next hi hm
            have hmj := managed_of_clear hnext.range (show j < left by omega)
              (fun hPF => (hnext.low_apart hPF).1) fun m hmj => hc m (by omega) (by omega)
            rw [show p + (j + 1) = p + 1 + j by omega,
              ← h.frameOf_later hm hi (by omega) (by omega) hmj]
            exact hc j (by omega) (by omega)
        · exact hend.imp (fun h => ⟨h.1, by omega⟩) (fun h => ⟨h.1, by omega⟩)

theorem mark_consistent (h : Consistent s) (r n : ℕ) : Consistent (setVaddr s PF r n true) :=
  ⟨mark_inv h.pool r n, h.zero_free⟩

theorem mapPages_run (h : Consistent s) {n r : ℕ} (hn : 1 ≤ n) (hrun : vaddrRun s PF n = some r)
    (hr : PF = .user → PF.page r < 0xbffff) :
    (¬ Clear s PF (PF.page r) n ∧ mapPages PF n (4096 * PF.page r) (setVaddr s PF r n true) =
      .error (.assertion .pteAbsent)) ∨
    (Clear s PF (PF.page r) n ∧ ∃ done t,
      mapPages PF n (4096 * PF.page r) (setVaddr s PF r n true) = .ok (done, t) ∧
      (done = true ↔ n ≤ freeCount s PF)) := by
  have hcount : freeCount (setVaddr s PF r n true) PF = freeCount s PF := freeCount_mark hn hrun
  have hclear : Clear (setVaddr s PF r n true) PF (PF.page r) n ↔ Clear s PF (PF.page r) n := by
    rw [Clear, hcount]
    rfl
  have htotal := mapPages_total n _ _ (ahead_of_consistent (mark_consistent h r n)
    (range_ready h.pool hn hrun fun hu => by have := hr hu; omega))
  rw [hclear, hcount] at htotal
  refine htotal.imp id ?_
  rintro ⟨hc, done, t, hmap, -, hend⟩
  refine ⟨hc, done, t, hmap, ?_⟩
  rcases hend with ⟨rfl, hle⟩ | ⟨rfl, hlt⟩
  · exact iff_of_true rfl (by omega)
  · exact iff_of_false (by simp) (by omega)

end KernelPoolLoop
