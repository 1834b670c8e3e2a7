import Leeos.KernelDirectories

/-!
# Pages mapped under any directory (`page_table_add`)

Mapping keeps `SpacesInv`, whichever directory is loaded: a user page changes tables of its own
directory, a kernel page changes the loader's tables, and `palloc` gives out no frame that is a
table, a directory or below a handed page.
-/
namespace KernelDirectorySteps

open ExecRules RunSearch KernelBitmap KernelPaging KernelPools KernelPoolSteps
  KernelPoolInvariant KernelPoolMapping KernelPoolCalls KernelPoolRanges KernelDirectories LibStdint

variable {s s' : MemState} {dirs pages : List ℕ} {PF : PoolFlag}

/-! ## `page_table_add` -/

theorem pageTableAdd_ok (h : SpacesInv ⟨s, dirs, pages⟩) {p f : ℕ}
    (hp : p / 1024 < 1023) (hrun : pageTableAdd (4096 * p) (4096 * f) s = .ok ((), s')) :
    s.frameOf p = none ∧ s' = addPage s p f := by
  have hself : SelfMapped s.frames s.pageDir := h.self_mapped
  by_cases he : s.frameOf p = none
  · have hadd := pageTableAdd_apply (f := f) hself hp he fun _ => tableFrame_ne_of_reserved
      h.dir_reserved
    exact ⟨he, (Prod.mk.inj (Except.ok.inj (hrun.symm.trans hadd))).2⟩
  · rw [pageTableAdd_present hself hp he] at hrun
    cases hrun

theorem userEntry_keeps (h : SpacesInv ⟨s, dirs, pages⟩) {t i : ℕ} {w : Word}
    (ht : UserTable s.frames dirs t) (hw : ∀ g, target w = some g → UserFrame s g) :
    SpacesInv ⟨setFrames s (setEntry s.frames t i w), dirs, pages⟩ := by
  have hne : ∀ t', t' ≠ t → setEntry s.frames t i w t' = s.frames t' :=
    fun t' hne => Function.update_of_ne hne _ _
  have hrange : t = 0 ∨ 0x200 ≤ t := h.user_range ht
  have hdir : ∀ D ∈ dirs, setEntry s.frames t i w D = s.frames D := by
    intro D hD
    refine hne D ?_
    rintro rfl
    rcases h.user_table D ht with h0 | ⟨-, hno⟩
    · have hr := h.dir_range hD
      omega
    · exact hno hD
  have hold : ∀ t', UserTable (setEntry s.frames t i w) dirs t' → UserTable s.frames dirs t' := by
    rintro t' ⟨hne', D, hD, d, h₂, hd⟩
    rw [tableOf, hdir D hD] at hd
    exact ⟨hne', D, hD, d, h₂, hd⟩
  refine h.userPart ⟨rfl, rfl, fun _ hh => hh⟩
    ⟨fun D hD d _ => ?_, fun D hD d _ hd => ?_, fun d h₁ h₂ => ?_⟩
    (fun t' ht' => Or.inl (hold t' ht')) fun t' ht' j g hg => ?_
  · exact congrFun (hdir D hD) d
  · rwa [setFrames_frames, tableOf, hdir D hD] at hd
  · rw [setFrames_frames]
    exact hne (kernelTable d) (kernelTable_ne h₁ h₂ (by omega))
  · rw [setFrames_frames, setEntry_apply] at hg
    split at hg
    · exact hw g hg
    · exact h.user_entry t' (hold t' ht') j g hg

theorem tableFrame_taken (s : MemState) : tableFrame s = 0 ∨
    (Held (takeTable s) .kernel (tableFrame s) ∧ ¬ Held s .kernel (tableFrame s)) := by
  rcases tableFrame_free s with h0 | ⟨j, hj, he⟩
  · exact Or.inl h0
  · obtain ⟨hlen, hbit, -⟩ := firstFree_some hj
    refine Or.inr ⟨⟨j, ?_, ?_, ?_⟩, fun hh => ?_⟩
    · simpa only [MemState.poolLen, MemState.pool, takeTable_layout] using hlen
    · simpa only [MemState.poolStart, MemState.pool, takeTable_layout] using he
    · rw [poolBit_eq, memBit_takeTable, if_pos]
      exact ⟨j, hj, by simp only [poolPos, MemState.pool, takeTable_layout]⟩
    · exact absurd (held_unique hlen (he ▸ hh)).2 (by simp [hbit])

theorem newTable_keeps (h : SpacesInv ⟨s, dirs, pages⟩) {d : ℕ} (hd : d < 768) :
    SpacesInv ⟨newTable s d, dirs, pages⟩ ∧
      UserTable (newTable s d).frames dirs (tableFrame s) := by
  have hfree := tableFrame_taken s
  have hrange : tableFrame s = 0 ∨ 0x200 ≤ tableFrame s :=
    hfree.imp id fun h' => (held_pool h'.1).1
  have hnot : tableFrame s ∉ dirs := by
    intro hD
    rcases hfree with h0 | ⟨-, hno⟩
    · rcases h.dir_range hD with h' | h' <;> omega
    · rcases h.dir_frame _ hD with h' | h'
      · omega
      · exact hno h'
  have hact : s.pageDir ∈ dirs := h.active
  have hdir : s.pageDir = 0x100 ∨ 0x200 ≤ s.pageDir := h.dir_range hact
  set T := tableFrame s with hTdef
  have hrow : ∀ t i, (newTable s d).frames t i =
      if t = T then 0#32 else if t = s.pageDir ∧ i = d then pgEntry (4096 * T)
      else s.frames t i := by
    intro t i
    rw [newTable, setFrames_frames, addTable, clearFrame_apply, setEntry_apply]
  have hlt : T < 2 ^ 20 := tableFrame_lt s
  have htab : ∀ D ∈ dirs, ∀ e, tableOf (newTable s d).frames D e =
      if D = s.pageDir ∧ e = d then some T else tableOf s.frames D e := by
    intro D hD e
    have hne : D ≠ T := fun he => hnot (he ▸ hD)
    rw [tableOf, hrow, if_neg hne]
    split
    · exact target_pgEntry hlt
    · rfl
  have hnew : ∀ t, UserTable (newTable s d).frames dirs t →
      t = T ∨ UserTable s.frames dirs t := by
    rintro t ⟨hne, D, hD, e, he, ht⟩
    rw [htab D hD] at ht
    split at ht
    · exact Or.inl (Option.some.inj ht).symm
    · exact Or.inr ⟨hne, D, hD, e, he, ht⟩
  have hkeep : Keeps s (newTable s d) := by
    refine Keeps.of_grows ⟨?_, ?_, fun k hk => ?_⟩ ?_
    · simp [newTable]
    · simp [newTable]
    · rw [newTable, setFrames_bytes, memBit_takeTable]
      split
      · rfl
      · exact hk
    · simp [newTable]
  refine ⟨h.userPart hkeep ⟨fun D hD e he => ?_, fun D hD e _ he => ?_, fun e h₁ h₂ => ?_⟩
    (fun t ht => ?_) fun t ht i g hg => ?_, ⟨by omega, s.pageDir, hact, d, hd, ?_⟩⟩
  · have hne : D ≠ T := fun heq => hnot (heq ▸ hD)
    rw [hrow, if_neg hne, if_neg (by omega)]
  · rw [htab D hD] at he
    split at he
    · rw [Option.some.injEq] at he
      omega
    · exact he
  · funext i
    have hT : kernelTable e ≠ T := kernelTable_ne h₁ h₂ (by omega)
    have hD : kernelTable e ≠ s.pageDir := kernelTable_ne h₁ h₂ (by omega)
    rw [hrow, if_neg hT, if_neg fun h' => hD h'.1]
  · rcases hnew t ht with rfl | hold
    · exact Or.inr hfree
    · exact Or.inl hold
  · rw [hrow] at hg
    split at hg
    · cases hg
    · rcases hnew t ht with rfl | hold
      · contradiction
      · rw [if_neg] at hg
        · exact h.user_entry t hold i g hg
        · rintro ⟨he, -⟩
          rcases h.user_table t hold with h0 | ⟨-, hno⟩
          · omega
          · exact hno (he ▸ hact)
  · rw [htab _ hact, if_pos ⟨rfl, rfl⟩]

/-- Below the shared tables every directory has the same entry. -/
theorem addPage_kernel (h : SpacesInv ⟨s, dirs, pages⟩) {p f : ℕ} (hp : 0xc0000 ≤ p)
    (hp' : p < 0xffc00) : addPage s p f = mapEntry s (kernelTable (p / 1024)) p f := by
  have ht : s.tableOf (p / 1024) = some (kernelTable (p / 1024)) :=
    h.kernel_table _ h.active _ (by omega) (by omega)
  rw [addPage, ht]

theorem not_handed (h : SpacesInv ⟨s, dirs, pages⟩) {p : ℕ}
    (hn : kernelFrame s.frames p = none) : p ∉ pages :=
  fun hp => h.page_mapped p hp hn

/-- An unmapped page gets a frame of the user pool. The address of a process's run may have
wrapped, and the first shared table may lie below entry 0 as well. -/
theorem addUser_keeps (h : SpacesInv ⟨s, dirs, pages⟩) {p f : ℕ} (hp : p < 0xffc00)
    (hn : s.frameOf p = none) (hf : UserFrame s f) (hlt : f < 2 ^ 20) :
    SpacesInv ⟨addPage s p f, dirs, pages⟩ := by
  have htarget : ∀ g, target (pgEntry (4096 * f)) = some g → UserFrame s g := by
    intro g hg
    cases (target_pgEntry hlt).symm.trans hg
    exact hf
  by_cases hk : 0xc0000 ≤ p
  · rw [addPage_kernel h hk hp]
    refine (h.kernelEntry _ hk hp (not_handed h ?_)).1
    rw [← h.frameOf_kernel h.active hk hp]
    exact hn
  · rw [addPage]
    cases ht : s.tableOf (p / 1024) with
    | some t =>
      by_cases halias : t = 0x101
      · subst halias
        have h0 : p / 1024 = 0 := by
          by_contra h0
          exact h.alias_table _ h.active (p / 1024) (by omega) (by omega) ht
        have htab : kernelTable ((0xc0000 + p) / 1024) = 0x101 := by
          unfold kernelTable
          omega
        have hidx : (0xc0000 + p) % 1024 = p % 1024 := by omega
        have hnone : kernelFrame s.frames (0xc0000 + p) = none := by
          rw [kernelFrame, htab, hidx]
          have hn : frameOf s.frames s.pageDir p = none := hn
          simpa only [frameOf, entryOf, MemState.tableOf_eq ht, Option.map_some,
            Option.bind_some] using hn
        have hstep := (h.kernelEntry (p := 0xc0000 + p) (pgEntry (4096 * f)) (by omega) (by omega)
          (not_handed h hnone)).1
        rw [htab, hidx] at hstep
        exact hstep
      · exact userEntry_keeps h ⟨halias, _, h.active, p / 1024, by omega, ht⟩ htarget
    | none =>
      obtain ⟨hnew, htab⟩ := newTable_keeps h (d := p / 1024) (by omega)
      refine userEntry_keeps hnew htab fun g hg => ?_
      have hstart := @poolStart_of_layout s (newTable s (p / 1024))
        (by simp [newTable]) .user
      rw [UserFrame, hstart]
      exact htarget g hg

theorem addKernel_keeps (h : SpacesInv ⟨s, dirs, pages⟩) {p f : ℕ}
    (hp : PoolFlag.kernel.Managed p) (hn : s.frameOf p = none) (hlt : f < 2 ^ 20)
    (hf : f = 0 ∨ (Held s .kernel f ∧ Unused s.frames dirs pages f)) :
    SpacesInv ⟨addPage s p f, dirs, p :: pages⟩ := by
  obtain ⟨h₁, h₂⟩ := hp
  have hn : kernelFrame s.frames p = none := by
    rw [← h.frameOf_kernel h.active (by omega) h₂]
    exact hn
  have hno : p ∉ pages := not_handed h hn
  rw [addPage_kernel h (by omega) h₂]
  obtain ⟨hstep, hold⟩ := h.kernelEntry (pgEntry (4096 * f)) (by omega) h₂ hno
  have hkf : ∀ q, PoolFlag.kernel.Managed q →
      kernelFrame (setEntry s.frames (kernelTable (p / 1024)) (p % 1024) (pgEntry (4096 * f))) q =
        if q = p then target (pgEntry (4096 * f)) else kernelFrame s.frames q :=
    fun q hq => kernelFrame_setEntry (by omega) hq _
  refine hstep.handed ⟨h₁, h₂⟩ (f := f) ?_ (hf.imp id fun ⟨hh, hu⟩ => ⟨hh, hu.not_dir, ?_, ?_⟩)
  · exact (hkf p ⟨h₁, h₂⟩).trans ((if_pos rfl).trans (target_pgEntry hlt))
  · exact fun ht => hu.not_table (hold f ht)
  · intro q hq hqf
    have hne : q ≠ p := fun he => hno (he ▸ hq)
    exact hu.not_page q hq (((hkf q (h.page_managed q hq)).trans (if_neg hne)).symm.trans hqf)

/-! ## `palloc` -/

theorem takeFrame_keeps (h : SpacesInv ⟨s, dirs, pages⟩) {i : ℕ} (hi : s.firstFree PF = some i) :
    SpacesInv ⟨takeFrame s PF i, dirs, pages⟩ ∧ s.poolStart PF + i < 2 ^ 20 ∧
      (PF = .kernel → Held (takeFrame s PF i) .kernel (s.poolStart PF + i) ∧
        Unused s.frames dirs pages (s.poolStart PF + i)) := by
  obtain ⟨hlen, hbit, -⟩ := firstFree_some hi
  have hle := poolStart_le s PF
  refine ⟨h.bits rfl (Keeps.of_grows (takeFrame_grows s PF i) rfl), by omega, fun hPF => ?_⟩
  subst hPF
  refine ⟨⟨i, hlen, rfl, ?_⟩, h.unused (by omega) fun hh => ?_⟩
  · exact (memBit_takeFrame i _).trans (if_pos rfl)
  · exact absurd (held_unique hlen hh).2 (by simp [hbit])

theorem mapPages_cons {left v : ℕ} {done : Bool}
    (hrun : mapPages PF (left + 1) v s = .ok (done, s')) :
    (done = false ∧ s' = s) ∨ ∃ i u, s.firstFree PF = some i ∧
      pageTableAdd v (4096 * (s.poolStart PF + i)) (takeFrame s PF i) = .ok ((), u) ∧
      mapPages PF left (u32 (v + 4096)) u = .ok (done, s') := by
  cases hi : s.firstFree PF with
  | none =>
    rw [mapPages_none hi] at hrun
    cases hrun
    exact Or.inl ⟨rfl, rfl⟩
  | some i =>
    have hle := poolStart_le s PF
    rw [mapPages, bind_of_ok (palloc_of_some hi), if_neg (by omega)] at hrun
    obtain ⟨_, u, hadd, hrest⟩ := bind_ok_iff.mp hrun
    exact Or.inr ⟨i, u, rfl, hadd, hrest⟩

/-- The pages lie on frames that are no directories. -/
def Own (s : MemState) (dirs own : List ℕ) : Prop :=
  ∀ q ∈ own, ∃ f, kernelFrame s.frames q = some f ∧ f ≠ 0 ∧ f ∉ dirs

theorem mapPages_kernel (left : ℕ) : ∀ (s : MemState) (p : ℕ) (own pages : List ℕ),
    SpacesInv ⟨s, dirs, pages⟩ → (∀ q ∈ own, q ∈ pages) → Own s dirs own → 0xc0100 ≤ p →
    p + left ≤ 0xffc00 → ∀ done s', mapPages .kernel left (4096 * p) s = .ok (done, s') →
    ∃ k ≤ left, (done = true → k = left) ∧
      SpacesInv ⟨s', dirs, List.range' p k ++ pages⟩ ∧ Own s' dirs (List.range' p k ++ own) := by
  induction left with
  | zero =>
    intro s p own pages h _ hown _ _ done s' hrun
    cases hrun
    exact ⟨0, le_rfl, fun _ => rfl, h, hown⟩
  | succ left ih =>
    intro s p own pages h hsub hown hp hp' done s' hrun
    rcases mapPages_cons hrun with ⟨rfl, rfl⟩ | ⟨i, u, hi, hadd, hrest⟩
    · exact ⟨0, by omega, Bool.noConfusion, h, hown⟩
    · obtain ⟨htake, hlt, hfresh⟩ := takeFrame_keeps h hi
      obtain ⟨hheld, hunused⟩ := hfresh rfl
      have hm : PoolFlag.kernel.Managed p := ⟨hp, by omega⟩
      obtain ⟨hnone, rfl⟩ := pageTableAdd_ok htake (by omega) hadd
      rw [u32_next_page (by omega)] at hrest
      have hstep := addKernel_keeps htake hm hnone hlt (Or.inr ⟨hheld, hunused⟩)
      have hkf : ∀ q ∈ p :: pages, kernelFrame
          (addPage (takeFrame s .kernel i) p (s.poolStart .kernel + i)).frames q =
          if q = p then some (s.poolStart .kernel + i) else kernelFrame s.frames q := by
        intro q hq
        rw [addPage_kernel htake (by omega) (by omega), mapEntry, setFrames_frames,
          kernelFrame_setEntry (by omega) (hstep.page_managed q hq), target_pgEntry hlt,
          takeFrame_frames]
      have hsub' : ∀ q ∈ p :: own, q ∈ p :: pages := by
        intro q hq
        exact (List.mem_cons.mp hq).elim (fun he => he ▸ List.mem_cons_self)
          fun hq => List.mem_cons_of_mem _ (hsub q hq)
      have hown' : Own (addPage (takeFrame s .kernel i) p (s.poolStart .kernel + i)) dirs
          (p :: own) := by
        have hle := poolStart_le s .kernel
        intro q hq
        rcases List.mem_cons.mp hq with rfl | hq'
        · exact ⟨_, (hkf q List.mem_cons_self).trans (if_pos rfl), by omega, hunused.not_dir⟩
        · obtain ⟨f, hf, h0, hd⟩ := hown q hq'
          have hqp : q ≠ p := by
            rintro rfl
            have hn : kernelFrame s.frames q = none := by
              rw [← h.frameOf_kernel h.active (by omega) (by omega)]
              exact hnone
            cases hn.symm.trans hf
          exact ⟨f, by rw [hkf q (hsub' q hq), if_neg hqp, hf], h0, hd⟩
      obtain ⟨k, hk, hdone, hinv, hlast⟩ := ih _ (p + 1) (p :: own) (p :: pages) hstep hsub' hown'
        (by omega) (by omega) done s' hrest
      refine ⟨k + 1, by omega, fun he => by rw [hdone he], hinv.fewerPages ?_, fun q hq => hlast q ?_⟩
      all_goals
        simp only [List.range'_succ, List.cons_append, List.mem_cons, List.mem_append]
      · tauto
      · simp only [List.range'_succ, List.cons_append, List.mem_cons, List.mem_append] at hq
        tauto

end KernelDirectorySteps
