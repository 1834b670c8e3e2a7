import Leeos.KernelDirectorySteps

/-!
# All directories share the kernel's pages (`create_page_dir`, `page_table_add`, `free_pages`)

Every call keeps `SpacesInv`, so in every run the kernel part of all directories stays the
same and each directory maps itself.
-/
namespace KernelDirectoryRuns

open ExecRules RunSearch KernelBitmap KernelPaging KernelPools KernelPoolSteps
  KernelPoolInvariant KernelPoolMapping KernelPoolCalls KernelPoolRanges KernelDirectories
  KernelDirectorySteps LibStdint

variable {x y : Spaces} {s s' : MemState} {dirs pages : List ℕ} {PF : PoolFlag}

/-! ## Allocation -/

/-- A call finds no run, gets the address 0 for it, or goes through its loop. -/
theorem mallocPages_cases {n v : ℕ} (hrun : mallocPages PF n s = .ok (v, s')) :
    (v = 0 ∧ s' = s) ∨ ∃ r, vaddrRun s PF n = some r ∧ 1 ≤ n ∧ n < 3840 ∧
      ((v = 0 ∧ s' = setVaddr s PF r n true) ∨ ∃ p done, (PF = .user → p < 0xbffff) ∧
        (PF = .kernel → p = PF.page r) ∧ v = (if done then 4096 * p else 0) ∧
        mapPages PF n (4096 * p) (setVaddr s PF r n true) = .ok (done, s')) := by
  have hn := mallocPages_count hrun
  cases hr : vaddrRun s PF n with
  | none =>
    rw [mallocPages_no_run hn hr] at hrun
    cases hrun
    exact Or.inl ⟨rfl, rfl⟩
  | some r =>
    refine Or.inr ⟨r, rfl, hn.1, hn.2, ?_⟩
    obtain ⟨h0, hlen, -, -⟩ := vaddrRun_facts hn.1 hr
    have haddr := vaddr_aligned h0 r
    rw [mallocPages, assert, ensure_bind_of_true hn] at hrun
    obtain ⟨addr, t, hget, hrun⟩ := bind_ok_iff.mp hrun
    rw [vaddrGetPages_run hr rfl] at hget
    split at hget
    case isFalse => cases hget
    case isTrue hlow =>
      cases hget
      split at hrun
      · cases hrun
        exact Or.inl ⟨rfl, rfl⟩
      · obtain ⟨done, t, hmap, hrest⟩ := bind_ok_iff.mp hrun
        rw [haddr.1] at hmap hrest
        cases hrest
        refine Or.inr ⟨_, done, fun hu => ?_, fun hk => ?_, rfl, hmap⟩
        · have := hlow hu
          omega
        · subst hk
          rw [vaddr_address h0 (show r ≤ _ by omega) (fun hu => by cases hu),
            if_neg fun hu => by cases hu.1]
          omega

theorem mark_keeps (h : SpacesInv ⟨s, dirs, pages⟩) (r n : ℕ) :
    SpacesInv ⟨setVaddr s PF r n true, dirs, pages⟩ :=
  h.bits rfl (Keeps.of_grows (setVaddr_grows r n) rfl)

theorem mallocPages_kernel_keeps (h : SpacesInv ⟨s, dirs, pages⟩) {n v : ℕ}
    (hrun : mallocPages .kernel n s = .ok (v, s')) :
    SpacesInv ⟨s', dirs, handOut .kernel n v pages⟩ ∧ (v ≠ 0 → v = 4096 * (v / 4096) ∧
      1 ≤ n ∧ 0xc0100 ≤ v / 4096 ∧ v / 4096 + n ≤ 0xffc00 ∧
      Own s' dirs (List.range' (v / 4096) n)) := by
  rcases mallocPages_cases hrun with ⟨rfl, rfl⟩ | ⟨r, hr, hn, -, ⟨rfl, rfl⟩ | ⟨p, done, -, hp, hv, hmap⟩⟩
  · exact ⟨h, fun h0 => (h0 rfl).elim⟩
  · exact ⟨mark_keeps h r n, fun h0 => (h0 rfl).elim⟩
  · obtain ⟨h0, hlen, -, -⟩ := vaddrRun_facts hn hr
    have := (vaddr_facts s .kernel h0).2.1 rfl
    have hbase : PoolFlag.kernel.page r = 0xc0100 + r := rfl
    obtain rfl := hp rfl
    obtain ⟨k, -, hdone, hinv, hown⟩ := mapPages_kernel n _ _ [] pages (mark_keeps h r n)
      (fun _ hq => by cases hq) (fun _ hq => by cases hq) (by omega) (by omega) done s' hmap
    cases done with
    | false =>
      cases hv
      refine ⟨hinv.fewerPages fun q hq => List.mem_append_right _ ?_, fun h0 => (h0 rfl).elim⟩
      simpa [handOut] using hq
    | true =>
      simp only [↓reduceIte] at hv
      have hpage : v / 4096 = PoolFlag.kernel.page r := by omega
      rw [hdone rfl, List.append_nil] at hown
      rw [hdone rfl] at hinv
      rw [handOut, if_pos ⟨rfl, by omega⟩, hpage]
      exact ⟨hinv, fun _ => ⟨by omega, hn, by omega, by omega, hown⟩⟩

theorem markPage_grows {v : ℕ} (hrun : markPage PF v s = .ok ((), s')) :
    BitsGrow s s' ∧ s'.frames = s.frames ∧ s'.pageDir = s.pageDir := by
  rw [markPage, get_bind] at hrun
  split at hrun
  · simp only [assert, ensure_bind_ok_iff] at hrun
    obtain ⟨-, hset⟩ := hrun
    cases hset
    refine ⟨⟨rfl, rfl, fun k hk => ?_⟩, rfl, rfl⟩
    rw [memBit_bitmapSet]
    split
    · rfl
    · exact hk
  · cases hrun
    exact ⟨BitsGrow.refl s, rfl, rfl⟩

theorem getAPage_keeps (h : SpacesInv ⟨s, dirs, pages⟩) {v a : ℕ} (hm : PF.Managed (v / 4096))
    (hrun : getAPage PF v s = .ok (a, s')) :
    SpacesInv ⟨s', dirs, if PF = .kernel then v / 4096 :: pages else pages⟩ := by
  have hplain := managed_plain hm
  simp only [Plain] at hplain
  rw [getAPage] at hrun
  obtain ⟨_, t, hmark, hrun⟩ := bind_ok_iff.mp hrun
  obtain ⟨hgrow, hframes, hdir⟩ := markPage_grows hmark
  have ht : SpacesInv ⟨t, dirs, pages⟩ := h.bits hframes (Keeps.of_grows hgrow hdir)
  -- an empty pool makes `palloc` return 0, which is mapped all the same
  obtain ⟨f, u, hpalloc, hu, hlt, hf⟩ : ∃ f u, palloc PF t = .ok (4096 * f, u) ∧
      SpacesInv ⟨u, dirs, pages⟩ ∧ f < 2 ^ 20 ∧ (f = 0 ∨
        (PF = .user → UserFrame u f) ∧ (PF = .kernel → Held u .kernel f ∧
          Unused u.frames dirs pages f)) := by
    cases hi : t.firstFree PF with
    | none => exact ⟨0, t, palloc_of_none hi, ht, by norm_num, Or.inl rfl⟩
    | some i =>
      obtain ⟨htake, hlt, hfresh⟩ := takeFrame_keeps ht hi
      refine ⟨_, _, palloc_of_some hi, htake, hlt, Or.inr ⟨fun hu => ?_, hfresh⟩⟩
      subst hu
      exact Or.inr (Nat.le_add_right _ _)
  rw [bind_of_ok hpalloc, pageTableAdd_page (by omega)] at hrun
  obtain ⟨_, w, hadd, hret⟩ := bind_ok_iff.mp hrun
  cases hret
  obtain ⟨hnone, rfl⟩ := pageTableAdd_ok hu (by omega) hadd
  cases PF with
  | user =>
    simp only [PoolFlag.Managed] at hm
    have huser : UserFrame u f := hf.elim Or.inl fun hf => hf.1 rfl
    exact addUser_keeps hu (by omega) hnone huser hlt
  | kernel =>
    exact addKernel_keeps hu hm hnone hlt (hf.imp id fun hf => hf.2 rfl)

/-! ## `create_page_dir` -/

/-- The frame below a handed page is rewritten; it is no directory. -/
theorem content_keeps (h : SpacesInv ⟨s, dirs, pages⟩) {p f : ℕ} (hp : p ∈ pages)
    (hf : kernelFrame s.frames p = some f) (h0 : f ≠ 0) (hd : f ∉ dirs) {m : Frames}
    (hfr : ∀ t, t ≠ f → m t = s.frames t) :
    SpacesInv ⟨setFrames s m, dirs, pages⟩ ∧
      ∀ q, PoolFlag.kernel.Managed q → kernelFrame m q = kernelFrame s.frames q := by
  have hheld : Held s .kernel f := (h.page_frame p hp f hf).resolve_left h0
  have hrange := (held_pool hheld).1
  have hdir : ∀ D ∈ dirs, m D = s.frames D := fun D hD => hfr D fun he => hd (he ▸ hD)
  have hsame : SameKernel dirs s.frames m := by
    refine ⟨fun D hD d _ => congrFun (hdir D hD) d, fun D hD d _ hd => ?_, fun d h₁ h₂ => ?_⟩
    · rwa [tableOf, hdir D hD] at hd
    exact hfr _ (kernelTable_ne h₁ h₂ (Or.inr hrange))
  have hold : ∀ t, UserTable m dirs t → UserTable s.frames dirs t := by
    rintro t ⟨hne, D, hD, d, hd, ht⟩
    rw [tableOf, hdir D hD] at ht
    exact ⟨hne, D, hD, d, hd, ht⟩
  refine ⟨h.userPart ⟨rfl, rfl, fun _ hh => hh⟩ hsame (fun t ht => Or.inl (hold t ht))
    fun t ht i g hg => ?_, fun q hq => hsame.kernelFrame hq⟩
  have hne : t ≠ f := fun he => h.page_no_table p hp f h0 hf (he ▸ hold t ht)
  rw [setFrames_frames, hfr t hne] at hg
  exact h.user_entry t (hold t ht) i g hg

theorem frameOf_page (h : SpacesInv ⟨s, dirs, pages⟩) {p f : ℕ} (hp : p ∈ pages)
    (hf : kernelFrame s.frames p = some f) : frameOf s.frames s.pageDir p = some f := by
  obtain ⟨h₁, h₂⟩ := h.page_managed p hp
  exact (h.frameOf_kernel h.active (by omega) h₂).trans hf

theorem clearPages_keeps (n : ℕ) : ∀ (s : MemState) (p : ℕ), SpacesInv ⟨s, dirs, pages⟩ →
    (∀ j < n, p + j ∈ pages) → Own s dirs (List.range' p n) →
    ∃ fr, clearPages n (4096 * p) s = .ok ((), setFrames s fr) ∧
      SpacesInv ⟨setFrames s fr, dirs, pages⟩ ∧
      (∀ q, PoolFlag.kernel.Managed q → kernelFrame fr q = kernelFrame s.frames q) ∧
      ∀ t i, fr t i = 0#32 ∨ (fr t i = s.frames t i ∧
        ∀ j < n, kernelFrame s.frames (p + j) ≠ some t) := by
  induction n with
  | zero =>
    intro s p h _ _
    exact ⟨s.frames, rfl, h, fun _ _ => rfl, fun t i => Or.inr ⟨rfl, fun j hj => by omega⟩⟩
  | succ n ih =>
    intro s p h hp hown
    obtain ⟨f, hf, h0, hd⟩ := hown p (by simp)
    have hpage : p ∈ pages := hp 0 (by omega)
    have hclear : clearPage s.frames s.pageDir (4096 * p) = some (clearFrame s.frames f) := by
      rw [clearPage, Nat.mul_div_cancel_left p (by decide), frameOf_page h hpage hf]
      rfl
    obtain ⟨hinv, hkf⟩ := content_keeps h hpage hf h0 hd (m := clearFrame s.frames f)
      fun t ht => Function.update_of_ne ht _ _
    have hp' : ∀ j < n, p + 1 + j ∈ pages := fun j hj => by
      simpa only [Nat.add_assoc, Nat.add_comm 1] using hp (j + 1) (by omega)
    have hown' : Own (setFrames s (clearFrame s.frames f)) dirs (List.range' (p + 1) n) := by
      intro q hq
      obtain ⟨g, hg, hrest⟩ := hown q (by
        rw [List.range'_succ]
        exact List.mem_cons_of_mem _ hq)
      simp only [List.mem_range'_1] at hq
      have hmem := hp' (q - (p + 1)) (by omega)
      rw [Nat.add_sub_cancel' (by omega)] at hmem
      exact ⟨g, (hkf q (h.page_managed q hmem)).trans hg, hrest⟩
    obtain ⟨fr, hrun, hinv', hkf', hwords⟩ := ih _ (p + 1) hinv hp' hown'
    refine ⟨fr, ?_, hinv', fun q hq => (hkf' q hq).trans (hkf q hq), fun t i => ?_⟩
    · rw [clearPages, bind_of_ok (zeroPage_apply hclear)]
      exact hrun
    · rcases hwords t i with hz | ⟨hkept, hother⟩
      · exact Or.inl hz
      · have hrow := clearFrame_apply s.frames f t i
        by_cases ht : t = f
        · exact Or.inl (hkept.trans (hrow.trans (if_pos ht)))
        · refine Or.inr ⟨hkept.trans (hrow.trans (if_neg ht)), fun j hj hjf => ?_⟩
          rcases j with - | j
          · rw [Nat.add_zero] at hjf
            exact ht (Option.some.inj (hjf.symm.trans hf))
          · rw [show p + (j + 1) = p + 1 + j by omega] at hjf
            exact hother j (by omega) ((hkf _ (h.page_managed _ (hp' j (by omega)))).trans hjf)

theorem mallocKernelPages_of_malloc (h : SpacesInv ⟨s, dirs, pages⟩) {n v : ℕ} {t : MemState}
    (hmalloc : mallocPages .kernel n s = .ok (v, t)) :
    ∃ fr, mallocKernelPages n s = .ok (v, setFrames t fr) ∧
      SpacesInv ⟨setFrames t fr, dirs, handOut .kernel n v pages⟩ ∧
      (∀ q, PoolFlag.kernel.Managed q → kernelFrame fr q = kernelFrame t.frames q) ∧
      (n = 1 → v ≠ 0 → v = 4096 * (v / 4096) ∧
        ∃ f, kernelFrame fr (v / 4096) = some f ∧ f ≠ 0 ∧ f ∉ dirs ∧ ∀ i, fr f i = 0#32) := by
  obtain ⟨hinv, hpages⟩ := mallocPages_kernel_keeps h hmalloc
  rw [mallocKernelPages, bind_of_ok hmalloc]
  by_cases hv : v = 0
  · rw [if_neg (by simpa using hv)]
    exact ⟨t.frames, rfl, hinv, fun _ _ => rfl, fun _ h0 => (h0 hv).elim⟩
  · obtain ⟨hbase, hn, h₁, h₂, hown⟩ := hpages hv
    have hout : handOut .kernel n v pages = List.range' (v / 4096) n ++ pages :=
      if_pos ⟨rfl, hv⟩
    have hmem : ∀ j < n, v / 4096 + j ∈ handOut .kernel n v pages := by
      intro j hj
      rw [hout, List.mem_append, List.mem_range'_1]
      omega
    obtain ⟨fr, hclear, hinv', hkf, hwords⟩ := clearPages_keeps n t (v / 4096) hinv hmem hown
    rw [← hbase] at hclear
    rw [if_pos hv, bind_of_ok hclear]
    refine ⟨fr, rfl, hinv', hkf, fun hn1 _ => ⟨hbase, ?_⟩⟩
    obtain ⟨f, hf, h0, hd⟩ := hown (v / 4096) (by simp [hn1])
    have hm : PoolFlag.kernel.Managed (v / 4096) := ⟨h₁, by omega⟩
    refine ⟨f, (hkf _ hm).trans hf, h0, hd, fun i => (hwords f i).resolve_right ?_⟩
    exact fun hother => hother.2 0 (by omega) hf

theorem readWord_directory (h : SelfMapped s.frames s.pageDir) {i : ℕ} (hi : i < 1024) :
    readWord s.frames s.pageDir (0xfffff000 + i * 4) = some (s.frames s.pageDir i) := by
  have h₁ : (0xfffff000 + i * 4) / 4096 = 1023 * 1024 + 1023 := by omega
  have h₂ : (0xfffff000 + i * 4) % 4096 / 4 = i := by omega
  simp only [readWord, h₁, h₂, frameOf_window h.self (show 1023 < 1024 by norm_num), h.self,
    Option.map_some]

theorem writeWord_page (h : SpacesInv ⟨s, dirs, pages⟩) {p f i : ℕ} (hp : p ∈ pages)
    (hf : kernelFrame s.frames p = some f) (hi : i < 1024) (w : Word) :
    writeWord s.frames s.pageDir (4096 * p + i * 4) w = some (setEntry s.frames f i w) := by
  have h₁ : (4096 * p + i * 4) / 4096 = p := by omega
  have h₂ : (4096 * p + i * 4) % 4096 / 4 = i := by omega
  rw [writeWord, h₁, h₂, frameOf_page h hp hf, Option.map_some]

/-- `memcpy` of the loaded directory's last entries to the frame below a handed page. -/
theorem copyWords_keeps (left : ℕ) {p f : ℕ} (h0 : f ≠ 0) (hd : f ∉ dirs) :
    ∀ (s : MemState) (k : ℕ), SpacesInv ⟨s, dirs, pages⟩ → p ∈ pages →
    kernelFrame s.frames p = some f → k + left = 1024 →
    ∃ fr, copyWords left (4096 * p + k * 4) (0xfffff000 + k * 4) s = .ok ((), setFrames s fr) ∧
      SpacesInv ⟨setFrames s fr, dirs, pages⟩ ∧
      (∀ q, PoolFlag.kernel.Managed q → kernelFrame fr q = kernelFrame s.frames q) ∧
      (∀ t, t ≠ f → fr t = s.frames t) ∧
      ∀ i < 1024, fr f i = if k ≤ i then s.frames s.pageDir i else s.frames f i := by
  induction left with
  | zero =>
    intro s k h _ hf hk
    refine ⟨s.frames, rfl, h, fun _ _ => rfl, fun _ _ => rfl, fun i hi => ?_⟩
    rw [if_neg (by omega)]
  | succ left ih =>
    intro s k h hp hf hk
    have hself : SelfMapped s.frames s.pageDir := h.self_mapped
    have hne : s.pageDir ≠ f := fun he => hd (he ▸ h.active)
    set w := s.frames s.pageDir k with hw
    obtain ⟨hinv, hkf⟩ := content_keeps h hp hf h0 hd (m := setEntry s.frames f k w)
      fun t ht => Function.update_of_ne ht _ _
    obtain ⟨fr, hrun, hinv', hkf', hother, hrow⟩ := ih _ (k + 1) hinv hp
      ((hkf p (h.page_managed p hp)).trans hf) (by omega)
    refine ⟨fr, ?_, hinv', fun q hq => (hkf' q hq).trans (hkf q hq),
      fun t ht => (hother t ht).trans (Function.update_of_ne ht _ _), fun i hi => ?_⟩
    · rw [copyWords, load_bind (readWord_directory hself (by omega)),
        bind_of_ok (store_apply (writeWord_page h hp hf (by omega) _)),
        show 4096 * p + k * 4 + 4 = 4096 * p + (k + 1) * 4 by omega,
        show 0xfffff000 + k * 4 + 4 = 0xfffff000 + (k + 1) * 4 by omega]
      exact hrun
    · have hold : setEntry s.frames f k w s.pageDir i = s.frames s.pageDir i :=
        congrFun (Function.update_of_ne hne _ _) i
      have hnew : setEntry s.frames f k w f i = if i = k then w else s.frames f i := by
        simp [setEntry_apply]
      rw [hrow i hi, setFrames_frames, setFrames_pageDir, hold, hnew]
      by_cases hik : i = k
      · subst hik
        simp [hw]
      · by_cases hlt : k ≤ i
        · rw [if_pos (show k + 1 ≤ i by omega), if_pos hlt]
        · rw [if_neg (show ¬ k + 1 ≤ i by omega), if_neg hik, if_neg hlt]

/-- A frame whose entries are those of a directory without a user part is one. -/
theorem addDir_keeps (h : SpacesInv ⟨s, dirs, pages⟩) {f : ℕ} (hheld : Held s .kernel f)
    (hno : ¬ UserTable s.frames dirs f) (hlow : ∀ d < 768, tableOf s.frames f d = none)
    (hker : ∀ d, 768 ≤ d → d < 1023 → tableOf s.frames f d = some (kernelTable d))
    (hself : tableOf s.frames f 1023 = some f) : SpacesInv ⟨s, f :: dirs, pages⟩ := by
  have hold : ∀ t, UserTable s.frames (f :: dirs) t → UserTable s.frames dirs t := by
    rintro t ⟨hne, D, hD, d, hd, ht⟩
    rcases List.mem_cons.mp hD with rfl | hD
    · cases (hlow d hd).symm.trans ht
    · exact ⟨hne, D, hD, d, hd, ht⟩
  constructor
  case kernel_dir => exact List.mem_cons_of_mem _ h.kernel_dir
  case active => exact List.mem_cons_of_mem _ h.active
  case dir_frame =>
    intro D hD
    rcases List.mem_cons.mp hD with rfl | hD
    · exact Or.inr hheld
    · exact h.dir_frame D hD
  case dir_self =>
    intro D hD
    rcases List.mem_cons.mp hD with rfl | hD
    · exact hself
    · exact h.dir_self D hD
  case kernel_table =>
    intro D hD d h₁ h₂
    rcases List.mem_cons.mp hD with rfl | hD
    · exact hker d h₁ h₂
    · exact h.kernel_table D hD d h₁ h₂
  case alias_table =>
    intro D hD d h₁ h₂ ht
    rcases List.mem_cons.mp hD with rfl | hD
    · cases (hlow d h₂).symm.trans ht
    · exact h.alias_table D hD d h₁ h₂ ht
  case user_table =>
    intro t ht
    refine (h.user_table t (hold t ht)).imp id fun ⟨hh, hno'⟩ => ⟨hh, fun hm => ?_⟩
    rcases List.mem_cons.mp hm with rfl | hm
    · exact hno (hold t ht)
    · exact hno' hm
  case user_entry => exact fun t ht => h.user_entry t (hold t ht)
  case page_managed => exact h.page_managed
  case page_mapped => exact h.page_mapped
  case page_frame => exact h.page_frame
  case page_unshared => exact h.page_unshared
  case page_no_table => exact fun p hp f' h0 hf ht => h.page_no_table p hp f' h0 hf (hold f' ht)

theorem fillDirectory_keeps (h : SpacesInv ⟨s, dirs, pages⟩) {p f : ℕ} (hp : p ∈ pages)
    (hf : kernelFrame s.frames p = some f) (h0 : f ≠ 0) (hd : f ∉ dirs)
    (hzero : ∀ i, s.frames f i = 0#32) :
    ∃ fr, (do
        copyWords 256 (4096 * p + 0x300 * 4) (0xfffff000 + 0x300 * 4)
        let phy ← addrVirtualToPhy (4096 * p)
        store (4096 * p + 1023 * 4) (pgEntry phy)
        pure (4096 * p)) s = .ok (4096 * p, setFrames s fr) ∧
      SpacesInv ⟨setFrames s fr, f :: dirs, pages⟩ ∧
      (∀ q, PoolFlag.kernel.Managed q → kernelFrame fr q = kernelFrame s.frames q) ∧
      (∀ t, t ≠ f → fr t = s.frames t) ∧
      ∀ i < 1024, fr f i = if i = 1023 then pgEntry (4096 * f)
        else if 768 ≤ i then s.frames s.pageDir i else 0#32 := by
  have hm := h.page_managed p hp
  have hp20 : p < 2 ^ 20 := by
    have := hm.2
    omega
  obtain ⟨fr, hcopy, hu, hkf, hother, hrow⟩ := copyWords_keeps 256 h0 hd s 768 h hp hf rfl
  have hself := hu.self_mapped
  have hfu : kernelFrame fr p = some f := (hkf p hm).trans hf
  have hlt : f < 2 ^ 20 := (held_pool ((hu.page_frame p hp f hfu).resolve_left h0)).2
  obtain ⟨hlast, hkf'⟩ := content_keeps hu hp hfu h0 hd
    (m := setEntry fr f 1023 (pgEntry (4096 * f))) fun t ht => Function.update_of_ne ht _ _
  have hfinal := (hkf' p hm).trans hfu
  have hwords : ∀ i < 1024, setEntry fr f 1023 (pgEntry (4096 * f)) f i =
      if i = 1023 then pgEntry (4096 * f)
      else if 768 ≤ i then s.frames s.pageDir i else 0#32 := by
    intro i hi
    rw [setEntry_apply]
    by_cases hi' : i = 1023
    · rw [if_pos ⟨rfl, hi'⟩, if_pos hi']
    · rw [if_neg fun h => hi' h.2, if_neg hi', hrow i hi, hzero]
  refine ⟨setEntry fr f 1023 (pgEntry (4096 * f)), ?_, ?_,
    fun q hq => (hkf' q hq).trans (hkf q hq),
    fun t ht => (Function.update_of_ne ht _ _).trans (hother t ht), hwords⟩
  · rw [bind_of_ok hcopy, bind_of_ok (addrVirtualToPhy_of_frame hself hp20 (frameOf_page hu hp hfu)),
      bind_of_ok (store_apply (writeWord_page hu hp hfu (by norm_num) _))]
    rfl
  · refine addDir_keeps hlast ((hlast.page_frame p hp f hfinal).resolve_left h0)
      (hlast.page_no_table p hp f h0 hfinal) (fun d hd => ?_) (fun d h₁ h₂ => ?_) ?_
    · change target (setEntry fr f 1023 (pgEntry (4096 * f)) f d) = none
      rw [hwords d (by omega), if_neg (by omega), if_neg (by omega), target_zero]
    · change target (setEntry fr f 1023 (pgEntry (4096 * f)) f d) = some (kernelTable d)
      rw [hwords d (by omega), if_neg (by omega), if_pos h₁]
      exact h.kernel_table _ h.active d h₁ h₂
    · change target (setEntry fr f 1023 (pgEntry (4096 * f)) f 1023) = some f
      rw [hwords 1023 (by norm_num), if_pos rfl, target_pgEntry hlt]

theorem kernelPos_lt (PF : PoolFlag) {i : ℕ} (hi : i < s.poolLen .kernel) :
    poolPos s .kernel i < poolPos s .user 0 ∧
    ((PF = .user → 0 < s.vaddrLen .user) → poolPos s .kernel i < vaddrPos s PF 0) := by
  obtain ⟨nk, nu, hk, hu, -, -, h₃, h₄, h₅, h₆, h₇, h₈⟩ := layout_facts s.layout
  have hc := s.curr.shape
  simp only [kernelHeapStart, poolPos, vaddrPos, Bitmap.pos, MemState.poolLen,
    MemState.vaddrLen, MemState.pool, MemState.vaddrs] at *
  refine ⟨by omega, fun h0 => ?_⟩
  cases PF with
  | kernel =>
    simp only
    omega
  | user =>
    have := h0 rfl
    simp only
    omega

theorem keeps_of_behind (hl : s'.layout = s.layout) (hd : s'.pageDir = s.pageDir)
    (hb : ∀ i < s.poolLen .kernel, memBit s.bytes (poolPos s .kernel i) = true →
      memBit s'.bytes (poolPos s .kernel i) = true) : Keeps s s' := by
  refine ⟨hl, hd, fun f hf => ?_⟩
  obtain ⟨i, hi, he, hbit⟩ := hf
  refine ⟨i, ?_, ?_, ?_⟩
  · rwa [poolLen_of_layout hl]
  · rwa [poolStart_of_layout hl]
  · rw [poolBit_eq, poolPos_of_layout hl]
    exact hb i hi hbit

theorem vaddrRemovePages_keeps {n v : ℕ} (h0 : PF = .user → 0 < s.vaddrLen .user)
    (hrun : vaddrRemovePages PF n v s = .ok ((), s')) : s'.frames = s.frames ∧ Keeps s s' := by
  cases hrun
  refine ⟨rfl, keeps_of_behind rfl rfl fun i hi hbit => ?_⟩
  have hlt := (kernelPos_lt PF hi).2 h0
  simp only [memBit_setRange]
  rw [if_neg]
  · exact hbit
  · rintro ⟨hle, -⟩
    have : vaddrPos s PF 0 ≤ poolPos s .kernel i := by
      refine le_trans ?_ hle
      simp only [vaddrPos, Bitmap.pos]
      omega
    omega

/-- A frame that passes the assertion of the user loop has no bit in the kernel pool. -/
theorem pfree_user_keeps {phy : ℕ} (hok : userPhyOk s.layout phy = true)
    (hrun : pfree phy s = .ok ((), s')) : s'.frames = s.frames ∧ Keeps s s' := by
  obtain ⟨nk, nu, hk, hu, hks, hus, hkl, -⟩ := layout_facts s.layout
  simp only [userPhyOk, decide_eq_true_eq] at hok
  rw [pfree, get_bind] at hrun
  split at hrun
  · cases hrun
    refine ⟨rfl, keeps_of_behind rfl rfl fun i hi hbit => ?_⟩
    have hlt := (kernelPos_lt .kernel hi).1
    simp only [memBit_bitmapSet]
    rw [if_neg]
    · exact hbit
    · simp only [poolPos, Bitmap.pos, MemState.pool] at hlt ⊢
      omega
  · cases hrun
    refine ⟨rfl, keeps_of_behind rfl rfl fun i hi hbit => ?_⟩
    simp only [memBit_bitmapSet]
    rw [if_neg]
    · exact hbit
    · simp only [poolPos, Bitmap.pos, MemState.pool, MemState.poolLen, sub32, u32] at hi ⊢
      omega

theorem addrVirtualToPhy_state {a phy : ℕ} {t : MemState}
    (hrun : addrVirtualToPhy a s = .ok (phy, t)) : t = s := by
  cases hr : readWord s.frames s.pageDir (pteAddr a) with
  | none =>
    rw [addrVirtualToPhy, load_fault hr] at hrun
    cases hrun
  | some w =>
    rw [addrVirtualToPhy, load_bind hr] at hrun
    cases hrun
    rfl

theorem pageTablePteRemove_cases (h : SelfMapped s.frames s.pageDir) {p : ℕ} (hp : p < 2 ^ 20)
    (hrun : pageTablePteRemove (4096 * p) s = .ok ((), s')) :
    ∃ t, s.tableOf (p / 1024) = some t ∧ s' = unmapEntry s t p := by
  cases ht : s.tableOf (p / 1024) with
  | none =>
    have hread : readWord s.frames s.pageDir (pteAddr (4096 * p)) = none := by
      rw [readWord_pteAddr h.self (by omega), Nat.mul_div_cancel_left p (by decide), KernelPaging.entryOf,
        MemState.tableOf_eq ht, Option.map_none]
    rw [pageTablePteRemove, load_fault hread] at hrun
    cases hrun
  | some t =>
    rw [pageTablePteRemove_apply h hp ht] at hrun
    cases hrun
    exact ⟨t, rfl, rfl⟩

theorem freeLoop_cons {a : Assertion} {ok : MemLayout → ℕ → Bool} {left v phy : ℕ}
    (hrun : freeLoop a ok (left + 1) v phy s = .ok ((), s')) :
    ok s.layout phy = true ∧ ∃ t u phy', pfree phy s = .ok ((), t) ∧
      pageTablePteRemove v t = .ok ((), u) ∧
      addrVirtualToPhy (u32 (v + 4096)) u = .ok (phy', u) ∧
      freeLoop a ok left (u32 (v + 4096)) phy' u = .ok ((), s') := by
  rw [freeLoop, get_bind, assert, ensure_bind_ok_iff] at hrun
  obtain ⟨hok, hrun⟩ := hrun
  obtain ⟨_, t, hfree, hrun⟩ := bind_ok_iff.mp hrun
  obtain ⟨_, u, hremove, hrun⟩ := bind_ok_iff.mp hrun
  obtain ⟨phy', w, hread, hrest⟩ := bind_ok_iff.mp hrun
  cases addrVirtualToPhy_state hread
  exact ⟨hok, t, _, phy', hfree, hremove, hread, hrest⟩

/-- The loop for user frames, on pages below the kernel's. A page below entry 0 of the loader's
directory is a kernel page as well, but none that was handed out: those lie on kernel frames. -/
theorem freeLoop_user_keeps (left : ℕ) : ∀ (s : MemState) (p phy : ℕ),
    SpacesInv ⟨s, dirs, pages⟩ → p + left ≤ 0xc0000 →
    (0 < left → ∀ f, s.frameOf p = some f → phy = 4096 * f) →
    freeLoop .freePagesUserPhy userPhyOk left (4096 * p) phy s = .ok ((), s') →
    SpacesInv ⟨s', dirs, pages⟩ ∧ s'.layout = s.layout ∧ s'.curr = s.curr := by
  induction left with
  | zero =>
    intro s p phy h _ _ hrun
    cases hrun
    exact ⟨h, rfl, rfl⟩
  | succ left ih =>
    intro s p phy h hp hphy hrun
    obtain ⟨hok, t, u, phy', hfree, hremove, hread, hrun⟩ := freeLoop_cons hrun
    obtain ⟨hframes, hkeep⟩ := pfree_user_keeps hok hfree
    have hcurr : t.curr = s.curr := by
      rw [pfree, get_bind] at hfree
      split at hfree <;> cases hfree <;> rfl
    have ht : SpacesInv ⟨t, dirs, pages⟩ := h.bits hframes hkeep
    obtain ⟨x, hx, rfl⟩ := pageTablePteRemove_cases ht.self_mapped (by omega) hremove
    have hu : SpacesInv ⟨unmapEntry t x p, dirs, pages⟩ := by
      by_cases halias : x = 0x101
      · subst halias
        have h0 : p / 1024 = 0 := by
          by_contra h0
          exact ht.alias_table _ ht.active (p / 1024) (by omega) (by omega) hx
        have htab : kernelTable ((0xc0000 + p) / 1024) = 0x101 := by
          unfold kernelTable
          omega
        have hidx : (0xc0000 + p) % 1024 = p % 1024 := by omega
        have hno : 0xc0000 + p ∉ pages := by
          intro hmem
          obtain ⟨f, hf⟩ := Option.ne_none_iff_exists'.mp (h.page_mapped _ hmem)
          have hframe : s.frameOf p = some f := by
            rw [kernelFrame, htab, hidx] at hf
            have hx : s.tableOf (p / 1024) = some 0x101 := by
              rw [MemState.tableOf, ← hframes, ← hkeep.pageDir]
              exact hx
            simpa only [MemState.frameOf, KernelPaging.frameOf, KernelPaging.entryOf,
              MemState.tableOf_eq hx, Option.map_some, Option.bind_some] using hf
          have hphy := hphy (by omega) f hframe
          obtain ⟨nk, nu, hk, hu, hks, hus, hkl, -⟩ := layout_facts s.layout
          simp only [userPhyOk, decide_eq_true_eq] at hok
          have hstart : s.poolStart .kernel = 0x200 := poolStart_kernel s
          rcases h.page_frame _ hmem f hf with h0 | ⟨i, hi, he, -⟩
          · omega
          · have he : f = s.poolStart .kernel + i := he
            simp only [MemState.poolLen, MemState.pool] at hi
            omega
        have hstep := (ht.kernelEntry (p := 0xc0000 + p) (t.frames 0x101 (p % 1024) &&& ~~~1#32)
          (by omega) (by omega) hno).1
        rw [htab, hidx] at hstep
        exact hstep
      · refine userEntry_keeps ht ⟨halias, _, ht.active, p / 1024, by omega, hx⟩ fun g hg => ?_
        rw [target_clear] at hg
        cases hg
    rw [u32_next_page (by omega)] at hrun hread
    have hphy' : 0 < left → ∀ f, (unmapEntry t x p).frameOf (p + 1) = some f → phy' = 4096 * f := by
      intro _ f hf
      have hnext := addrVirtualToPhy_of_frame hu.self_mapped (by omega) hf
      exact congrArg Prod.fst (Except.ok.inj (hread.symm.trans hnext))
    obtain ⟨hinv, hl, hc⟩ := ih _ (p + 1) phy' hu (by omega) hphy' hrun
    exact ⟨hinv, hl.trans hkeep.layout, hc.trans hcurr⟩

theorem release_keeps (h : SpacesInv ⟨s, dirs, pages⟩) {p f x : ℕ} (hp : p ∈ pages)
    (hf : kernelFrame s.frames p = some f) (hd : f ∉ dirs) {t : MemState}
    (hok : kernelPhyOk s.layout (4096 * f) = true) (hfree : pfree (4096 * f) s = .ok ((), t))
    (hx : t.tableOf (p / 1024) = some x) :
    SpacesInv ⟨unmapEntry t x p, dirs, pages.filter fun q => ¬ q = p⟩ ∧
      ∀ q ∈ pages, q ≠ p → kernelFrame (unmapEntry t x p).frames q = kernelFrame s.frames q := by
  obtain ⟨nk, nu, hk, hu, hks, hus, hkl, -⟩ := layout_facts s.layout
  obtain ⟨h₁, h₂⟩ := h.page_managed p hp
  simp only [kernelPhyOk, decide_eq_true_eq] at hok
  rw [pfree, get_bind, if_neg (by omega)] at hfree
  cases hfree
  have hself : s.tableOf (p / 1024) = some (kernelTable (p / 1024)) :=
    h.kernel_table _ h.active _ (by omega) (by omega)
  have hxe : x = kernelTable (p / 1024) := Option.some.inj (hx.symm.trans hself)
  rw [hxe]
  set w := s.frames (kernelTable (p / 1024)) (p % 1024) &&& ~~~1#32 with hw
  set others := pages.filter fun q => ¬ q = p with hothers
  have hmem : ∀ q ∈ others, q ∈ pages ∧ q ≠ p := by
    intro q hq
    rw [hothers, List.mem_filter, decide_eq_true_eq] at hq
    exact hq
  have hfewer : SpacesInv ⟨s, dirs, others⟩ := h.fewerPages fun q hq => (hmem q hq).1
  obtain ⟨hcut, hold⟩ := hfewer.kernelEntry w (by omega) h₂ fun hq => (hmem p hq).2 rfl
  have hkf : ∀ q ∈ pages, q ≠ p → kernelFrame
      (setEntry s.frames (kernelTable (p / 1024)) (p % 1024) w) q = kernelFrame s.frames q :=
    fun q hq hne => (kernelFrame_setEntry (by omega) (h.page_managed q hq) w).trans (if_neg hne)
  have hunused : Unused (setEntry s.frames (kernelTable (p / 1024)) (p % 1024) w) dirs others f := by
    refine ⟨hd, fun ht => h.page_no_table p hp f (by omega) hf (hold f ht), fun q hq hqf => ?_⟩
    obtain ⟨hq, hne⟩ := hmem q hq
    rw [hkf q hq hne] at hqf
    exact hne (h.page_unshared q hq p hp f (by omega) hqf hf)
  refine ⟨hcut.dropBit rfl rfl rfl hunused ?_, fun q hq hne => ?_⟩
  swap
  · rw [unmapEntry, setFrames_frames]
    exact hkf q hq hne
  rintro g hg ⟨i, hi, he, hbit⟩
  refine ⟨i, hi, he, ?_⟩
  have hstart : s.poolStart .kernel = 0x200 := poolStart_kernel s
  have he : g = s.poolStart .kernel + i := he
  change memBit (bitmapSet s.bytes _ _ false) (poolPos s .kernel i) = true
  rw [memBit_bitmapSet, if_neg]
  · exact hbit
  · simp only [poolPos, Bitmap.pos, MemState.pool, sub32, u32]
    omega

theorem freeLoop_kernel_keeps (left : ℕ) : ∀ (s : MemState) (pages : List ℕ) (p phy : ℕ),
    SpacesInv ⟨s, dirs, pages⟩ → (∀ j < left, p + j ∈ pages ∧
      ∃ f, kernelFrame s.frames (p + j) = some f ∧ f ∉ dirs) →
    (0 < left → ∀ f, kernelFrame s.frames p = some f → phy = 4096 * f) →
    freeLoop .freePagesKernelPhy kernelPhyOk left (4096 * p) phy s = .ok ((), s') →
    SpacesInv ⟨s', dirs, pages.filter fun q => ¬ InRange p left q⟩ := by
  induction left with
  | zero =>
    intro s pages p phy h _ _ hrun
    cases hrun
    exact h.fewerPages fun q hq => (List.mem_filter.mp hq).1
  | succ left ih =>
    intro s pages p phy h hpages hphy hrun
    obtain ⟨hp, f, hf, hd⟩ := hpages 0 (by omega)
    rw [Nat.add_zero] at hp hf
    obtain rfl := hphy (by omega) f hf
    obtain ⟨h₁, h₂⟩ := h.page_managed p hp
    obtain ⟨hok, t, u, phy', hfree, hremove, hread, hrun⟩ := freeLoop_cons hrun
    have hsame : t.frames = s.frames ∧ t.pageDir = s.pageDir := by
      rw [pfree, get_bind] at hfree
      split at hfree <;> cases hfree <;> exact ⟨rfl, rfl⟩
    have hself : SelfMapped t.frames t.pageDir := by
      rw [hsame.1, hsame.2]
      exact h.self_mapped
    obtain ⟨x, hx, rfl⟩ := pageTablePteRemove_cases hself (by omega) hremove
    obtain ⟨hinv, hkf⟩ := release_keeps h hp hf hd hok hfree hx
    rw [u32_next_page (by omega)] at hrun hread
    have hothers : ∀ j < left, p + 1 + j ∈ pages.filter fun q => ¬ q = p := by
      intro j hj
      rw [List.mem_filter, decide_eq_true_eq, show p + 1 + j = p + (j + 1) by omega]
      exact ⟨(hpages (j + 1) (by omega)).1, by omega⟩
    refine (ih _ _ (p + 1) phy' hinv (fun j hj => ⟨hothers j hj, ?_⟩) (fun hleft g hg => ?_)
      hrun).fewerPages fun q hq => ?_
    · obtain ⟨hmem, g, hg, hgd⟩ := hpages (j + 1) (by omega)
      rw [show p + (j + 1) = p + 1 + j by omega] at hmem hg
      exact ⟨g, (hkf _ hmem (by omega)).trans hg, hgd⟩
    · have hphy' := addrVirtualToPhy_of_frame hinv.self_mapped (by omega)
        (frameOf_page hinv (hothers 0 hleft) hg)
      exact congrArg Prod.fst (Except.ok.inj (hread.symm.trans hphy'))
    · obtain ⟨hmem, hout⟩ := List.mem_filter.mp hq
      have hout : ¬ InRange p (left + 1) q := of_decide_eq_true hout
      have hnot : ¬ q = p ∧ ¬ InRange (p + 1) left q := by
        simp only [InRange] at hout ⊢
        omega
      exact List.mem_filter.mpr
        ⟨List.mem_filter.mpr ⟨hmem, decide_eq_true hnot.1⟩, decide_eq_true hnot.2⟩

theorem Freeable.frame (h : SpacesInv ⟨s, dirs, pages⟩) {q : ℕ}
    (hq : Freeable ⟨s, dirs, pages⟩ PF q) : ∃ f, s.frameOf q = some f ∧
      (PF = .user → s.poolStart .user ≤ f) ∧
      (PF = .kernel → kernelFrame s.frames q = some f ∧ (f = 0 ∨ Held s .kernel f)) := by
  cases PF with
  | user =>
    obtain ⟨-, f, hf, hge⟩ := hq.owned rfl
    exact ⟨f, hf, fun _ => hge, fun hPF => by cases hPF⟩
  | kernel =>
    have hmem : q ∈ pages := hq.handed rfl
    obtain ⟨h₁, h₂⟩ := h.page_managed q hmem
    obtain ⟨f, hf⟩ := Option.ne_none_iff_exists'.mp (h.page_mapped q hmem)
    exact ⟨f, frameOf_page h hmem hf, (fun hPF => by cases hPF),
      fun _ => ⟨hf, h.page_frame q hmem f hf⟩⟩

theorem Freeable.page_lt (h : SpacesInv ⟨s, dirs, pages⟩) {q : ℕ}
    (hq : Freeable ⟨s, dirs, pages⟩ PF q) : q < 2 ^ 20 := by
  cases PF with
  | user =>
    have := (hq.owned rfl).1
    omega
  | kernel =>
    have := (h.page_managed q (hq.handed rfl)).2
    omega

/-- The kernel's directory and the loaded one lie on none of the pages. -/
theorem dirsKept_keeps (h : SpacesInv ⟨s, dirs, pages⟩) {p n : ℕ}
    (hfree : ∀ q, InRange p n q → Freeable ⟨s, dirs, pages⟩ PF q) :
    SpacesInv ⟨s, dirsKept ⟨s, dirs, pages⟩ p n, pages⟩ := by
  have hmem : ∀ D ∈ dirs, (∀ j < n, s.frameOf (p + j) ≠ some D) →
      D ∈ dirsKept ⟨s, dirs, pages⟩ p n := by
    intro D hD hne
    exact List.mem_filter.mpr ⟨hD, decide_eq_true hne⟩
  refine h.fewer (fun D hD => (List.mem_filter.mp hD).1) (hmem _ h.kernel_dir fun j hj hf => ?_)
    (hmem _ h.active fun j hj => (hfree _ ⟨by omega, by omega⟩).inactive) fun _ hp => hp
  obtain ⟨f, hf', huser, hkernel⟩ := Freeable.frame h (hfree (p + j) ⟨by omega, by omega⟩)
  cases hf'.symm.trans hf
  have hle := poolStart_le s .user
  have ho := pool_order s
  cases PF with
  | user =>
    have := huser rfl
    have hk := poolStart_kernel s
    omega
  | kernel =>
    rcases (hkernel rfl).2 with h0 | h0
    · omega
    · have := (held_pool h0).1
      omega

theorem freePages_keeps (h : SpacesInv ⟨s, dirs, pages⟩) {p n : ℕ}
    (hfree : ∀ q, InRange p n q → Freeable ⟨s, dirs, pages⟩ PF q)
    (hv : PF = .user → 0 < s.vaddrLen .user)
    (hrun : freePages PF n (4096 * p) s = .ok ((), s')) :
    SpacesInv ⟨s', dirsKept ⟨s, dirs, pages⟩ p n, pages.filter fun q => ¬ InRange p n q⟩ := by
  have hkept := dirsKept_keeps h hfree
  have hle := poolStart_le s .user
  have ho := pool_order s
  rw [freePages, assert, ensure_bind_ok_iff] at hrun
  obtain ⟨⟨hn, -⟩, hrun⟩ := hrun
  have hfirst := hfree p ⟨le_rfl, by omega⟩
  have hlast := hfree (p + (n - 1)) ⟨by omega, by omega⟩
  obtain ⟨f, hf, huser, hkernel⟩ := Freeable.frame h hfirst
  have hp20 : p < 2 ^ 20 := Freeable.page_lt h hfirst
  have hself : SelfMapped s.frames s.pageDir := h.self_mapped
  rw [bind_of_ok (addrVirtualToPhy_of_frame hself hp20 hf), assert, ensure_bind_ok_iff] at hrun
  obtain ⟨⟨-, hlow⟩, hrun⟩ := hrun
  rw [get_bind] at hrun
  cases PF with
  | user =>
    have hend := (hlast.owned rfl).1
    have hge : s.poolStart .user ≤ f := huser rfl
    by_cases hgt : 4096 * f > s.layout.userPool.phyStartAddr
    · rw [if_pos hgt] at hrun
      obtain ⟨_, t, hloop, hrun⟩ := bind_ok_iff.mp hrun
      obtain ⟨hinv, hl, hc⟩ := freeLoop_user_keeps n s p _ hkept (by omega) (fun _ g hg => by
        cases hf.symm.trans hg
        rfl) hloop
      have hv' : PoolFlag.user = .user → 0 < t.vaddrLen .user := by
        intro _
        simpa only [MemState.vaddrLen, MemState.vaddrs, hc] using hv rfl
      obtain ⟨hframes, hkeep⟩ := vaddrRemovePages_keeps hv' hrun
      exact (hinv.bits hframes hkeep).fewerPages fun q hq => (List.mem_filter.mp hq).1
    · -- the user pool's first frame is sent to the kernel loop, whose assertion refuses it
      rw [if_neg hgt] at hrun
      obtain ⟨_, t, hloop, -⟩ := bind_ok_iff.mp hrun
      obtain ⟨m, rfl⟩ : ∃ m, n = m + 1 := ⟨n - 1, by omega⟩
      obtain ⟨hok, -⟩ := freeLoop_cons hloop
      simp only [kernelPhyOk, decide_eq_true_eq] at hok
      omega
  | kernel =>
    obtain ⟨hkf, hheld⟩ := hkernel rfl
    obtain ⟨i, hi, he, -⟩ : Held s .kernel f := hheld.resolve_left (by omega)
    have hk := poolStart_kernel s
    rw [if_neg (by omega)] at hrun
    obtain ⟨_, t, hloop, hrun⟩ := bind_ok_iff.mp hrun
    have hinv := freeLoop_kernel_keeps n s pages p _ hkept (fun j hj => ?_) (fun _ g hg => ?_) hloop
    · obtain ⟨hframes, hkeep⟩ := vaddrRemovePages_keeps (fun hPF => by cases hPF) hrun
      exact hinv.bits hframes hkeep
    · have hj' := hfree (p + j) ⟨by omega, by omega⟩
      obtain ⟨g, hg, -, hgk⟩ := Freeable.frame h hj'
      refine ⟨hj'.handed rfl, g, (hgk rfl).1, fun hD => ?_⟩
      exact of_decide_eq_true (List.mem_filter.mp hD).2 j hj hg
    · cases hkf.symm.trans hg
      rfl

/-! ## Runs -/

end KernelDirectoryRuns
