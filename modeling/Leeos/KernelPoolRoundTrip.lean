import Leeos.KernelPoolLostFrames
import Leeos.KernelPoolRanges

/-!
# `free_pages` after `malloc_pages`

A range that has just been allocated is given back. `FreeSafe` says of the state before when this
undoes the allocation: a process's run begins at bit 0, the only bit that its address leads back
to, and the user pool's first frame is not handed out; the page behind the range has a page table
to be looked up in, and the new page tables share no frame.
-/
namespace KernelPoolRoundTrip

open ExecRules KernelBitmap KernelPaging KernelPools KernelPoolSteps KernelPoolInvariant
  KernelPoolMapping KernelPoolCalls KernelPoolRelease KernelPoolLoop KernelPoolLostFrames
  KernelPoolRanges LibStdint

variable {s s₁ s₂ : MemState} {PF : PoolFlag}

/-- Frame `f` became a page table between the two states. -/
def NewTable (s s₁ : MemState) (f : ℕ) : Prop := ∃ d, s.tableOf d = none ∧ s₁.tableOf d = some f

/-- State `s₂` is `s` again, apart from kernel frames that `s₁` uses as new page tables. -/
structure Undone (s s₁ s₂ : MemState) (p n : ℕ) : Prop where
  vaddr_bits : ∀ PF, ∀ i < s.vaddrLen PF, s₂.vaddrBit PF i = s.vaddrBit PF i
  pool_bits : ∀ PF, ∀ i < s.poolLen PF, s₂.poolBit PF i = s.poolBit PF i ∨
    (PF = .kernel ∧ NewTable s s₁ (s.poolStart .kernel + i))
  unmapped : ∀ q, p ≤ q → q < p + n → s₂.frameOf q = none
  others : ∀ q, Plain q → ¬ (p ≤ q ∧ q < p + n) → s₂.frameOf q = s.frameOf q

/-- The range that the allocation from `s` to `s₁` has returned can be given back. -/
def RoundTrips (s s₁ : MemState) (PF : PoolFlag) (n v : ℕ) : Prop :=
  ∃ s₂, freePages PF n v s₁ = .ok ((), s₂) ∧ Undone s s₁ s₂ (v / 4096) n

structure FreeSafe (s : MemState) (PF : PoolFlag) (r n : ℕ) : Prop where
  first_frame : PF = .user → r = 0 ∧ s.poolBit .user 0 = true
  next_table : (PF.page r + n) % 1024 = 0 → s.tableOf ((PF.page r + n) / 1024) ≠ none
  tables : absentTables s (PF.page r) n ≤ freeCount s .kernel + 1

theorem first_run_needed {n v : ℕ} (hrun : mallocPages .user n s = .ok (v, s₁)) (hv : v ≠ 0)
    (hrt : RoundTrips s s₁ .user n v) : vaddrRun s .user n = some 0 := by
  have hn := mallocPages_count hrun
  obtain ⟨r, hr, hva, -, -⟩ := mallocPages_loop hrun hv
  obtain ⟨s₂, hfree, hundone⟩ := hrt
  obtain ⟨h0, hlen, hone, hclear⟩ := vaddrRun_facts hn.1 hr
  have hlen' := (vaddr_facts s .user h0).2.2 rfl
  have hstart := (vaddr_facts s .user h0).1
  have hgrow := mallocPages_grows hr hrun
  have hv₁ : s₁.vaddrs .user = s.vaddrs .user := by simp only [MemState.vaddrs, hgrow.curr]; rfl
  have hlen₁ : s₁.vaddrLen .user = s.vaddrLen .user := by simp only [MemState.vaddrLen, hv₁]
  have hidx : sub32 v (s.vaddrs .user).vaddrStart / 4096 = 4 * r % 2 ^ 20 := by
    rw [hva, hstart]
    simp only [allocedPagesAddr, sub32, u32, PoolFlag.base]
    omega
  -- the bits of the run are set by the allocation, so `free_pages` has to clear them
  have hin : ∀ j < n, r + j < s.vaddrLen .user →
      4 * r % 2 ^ 20 ≤ r + j ∧ r + j < 4 * r % 2 ^ 20 + n := by
    intro j hj hlt
    by_contra hout
    have hset : s₁.vaddrBit .user (r + j) = true := by
      have hpos : s₁.vaddrBit .user (r + j) = memBit s₁.bytes (vaddrPos s .user (r + j)) := by
        rw [vaddrBit_eq, vaddrPos, hv₁]
        rfl
      rw [hpos]
      refine hgrow.bits _ ?_
      rw [memBit_setVaddr, if_pos]
      simp only [vaddrPos_add]
      omega
    have hback := hundone.vaddr_bits .user (r + j) hlt
    obtain ⟨t, ht, rfl⟩ := freePages_bits hfree
    rw [setVaddr_vaddrBit, hv₁, hidx, if_neg hout, ht.vaddrBit (by omega), hset, hclear j hj] at hback
    cases hback
  have hfirst := hin 0 (by omega) (by omega)
  have hzero : r = 0 := by
    by_cases hend : r + (n - 1) < s.vaddrLen .user
    · have hlast := hin (n - 1) (by omega) hend
      have hback : 4 * r % 2 ^ 20 = r := Nat.le_antisymm hfirst.1 (by omega)
      omega
    · omega
  rw [hr, hzero]

/-! ## Pages and frames -/

section Safe

variable {n r : ℕ} {g : ℕ → ℕ}

/-- The run of a call that the round trip can undo, and what the call has done with it. -/
theorem mallocPages_mapped (h : Consistent s) {v : ℕ} (hrun : mallocPages PF n s = .ok (v, s₁))
    (hv : v ≠ 0) (hr : vaddrRun s PF n = some r) (hu : PF = .user → r = 0)
    (hfit : absentTables s (PF.page r) n ≤ freeCount s .kernel + 1) :
    v = 4096 * PF.page r ∧ PoolInv s₁ ∧
      ∃ g, PagesMapped (setVaddr s PF r n true) s₁ PF (PF.page r) n g := by
  have hfits : MallocFits 1 s PF n := by
    intro hn r' hr'
    rw [hr, Option.some.injEq] at hr'
    subst hr'
    refine ⟨?_, fun hPF => by have := hu hPF; omega⟩
    have hle : absentTables s (PF.page r) (min n (freeCount s PF)) ≤
        absentTables s (PF.page r) n := absentTables_mono s _ (Nat.min_le_left _ _)
    exact hle.trans hfit
  rcases mallocPages_spec h.pool hfits (Or.inr ⟨rfl, h.zero_free⟩) hrun with
    ⟨h0, -⟩ | ⟨r', k, g, hr', -, hinv, hm, hend, -⟩
  · exact (hv h0).elim
  · rw [hr, Option.some.injEq] at hr'
    subst hr'
    rcases hend with ⟨hva, rfl⟩ | ⟨h0, -⟩
    · exact ⟨hva, hinv, g, hm⟩
    · exact (hv h0).elim

theorem mapped_freeReady (h : Consistent s) (hn : 1 ≤ n) (hr : vaddrRun s PF n = some r)
    (hm : PagesMapped (setVaddr s PF r n true) s₁ PF (PF.page r) n g)
    (hfirst : PF = .user → s.poolBit .user 0 = true) : FreeReady s₁ PF (PF.page r) n g := by
  obtain ⟨h0, hlen, -, -⟩ := vaddrRun_facts hn hr
  intro j hj
  have hmg : PF.Managed (PF.page r + j) := (hm.unmapped _ (by omega) (by omega)).1
  have hin : g j < s.poolLen PF := hm.inside j hj
  have hclear : s.poolBit PF (g j) = false := by
    rw [← setVaddr_poolBit true hlen h0 hin]
    exact hm.free j hj
  refine ⟨hmg, ?_, ?_, ?_, fun hPF => ?_⟩
  · rw [hm.frames _ (managed_plain hmg), if_pos (by omega), poolStart_of_layout hm.grows.layout,
      Nat.add_sub_cancel_left]
  · rw [poolLen_of_layout hm.grows.layout]
    exact hin
  · rw [poolStart_of_layout hm.grows.layout, hm.pageDir]
    exact (h.pool.fresh hin hclear).not_dir
  · have hbit := hfirst hPF
    rw [← hPF] at hbit
    refine Nat.pos_of_ne_zero fun hz => ?_
    rw [hz, hbit] at hclear
    cases hclear

theorem bits_undone (hn : 1 ≤ n) (hr : vaddrRun s PF n = some r)
    (hm : PagesMapped (setVaddr s PF r n true) s₁ PF (PF.page r) n g)
    (hrel : PagesReleased s₁ s₂ PF (PF.page r) n g) (x : ℕ) :
    memBit (setVaddr s₂ PF r n false).bytes x = memBit s.bytes x ∨
      ∃ i < s.poolLen .kernel, x = poolPos s .kernel i ∧
        NewTable s s₁ (s.poolStart .kernel + i) := by
  have hpos : ∀ i, vaddrPos s₂ PF i = vaddrPos s PF i := by
    intro i
    have h₁ := hm.grows.layout
    have h₂ := hm.grows.curr
    cases PF <;> simp only [vaddrPos, MemState.vaddrs, hrel.layout, hrel.curr, h₁, h₂] <;> rfl
  rw [memBit_setVaddr, hpos, hpos]
  by_cases hx : vaddrPos s PF r ≤ x ∧ x < vaddrPos s PF (r + n)
  · rw [if_pos hx]
    obtain ⟨j, rfl⟩ := Nat.exists_eq_add_of_le hx.1
    rw [vaddrPos_add] at hx
    have hclear := (vaddrRun_facts hn hr).2.2.2 j (by omega)
    rw [vaddrBit_eq, vaddrPos_add] at hclear
    exact Or.inl hclear.symm
  · rw [if_neg hx]
    have hmark : memBit (setVaddr s PF r n true).bytes x = memBit s.bytes x := by
      rw [memBit_setVaddr, if_neg hx]
    have hpool : ∀ i, poolPos s₁ PF i = poolPos s PF i := poolPos_of_layout hm.grows.layout PF
    by_cases hj : ∃ j < n, x = poolPos s PF (g j)
    · obtain ⟨j, hj, rfl⟩ := hj
      have hfree : memBit (setVaddr s PF r n true).bytes (poolPos s PF (g j)) = false := hm.free j hj
      rw [← hmark, hfree, ← hpool]
      exact Or.inl (hrel.cleared j hj)
    · push Not at hj
      rw [hrel.kept x fun j hjn => hpool _ ▸ hj j hjn, ← hmark]
      cases hb : memBit s₁.bytes x with
      | false =>
        cases hb' : memBit (setVaddr s PF r n true).bytes x with
        | false => exact Or.inl rfl
        | true => rw [hm.grows.bits x hb'] at hb; cases hb
      | true =>
        rcases hm.bits x hb with hb' | ⟨j, hjn, hxj⟩ | ⟨d, hd, i, hi, hxi, ht⟩
        · exact Or.inl hb'.symm
        · exact (hj j hjn hxj).elim
        · exact Or.inr ⟨i, hi, hxi, d, hd, ht⟩

theorem page_bit (hu : PF = .user → r = 0) : PF.page r - PF.base = r ∧ PF.base ≤ PF.page r := by
  cases PF with
  | kernel => exact ⟨Nat.add_sub_cancel_left _ r, Nat.le_add_right _ r⟩
  | user =>
    have := hu rfl
    simp only [PoolFlag.page, PoolFlag.base]
    omega

theorem undone_of_safe (h : Consistent s) {v : ℕ} (hrun : mallocPages PF n s = .ok (v, s₁))
    (hv : v ≠ 0) (hr : vaddrRun s PF n = some r) (hs : FreeSafe s PF r n) :
    RoundTrips s s₁ PF n v := by
  have hn := mallocPages_count hrun
  obtain ⟨rfl, hinv, g, hm⟩ :=
    mallocPages_mapped h hrun hv hr (fun hPF => (hs.first_frame hPF).1) hs.tables
  obtain ⟨h0, hlen, -, -⟩ := vaddrRun_facts hn.1 hr
  obtain ⟨hbit, hbase⟩ := page_bit fun hPF => (hs.first_frame hPF).1
  have hready := mapped_freeReady h hn.1 hr hm fun hPF => (hs.first_frame hPF).2
  have hlen₁ : s₁.vaddrLen PF = s.vaddrLen PF :=
    SameThread.vaddrLen ⟨hm.grows.layout, hm.grows.curr⟩ PF
  obtain ⟨m, rfl⟩ : ∃ m, n = m + 1 := ⟨n - 1, by omega⟩
  obtain ⟨s₂, -, hrel, hfree⟩ := freePages_spec hinv hready (by omega) (by omega)
  have hnext : s₁.tableOf ((PF.page r + (m + 1)) / 1024) ≠ none := by
    by_cases hz : (PF.page r + (m + 1)) % 1024 = 0
    · obtain ⟨t, ht⟩ := Option.ne_none_iff_exists'.mp (hs.next_table hz)
      rw [hm.tables _ t ht]
      exact Option.some_ne_none _
    · rw [show (PF.page r + (m + 1)) / 1024 = (PF.page r + m) / 1024 by omega]
      exact hm.table_present _ (by omega) (by omega)
  rw [if_neg hnext, hbit] at hfree
  refine ⟨_, hfree, ?_⟩
  rw [Nat.mul_div_cancel_left _ (by norm_num)]
  have hbits := bits_undone hn.1 hr hm hrel
  have hplain : ∀ q, PF.page r ≤ q → q < PF.page r + (m + 1) → Plain q :=
    fun q h₁ h₂ => managed_plain (hm.unmapped q h₁ h₂).1
  have hl : (setVaddr s₂ PF r (m + 1) false).layout = s.layout := hrel.layout.trans hm.grows.layout
  have hc : (setVaddr s₂ PF r (m + 1) false).curr = s.curr := hrel.curr.trans hm.grows.curr
  constructor
  case vaddr_bits =>
    intro PF' i hi
    have hpos : vaddrPos (setVaddr s₂ PF r (m + 1) false) PF' i = vaddrPos s PF' i := by
      cases PF' <;> simp only [vaddrPos, MemState.vaddrs, hl, hc]
    rw [vaddrBit_eq, hpos]
    rcases hbits (vaddrPos s PF' i) with hx | ⟨j, hj, hx, -⟩
    · exact hx
    · exact (poolPos_ne_vaddrPos hj (by omega) (by omega) hx.symm).elim
  case pool_bits =>
    intro PF' i hi
    rw [poolBit_eq, poolPos_of_layout hl]
    rcases hbits (poolPos s PF' i) with hx | ⟨j, hj, hx, hnew⟩
    · exact Or.inl hx
    · have hPF : PF' = .kernel := by
        by_contra hne
        exact poolPos_ne hne hi hj hx
      subst hPF
      rw [poolPos_inj] at hx
      exact Or.inr ⟨rfl, hx ▸ hnew⟩
  case unmapped =>
    intro q h₁ h₂
    exact (hrel.frames q (hplain q h₁ h₂)).trans (if_pos ⟨h₁, h₂⟩)
  case others =>
    intro q hq hout
    exact (hrel.frames q hq).trans ((if_neg hout).trans
      ((hm.frames q hq).trans (if_neg hout)))

theorem first_frame_needed (hn : 1 ≤ n) (hr : vaddrRun s .user n = some r) (hinv : PoolInv s₁)
    (hm : PagesMapped (setVaddr s .user r n true) s₁ .user (PoolFlag.user.page r) n g)
    (hfree : freePages .user n (4096 * PoolFlag.user.page r) s₁ = .ok ((), s₂)) :
    s.poolBit .user 0 = true := by
  obtain ⟨h0, hlen, -, -⟩ := vaddrRun_facts hn hr
  have hp := managed_plain (hm.unmapped _ le_rfl (by omega)).1
  have hpos : ∀ i < s.poolLen .user, (setVaddr s .user r n true).poolBit .user i =
      s.poolBit .user i := fun i hi => setVaddr_poolBit true hlen h0 hi
  have hin : g 0 < s.poolLen .user := hm.inside 0 (by omega)
  by_cases hg0 : g 0 = 0
  · have hf := hm.frames _ hp
    rw [if_pos (by omega), Nat.sub_self, hg0, Nat.add_zero] at hf
    have hf' : s₁.frameOf (PoolFlag.user.page r) = some (s₁.poolStart .user) := by
      rw [hf, poolStart_of_layout hm.grows.layout]
    obtain ⟨m, rfl⟩ : ∃ m, n = m + 1 := ⟨n - 1, by omega⟩
    rw [freePages_first_user_frame hinv .user hp hf'] at hfree
    cases hfree
  · rw [← hpos 0 (by omega)]
    exact hm.least (by omega) 0 (by omega)

theorem next_table_needed (h : Consistent s) (hn : 1 ≤ n) (hr : vaddrRun s PF n = some r)
    (hinv : PoolInv s₁) (hm : PagesMapped (setVaddr s PF r n true) s₁ PF (PF.page r) n g)
    (hfirst : PF = .user → r = 0 ∧ s.poolBit .user 0 = true) (hz : (PF.page r + n) % 1024 = 0)
    (hfree : freePages PF n (4096 * PF.page r) s₁ = .ok ((), s₂)) :
    s.tableOf ((PF.page r + n) / 1024) ≠ none := by
  obtain ⟨h0, hlen, -, -⟩ := vaddrRun_facts hn hr
  obtain ⟨hbit, -⟩ := page_bit fun hPF => (hfirst hPF).1
  have hlen₁ : s₁.vaddrLen PF = s.vaddrLen PF :=
    SameThread.vaddrLen ⟨hm.grows.layout, hm.grows.curr⟩ PF
  obtain ⟨m, rfl⟩ : ∃ m, n = m + 1 := ⟨n - 1, by omega⟩
  obtain ⟨t, -, -, hrun⟩ := freePages_spec hinv
    (mapped_freeReady h hn hr hm fun hPF => (hfirst hPF).2) (by omega) (by omega)
  intro ht
  have ht₁ : s₁.tableOf ((PF.page r + (m + 1)) / 1024) = none := by
    rw [hm.other_tables _ fun q h₁ h₂ => by omega]
    exact ht
  rw [if_pos ht₁, hfree] at hrun
  cases hrun

theorem tables_needed (h : Consistent s) {v : ℕ} (hrun : mallocPages PF n s = .ok (v, s₁))
    (hv : v ≠ 0) (hr : vaddrRun s PF n = some r) (hu : PF = .user → r = 0)
    (hrt : RoundTrips s s₁ PF n v) :
    absentTables s (PF.page r) n ≤ freeCount s .kernel + 1 := by
  by_contra hfew
  have hn := mallocPages_count hrun
  obtain ⟨h0, hlen, -, -⟩ := vaddrRun_facts hn.1 hr
  cases PF with
  | kernel =>
    rw [absentTables_kernel h.pool fun q h₁ h₂ => kernel_managed hn.1 hr h₁ h₂] at hfew
    omega
  | user =>
    have hr0 := hu rfl
    subst hr0
    have hmark : Consistent (setVaddr s .user 0 n true) := mark_consistent h 0 n
    have huser := (vaddr_facts s .user h0).2.2 rfl
    have hpage : PoolFlag.user.page 0 = 0x8048 := rfl
    rw [mallocPages_run hn hr fun _ => by norm_num [hpage]] at hrun
    obtain ⟨done, t, hloop, ht⟩ := bind_ok_iff.mp hrun
    cases ht
    cases done with
    | false => exact (hv rfl).elim
    | true =>
      have hgrow := mapPages_grows n _ _ _ _ (BitsGrow.refl _) hloop
      obtain ⟨hself, hnamed, f, hfree, hlost⟩ := mapPages_loses
        (fun f => (setVaddr s .user 0 n true).poolBit .user f = false) n _ _ le_rfl
        (ahead_of_consistent hmark (range_ready h.pool hn.1 hr fun _ => by norm_num [hpage]))
        (fun q h₁ h₂ => by omega) ⟨fun q h₁ h₂ => by omega, fun hlt => by omega⟩
        (Or.inl (by
          rw [freeCount_mark hn.1 hr]
          change freeCount s .kernel + 2 ≤ absentTables s _ n
          omega)) (fun _ _ hb => hb) s₁ hloop
      have hl₁ : s₁.layout = s.layout := hgrow.layout
      have hvl : s₁.vaddrLen .user = s.vaddrLen .user :=
        SameThread.vaddrLen ⟨hl₁, hgrow.curr⟩ .user
      have hbase : PoolFlag.user.base = 0x8048 := rfl
      obtain ⟨s₂, hfreed, hundone⟩ := hrt
      have hset := freePages_misses hself hnamed hlost hn.1 (by omega) (by omega) (by omega)
        (by omega) hfreed
      -- the lost frame's bit was clear before the allocation
      have hin : f < s.poolLen .user := by
        rw [← poolLen_of_layout hl₁]
        exact hlost.taken.1
      rw [setVaddr_poolBit true hlen h0 hin] at hfree
      rcases hundone.pool_bits .user f hin with hb | ⟨hPF, -⟩
      · rw [hset, hfree] at hb
        cases hb
      · cases hPF

end Safe

/-- What `malloc_pages` has returned can be given back exactly if the state before was safe. -/
theorem round_trips_iff {s s₁ : MemState} {PF : PoolFlag} {n v : ℕ} (h : Consistent s)
    (hrun : mallocPages PF n s = .ok (v, s₁)) (hv : v ≠ 0) :
    RoundTrips s s₁ PF n v ↔ ∀ r, vaddrRun s PF n = some r → FreeSafe s PF r n := by
  have hn := mallocPages_count hrun
  constructor
  · intro hrt r hr
    have hu : PF = .user → r = 0 := by
      rintro rfl
      exact Option.some.inj (hr.symm.trans (first_run_needed hrun hv hrt))
    have htab := tables_needed h hrun hv hr hu hrt
    obtain ⟨rfl, hinv, g, hm⟩ := mallocPages_mapped h hrun hv hr hu htab
    obtain ⟨s₂, hfree, -⟩ := hrt
    have hfirst : PF = .user → r = 0 ∧ s.poolBit .user 0 = true := by
      rintro rfl
      exact ⟨hu rfl, first_frame_needed hn.1 hr hinv hm hfree⟩
    exact ⟨hfirst, fun hz => next_table_needed h hn.1 hr hinv hm hfirst hz hfree, htab⟩
  · intro hsafe
    obtain ⟨r, hr, -⟩ := mallocPages_loop hrun hv
    exact undone_of_safe h hrun hv hr (hsafe r hr)

theorem consistent_sampleMachine (pages : ℕ) : Consistent (sampleMachine pages) :=
  ⟨(start_sampleMachine pages).2.1, (start_sampleMachine pages).2.2⟩

theorem round_trips_two_kernel_pages :
    ∃ s₁, mallocPages .kernel 2 (sampleMachine 16) = .ok (0xc0100000, s₁) ∧
      RoundTrips (sampleMachine 16) s₁ .kernel 2 0xc0100000 := by
  have hrun : yields (mallocPages .kernel 2) (sampleMachine 16) (fun v _ => v == 0xc0100000) =
      true := by
    decide +kernel
  obtain ⟨v, s₁, hs, hv⟩ := yields_iff.mp hrun
  cases beq_iff_eq.mp hv
  refine ⟨s₁, hs, (round_trips_iff (consistent_sampleMachine 16) hs (by norm_num)).mpr ?_⟩
  intro r hr
  have hzero : vaddrRun (sampleMachine 16) .kernel 2 = some 0 := by decide +kernel
  rw [hzero, Option.some.injEq] at hr
  subst hr
  exact ⟨fun h => (by cases h), fun h => (by simp [PoolFlag.page] at h), by decide +kernel⟩

/-- The first pages a process asks for get the user pool's first frame. -/
theorem round_trip_fails_two_user_pages : Consistent (sampleMachine 16) ∧
    ∃ s₁, mallocPages .user 2 (sampleMachine 16) = .ok (0x8048000, s₁) ∧
      freePages .user 2 0x8048000 s₁ = .error (.assertion .freePagesKernelPhy) ∧
      ¬ RoundTrips (sampleMachine 16) s₁ .user 2 0x8048000 := by
  have hrun : yields (mallocPages .user 2) (sampleMachine 16) (fun v s₁ => v == 0x8048000 &&
      decide ((freePages .user 2 0x8048000 s₁).map (fun _ => ()) =
        .error (.assertion .freePagesKernelPhy))) = true := by
    decide +kernel
  obtain ⟨v, s₁, hs, hv⟩ := yields_iff.mp hrun
  rw [Bool.and_eq_true, beq_iff_eq, decide_eq_true_eq] at hv
  obtain ⟨rfl, hfree⟩ := hv
  have herr : freePages .user 2 0x8048000 s₁ = .error (.assertion .freePagesKernelPhy) := by
    cases hf : freePages .user 2 0x8048000 s₁ with
    | error e =>
      rw [hf] at hfree
      cases hfree
      rfl
    | ok x =>
      rw [hf] at hfree
      cases hfree
  refine ⟨consistent_sampleMachine 16, s₁, hs, herr, ?_⟩
  rintro ⟨s₂, hok, -⟩
  rw [herr] at hok
  cases hok

end KernelPoolRoundTrip
