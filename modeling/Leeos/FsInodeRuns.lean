import Leeos.FsInodes

/-!
# Runs of `inode_open` and `inode_close`

A run starts at a mount and keeps two counts for every inode number, of the opens and of the
closes, and the list of the openers that have not closed yet, each with its pointer. The cache is
sound as long as no count goes over its 32 bits. Nothing looks at what `sys_malloc` returns, but
`memcpy` stops at an inode without memory.
-/
namespace FsInodeRuns

open ExecRules KernelBitmap FsDisk KernelHeapAccounts FsInodes LibStdint

structure OpenRun where
  fs : InodeState
  base : List Live
  openers : List (ℕ × ℕ)
  opens : ℕ → ℕ
  closes : ℕ → ℕ

inductive OpenCall where
  | inodeOpen (bufs : OpenBuffers) (inodeNo : ℕ)
  | inodeClose (inodeNo inode : ℕ)

/-- The heap may answer the two requests so. -/
def FreshBuffers (s : InodeState) (bufs : OpenBuffers) (inodeNo : ℕ) : Prop :=
  Fresh s.live bufs.inode inodeSize ∧ Fresh (inodeBlock bufs.inode :: s.live) bufs.ioBuf
    (512 * (inodePosition s.inodeTableLba inodeNo).sects)

inductive OpenStep : OpenCall → OpenRun → OpenRun → Prop
  | inodeOpen {x : OpenRun} {s' : InodeState} {bufs : OpenBuffers} {no p : ℕ} :
      FreshBuffers x.fs bufs no → FsInodes.inodeOpen bufs no x.fs = .ok (p, s') →
      OpenStep (.inodeOpen bufs no) x
        { x with fs := s', openers := (no, p) :: x.openers,
                 opens := Function.update x.opens no (x.opens no + 1) }
  | inodeClose {x : OpenRun} {s' : InodeState} {no p : ℕ} :
      (no, p) ∈ x.openers → FsInodes.inodeClose p x.fs = .ok ((), s') →
      OpenStep (.inodeClose no p) x
        { x with fs := s', openers := x.openers.erase (no, p),
                 closes := Function.update x.closes no (x.closes no + 1) }

/-- `base` are the blocks in use at the mount. -/
structure Mounted (x : OpenRun) : Prop where
  list : x.fs.openInodes = []
  live : x.fs.live = x.base
  apart : x.base.Pairwise BlocksApart
  nonnull : ∀ b ∈ x.base, b.ptr ≠ 0
  slots : ∀ no < 4096, slotNo x.fs no = no
  openers : x.openers = []
  opens : ∀ no, x.opens no = 0
  closes : ∀ no, x.closes no = 0

/-- The count of an inode that is opened again does not wrap. -/
def CountFits (x : OpenRun) : OpenCall → Prop
  | .inodeOpen _ no => ∀ p, findOpen x.fs no = some p → iOpenCnts x.fs.mem p + 1 < 2 ^ 32
  | .inodeClose _ _ => True

def FittingStep (x y : OpenRun) : Prop := ∃ c, CountFits x c ∧ OpenStep c x y

/-- List, counts and heap agree, and the next close by any opener frees the inode's block exactly
when it is the last one. -/
structure CacheSound (x : OpenRun) : Prop where
  unique : (x.fs.openInodes.map (iNo x.fs.mem)).Nodup
  listed : ∀ no, no ∈ x.fs.openInodes.map (iNo x.fs.mem) ↔ x.closes no < x.opens no
  counted : ∀ p ∈ x.fs.openInodes, iOpenCnts x.fs.mem p =
    x.opens (iNo x.fs.mem p) - x.closes (iNo x.fs.mem p)
  shared : ∀ o ∈ x.openers, o.2 ∈ x.fs.openInodes ∧ iNo x.fs.mem o.2 = o.1
  memory : x.fs.live.Perm (x.fs.openInodes.map inodeBlock ++ x.base)
  freed : ∀ o ∈ x.openers, ∃ s', inodeClose o.2 x.fs = .ok ((), s') ∧
    if x.opens o.1 = x.closes o.1 + 1 then x.fs.live.Perm (inodeBlock o.2 :: s'.live)
    else s'.live = x.fs.live

/-! ## The invariant -/

structure CacheInv (x : OpenRun) : Prop where
  slots : ∀ no < 4096, slotNo x.fs no = no
  live : x.fs.live.Perm (x.fs.openInodes.map inodeBlock ++ x.base)
  apart : (x.fs.openInodes.map inodeBlock ++ x.base).Pairwise BlocksApart
  nonnull : ∀ b ∈ x.fs.live, b.ptr ≠ 0
  unique : (x.fs.openInodes.map (iNo x.fs.mem)).Nodup
  counted : ∀ p ∈ x.fs.openInodes, 0 < iOpenCnts x.fs.mem p ∧
    x.opens (iNo x.fs.mem p) = x.closes (iNo x.fs.mem p) + iOpenCnts x.fs.mem p
  closed : ∀ no, (∀ p ∈ x.fs.openInodes, iNo x.fs.mem p ≠ no) → x.opens no = x.closes no
  openers : ∀ o ∈ x.openers, o.2 ∈ x.fs.openInodes ∧ iNo x.fs.mem o.2 = o.1
  balance : ∀ no, x.opens no = x.closes no + x.openers.countP (·.1 = no)

variable {x y : OpenRun} {s s' : InodeState} {p q no cnt : ℕ} {bufs : OpenBuffers}

theorem CacheInv.inodes_apart (h : CacheInv x) (hp : p ∈ x.fs.openInodes)
    (hq : q ∈ x.fs.openInodes) (hne : p ≠ q) : BlocksApart (inodeBlock p) (inodeBlock q) := by
  have hmem : ∀ {r}, r ∈ x.fs.openInodes → inodeBlock r ∈ x.fs.openInodes.map inodeBlock ++ x.base :=
    fun hr => List.mem_append_left _ (List.mem_map_of_mem hr)
  exact h.apart.forall (hmem hp) (hmem hq) fun heq => hne (congrArg Live.ptr heq)

theorem CacheInv.list_nodup (h : CacheInv x) : x.fs.openInodes.Nodup := List.Nodup.of_map _ h.unique

theorem CacheInv.same_inode (h : CacheInv x) (hp : p ∈ x.fs.openInodes)
    (hq : q ∈ x.fs.openInodes) (he : iNo x.fs.mem p = iNo x.fs.mem q) : p = q :=
  List.inj_on_of_nodup_map h.unique hp hq he

/-- Setting the count of one listed inode changes nothing of another. -/
theorem CacheInv.set_cnt (h : CacheInv x) (hp : p ∈ x.fs.openInodes) (hc : cnt < 2 ^ 32) :
    (∀ q ∈ x.fs.openInodes, iNo (setOpenCnts x.fs.mem p cnt) q = iNo x.fs.mem q) ∧
      ∀ q ∈ x.fs.openInodes, iOpenCnts (setOpenCnts x.fs.mem p cnt) q =
        if q = p then cnt else iOpenCnts x.fs.mem q := by
  constructor
  · intro q hq
    by_cases hqp : q = p
    · rw [hqp, iNo_setOpenCnts_self]
    · exact (kept_setOpenCnts (h.inodes_apart hp hq (Ne.symm hqp))).iNo
  · intro q hq
    split
    · next hqp => rw [hqp, iOpenCnts_setOpenCnts_self hc]
    · next hqp => exact (kept_setOpenCnts (h.inodes_apart hp hq (Ne.symm hqp))).iOpenCnts

theorem balance_open (h : CacheInv x) (no' : ℕ) :
    Function.update x.opens no (x.opens no + 1) no' =
      x.closes no' + ((no, p) :: x.openers).countP (·.1 = no') := by
  have hold := h.balance no'
  rw [List.countP_cons]
  by_cases he : no' = no
  · subst he
    rw [Function.update_self]
    simp only [decide_true, if_true]
    omega
  · rw [Function.update_of_ne he]
    simp only [decide_eq_true_eq, if_neg (Ne.symm he)]
    omega

theorem CacheInv.recount (h : CacheInv x) (hp : p ∈ x.fs.openInodes) (hno : iNo x.fs.mem p = no)
    (hc : cnt < 2 ^ 32) (hpos : 0 < cnt) {openers : List (ℕ × ℕ)} {opens closes : ℕ → ℕ}
    (hother : ∀ no', no' ≠ no → opens no' = x.opens no' ∧ closes no' = x.closes no')
    (hcount : opens no = closes no + cnt) (hopeners : ∀ o ∈ openers, o = (no, p) ∨ o ∈ x.openers)
    (hbalance : ∀ no', opens no' = closes no' + openers.countP (·.1 = no')) :
    CacheInv { x with
      fs := { x.fs with mem := setOpenCnts x.fs.mem p cnt }
      openers := openers
      opens := opens
      closes := closes } := by
  obtain ⟨hnum, hcnt⟩ := h.set_cnt hp hc
  constructor
  case slots => exact h.slots
  case live => exact h.live
  case apart => exact h.apart
  case nonnull => exact h.nonnull
  case unique =>
    rw [List.map_congr_left hnum]
    exact h.unique
  case counted =>
    intro q hq
    dsimp only
    rw [hnum q hq, hcnt q hq]
    by_cases hqp : q = p
    · rw [if_pos hqp, hqp, hno]
      exact ⟨hpos, hcount⟩
    · have hne : iNo x.fs.mem q ≠ no := fun he => hqp (h.same_inode hq hp (he.trans hno.symm))
      rw [if_neg hqp, (hother _ hne).1, (hother _ hne).2]
      exact h.counted q hq
  case closed =>
    intro no' hnone
    dsimp only at hnone ⊢
    have hne : no' ≠ no := fun he => hnone p hp (by rw [hnum p hp, hno, he])
    rw [(hother no' hne).1, (hother no' hne).2]
    exact h.closed no' fun q hq => hnum q hq ▸ hnone q hq
  case openers =>
    intro o ho
    rcases hopeners o ho with rfl | hold
    · exact ⟨hp, (hnum p hp).trans hno⟩
    · obtain ⟨hlisted, hsame⟩ := h.openers o hold
      exact ⟨hlisted, (hnum o.2 hlisted).trans hsame⟩
  case balance => exact hbalance

theorem open_hit (h : CacheInv x) (hf : findOpen x.fs no = some p)
    (hc : iOpenCnts x.fs.mem p + 1 < 2 ^ 32) :
    CacheInv { x with
      fs := { x.fs with mem := setOpenCnts x.fs.mem p (u32 (iOpenCnts x.fs.mem p + 1)) }
      openers := (no, p) :: x.openers
      opens := Function.update x.opens no (x.opens no + 1) } := by
  obtain ⟨hp, hno⟩ := findOpen_some hf
  rw [u32_of_lt hc]
  apply h.recount hp hno hc (Nat.succ_pos _)
  case hother => exact fun no' hne => ⟨Function.update_of_ne hne _ _, rfl⟩
  case hcount =>
    have hold := (h.counted p hp).2
    rw [hno] at hold
    rw [Function.update_self, hold, Nat.add_assoc]
  case hopeners => exact fun o ho => List.mem_cons.mp ho
  case hbalance => exact balance_open h

/-- What an open of an inode that is not on the list does. -/
structure Entered (s s' : InodeState) (no p : ℕ) : Prop where
  bound : no < 4096
  nonnull : p ≠ 0
  new : p ∉ s.openInodes
  list : s'.openInodes = s.openInodes ++ [p]
  live : s'.live = inodeBlock p :: s.live
  disk : s'.disk = s.disk ∧ s'.inodeTableLba = s.inodeTableLba
  number : iNo s'.mem p = slotNo s no
  count : iOpenCnts s'.mem p = 1
  kept : ∀ b ∈ s.live, Kept s.mem s'.mem b
  apart : ∀ b ∈ s.live, BlocksApart (inodeBlock p) b

/-- An open that returns has been given both blocks: without an inode `memcpy` stops it, and a null
buffer is no block that `sys_free` takes back. -/
theorem entered (hf : findOpen s no = none) (hfresh : FreshBuffers s bufs no)
    (hlive : ∀ b ∈ s.live, b.ptr ≠ 0) (hrun : inodeOpen bufs no s = .ok (p, s')) :
    Entered s s' no p := by
  obtain ⟨hlt, rfl, hi, hnew, ⟨b, hmem, hio⟩, rfl⟩ := inodeOpen_miss hf hrun
  have hb : bufs.ioBuf ≠ 0 := by
    intro h0
    rw [slotRead, h0, given, if_pos rfl, given, if_neg hi] at hmem
    rcases List.mem_cons.mp hmem with rfl | hmem
    · exact hi (hio.trans h0)
    · exact hlive b hmem (hio.trans h0)
  obtain ⟨hfi, hfb⟩ := hfresh
  replace hfi := (hfi.resolve_left hi).2
  replace hfb := (hfb.resolve_left hb).2
  refine ⟨hlt, hi, hnew, rfl, ?_, ⟨rfl, rfl⟩, iNo_miss, iOpenCnts_enteredMem, fun b hmem => ?_, hfi⟩
  · simp only [slotRead, given, if_neg hi, if_neg hb]
    rw [List.eraseP_cons_of_pos (by simp)]
    rfl
  · exact kept_miss (hfi b hmem) (hfb b (List.mem_cons_of_mem _ hmem))

/-- The inode is read from the disk and put on the list. -/
theorem open_miss (h : CacheInv x) (hf : findOpen x.fs no = none) (he : Entered x.fs s' no p) :
    CacheInv { x with
      fs := s'
      openers := (no, p) :: x.openers
      opens := Function.update x.opens no (x.opens no + 1) } := by
  have hlive : ∀ q ∈ x.fs.openInodes, inodeBlock q ∈ x.fs.live := fun q hq =>
    h.live.symm.subset (List.mem_append_left _ (List.mem_map_of_mem hq))
  have hnum : ∀ q ∈ x.fs.openInodes, iNo s'.mem q = iNo x.fs.mem q :=
    fun q hq => (he.kept _ (hlive q hq)).iNo
  have hcnt : ∀ q ∈ x.fs.openInodes, iOpenCnts s'.mem q = iOpenCnts x.fs.mem q :=
    fun q hq => (he.kept _ (hlive q hq)).iOpenCnts
  have hno : iNo s'.mem p = no := he.number.trans (h.slots no he.bound)
  have hother := findOpen_none hf
  have hzero := h.closed no hother
  have hperm : (s'.openInodes.map inodeBlock ++ x.base).Perm
      (inodeBlock p :: (x.fs.openInodes.map inodeBlock ++ x.base)) := by
    rw [he.list, List.map_append, List.append_assoc]
    exact List.perm_middle
  constructor
  case slots =>
    intro no' hlt
    rw [slotNo, he.disk.1, he.disk.2]
    exact h.slots no' hlt
  case live =>
    rw [he.live]
    exact (h.live.cons _).trans hperm.symm
  case apart =>
    refine (hperm.symm.pairwise_iff fun hb => Std.Symm.symm _ _ hb).mp
      (List.pairwise_cons.mpr ⟨fun b hb => ?_, h.apart⟩)
    exact he.apart b (h.live.symm.subset hb)
  case nonnull =>
    intro b hb
    rw [he.live] at hb
    rcases List.mem_cons.mp hb with rfl | hb
    · exact he.nonnull
    · exact h.nonnull b hb
  case unique =>
    rw [he.list, List.map_append, List.map_congr_left hnum, List.map_singleton, hno]
    refine List.nodup_append.mpr ⟨h.unique, List.nodup_singleton _, ?_⟩
    intro a ha b hb heq
    obtain ⟨q, hq, rfl⟩ := List.mem_map.mp ha
    exact hother q hq (heq.trans (List.mem_singleton.mp hb))
  case counted =>
    intro q hq
    dsimp only
    rw [he.list] at hq
    rcases List.mem_append.mp hq with hq | hq
    · rw [hnum q hq, hcnt q hq, Function.update_of_ne (hother q hq)]
      exact h.counted q hq
    · obtain rfl := List.mem_singleton.mp hq
      rw [hno, he.count, Function.update_self]
      omega
  case closed =>
    intro no' hnone
    dsimp only at hnone ⊢
    rw [he.list] at hnone
    have hne : no' ≠ no := fun heq => hnone p (by simp) (hno.trans heq.symm)
    rw [Function.update_of_ne hne]
    exact h.closed no' fun q hq => hnum q hq ▸ hnone q (List.mem_append_left _ hq)
  case openers =>
    intro o ho
    dsimp only
    rw [he.list]
    rcases List.mem_cons.mp ho with rfl | ho
    · exact ⟨by simp, hno⟩
    · have hold := h.openers o ho
      exact ⟨List.mem_append_left _ hold.1, (hnum o.2 hold.1).trans hold.2⟩
  case balance => exact balance_open h

/-! ## `inode_close` -/

theorem inodeClose_keep (h : 2 ≤ iOpenCnts s.mem p) : inodeClose p s =
    .ok ((), { s with mem := setOpenCnts s.mem p (iOpenCnts s.mem p - 1) }) := by
  have hlt : iOpenCnts s.mem p < 2 ^ 32 := loadWord_lt _ _
  rw [inodeClose, get_bind, decrement_of_pos (by omega) hlt, set_bind, if_neg (by omega),
    pure_apply]

theorem inodeClose_last (h : iOpenCnts s.mem p = 1) (hp : p ∈ s.openInodes)
    (hb : ∃ b ∈ s.live, b.ptr = p) :
    inodeClose p s = .ok ((), { s with
      mem := setOpenCnts s.mem p 0
      openInodes := s.openInodes.erase p
      live := s.live.eraseP (·.ptr = p) }) := by
  rw [inodeClose, get_bind, h, decrement_of_pos (by omega) (by omega), set_bind,
    if_pos (Nat.sub_self 1), listRemove, bind_of_ok (a := ()) (t := { s with
      mem := setOpenCnts s.mem p 0
      openInodes := s.openInodes.erase p })]
  · rw [sysFree, get_bind, ensure_bind_of_true hb, set_apply]
  · rw [get_bind, ensure_bind_of_true hp, set_apply]

theorem CacheInv.opener (h : CacheInv x) (ho : (no, p) ∈ x.openers) :
    p ∈ x.fs.openInodes ∧ iNo x.fs.mem p = no ∧ 0 < iOpenCnts x.fs.mem p ∧
      x.opens no = x.closes no + iOpenCnts x.fs.mem p := by
  obtain ⟨hp, hno⟩ := h.openers _ ho
  dsimp only at hp hno
  have hc := h.counted p hp
  rw [hno] at hc
  exact ⟨hp, hno, hc⟩

theorem CacheInv.block (h : CacheInv x) (hp : p ∈ x.fs.openInodes) :
    inodeBlock p ∈ x.fs.live :=
  h.live.symm.subset (List.mem_append_left _ (List.mem_map_of_mem hp))

theorem CacheInv.free_block (h : CacheInv x) (hp : p ∈ x.fs.openInodes) :
    (x.fs.openInodes.map inodeBlock).Perm
      (inodeBlock p :: (x.fs.openInodes.erase p).map inodeBlock) ∧
    (x.fs.live.eraseP (·.ptr = p)).Perm
      ((x.fs.openInodes.erase p).map inodeBlock ++ x.base) := by
  have hmap : (x.fs.openInodes.map inodeBlock).Perm
      (inodeBlock p :: (x.fs.openInodes.erase p).map inodeBlock) := by
    rw [← List.map_cons]
    exact (List.perm_cons_erase hp).map _
  refine ⟨hmap, ?_⟩
  have hperm := h.live.trans (hmap.append_right x.base)
  have hapart : x.fs.live.Pairwise BlocksApart :=
    (h.live.pairwise_iff fun hb => Std.Symm.symm _ _ hb).mpr h.apart
  exact perm_free hperm hapart

theorem balance_close (h : CacheInv x) (ho : (no, p) ∈ x.openers) (no' : ℕ) :
    x.opens no' = Function.update x.closes no (x.closes no + 1) no' +
      (x.openers.erase (no, p)).countP (·.1 = no') := by
  have hold := h.balance no'
  have hcount := (List.perm_cons_erase ho).countP_eq (fun o => decide (o.1 = no'))
  rw [List.countP_cons] at hcount
  by_cases he : no' = no
  · subst he
    rw [Function.update_self]
    simp only [decide_true, if_true] at hcount
    omega
  · rw [Function.update_of_ne he]
    simp only [decide_eq_true_eq, if_neg (Ne.symm he)] at hcount
    omega

theorem close_keep (h : CacheInv x) (ho : (no, p) ∈ x.openers)
    (hc : 2 ≤ iOpenCnts x.fs.mem p) :
    CacheInv { x with
      fs := { x.fs with mem := setOpenCnts x.fs.mem p (iOpenCnts x.fs.mem p - 1) }
      openers := x.openers.erase (no, p)
      closes := Function.update x.closes no (x.closes no + 1) } := by
  obtain ⟨hp, hno, -, heq⟩ := h.opener ho
  have hlt : iOpenCnts x.fs.mem p < 2 ^ 32 := loadWord_lt _ _
  apply h.recount hp hno (by omega) (by omega)
  case hother => exact fun no' hne => ⟨rfl, Function.update_of_ne hne _ _⟩
  case hcount =>
    rw [Function.update_self, heq]
    omega
  case hopeners => exact fun o hmem => Or.inr (List.mem_of_mem_erase hmem)
  case hbalance => exact balance_close h ho

theorem close_last (h : CacheInv x) (ho : (no, p) ∈ x.openers)
    (hc : iOpenCnts x.fs.mem p = 1) :
    CacheInv { x with
      fs := { x.fs with
        mem := setOpenCnts x.fs.mem p 0
        openInodes := x.fs.openInodes.erase p
        live := x.fs.live.eraseP (·.ptr = p) }
      openers := x.openers.erase (no, p)
      closes := Function.update x.closes no (x.closes no + 1) } := by
  obtain ⟨hp, hno, -, heq⟩ := h.opener ho
  obtain ⟨hmap, hlive⟩ := h.free_block hp
  obtain ⟨hnum, hcnt⟩ := h.set_cnt hp (show 0 < 2 ^ 32 by omega)
  have hsub : ∀ q ∈ x.fs.openInodes.erase p, q ∈ x.fs.openInodes ∧ q ≠ p := fun q hq =>
    ⟨List.mem_of_mem_erase hq, fun he => h.list_nodup.not_mem_erase (he ▸ hq)⟩
  have hbalance := balance_close h ho (p := p)
  constructor
  case slots => exact h.slots
  case live => exact hlive
  case apart =>
    refine List.Pairwise.sublist (List.Sublist.append_right ?_ _) h.apart
    exact List.erase_sublist.map _
  case nonnull => exact fun b hb => h.nonnull b (List.mem_of_mem_eraseP hb)
  case unique =>
    dsimp only
    rw [List.map_congr_left fun q hq => hnum q (hsub q hq).1]
    exact h.unique.sublist (List.erase_sublist.map _)
  case counted =>
    intro q hq
    dsimp only at hq ⊢
    obtain ⟨hq, hqp⟩ := hsub q hq
    rw [hnum q hq, hcnt q hq, if_neg hqp,
      Function.update_of_ne fun he => hqp (h.same_inode hq hp (he.trans hno.symm))]
    exact h.counted q hq
  case closed =>
    intro no' hnone
    dsimp only at hnone ⊢
    by_cases hne : no' = no
    · subst hne
      rw [Function.update_self]
      omega
    · rw [Function.update_of_ne hne]
      refine h.closed no' fun q hq he => ?_
      by_cases hqp : q = p
      · exact hne (by rw [← he, hqp, hno])
      · exact hnone q ((List.mem_erase_of_ne hqp).mpr hq) ((hnum q hq).trans he)
  case openers =>
    intro o hmem
    have hold := h.openers o (List.mem_of_mem_erase hmem)
    -- whoever else had the inode open would make the count at least 2
    have hne : o.2 ≠ p := by
      intro he
      have hone : o.1 = no := by rw [← hold.2, he, hno]
      have hcount := hbalance no
      rw [Function.update_self] at hcount
      have hpos : 0 < (x.openers.erase (no, p)).countP (·.1 = no) :=
        List.countP_pos_iff.mpr ⟨o, hmem, by simpa using hone⟩
      omega
    exact ⟨(List.mem_erase_of_ne hne).mpr hold.1, (hnum o.2 hold.1).trans hold.2⟩
  case balance => exact hbalance

/-! ## All runs -/

theorem step_inv (h : CacheInv x) (hs : FittingStep x y) : CacheInv y := by
  obtain ⟨c, hfits, hs⟩ := hs
  cases hs with
  | @inodeOpen _ s' bufs no p hfresh hrun =>
    cases hf : findOpen x.fs no with
    | some q =>
      rw [inodeOpen, bind_of_ok (searchOpen_some hf)] at hrun
      cases hrun
      exact open_hit h hf (hfits _ hf)
    | none => exact open_miss h hf (entered hf hfresh h.nonnull hrun)
  | @inodeClose _ s' no p ho hrun =>
    obtain ⟨hp, -, hpos, -⟩ := h.opener ho
    by_cases hc : iOpenCnts x.fs.mem p = 1
    · rw [inodeClose_last hc hp ⟨_, h.block hp, rfl⟩] at hrun
      cases hrun
      exact close_last h ho hc
    · rw [inodeClose_keep (by omega)] at hrun
      cases hrun
      exact close_keep h ho (by omega)

theorem CacheInv.sound (h : CacheInv x) : CacheSound x where
  unique := h.unique
  listed no := by
    constructor
    · intro hin
      obtain ⟨p, hp, rfl⟩ := List.mem_map.mp hin
      have hc := h.counted p hp
      omega
    · intro hlt
      by_contra hout
      have := h.closed no fun p hp he => hout (he ▸ List.mem_map_of_mem hp)
      omega
  counted p hp := by
    have hc := h.counted p hp
    omega
  shared := h.openers
  memory := h.live
  freed o ho := by
    obtain ⟨hp, -, hpos, heq⟩ := h.opener ho
    by_cases hc : iOpenCnts x.fs.mem o.2 = 1
    · refine ⟨_, inodeClose_last hc hp ⟨_, h.block hp, rfl⟩, ?_⟩
      obtain ⟨hmap, hfree⟩ := h.free_block hp
      rw [if_pos (by omega)]
      exact (h.live.trans (hmap.append_right x.base)).trans (hfree.symm.cons _)
    · refine ⟨_, inodeClose_keep (by omega), ?_⟩
      rw [if_neg (by omega)]

/-- An inode table at sector 0 whose slots hold their own numbers. -/
def numberedDisk : Bytes := fun a =>
  if a % 76 < 4 then BitVec.ofNat 8 (a / 76 / 256 ^ (a % 76)) else 0#8

def mountedRun : OpenRun :=
  ⟨⟨fun _ => 0#8, numberedDisk, 0, [], []⟩, [], [], fun _ => 0, fun _ => 0⟩

end FsInodeRuns
