import Leeos.FsInodeRuns

/-!
# Opening and closing directories (`dir_open`, `dir_close` in `fs/dir.c`)

`dir_close` passes the directory itself to `inode_close`, which takes the first bytes of its
cleared buffer for the count. The inode is never closed, so what is opened stays open.
-/
namespace FsDirOpens

open ExecRules KernelBitmap FsDisk KernelHeapAccounts FsInodes FsInodeRuns LibStdint

structure DirBuffers where
  dir : ℕ
  inode : OpenBuffers

def dirOpen (bufs : DirBuffers) (inodeNo : ℕ) : InodeM ℕ := do
  let pdir ← sysMalloc bufs.dir dirSize
  let inode ← inodeOpen bufs.inode inodeNo
  modify fun s => { s with mem := storeWord s.mem pdir inode }
  modify fun s => { s with mem := storeWord s.mem (pdir + 4) 0 }
  pure pdir

/-- The argument of `inode_close` is `dir` where `dir->inode` is meant. -/
def dirClose (rootDir dir : ℕ) : InodeM Unit := do
  if dir = rootDir then pure ()
  else
    inodeClose dir
    sysFree dir

/-- `dirs` are the directories that are open, `opened` counts the opens of each number. -/
structure DirRun where
  fs : InodeState
  dirs : List ℕ
  opened : ℕ → ℕ

def dirBlock (d : ℕ) : Live := ⟨d, dirSize⟩

def FreshDir (s : InodeState) (bufs : DirBuffers) (inodeNo : ℕ) : Prop :=
  Fresh s.live bufs.dir dirSize ∧
    FreshBuffers { s with live := dirBlock bufs.dir :: s.live } bufs.inode inodeNo

inductive DirStep (rootDir : ℕ) : DirRun → DirRun → Prop
  | dirOpen {x : DirRun} {s' : InodeState} {bufs : DirBuffers} {no d : ℕ} :
      FreshDir x.fs bufs no → FsDirOpens.dirOpen bufs no x.fs = .ok (d, s') →
      DirStep rootDir x ⟨s', d :: x.dirs, Function.update x.opened no (x.opened no + 1)⟩
  | dirClose {x : DirRun} {s' : InodeState} {d : ℕ} :
      d ∈ x.dirs → d ≠ rootDir → FsDirOpens.dirClose rootDir d x.fs = .ok ((), s') →
      DirStep rootDir x ⟨s', x.dirs.erase d, x.opened⟩

/-- No directory is open, and the open inodes are blocks of the heap with different numbers. -/
structure DirStart (x : DirRun) : Prop where
  dirs : x.dirs = []
  opened : ∀ no, x.opened no = 0
  listed : ∀ p ∈ x.fs.openInodes, inodeBlock p ∈ x.fs.live
  unique : (x.fs.openInodes.map (iNo x.fs.mem)).Nodup
  apart : x.fs.live.Pairwise BlocksApart
  high : ∀ b ∈ x.fs.live, 4096 ≤ b.ptr

structure Restored (s s' : InodeState) : Prop where
  list : s'.openInodes = s.openInodes
  counts : ∀ p ∈ s.openInodes, iOpenCnts s'.mem p = iOpenCnts s.mem p
  heap : s'.live.Perm s.live

/-! ## The invariant -/

/-- The blocks of the pointers that are not null. -/
def blocks (size : ℕ) (ps : List ℕ) : List Live := (ps.filter (· ≠ 0)).map (⟨·, size⟩)

/-- `extra` are the inodes that have been put on the list since the start. -/
structure DirInv (s₀ : InodeState) (extra : List ℕ) (x : DirRun) : Prop where
  list : x.fs.openInodes = s₀.openInodes ++ extra
  live : x.fs.live.Perm (blocks dirSize x.dirs ++ (blocks inodeSize extra ++ s₀.live))
  apart : x.fs.live.Pairwise BlocksApart
  high : ∀ b ∈ x.fs.live, 4096 ≤ b.ptr
  numbers : ∀ p ∈ s₀.openInodes, iNo x.fs.mem p = iNo s₀.mem p
  counts : ∀ p ∈ s₀.openInodes, iOpenCnts x.fs.mem p =
    u32 (iOpenCnts s₀.mem p + x.opened (iNo s₀.mem p))
  dirs : ∀ d ∈ x.dirs, d ≠ 0 → iOpenCnts x.fs.mem d = 0
  uncached : extra = [] ↔ ∀ no, x.opened no ≠ 0 → no ∈ s₀.openInodes.map (iNo s₀.mem)

variable {x y x₀ : DirRun} {s s' s₀ : InodeState} {extra ps : List ℕ} {p d n no rootDir : ℕ}
  {b : Live} {bufs : OpenBuffers}

theorem blocks_cons : blocks n (p :: ps) = given p n (blocks n ps) := by
  by_cases hp : p = 0
  · simp [blocks, given, hp]
  · simp [blocks, given, hp]

theorem given_append (L L' : List Live) : given p n L ++ L' = given p n (L ++ L') := by
  unfold given
  split <;> rfl

theorem blocks_append (ps qs : List ℕ) : blocks n (ps ++ qs) = blocks n ps ++ blocks n qs := by
  rw [blocks, List.filter_append, List.map_append]
  rfl

theorem given_eq_append (L : List Live) : given p n L = blocks n [p] ++ L := by
  rw [blocks_cons, given_append]
  rfl

theorem given_perm {L L' : List Live} (h : L.Perm L') : (given p n L).Perm (given p n L') := by
  unfold given
  split
  · exact h
  · exact h.cons _

theorem mem_blocks (hp : p ∈ ps) (h0 : p ≠ 0) : ⟨p, n⟩ ∈ blocks n ps :=
  List.mem_map_of_mem (List.mem_filter.mpr ⟨hp, by simpa using h0⟩)

theorem blocks_erase (hd : d ∈ ps) (h0 : d ≠ 0) :
    (blocks n ps).Perm (⟨d, n⟩ :: blocks n (ps.erase d)) := by
  have hperm := ((List.perm_cons_erase hd).filter (· ≠ 0)).map (fun p => (⟨p, n⟩ : Live))
  rw [List.filter_cons_of_pos (by simpa using h0), List.map_cons] at hperm
  exact hperm

/-- Inodes lie in live blocks apart from each other; one that got no memory lies in page 0. -/
structure HeapOk (s : InodeState) : Prop where
  listed : ∀ p ∈ s.openInodes, p = 0 ∨ inodeBlock p ∈ s.live
  apart : s.live.Pairwise BlocksApart
  high : ∀ b ∈ s.live, 4096 ≤ b.ptr

theorem page_zero_apart (h : 4096 ≤ b.ptr) (hn : n ≤ 4096) : BlocksApart ⟨0, n⟩ b := by
  refine ⟨?_, Or.inl ?_⟩
  · simp only
    omega
  · simp only
    omega

theorem HeapOk.apart_listed (h : HeapOk s) (hp : p ∈ s.openInodes) (hb : b ∈ s.live)
    (hne : b ≠ inodeBlock p) : BlocksApart (inodeBlock p) b := by
  rcases h.listed p hp with rfl | hin
  · exact page_zero_apart (h.high b hb) (by decide)
  · exact h.apart.forall hin hb (Ne.symm hne)

theorem Fresh.apart {live : List Live} (h : Fresh live p n) (hn : n ≤ 4096) (hb : b ∈ live)
    (hhigh : 4096 ≤ b.ptr) : BlocksApart ⟨p, n⟩ b := by
  rcases h with rfl | ⟨-, hap⟩
  · exact page_zero_apart hhigh hn
  · exact hap b hb

theorem given_pairwise {live : List Live} (h : Fresh live p n) (hl : live.Pairwise BlocksApart) :
    (given p n live).Pairwise BlocksApart := by
  unfold given
  split
  · exact hl
  · next hp => exact List.pairwise_cons.mpr ⟨(h.resolve_left hp).2, hl⟩

theorem given_high {live : List Live} (h : Fresh live p n) (hl : ∀ b ∈ live, 4096 ≤ b.ptr) :
    ∀ b ∈ given p n live, 4096 ≤ b.ptr := by
  unfold given
  split
  · exact hl
  · next hp =>
    intro b hb
    rcases List.mem_cons.mp hb with rfl | hb
    · exact (h.resolve_left hp).1
    · exact hl b hb

theorem mem_given {live : List Live} (h : b ∈ live) : b ∈ given p n live := by
  unfold given
  split
  · exact h
  · exact List.mem_cons_of_mem _ h

theorem Fresh.mono {live live' : List Live} (h : Fresh live p n) (hs : ∀ b ∈ live', b ∈ live) :
    Fresh live' p n := h.imp_right fun hf => ⟨hf.1, fun b hb => hf.2 b (hs b hb)⟩

theorem given_subset {live : List Live} (h : b ∈ given p n live) : b = ⟨p, n⟩ ∨ b ∈ live := by
  unfold given at h
  split at h
  · exact Or.inr h
  · exact List.mem_cons.mp h

/-! ## `dir_open` -/

/-- The inode is counted, or it is put on the list and nothing that was there changes. -/
theorem inodeOpen_effect (h : HeapOk s) (hfresh : FreshBuffers s bufs no)
    (hrun : inodeOpen bufs no s = .ok (p, s')) :
    (findOpen s no = some p ∧
      s' = { s with mem := setOpenCnts s.mem p (u32 (iOpenCnts s.mem p + 1)) }) ∨
    (findOpen s no = none ∧ Fresh s.live p inodeSize ∧ s'.openInodes = s.openInodes ++ [p] ∧
      s'.live = given p inodeSize s.live ∧ ∀ b ∈ s.live, Kept s.mem s'.mem b) := by
  cases hf : findOpen s no with
  | some q =>
    rw [inodeOpen, bind_of_ok (searchOpen_some hf)] at hrun
    cases hrun
    exact Or.inl ⟨rfl, rfl⟩
  | none =>
    obtain ⟨-, rfl, -, -, ⟨b, hb, hio⟩, rfl⟩ := inodeOpen_miss hf hrun
    obtain ⟨hi, hfb⟩ := hfresh
    have hfb' := Fresh.mono hfb fun b hb => List.mem_cons.mpr (given_subset hb)
    have hne : bufs.ioBuf ≠ 0 := by
      have := given_high hfb' (given_high hi h.high) b hb
      omega
    refine Or.inr ⟨rfl, hi, rfl, ?_, fun b hb => ?_⟩
    · simp only [slotRead]
      rw [given, if_neg hne, List.eraseP_cons_of_pos (by simp)]
    · refine kept_miss (Fresh.apart hi (by decide) hb (h.high b hb)) ?_
      exact (hfb.resolve_left hne).2 b (List.mem_cons_of_mem _ hb)

/-- The two fields that `dir_open` sets. -/
def storeDir (m : Bytes) (d inode : ℕ) : Bytes := storeWord (storeWord m d inode) (d + 4) 0

theorem dirOpen_ok {bufs : DirBuffers} (hrun : dirOpen bufs no s = .ok (d, s')) :
    d = bufs.dir ∧ ∃ p t, inodeOpen bufs.inode no { s with
        mem := cleared d dirSize s.mem, live := given d dirSize s.live } = .ok (p, t) ∧
      s' = { t with mem := storeDir t.mem d p } := by
  rw [dirOpen, bind_of_ok sysMalloc_run] at hrun
  obtain ⟨p, t, hopen, hrun⟩ := bind_ok_iff.mp hrun
  rw [modify_bind, modify_bind] at hrun
  cases hrun
  exact ⟨rfl, p, t, hopen, rfl⟩

theorem kept_storeDir {m : Bytes} (h : BlocksApart (dirBlock d) b) : Kept m (storeDir m d p) b := by
  intro i hi
  have hap : d + 520 ≤ b.ptr ∨ b.ptr + b.size ≤ d := h.2
  rw [storeDir, storeWord_outside (by omega), storeWord_outside (by omega)]

theorem iOpenCnts_storeDir (m : Bytes) (d p : ℕ) : iOpenCnts (storeDir m d p) d = iOpenCnts m d := by
  apply loadWord_congr
  intro j hj
  rw [storeDir, storeWord_outside (by omega), storeWord_outside (by omega)]

theorem iOpenCnts_cleared {m : Bytes} (h0 : d ≠ 0) : iOpenCnts (cleared d dirSize m) d = 0 := by
  have hbyte : ∀ j < 4, cleared d dirSize m (d + 8 + j) = 0#8 := by
    intro j hj
    have : dirSize = 520 := rfl
    rw [cleared, if_neg h0, memset_inside (by omega) (by omega)]
    rfl
  have h₀ := hbyte 0 (by omega)
  rw [Nat.add_zero] at h₀
  simp [iOpenCnts, loadWord, h₀, hbyte 1 (by omega), hbyte 2 (by omega), hbyte 3 (by omega)]

/-- A block holds the count at its offset 8. -/
theorem Kept.cnt {m m' : Bytes} (h : Kept m m' ⟨p, n⟩) (hn : 12 ≤ n) :
    iOpenCnts m' p = iOpenCnts m p :=
  loadWord_congr fun j hj => by
    rw [Nat.add_assoc]
    exact h (8 + j) (show 8 + j < n by omega)

theorem DirInv.heapOk (h : DirInv s₀ extra x)
    (hbase : ∀ p ∈ s₀.openInodes, inodeBlock p ∈ s₀.live) : HeapOk x.fs := by
  refine ⟨fun p hp => ?_, h.apart, h.high⟩
  rw [h.list] at hp
  by_cases h0 : p = 0
  · exact Or.inl h0
  · refine Or.inr (h.live.symm.subset (List.mem_append_right _ ?_))
    rcases List.mem_append.mp hp with hp | hp
    · exact List.mem_append_right _ (hbase p hp)
    · exact List.mem_append_left _ (mem_blocks hp h0)

theorem HeapOk.given (h : HeapOk s) (hd : Fresh s.live d dirSize) :
    HeapOk { s with mem := cleared d dirSize s.mem, live := given d dirSize s.live } :=
  ⟨fun p hp => (h.listed p hp).imp_right mem_given, given_pairwise hd h.apart,
    given_high hd h.high⟩

/-- What a call of `dir_open` starts from, and the state after its first `sys_malloc`. -/
structure Opening (s₀ : InodeState) (extra : List ℕ) (x : DirRun) (no d : ℕ) (s : InodeState) :
    Prop where
  inv : DirInv s₀ extra x
  base : ∀ p ∈ s₀.openInodes, inodeBlock p ∈ s₀.live
  unique : (s₀.openInodes.map (iNo s₀.mem)).Nodup
  fresh : Fresh x.fs.live d dirSize
  state : s = { x.fs with mem := cleared d dirSize x.fs.mem, live := given d dirSize x.fs.live }

theorem Opening.heapOk (h : Opening s₀ extra x no d s) : HeapOk s :=
  h.state ▸ (h.inv.heapOk h.base).given h.fresh

theorem Opening.live (h : Opening s₀ extra x no d s) : s.live = given d dirSize x.fs.live := by
  rw [h.state]

theorem Opening.old (h : Opening s₀ extra x no d s) (hb : b ∈ x.fs.live) : b ∈ s.live :=
  h.live ▸ mem_given hb

theorem Opening.kept (h : Opening s₀ extra x no d s) (hb : b ∈ x.fs.live) :
    Kept x.fs.mem s.mem b := by
  rw [h.state]
  exact kept_cleared fun _ => Fresh.apart h.fresh (by decide) hb (h.inv.high b hb)

theorem Opening.base_block (h : Opening s₀ extra x no d s) (hp : p ∈ s₀.openInodes) :
    inodeBlock p ∈ x.fs.live :=
  h.inv.live.symm.subset (List.mem_append_right _ (List.mem_append_right _ (h.base p hp)))

theorem Opening.dir_block (h : Opening s₀ extra x no d s) (hd : p ∈ x.dirs) (h0 : p ≠ 0) :
    dirBlock p ∈ x.fs.live :=
  h.inv.live.symm.subset (List.mem_append_left _ (mem_blocks hd h0))

theorem Opening.dir_apart (h : Opening s₀ extra x no d s) (hb : b ∈ x.fs.live) :
    BlocksApart (dirBlock d) b := Fresh.apart h.fresh (by decide) hb (h.inv.high b hb)

theorem Opening.number (h : Opening s₀ extra x no d s) (hp : p ∈ s₀.openInodes) :
    iNo s.mem p = iNo s₀.mem p :=
  (h.kept (h.base_block hp)).iNo.trans (h.inv.numbers p hp)

theorem Opening.list (h : Opening s₀ extra x no d s) : s.openInodes = s₀.openInodes ++ extra := by
  rw [h.state]
  exact h.inv.list

theorem Opening.found (h : Opening s₀ extra x no d s) (hf : findOpen s no = some p) {q : ℕ}
    (hq : q ∈ s₀.openInodes) (hno : iNo s₀.mem q = no) : p = q := by
  have hq' : iNo s.mem q = no := (h.number hq).trans hno
  rw [findOpen, h.list, List.find?_append] at hf
  cases hb : s₀.openInodes.find? fun p => iNo s.mem p = no with
  | none => exact absurd hq' (by simpa using List.find?_eq_none.mp hb q hq)
  | some r =>
    rw [hb, Option.some_or] at hf
    cases hf
    have hr := List.mem_of_find?_eq_some hb
    have hrno : iNo s.mem p = no := by simpa using List.find?_some hb
    exact List.inj_on_of_nodup_map h.unique hr hq (((h.number hr).symm.trans hrno).trans hno.symm)

theorem opened_iff {opened : ℕ → ℕ} {P : ℕ → Prop} :
    (∀ no', Function.update opened no (opened no + 1) no' ≠ 0 → P no') ↔
      P no ∧ ∀ no', opened no' ≠ 0 → P no' := by
  constructor
  · intro h
    refine ⟨h no (by rw [Function.update_self]; omega), fun no' hne => h no' ?_⟩
    by_cases he : no' = no
    · rw [he, Function.update_self]
      omega
    · rw [Function.update_of_ne he]
      exact hne
  · rintro ⟨hno, hall⟩ no' hne
    by_cases he : no' = no
    · exact he ▸ hno
    · rw [Function.update_of_ne he] at hne
      exact hall no' hne

theorem u32_succ (a : ℕ) : u32 (u32 a + 1) = u32 (a + 1) := by
  simp only [u32]
  omega

theorem dirOpen_hit (h : Opening s₀ extra x no d s) (hf : findOpen s no = some p) :
    DirInv s₀ extra ⟨{ s with
      mem := storeDir (setOpenCnts s.mem p (u32 (iOpenCnts s.mem p + 1))) d p },
      d :: x.dirs, Function.update x.opened no (x.opened no + 1)⟩ := by
  have hok := h.heapOk
  obtain ⟨hp, hno⟩ := findOpen_some hf
  -- what the call keeps of the blocks that were live before it
  have hkept : ∀ b ∈ x.fs.live, b ≠ inodeBlock p → Kept x.fs.mem
      (storeDir (setOpenCnts s.mem p (u32 (iOpenCnts s.mem p + 1))) d p) b := fun b hb hne =>
    ((h.kept hb).trans (kept_setOpenCnts (hok.apart_listed hp (h.old hb) hne))).trans
      (kept_storeDir (h.dir_apart hb))
  have hdir : ∀ q, dirBlock q ≠ inodeBlock p := fun q he => by
    have : dirSize = inodeSize := congrArg Live.size he
    exact absurd this (by decide)
  have hcounted : p ∈ s₀.openInodes →
      iNo (storeDir (setOpenCnts s.mem p (u32 (iOpenCnts s.mem p + 1))) d p) p = iNo s.mem p ∧
      iOpenCnts (storeDir (setOpenCnts s.mem p (u32 (iOpenCnts s.mem p + 1))) d p) p =
        u32 (iOpenCnts s.mem p + 1) := by
    intro hbase
    have hstore := kept_storeDir (p := p)
      (m := setOpenCnts s.mem p (u32 (iOpenCnts s.mem p + 1))) (h.dir_apart (h.base_block hbase))
    rw [hstore.iNo, hstore.iOpenCnts, iNo_setOpenCnts_self,
      iOpenCnts_setOpenCnts_self (u32_lt _)]
    exact ⟨rfl, rfl⟩
  constructor
  case list => exact h.list
  case live =>
    rw [blocks_cons, given_append]
    exact h.live ▸ given_perm h.inv.live
  case apart => exact hok.apart
  case high => exact hok.high
  case numbers =>
    intro q hq
    by_cases hqp : q = p
    · subst hqp
      exact ((hcounted hq).1).trans (h.number hq)
    · rw [(hkept _ (h.base_block hq) fun he => hqp (congrArg Live.ptr he)).iNo]
      exact h.inv.numbers q hq
  case counts =>
    intro q hq
    dsimp only
    have hold := h.inv.counts q hq
    by_cases hqp : q = p
    · subst hqp
      have hnum : iNo s₀.mem q = no := (h.number hq).symm.trans hno
      rw [hnum] at hold ⊢
      rw [(hcounted hq).2, (h.kept (h.base_block hq)).iOpenCnts, hold, u32_succ,
        Function.update_self]
      rfl
    · rw [(hkept _ (h.base_block hq) fun he => hqp (congrArg Live.ptr he)).iOpenCnts, hold]
      have hne : iNo s₀.mem q ≠ no := fun he => hqp (h.found hf hq he).symm
      rw [Function.update_of_ne hne]
  case dirs =>
    intro q hq h0
    rcases List.mem_cons.mp hq with rfl | hq
    · have hset : BlocksApart (inodeBlock p) (dirBlock q) :=
        hok.apart_listed hp (h.live ▸ by simp [given, h0, dirBlock]) (hdir q)
      rw [iOpenCnts_storeDir, Kept.cnt (kept_setOpenCnts hset) (by decide), h.state]
      exact iOpenCnts_cleared h0
    · rw [Kept.cnt (hkept _ (h.dir_block hq h0) (hdir q)) (by decide)]
      exact h.inv.dirs q hq h0
  case uncached =>
    dsimp only
    rw [opened_iff, ← h.inv.uncached]
    refine ⟨fun hnil => ⟨?_, hnil⟩, And.right⟩
    rw [h.list, hnil, List.append_nil] at hp
    exact List.mem_map.mpr ⟨p, hp, (h.number hp).symm.trans hno⟩

theorem dirOpen_miss {t : InodeState} (h : Opening s₀ extra x no d s) (hf : findOpen s no = none)
    (hfresh : Fresh s.live p inodeSize) (hlist : t.openInodes = s.openInodes ++ [p])
    (hlive : t.live = given p inodeSize s.live) (hkept : ∀ b ∈ s.live, Kept s.mem t.mem b) :
    DirInv s₀ (extra ++ [p]) ⟨{ t with mem := storeDir t.mem d p }, d :: x.dirs,
      Function.update x.opened no (x.opened no + 1)⟩ := by
  have hok := h.heapOk
  have hother := findOpen_none hf
  have hold : ∀ b ∈ x.fs.live, Kept x.fs.mem (storeDir t.mem d p) b := fun b hb =>
    ((h.kept hb).trans (hkept b (h.old hb))).trans (kept_storeDir (h.dir_apart hb))
  have huncached : ∀ q ∈ s₀.openInodes, iNo s₀.mem q ≠ no := fun q hq he =>
    hother q (h.list ▸ List.mem_append_left _ hq) ((h.number hq).trans he)
  constructor
  case list =>
    dsimp only
    rw [hlist, h.list, List.append_assoc]
  case live =>
    dsimp only
    rw [hlive, h.live, blocks_cons, given_append]
    -- the inode's block moves behind the directories and the inodes before it
    refine (given_perm (given_perm h.inv.live)).trans ?_
    rw [given_eq_append, given_eq_append, given_eq_append, blocks_append, List.append_assoc]
    refine (List.perm_append_comm_assoc _ _ _).trans (List.Perm.append_left _ ?_)
    refine (List.perm_append_comm_assoc _ _ _).trans (List.Perm.append_left _ ?_)
    exact List.perm_append_comm_assoc _ _ _
  case apart => exact hlive ▸ given_pairwise hfresh hok.apart
  case high => exact hlive ▸ given_high hfresh hok.high
  case numbers =>
    intro q hq
    rw [(hold _ (h.base_block hq)).iNo]
    exact h.inv.numbers q hq
  case counts =>
    intro q hq
    dsimp only
    rw [(hold _ (h.base_block hq)).iOpenCnts, Function.update_of_ne (huncached q hq)]
    exact h.inv.counts q hq
  case dirs =>
    intro q hq h0
    rcases List.mem_cons.mp hq with rfl | hq
    · have hin : dirBlock q ∈ s.live := h.live ▸ by simp [given, h0, dirBlock]
      rw [iOpenCnts_storeDir, Kept.cnt (hkept _ hin) (by decide), h.state]
      exact iOpenCnts_cleared h0
    · rw [Kept.cnt (hold _ (h.dir_block hq h0)) (by decide)]
      exact h.inv.dirs q hq h0
  case uncached =>
    dsimp only
    rw [opened_iff]
    constructor
    · intro hnil
      exact absurd hnil (List.append_ne_nil_of_right_ne_nil _ (List.cons_ne_nil _ _))
    · rintro ⟨hin, -⟩
      obtain ⟨q, hq, he⟩ := List.mem_map.mp hin
      exact absurd he (huncached q hq)

/-! ## `dir_close` -/

theorem dirClose_ok (h : DirInv s₀ extra x) (hd : d ∈ x.dirs) (hne : d ≠ rootDir)
    (hrun : dirClose rootDir d x.fs = .ok ((), s')) :
    d ≠ 0 ∧ s' = { x.fs with
      mem := setOpenCnts x.fs.mem d (2 ^ 32 - 1)
      live := x.fs.live.eraseP (·.ptr = d) } := by
  have hzero : ∀ {t : InodeState}, t.live = x.fs.live → ¬ ∃ b ∈ t.live, b.ptr = 0 := by
    rintro t ht ⟨b, hb, h0⟩
    have := h.high b (ht ▸ hb)
    omega
  rw [dirClose, if_neg hne] at hrun
  obtain ⟨_, t, hclose, hfree⟩ := bind_ok_iff.mp hrun
  obtain ⟨hin, rfl⟩ := sysFree_ok hfree
  rw [inodeClose, get_bind, set_bind] at hclose
  by_cases h0 : d = 0
  · subst h0
    split at hclose
    · obtain ⟨_, u, hremove, hfree⟩ := bind_ok_iff.mp hclose
      rw [listRemove, get_bind] at hremove
      obtain ⟨-, hremove⟩ := ensure_bind_ok_iff.mp hremove
      cases hremove
      exact absurd (sysFree_ok hfree).1 (hzero rfl)
    · cases hclose
      exact absurd hin (hzero rfl)
  · have hcnt : decrement 0 = 2 ^ 32 - 1 := by decide
    rw [h.dirs d hd h0, hcnt, if_neg (by decide)] at hclose
    cases hclose
    exact ⟨h0, rfl⟩

theorem dirInv_close (h : DirInv s₀ extra x)
    (hbase : ∀ p ∈ s₀.openInodes, inodeBlock p ∈ s₀.live) (hd : d ∈ x.dirs) (h0 : d ≠ 0) :
    DirInv s₀ extra ⟨{ x.fs with
      mem := setOpenCnts x.fs.mem d (2 ^ 32 - 1)
      live := x.fs.live.eraseP (·.ptr = d) }, x.dirs.erase d, x.opened⟩ := by
  have hperm := h.live.trans ((blocks_erase hd h0).append_right _)
  have hlive := perm_free hperm h.apart
  have hin : dirBlock d ∈ x.fs.live := h.live.symm.subset (List.mem_append_left _ (mem_blocks hd h0))
  have hsub : ∀ b ∈ x.fs.live.eraseP (·.ptr = d), b ∈ x.fs.live := fun b hb => List.mem_of_mem_eraseP hb
  -- what stays live lies apart from the directory
  have hkept : ∀ b ∈ x.fs.live.eraseP (·.ptr = d),
      Kept x.fs.mem (setOpenCnts x.fs.mem d (2 ^ 32 - 1)) b := by
    intro b hb
    have hnodup : (dirBlock d :: x.fs.live.eraseP (·.ptr = d)).Pairwise BlocksApart :=
      ((hperm.trans (hlive.symm.cons _)).pairwise_iff fun hb => Std.Symm.symm _ _ hb).mp h.apart
    have hap := (List.pairwise_cons.mp hnodup).1 b hb
    exact kept_setOpenCnts ⟨hap.1, by
      have : d + 520 ≤ b.ptr ∨ b.ptr + b.size ≤ d := hap.2
      simp only [inodeBlock, inodeSize]
      omega⟩
  have hleft : ∀ {b}, b ∈ blocks dirSize (x.dirs.erase d) ++ (blocks inodeSize extra ++ s₀.live) →
      b ∈ x.fs.live.eraseP (·.ptr = d) := fun hb => hlive.symm.subset hb
  have hbases : ∀ q ∈ s₀.openInodes, inodeBlock q ∈ x.fs.live.eraseP (·.ptr = d) := fun q hq =>
    hleft (List.mem_append_right _ (List.mem_append_right _ (hbase q hq)))
  constructor
  case list => exact h.list
  case live => exact hlive
  case apart => exact h.apart.sublist List.eraseP_sublist
  case high => exact fun b hb => h.high b (hsub b hb)
  case numbers =>
    intro q hq
    rw [(hkept _ (hbases q hq)).iNo]
    exact h.numbers q hq
  case counts =>
    intro q hq
    rw [(hkept _ (hbases q hq)).iOpenCnts]
    exact h.counts q hq
  case dirs =>
    intro q hq hq0
    have hblock := hleft (List.mem_append_left _ (mem_blocks (n := dirSize) hq hq0))
    rw [Kept.cnt (hkept _ hblock) (by decide)]
    exact h.dirs q (List.mem_of_mem_erase hq) hq0
  case uncached => exact h.uncached

/-! ## All runs -/

theorem dirInv_start (h : DirStart x) : DirInv x.fs [] x := by
  constructor
  case list => rw [List.append_nil]
  case live =>
    rw [h.dirs]
    exact .refl _
  case apart => exact h.apart
  case high => exact h.high
  case numbers => exact fun _ _ => rfl
  case counts =>
    intro p _
    rw [h.opened, Nat.add_zero]
    exact (u32_of_lt (loadWord_lt _ _)).symm
  case dirs => simp [h.dirs]
  case uncached => simp [h.opened]

theorem dirInv_step (hbase : ∀ p ∈ s₀.openInodes, inodeBlock p ∈ s₀.live)
    (hunique : (s₀.openInodes.map (iNo s₀.mem)).Nodup) (h : DirInv s₀ extra x)
    (hs : DirStep rootDir x y) : ∃ extra', DirInv s₀ extra' y := by
  cases hs with
  | @dirOpen s' bufs no d hfresh hrun =>
    obtain ⟨rfl, p, t, hopen, rfl⟩ := dirOpen_ok hrun
    have hop : Opening s₀ extra x no bufs.dir _ := ⟨h, hbase, hunique, hfresh.1, rfl⟩
    have hsub : ∀ b ∈ given bufs.dir dirSize x.fs.live, b ∈ dirBlock bufs.dir :: x.fs.live :=
      fun b hb => List.mem_cons.mpr (given_subset hb)
    have hbufs : FreshBuffers { x.fs with
        mem := cleared bufs.dir dirSize x.fs.mem
        live := given bufs.dir dirSize x.fs.live } bufs.inode no := by
      refine ⟨Fresh.mono hfresh.2.1 hsub, Fresh.mono hfresh.2.2 fun b hb => ?_⟩
      exact (List.mem_cons.mp hb).elim (fun he => he ▸ List.mem_cons_self)
        fun hb => List.mem_cons_of_mem _ (hsub b hb)
    rcases inodeOpen_effect hop.heapOk hbufs hopen with ⟨hf, rfl⟩ | ⟨hf, hfp, hlist, hlive, hkept⟩
    · exact ⟨extra, dirOpen_hit hop hf⟩
    · exact ⟨extra ++ [p], dirOpen_miss hop hf hfp hlist hlive hkept⟩
  | @dirClose s' d hd hne hrun =>
    obtain ⟨h0, rfl⟩ := dirClose_ok h hd hne hrun
    exact ⟨extra, dirInv_close h hbase hd h0⟩

theorem dirInv_run (h₀ : DirStart x₀) (hrun : Relation.ReflTransGen (DirStep rootDir) x₀ x) :
    ∃ extra, DirInv x₀.fs extra x := by
  induction hrun with
  | refl => exact ⟨[], dirInv_start h₀⟩
  | tail _ hs ih =>
    obtain ⟨extra, ih⟩ := ih
    exact dirInv_step h₀.listed h₀.unique ih hs

theorem DirInv.restored_live_iff (h : DirInv s₀ extra x) (hd : x.dirs = []) : Restored s₀ x.fs ↔
    ∀ no, x.opened no ≠ 0 → no ∈ s₀.openInodes.map (iNo s₀.mem) ∧ 2 ^ 32 ∣ x.opened no := by
  have hword : ∀ p, iOpenCnts s₀.mem p < 2 ^ 32 := fun p => loadWord_lt _ _
  constructor
  · intro hr no hne
    have hextra : extra = [] := by
      have hlist := h.list.symm.trans hr.list
      exact List.append_right_eq_self.mp hlist
    have hin := h.uncached.mp hextra no hne
    refine ⟨hin, ?_⟩
    obtain ⟨p, hp, rfl⟩ := List.mem_map.mp hin
    have hcnt := (h.counts p hp).symm.trans (hr.counts p hp)
    have := hword p
    rw [u32] at hcnt
    omega
  · intro hall
    have hextra := h.uncached.mpr fun no hne => (hall no hne).1
    subst hextra
    constructor
    case list => rw [h.list, List.append_nil]
    case counts =>
      intro p hp
      rw [h.counts p hp]
      have hdvd : 2 ^ 32 ∣ x.opened (iNo s₀.mem p) := by
        by_cases h0 : x.opened (iNo s₀.mem p) = 0
        · rw [h0]
          exact Nat.dvd_zero _
        · exact (hall _ h0).2
      have := hword p
      rw [u32]
      omega
    case heap =>
      have hlive := h.live
      rw [hd] at hlive
      exact hlive

/-- When all directories are closed again, everything is as before exactly if every inode that was
opened was open before the run and has been opened so often that its count came round. -/
theorem restored_iff (rootDir : ℕ) (x₀ x : DirRun) (h₀ : DirStart x₀)
    (hrun : Relation.ReflTransGen (DirStep rootDir) x₀ x) (hd : x.dirs = []) :
    Restored x₀.fs x.fs ↔ ∀ no, x.opened no ≠ 0 →
      no ∈ x₀.fs.openInodes.map (iNo x₀.fs.mem) ∧ 2 ^ 32 ∣ x.opened no := by
  obtain ⟨extra, h⟩ := dirInv_run h₀ hrun
  exact h.restored_live_iff hd

def closedRun : DirRun := ⟨mountedRun.fs, [], fun _ => 0⟩

theorem dirStart_closedRun : DirStart closedRun := by
  refine ⟨rfl, fun _ => rfl, ?_, List.nodup_nil, List.Pairwise.nil, ?_⟩
  · exact fun p hp => absurd hp List.not_mem_nil
  · exact fun b hb => absurd hb List.not_mem_nil

theorem one_directory : ∃ x, Relation.ReflTransGen (DirStep 0) closedRun x ∧ x.dirs = [] ∧
    x.fs.openInodes = [0x10000] := by
  have hrun : yields (dirOpen ⟨0x30000, ⟨0x10000, 0x20000⟩⟩ 3) closedRun.fs (fun d s =>
      d == 0x30000 && yields (dirClose 0 0x30000) s fun _ t => t.openInodes == [0x10000]) = true := by
    decide +kernel
  obtain ⟨d, s, hs, hd⟩ := yields_iff.mp hrun
  rw [Bool.and_eq_true, beq_iff_eq] at hd
  obtain ⟨rfl, hclose⟩ := hd
  obtain ⟨⟨⟩, t, ht, hlist⟩ := yields_iff.mp hclose
  have hsects : (inodePosition 0 3).sects = 1 := by decide
  have hfresh : FreshDir closedRun.fs ⟨0x30000, ⟨0x10000, 0x20000⟩⟩ 3 := by
    refine ⟨Or.inr (by decide), Or.inr (by decide), Or.inr ?_⟩
    show 4096 ≤ 0x20000 ∧ ∀ b ∈ [inodeBlock 0x10000, dirBlock 0x30000],
      BlocksApart ⟨0x20000, 512 * (inodePosition 0 3).sects⟩ b
    rw [hsects]
    decide
  have hopen : DirStep 0 closedRun ⟨s, [0x30000], Function.update (fun _ => 0) 3 1⟩ :=
    .dirOpen hfresh hs
  have hstep : ∀ o, DirStep 0 ⟨s, [0x30000], o⟩ ⟨t, [0x30000].erase 0x30000, o⟩ := fun o =>
    .dirClose (List.mem_singleton_self _) (by decide) ht
  exact ⟨_, (Relation.ReflTransGen.single hopen).tail (hstep _), by simp,
    beq_iff_eq.mp hlist⟩

theorem restored_iff_one_directory : ∃ x : DirRun, Restored closedRun.fs x.fs ↔ ∀ no, x.opened no ≠ 0 →
    no ∈ closedRun.fs.openInodes.map (iNo closedRun.fs.mem) ∧ 2 ^ 32 ∣ x.opened no := by
  obtain ⟨x, hrun, hdirs, -⟩ := one_directory
  exact ⟨x, restored_iff 0 closedRun x dirStart_closedRun hrun hdirs⟩

theorem directory_left_open : DirStart closedRun ∧ ∃ x,
    Relation.ReflTransGen (DirStep 0) closedRun x ∧ x.dirs = [] ∧ ¬ Restored closedRun.fs x.fs := by
  obtain ⟨x, hrun, hdirs, hlist⟩ := one_directory
  refine ⟨dirStart_closedRun, x, hrun, hdirs, fun h => ?_⟩
  have := hlist.symm.trans h.list
  exact absurd this (List.cons_ne_nil _ _)

end FsDirOpens
