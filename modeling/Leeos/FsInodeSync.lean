import Leeos.FsInodes
import Leeos.FsLayout

/-!
# Concurrent writes of inodes

`inode_sync` reads the sectors of its inode, changes 76 bytes of them and writes them back; nothing
keeps the sectors from changing in between. Two threads run, and `ide_read` and `ide_write` are one
step each. Whether the two updates can be lost depends on the sectors alone.
-/
namespace FsInodeSync

open KernelBitmap FsDisk FsInodes LibStdint
open FsLayout (Region)
open Relation (ReflTransGen)

structure Partition where
  startLba : ℕ
  sectorCounter : ℕ
  inodeTableLba : ℕ
  deriving DecidableEq, Repr

/-- What a thread does: `inode_sync(part, inode, io_buff)`, or `ide_write` of one data block. -/
inductive Update where
  | sync (inode ioBuff : Bytes)
  | block (lba : ℕ) (buf : Bytes)

/-- `pure_inode`: without `i_open_cnts`, `write_deny` and the two pointers of `inode_tag`. -/
def pureInode (inode : Bytes) : Bytes :=
  let pure := storeWord (storeWord inode 8 0) 12 0
  storeWord (storeWord pure 68 0) 72 0

def position (part : Partition) (inode : Bytes) : InodePosition :=
  inodePosition part.inodeTableLba (iNo inode 0)

/-- The assertions of `inode_locate`, `inode_sync`, `ide_read` and `ide_write` hold. -/
def Located (part : Partition) : Update → Prop
  | .sync inode _ => iNo inode 0 < 4096 ∧
      (position part inode).secLba ≤ u32 (part.startLba + part.sectorCounter) ∧
      (position part inode).secLba ≤ maxLba
  | .block lba _ => lba ≤ maxLba

instance (part : Partition) (u : Update) : Decidable (Located part u) :=
  match u with
  | .sync _ _ => inferInstanceAs (Decidable (_ ∧ _))
  | .block _ _ => inferInstanceAs (Decidable (_ ≤ _))

inductive Stage where
  | start
  | holding (inodeBuf : Bytes)
  | done

/-- The next step of a thread; there is none when an assertion fails or the thread has finished. -/
def threadStep (part : Partition) : Update → Stage → Bytes → Option (Stage × Bytes)
  | .sync inode ioBuff, .start, disk =>
    let pos := position part inode
    if Located part (.sync inode ioBuff) then
      some (.holding (ideRead disk pos.secLba ioBuff 0 pos.sects), disk)
    else none
  | .sync inode _, .holding inodeBuf, disk =>
    let pos := position part inode
    let inodeBuf := copyBytes (pureInode inode) 0 inodeBuf pos.offSize inodeSize
    if pos.secLba ≤ maxLba then some (.done, ideWrite disk pos.secLba inodeBuf 0 pos.sects)
    else none
  | .block lba buf, .start, disk =>
    if Located part (.block lba buf) then some (.done, ideWrite disk lba buf 0 1) else none
  | _, _, _ => none

structure SyncState where
  disk : Bytes
  stage : Bool → Stage

def initial (disk : Bytes) : SyncState := ⟨disk, fun _ => .start⟩

def step (part : Partition) (calls : Bool → Update) (s : SyncState) (who : Bool) :
    Option SyncState :=
  (threadStep part (calls who) (s.stage who) s.disk).map fun r =>
    ⟨r.2, Function.update s.stage who r.1⟩

def Step (part : Partition) (calls : Bool → Update) (s t : SyncState) : Prop :=
  ∃ who, step part calls s who = some t

/-- The sectors that the thread writes, and reads before if it syncs an inode. -/
def Update.region (part : Partition) : Update → Region
  | .sync inode _ => ⟨(position part inode).secLba, (position part inode).sects⟩
  | .block lba _ => ⟨lba, 1⟩

/-- The bytes of the disk that the update is about: the first, how many, and their contents. -/
def Update.place (part : Partition) : Update → ℕ
  | .sync inode _ => 512 * (position part inode).secLba + (position part inode).offSize
  | .block lba _ => 512 * lba

def Update.size : Update → ℕ
  | .sync _ _ => inodeSize
  | .block _ _ => 512

def Update.content : Update → Bytes
  | .sync inode _ => pureInode inode
  | .block _ buf => buf

def Holds (part : Partition) (disk : Bytes) (u : Update) : Prop :=
  ∀ i < u.size, disk (u.place part + i) = u.content i

/-- Whatever the disk held and however the steps interleave: after both have finished, it holds
both updates. -/
def UpdatesKept (part : Partition) (calls : Bool → Update) : Prop :=
  ∀ disk s, ReflTransGen (Step part calls) (initial disk) s → (∀ who, s.stage who = .done) →
    ∀ who, Holds part s.disk (calls who)

/-- Two inodes with different numbers, or an inode and a data block behind the inode table. -/
def ValidPair (part : Partition) : Update → Update → Prop
  | .sync a _, .sync b _ => iNo a 0 < 4096 ∧ iNo b 0 < 4096 ∧ iNo a 0 ≠ iNo b 0
  | .sync a _, .block lba _ =>
      iNo a 0 < 4096 ∧ part.inodeTableLba + FsLayout.inodeTableSects ≤ lba ∧ lba < 2 ^ 32
  | _, _ => False

instance (part : Partition) (u v : Update) : Decidable (ValidPair part u v) :=
  match u, v with
  | .sync _ _, .sync _ _ => inferInstanceAs (Decidable (_ ∧ _))
  | .sync _ _, .block _ _ => inferInstanceAs (Decidable (_ ∧ _))
  | .block _ _, _ => inferInstanceAs (Decidable False)

variable {part : Partition} {calls : Bool → Update} {s t : SyncState} {u v : Update}
  {disk inodeBuf : Bytes}

/-! ## One thread -/

/-- The byte lies in the sectors. -/
def Covers (r : Region) (i : ℕ) : Prop := 512 * r.lba ≤ i ∧ i < 512 * (r.lba + r.len)

theorem covers_disjoint {r r' : Region} {i : ℕ} (h : r.Disjoint r') (hi : Covers r i) :
    ¬ Covers r' i := by
  unfold Region.Disjoint at h
  unfold Covers at *
  omega

theorem covers_place (part : Partition) (u : Update) {i : ℕ} (hi : i < u.size) :
    Covers (u.region part) (u.place part + i) := by
  cases u with
  | sync inode ioBuff =>
    have hle := offSize_le part.inodeTableLba (iNo inode 0)
    simp only [Covers, Update.region, Update.place, Update.size, position] at hi ⊢
    omega
  | block lba buf =>
    simp only [Covers, Update.region, Update.place, Update.size] at hi ⊢
    omega

/-- The bytes read are still those of the disk. -/
def Current (part : Partition) (disk : Bytes) (u : Update) (inodeBuf : Bytes) : Prop :=
  ∀ i < 512 * (u.region part).len, inodeBuf i = disk (512 * (u.region part).lba + i)

/-- What a thread needs of the disk where it is. -/
def Progress (part : Partition) (disk : Bytes) (u : Update) : Stage → Prop
  | .start => True
  | .holding inodeBuf => Current part disk u inodeBuf
  | .done => Holds part disk u

theorem ideRead_at {lba n i : ℕ} {buf : Bytes} (h : i < 512 * n) :
    ideRead disk lba buf 0 n i = disk (512 * lba + i) := by
  rw [ideRead, copyBytes_inside (Nat.zero_le i) (by omega), Nat.sub_zero]

theorem ideWrite_outside {lba n i : ℕ} {buf : Bytes} (h : ¬ Covers ⟨lba, n⟩ i) :
    ideWrite disk lba buf 0 n i = disk i := by
  apply copyBytes_outside
  simp only [Covers] at h
  omega

theorem ideWrite_at {lba n i : ℕ} {buf : Bytes} (h : i < 512 * n) :
    ideWrite disk lba buf 0 n (512 * lba + i) = buf i := by
  rw [ideWrite, copyBytes_at h, Nat.zero_add]

theorem threadStep_progress {stage stage' : Stage} {disk' : Bytes}
    (h : threadStep part u stage disk = some (stage', disk')) :
    (∀ i, ¬ Covers (u.region part) i → disk' i = disk i) ∧
      (Progress part disk u stage → Progress part disk' u stage') := by
  cases u with
  | sync inode ioBuff =>
    cases stage with
    | start =>
      simp only [threadStep, Option.ite_none_right_eq_some, Option.some.injEq,
        Prod.mk.injEq] at h
      obtain ⟨-, rfl, rfl⟩ := h
      exact ⟨fun _ _ => rfl, fun _ i hi => ideRead_at hi⟩
    | holding inodeBuf =>
      simp only [threadStep, Option.ite_none_right_eq_some, Option.some.injEq,
        Prod.mk.injEq] at h
      obtain ⟨-, rfl, rfl⟩ := h
      refine ⟨fun i hi => ideWrite_outside hi, ?_⟩
      intro _ i hi
      have hslot := offSize_le part.inodeTableLba (iNo inode 0)
      simp only [Update.place, Update.size, Update.content] at hi ⊢
      rw [Nat.add_assoc, ideWrite_at, copyBytes_at hi, Nat.zero_add]
      simp only [position]
      omega
    | done => cases h
  | block lba buf =>
    cases stage with
    | start =>
      simp only [threadStep, Option.ite_none_right_eq_some, Option.some.injEq,
        Prod.mk.injEq] at h
      obtain ⟨-, rfl, rfl⟩ := h
      refine ⟨fun i hi => ideWrite_outside hi, ?_⟩
      intro _ i hi
      exact ideWrite_at hi
    | holding inodeBuf => cases h
    | done => cases h

theorem size_pos (u : Update) : 0 < u.size := by
  cases u with
  | sync inode ioBuff => exact Nat.zero_lt_of_lt (show 75 < 76 by decide)
  | block lba buf => exact Nat.zero_lt_of_lt (show 511 < 512 by decide)

/-- What changes outside the sectors of a thread does not concern it. -/
theorem Progress.keep {stage : Stage} {disk' : Bytes} (h : Progress part disk u stage)
    (hk : ∀ i, Covers (u.region part) i → disk' i = disk i) : Progress part disk' u stage := by
  cases stage with
  | start => trivial
  | holding inodeBuf =>
    intro i hi
    rw [hk _ ⟨Nat.le_add_right _ _, by omega⟩]
    exact h i hi
  | done =>
    intro i hi
    rw [hk _ (covers_place part u hi)]
    exact h i hi

/-! ## Two threads apart -/

theorem step_cases (h : Step part calls s t) : ∃ who stage' disk',
    threadStep part (calls who) (s.stage who) s.disk = some (stage', disk') ∧
      t = ⟨disk', Function.update s.stage who stage'⟩ := by
  obtain ⟨who, h⟩ := h
  obtain ⟨⟨stage', disk'⟩, hr, rfl⟩ := Option.map_eq_some_iff.mp h
  exact ⟨who, stage', disk', hr, rfl⟩

def AllProgress (part : Partition) (calls : Bool → Update) (s : SyncState) : Prop :=
  ∀ who, Progress part s.disk (calls who) (s.stage who)

theorem step_progress
    (hd : ((calls false).region part).Disjoint ((calls true).region part))
    (hs : AllProgress part calls s) (h : Step part calls s t) : AllProgress part calls t := by
  obtain ⟨who, stage', disk', hr, rfl⟩ := step_cases h
  obtain ⟨hout, hself⟩ := threadStep_progress hr
  intro v
  by_cases hv : v = who
  · subst v
    simpa only [Function.update_self] using hself (hs who)
  · simp only [Function.update_of_ne hv]
    apply (hs v).keep
    intro i hi
    apply hout
    cases v with
    | false =>
      obtain rfl : who = true := by simpa using Ne.symm hv
      exact covers_disjoint hd hi
    | true =>
      obtain rfl : who = false := by simpa using Ne.symm hv
      exact fun hf => covers_disjoint hd hf hi

/-- Threads whose sectors are apart do not see each other. -/
theorem kept_of_disjoint
    (hd : ((calls false).region part).Disjoint ((calls true).region part)) :
    UpdatesKept part calls := by
  intro disk s hrun hdone
  have hall : AllProgress part calls s := by
    clear hdone
    induction hrun with
    | refl => exact fun _ => trivial
    | tail _ hk ih => exact step_progress hd ih hk
  intro who
  have := hall who
  rwa [hdone who] at this

/-! ## Two threads in the way of each other -/

/-- The thread syncs an inode, and writes back the first byte of the other's update with it. -/
def Clobbers (part : Partition) (u v : Update) : Prop :=
  ∃ inode ioBuff, u = .sync inode ioBuff ∧ Covers (u.region part) (v.place part) ∧
    (v.place part < u.place part ∨ u.place part + u.size ≤ v.place part)

def SyncState.move (s : SyncState) (who : Bool) (stage : Stage) (disk : Bytes) : SyncState :=
  ⟨disk, Function.update s.stage who stage⟩

theorem step_move {who : Bool} {stage : Stage}
    (h : threadStep part (calls who) (s.stage who) s.disk = some (stage, disk)) :
    Step part calls s (s.move who stage disk) := ⟨who, by rw [step, h]; rfl⟩

/-- A thread on its own gets to its end. -/
theorem runs_alone {who : Bool} (hloc : Located part (calls who)) (hs : s.stage who = .start) :
    ∃ disk, ReflTransGen (Step part calls) s (s.move who .done disk) := by
  cases hu : calls who with
  | sync inode ioBuff =>
    obtain ⟨inodeBuf, hr⟩ : ∃ inodeBuf, threadStep part (calls who) (s.stage who) s.disk =
        some (.holding inodeBuf, s.disk) := by
      rw [hs, hu]
      exact ⟨_, if_pos (hu ▸ hloc)⟩
    obtain ⟨disk, hw⟩ : ∃ disk, threadStep part (calls who) (.holding inodeBuf) s.disk =
        some (.done, disk) := by
      rw [hu] at hloc ⊢
      exact ⟨_, if_pos hloc.2.2⟩
    have hread : Step part calls s (s.move who (.holding inodeBuf) s.disk) := step_move hr
    have hstage : (s.move who (.holding inodeBuf) s.disk).stage who = .holding inodeBuf :=
      Function.update_self ..
    have hwrite := step_move (s := s.move who (.holding inodeBuf) s.disk) (hstage ▸ hw)
    simp only [SyncState.move, Function.update_idem] at hwrite
    exact ⟨disk, .tail (.single hread) hwrite⟩
  | block lba buf =>
    have hr : threadStep part (calls who) (s.stage who) s.disk =
        some (.done, ideWrite s.disk lba buf 0 1) := by
      rw [hs, hu]
      exact if_pos (hu ▸ hloc)
    exact ⟨_, .single (step_move hr)⟩

/-- When one thread reads before the other runs and writes after it, the other's update is lost. -/
theorem lost_of_clobbers {who : Bool} (hc : Clobbers part (calls who) (calls (!who)))
    (hloc : ∀ who, Located part (calls who)) : ¬ UpdatesKept part calls := by
  intro hkept
  obtain ⟨inode, ioBuff, hu, hcov, hout⟩ := hc
  rw [hu] at hcov hout
  obtain ⟨pos, hpos⟩ : ∃ pos, position part inode = pos := ⟨_, rfl⟩
  have hcov : 512 * pos.secLba ≤ (calls (!who)).place part ∧
      (calls (!who)).place part < 512 * (pos.secLba + pos.sects) := hpos ▸ hcov
  have hout : (calls (!who)).place part < 512 * pos.secLba + pos.offSize ∨
      512 * pos.secLba + pos.offSize + inodeSize ≤ (calls (!who)).place part := hpos ▸ hout
  -- a disk that differs from the other's update in its first byte
  obtain ⟨disk, hdisk⟩ : ∃ disk : Bytes, ∀ i, disk i = (calls (!who)).content 0 + 1 :=
    ⟨fun _ => _, fun _ => rfl⟩
  obtain ⟨buf, hbuf⟩ : ∃ buf, buf = ideRead disk pos.secLba ioBuff 0 pos.sects := ⟨_, rfl⟩
  have hread : Step part calls (initial disk) ((initial disk).move who (.holding buf) disk) := by
    apply step_move
    rw [hu, hbuf, ← hpos]
    exact if_pos (hu ▸ hloc who)
  obtain ⟨disk', hother⟩ := runs_alone (s := (initial disk).move who (.holding buf) disk)
    (hloc (!who)) (Function.update_of_ne (by simp) _ _)
  obtain ⟨written, hwritten⟩ : ∃ written : Bytes,
      written = copyBytes (pureInode inode) 0 buf pos.offSize inodeSize := ⟨_, rfl⟩
  obtain ⟨s, hs⟩ : ∃ s, s = ((initial disk).move who (.holding buf) disk).move (!who) .done disk' :=
    ⟨_, rfl⟩
  rw [← hs] at hother
  have hwrite : Step part calls s
      (s.move who .done (ideWrite disk' pos.secLba written 0 pos.sects)) := by
    apply step_move
    have hstage : s.stage who = .holding buf := by
      rw [hs]
      exact (Function.update_of_ne (by simp) _ _).trans (Function.update_self ..)
    have hmax : (position part inode).secLba ≤ maxLba := by
      have hwho := hloc who
      rw [hu] at hwho
      exact hwho.2.2
    rw [hstage, hu, hs, hwritten, ← hpos]
    exact if_pos hmax
  have hdone : ∀ v, (s.move who .done (ideWrite disk' pos.secLba written 0 pos.sects)).stage v =
      .done := by
    intro v
    by_cases hv : v = who
    · subst v
      exact Function.update_self ..
    · obtain rfl : v = !who := Bool.eq_not.mpr hv
      rw [hs]
      exact (Function.update_of_ne hv _ _).trans (Function.update_self ..)
  have hholds := hkept _ _ ((ReflTransGen.head hread hother).tail hwrite) hdone (!who) 0
    (size_pos _)
  -- the byte is in the buffer that is written back, outside the slot
  obtain ⟨j, hj⟩ : ∃ j, (calls (!who)).place part = 512 * pos.secLba + j :=
    ⟨_, (Nat.add_sub_cancel' hcov.1).symm⟩
  have hj' : j < 512 * pos.sects := by omega
  have hbyte : ideWrite disk' pos.secLba written 0 pos.sects (512 * pos.secLba + j) =
      (calls (!who)).content 0 + 1 := by
    rw [ideWrite_at hj', hwritten, copyBytes_outside (by omega), hbuf, ideRead_at hj', hdisk]
  rw [Nat.add_zero, hj] at hholds
  exact absurd (hbyte.symm.trans hholds) (by simp)

/-! ## Which updates collide -/

theorem position_eq (part : Partition) {inode : Bytes} (h : iNo inode 0 < 4096) :
    ∃ q r, 76 * iNo inode 0 = 512 * q + r ∧ r < 512 ∧
      (position part inode).secLba = (part.inodeTableLba + q) % 2 ^ 32 ∧
      (position part inode).offSize = r ∧
      ((position part inode).sects = 1 ∧ r < 436 ∨ (position part inode).sects = 2 ∧ 436 ≤ r) := by
  have hu : u32 (iNo inode 0 * 76) = 76 * iNo inode 0 := by
    rw [u32]
    omega
  refine ⟨76 * iNo inode 0 / 512, 76 * iNo inode 0 % 512, by omega, by omega, ?_, ?_, ?_⟩
  · simp only [position, inodePosition, inodeSize, hu]
    rfl
  · simp only [position, inodePosition, inodeSize, hu]
  · simp only [position, inodePosition, InodePosition.sects, inodeSize, hu]
    by_cases hr : 512 - 76 * iNo inode 0 % 512 > 76
    · simp only [hr, not_true, decide_false, Bool.false_eq_true, if_false]
      exact Or.inl ⟨trivial, by omega⟩
    · simp only [hr, not_false_iff, decide_true, if_true]
      exact Or.inr ⟨trivial, by omega⟩

theorem table_sectors {T q q' k : ℕ} (hq : q < 608) (hq' : q' < 608) (hk : k ≤ 1)
    (h : (T + q') % 2 ^ 32 = (T + q) % 2 ^ 32 + k) : q' = q + k := by
  have hT := Nat.mod_lt T (show 0 < 2 ^ 32 by decide)
  rw [Nat.add_mod T q, Nat.add_mod T q'] at h
  generalize T % 2 ^ 32 = t at h hT
  omega

theorem clobbers_of_syncs {a b ioBuff ioBuff' : Bytes}
    (h : ValidPair part (.sync a ioBuff) (.sync b ioBuff'))
    (hle : (position part a).secLba ≤ (position part b).secLba)
    (hover : (position part b).secLba < (position part a).secLba + (position part a).sects) :
    Clobbers part (.sync a ioBuff) (.sync b ioBuff') := by
  obtain ⟨ha, hb, hne⟩ := h
  obtain ⟨q, r, hqr, hr, hsec, hoff, hsects⟩ := position_eq part ha
  obtain ⟨q', r', hqr', hr', hsec', hoff', -⟩ := position_eq part hb
  have hq : q' = q + ((position part b).secLba - (position part a).secLba) := by
    apply table_sectors (T := part.inodeTableLba) (by omega) (by omega)
    · omega
    · omega
  refine ⟨a, ioBuff, rfl, ?_, ?_⟩
  · simp only [Covers, Update.region, Update.place]
    omega
  · simp only [Update.place, Update.size, inodeSize]
    omega

theorem clobbers_of_block {a ioBuff buf : Bytes} {lba : ℕ}
    (h : ValidPair part (.sync a ioBuff) (.block lba buf))
    (hover : ¬ ((Update.sync a ioBuff).region part).Disjoint ((Update.block lba buf).region part)) :
    Clobbers part (.sync a ioBuff) (.block lba buf) := by
  obtain ⟨ha, hb, hlt⟩ := h
  have htable : FsLayout.inodeTableSects = 608 := by decide
  rw [htable] at hb
  obtain ⟨q, r, hqr, hr, hsec, hoff, hsects⟩ := position_eq part ha
  have hsec : (position part a).secLba = part.inodeTableLba + q := by
    rw [hsec, Nat.mod_eq_of_lt (by omega)]
  simp only [Region.Disjoint, Update.region] at hover
  refine ⟨a, ioBuff, rfl, ?_, ?_⟩
  · simp only [Covers, Update.region, Update.place]
    omega
  · simp only [Update.place, Update.size, inodeSize]
    omega

theorem block_disjoint_iff {a ioBuff buf : Bytes} {lba : ℕ}
    (h : ValidPair part (.sync a ioBuff) (.block lba buf)) :
    ((Update.sync a ioBuff).region part).Disjoint ((Update.block lba buf).region part) ↔
      ¬ (iNo a 0 = 4095 ∧ lba = part.inodeTableLba + 608) := by
  obtain ⟨ha, hb, hlt⟩ := h
  have htable : FsLayout.inodeTableSects = 608 := by decide
  rw [htable] at hb
  obtain ⟨q, r, hqr, hr, hsec, -, hsects⟩ := position_eq part ha
  rw [Nat.mod_eq_of_lt (by omega)] at hsec
  simp only [Region.Disjoint, Update.region]
  constructor
  · rintro hdis ⟨hlast, hfirst⟩
    omega
  · intro hne
    omega

theorem clobbers_of_overlap (h : ValidPair part u v)
    (hover : ¬ (u.region part).Disjoint (v.region part)) :
    Clobbers part u v ∨ Clobbers part v u := by
  cases u with
  | block lba buf => cases h
  | sync a ioBuff =>
    cases v with
    | block lba buf => exact Or.inl (clobbers_of_block h hover)
    | sync b ioBuff' =>
      simp only [Region.Disjoint, Update.region] at hover
      rcases Nat.le_total (position part a).secLba (position part b).secLba with hle | hle
      · exact Or.inl (clobbers_of_syncs h hle (by omega))
      · exact Or.inr (clobbers_of_syncs ⟨h.2.1, h.1, h.2.2.symm⟩ hle (by omega))

theorem lost_of_overlap (hpair : ValidPair part (calls false) (calls true))
    (hloc : ∀ who, Located part (calls who))
    (hover : ¬ ((calls false).region part).Disjoint ((calls true).region part)) :
    ¬ UpdatesKept part calls := by
  rcases clobbers_of_overlap hpair hover with hc | hc
  · exact lost_of_clobbers hc hloc
  · exact @lost_of_clobbers part calls true hc hloc

theorem stuck_of_not_located {who : Bool} (h : ¬ Located part (calls who))
    (hrun : ReflTransGen (Step part calls) (initial disk) s) : s.stage who = .start := by
  induction hrun with
  | refl => rfl
  | tail _ hk ih =>
    obtain ⟨v, stage', disk', hr, rfl⟩ := step_cases hk
    by_cases hv : who = v
    · subst hv
      rw [ih] at hr
      cases hu : calls who with
      | sync inode ioBuff =>
        rw [hu] at hr h
        simp only [threadStep, if_neg h] at hr
        cases hr
      | block lba buf =>
        rw [hu] at hr h
        simp only [threadStep, if_neg h] at hr
        cases hr
    · exact (Function.update_of_ne hv _ _).trans ih

/-- Both updates are on the disk in the end, whatever the order of the steps, just when the sectors
written for them are apart, or an assertion stops one of the threads. -/
theorem updates_kept_iff (part : Partition) (calls : Bool → Update)
    (hpair : ValidPair part (calls false) (calls true)) : UpdatesKept part calls ↔
      ((∀ who, Located part (calls who)) →
        ((calls false).region part).Disjoint ((calls true).region part)) := by
  constructor
  · intro hkept hloc
    by_contra hover
    exact lost_of_overlap hpair hloc hover hkept
  · intro h
    by_cases hloc : ∀ who, Located part (calls who)
    · exact kept_of_disjoint (h hloc)
    · obtain ⟨who, hwho⟩ := not_forall.mp hloc
      intro disk s hrun hdone
      have := (stuck_of_not_located hwho hrun).symm.trans (hdone who)
      cases this

/-- Inodes of different sectors, 0 and 7. -/
theorem updates_kept_of_0_and_7 : UpdatesKept ⟨0, 4096, 100⟩
    (fun who => .sync (storeWord (fun _ => 0) 0 (if who then 7 else 0)) fun _ => 0) :=
  (updates_kept_iff ⟨0, 4096, 100⟩
    (fun who => .sync (storeWord (fun _ => 0) 0 (if who then 7 else 0)) fun _ => 0)
    (by decide)).mpr fun _ => by decide

/-- Inodes of one sector: one of the updates may be lost. -/
theorem update_lost : ¬ ∀ (part : Partition) (calls : Bool → Update),
    ValidPair part (calls false) (calls true) → UpdatesKept part calls := by
  intro h
  have hkept := h ⟨0, 4096, 100⟩
    (fun who => .sync (storeWord (fun _ => 0) 0 (if who then 1 else 0)) fun _ => 0) (by decide)
  exact lost_of_overlap (by decide) (by decide) (by decide) hkept

end FsInodeSync
