import Leeos.FsInodeRuns

/-!
# Concurrent opens of inodes

`inode_open` is cut where it can block: in the first `sys_malloc`, in the second, in `ide_read` and
in `sys_free`. Between the search of the list and the entry into it other threads may run, and
nothing keeps two of them from missing the same inode.
-/
namespace FsInodeRaces

open ExecRules KernelBitmap FsDisk KernelHeapAccounts FsInodes LibStdint

/-- Where a thread is in `inode_open(part, no)`, with the pointers it holds. -/
inductive Stage where
  | idle
  | missed (no : ℕ)
  | allocated (no currInode : ℕ)
  | reading (no currInode ioBuf : ℕ)
  | slotRead (no currInode ioBuf : ℕ)
  | entered (no currInode ioBuf : ℕ)
  deriving DecidableEq, Repr

/-- `opened` are the numbers and pointers that calls have returned. -/
structure RaceState where
  fs : InodeState
  stage : ℕ → Stage
  opened : List (ℕ × ℕ)

/-- What a thread runs when it goes on; `answer` is what a `sys_malloc` returns. -/
def goOn (answer : ℕ) : Stage → InodeM Stage
  | .idle => pure .idle
  | .missed no => do
    let currInode ← sysMalloc answer inodeSize
    let _ ← inodeLocate no
    pure (.allocated no currInode)
  | .allocated no currInode => do
    let s ← get
    let ioBuf ← sysMalloc answer (512 * (inodePosition s.inodeTableLba no).sects)
    pure (.reading no currInode ioBuf)
  | .reading no currInode ioBuf => do
    let s ← get
    readSlot (inodePosition s.inodeTableLba no) ioBuf
    pure (.slotRead no currInode ioBuf)
  | .slotRead no currInode ioBuf => do
    let s ← get
    enterInode currInode (inodePosition s.inodeTableLba no) ioBuf
    pure (.entered no currInode ioBuf)
  | .entered _ _ ioBuf => do
    sysFree ioBuf
    pure .idle

/-- What the thread returns from its next step. -/
def Stage.returned : Stage → List (ℕ × ℕ)
  | .entered no currInode _ => [(no, currInode)]
  | _ => []

def FreshAnswer (s : InodeState) (answer : ℕ) : Stage → Prop
  | .missed _ => Fresh s.live answer inodeSize
  | .allocated no _ => Fresh s.live answer (512 * (inodePosition s.inodeTableLba no).sects)
  | _ => True

inductive RaceEvent where
  | search (t no : ℕ)
  | goOn (t answer : ℕ)

/-- What an event does to the whole state. -/
def happens : RaceEvent → Exec InodeHalt RaceState Unit
  | .search t no => fun x =>
    match searchOpen no x.fs with
    | .ok (some p, s') => .ok ((), { x with fs := s', opened := (no, p) :: x.opened })
    | .ok (none, s') =>
      .ok ((), { x with fs := s', stage := Function.update x.stage t (.missed no) })
    | .error e => .error e
  | .goOn t answer => fun x =>
    match goOn answer (x.stage t) x.fs with
    | .ok (st, s') =>
      .ok ((), ⟨s', Function.update x.stage t st, (x.stage t).returned ++ x.opened⟩)
    | .error e => .error e

/-- The thread may do this next, and the heap may answer so. -/
def Enabled (x : RaceState) : RaceEvent → Prop
  | .search t _ => x.stage t = .idle
  | .goOn t answer => FreshAnswer x.fs answer (x.stage t)

def RaceStep (e : RaceEvent) (x y : RaceState) : Prop := Enabled x e ∧ happens e x = .ok ((), y)

def AnyStep (x y : RaceState) : Prop := ∃ e, RaceStep e x y

/-- The number that a thread has missed and not entered yet. -/
def Stage.pending : Stage → Option ℕ
  | .missed no | .allocated no _ | .reading no _ _ | .slotRead no _ _ => some no
  | _ => none

/-- A slot that is read holds its own number, and one that does not start its sector is not read to
address 0, where `memcpy` would take it from `off_size`. -/
def Supplied (s : InodeState) (answer : ℕ) : Stage → Prop
  | .allocated no _ => answer = 0 → (inodePosition s.inodeTableLba no).offSize = 0
  | .reading no _ _ => slotNo s no = no
  | _ => True

/-- Besides, no search misses what another thread has missed and not entered yet. -/
def Orderly (x : RaceState) : RaceEvent → Prop
  | .search _ no => findOpen x.fs no = none → ∀ u, (x.stage u).pending ≠ some no
  | .goOn t answer => Supplied x.fs answer (x.stage t)

def OrderlyStep (x y : RaceState) : Prop := ∃ e, Orderly x e ∧ RaceStep e x y

/-- The partition has been mounted, and nothing is open. -/
structure RaceStart (x : RaceState) : Prop where
  list : x.fs.openInodes = []
  stage : ∀ t, x.stage t = .idle
  opened : x.opened = []

/-- No number is on the list twice, and whoever has opened a number has the one inode of it. -/
structure RaceSound (x : RaceState) : Prop where
  unique : (x.fs.openInodes.map (iNo x.fs.mem)).Nodup
  shared : ∀ o ∈ x.opened, o.2 ∈ x.fs.openInodes ∧ iNo x.fs.mem o.2 = o.1

/-! ## The invariant -/

def ioBlock (s : InodeState) (no ioBuf : ℕ) : Live :=
  ⟨ioBuf, 512 * (inodePosition s.inodeTableLba no).sects⟩

def Stage.blocks (s : InodeState) : Stage → List Live
  | .allocated _ p => given p inodeSize []
  | .reading no p q | .slotRead no p q =>
    given q (512 * (inodePosition s.inodeTableLba no).sects) (given p inodeSize [])
  | .entered no _ q => [ioBlock s no q]
  | _ => []

/-- What the thread has read, or entered, is what it was asked for. Where it has read to address 0,
`memcpy` will stop it. -/
def Stage.Right (s : InodeState) : Stage → Prop
  | .reading no _ q => q = 0 → (inodePosition s.inodeTableLba no).offSize = 0
  | .slotRead no _ q => q + (inodePosition s.inodeTableLba no).offSize ≠ 0 → q ≠ 0 ∧
      loadWord s.mem (q + (inodePosition s.inodeTableLba no).offSize) = no
  | .entered no p _ => p ∈ s.openInodes ∧ iNo s.mem p = no
  | _ => True

structure RaceInv (x : RaceState) : Prop where
  listed : ∀ p ∈ x.fs.openInodes, inodeBlock p ∈ x.fs.live
  owned : ∀ t, ∀ b ∈ (x.stage t).blocks x.fs, b ∈ x.fs.live
  list_apart : (x.fs.openInodes.map inodeBlock).Pairwise BlocksApart
  own_list : ∀ t, ∀ b ∈ (x.stage t).blocks x.fs, ∀ p ∈ x.fs.openInodes,
    BlocksApart b (inodeBlock p)
  own_own : ∀ t u, t ≠ u → ∀ b ∈ (x.stage t).blocks x.fs, ∀ b' ∈ (x.stage u).blocks x.fs,
    BlocksApart b b'
  own : ∀ t, ((x.stage t).blocks x.fs).Pairwise BlocksApart
  list_high : ∀ p ∈ x.fs.openInodes, 4096 ≤ p
  own_high : ∀ t, ∀ b ∈ (x.stage t).blocks x.fs, 4096 ≤ b.ptr
  unique : (x.fs.openInodes.map (iNo x.fs.mem)).Nodup
  pending : ∀ t no, (x.stage t).pending = some no → no ∉ x.fs.openInodes.map (iNo x.fs.mem)
  alone : ∀ t u no, t ≠ u → (x.stage t).pending = some no → (x.stage u).pending ≠ some no
  right : ∀ t, (x.stage t).Right x.fs
  opened : ∀ o ∈ x.opened, o.2 ∈ x.fs.openInodes ∧ iNo x.fs.mem o.2 = o.1

variable {x y : RaceState} {s s' : InodeState} {st : Stage} {t u p q no answer : ℕ}
  {opened : List (ℕ × ℕ)}

theorem raceInv_start (h : RaceStart x) : RaceInv x := by
  constructor
  case listed => simp [h.list]
  case owned => simp [h.stage, Stage.blocks]
  case list_apart => simp [h.list]
  case own_list => simp [h.list]
  case own_own => simp [h.stage, Stage.blocks]
  case own => simp [h.stage, Stage.blocks]
  case list_high => simp [h.list]
  case own_high => simp [h.stage, Stage.blocks]
  case unique => simp [h.list]
  case pending => simp [h.list]
  case alone => simp [h.stage, Stage.pending]
  case right => simp [h.stage, Stage.Right]
  case opened => simp [h.opened]

theorem blocks_congr (h : s'.inodeTableLba = s.inodeTableLba) (st : Stage) :
    st.blocks s' = st.blocks s := by
  cases st <;> simp only [Stage.blocks, ioBlock, h]

/-- A thread's own buffer and the list are all that its claim rests on. -/
theorem right_congr (htable : s'.inodeTableLba = s.inodeTableLba)
    (hlist : ∀ p ∈ s.openInodes, p ∈ s'.openInodes ∧ iNo s'.mem p = iNo s.mem p)
    (hkept : ∀ b ∈ st.blocks s, Kept s.mem s'.mem b) (h : st.Right s) : st.Right s' := by
  cases st with
  | slotRead no p q =>
    intro hne
    obtain ⟨hq, hword⟩ := h (htable ▸ hne)
    have hk := hkept (ioBlock s no q) (by simp [Stage.blocks, given, hq, ioBlock])
    have hin := offSize_le s.inodeTableLba no
    have hsize : inodeSize = 76 := rfl
    refine ⟨hq, Eq.trans (loadWord_congr fun j hj => ?_) hword⟩
    rw [htable, Nat.add_assoc]
    exact hk _ (show _ < 512 * (inodePosition s.inodeTableLba no).sects by omega)
  | entered no p q => exact ⟨(hlist p h.1).1, (hlist p h.1).2.trans h.2⟩
  | idle => trivial
  | missed no => trivial
  | allocated no p => trivial
  | reading no p q => exact fun h0 => htable ▸ h h0

/-- What a step of thread `t` that leaves the list alone has to show. -/
structure Move (x : RaceState) (t : ℕ) (s' : InodeState) (st : Stage) : Prop where
  table : s'.inodeTableLba = x.fs.inodeTableLba
  list : s'.openInodes = x.fs.openInodes
  numbers : ∀ p ∈ x.fs.openInodes, iNo s'.mem p = iNo x.fs.mem p
  others : ∀ u, u ≠ t → ∀ b ∈ (x.stage u).blocks x.fs, Kept x.fs.mem s'.mem b
  live : ∀ b ∈ x.fs.live, b ∉ (x.stage t).blocks x.fs → (∀ b' ∈ (x.stage t).blocks x.fs,
    BlocksApart b' b) → b ∈ s'.live
  mine : ∀ b ∈ st.blocks x.fs, b ∈ s'.live ∧
    (b ∈ (x.stage t).blocks x.fs ∨ 4096 ≤ b.ptr ∧ ∀ b' ∈ x.fs.live, BlocksApart b b')
  own : (st.blocks x.fs).Pairwise BlocksApart
  pending : ∀ no, st.pending = some no → (x.stage t).pending = some no ∨
    findOpen x.fs no = none ∧ ∀ u, (x.stage u).pending ≠ some no
  right : st.Right s'

theorem blocksApart_symm {b b' : Live} (h : BlocksApart b b') : BlocksApart b' b :=
  ⟨h.1.symm, h.2.symm⟩

theorem Move.apart (hm : Move x t s' st) {b b' : Live} (hb : b ∈ st.blocks x.fs)
    (hb' : b' ∈ x.fs.live) (hown : ∀ c ∈ (x.stage t).blocks x.fs, BlocksApart c b') :
    BlocksApart b b' := by
  rcases (hm.mine b hb).2 with hold | hnew
  · exact hown b hold
  · exact hnew.2 b' hb'

theorem notMem_of_apart {L : List Live} {b : Live} (h : ∀ b' ∈ L, BlocksApart b' b) : b ∉ L :=
  fun hb => (h b hb).1 rfl

theorem Move.inv (hm : Move x t s' st) (h : RaceInv x)
    (ho : ∀ o ∈ opened, o.2 ∈ x.fs.openInodes ∧ iNo x.fs.mem o.2 = o.1) :
    RaceInv ⟨s', Function.update x.stage t st, opened⟩ := by
  have hblocks := blocks_congr hm.table
  have hmap : s'.openInodes.map (iNo s'.mem) = x.fs.openInodes.map (iNo x.fs.mem) := by
    rw [hm.list]
    exact List.map_congr_left hm.numbers
  have hlisted : ∀ p ∈ x.fs.openInodes, ∀ c ∈ (x.stage t).blocks x.fs,
      BlocksApart c (inodeBlock p) := fun p hp c hc => h.own_list t c hc p hp
  constructor
  case listed =>
    intro p hp
    have hp : p ∈ x.fs.openInodes := hm.list ▸ hp
    exact hm.live _ (h.listed p hp) (notMem_of_apart (hlisted p hp)) (hlisted p hp)
  case owned =>
    intro u b hb
    dsimp only at hb ⊢
    rw [hblocks] at hb
    by_cases hu : u = t
    · subst hu
      rw [Function.update_self] at hb
      exact (hm.mine b hb).1
    · rw [Function.update_of_ne hu] at hb
      have hap := fun c hc => h.own_own t u (Ne.symm hu) c hc b hb
      exact hm.live b (h.owned u b hb) (notMem_of_apart hap) hap
  case list_apart => exact hm.list ▸ h.list_apart
  case own_list =>
    intro u b hb p hp
    dsimp only at hb hp
    rw [hblocks] at hb
    rw [hm.list] at hp
    by_cases hu : u = t
    · subst hu
      rw [Function.update_self] at hb
      exact hm.apart hb (h.listed p hp) (hlisted p hp)
    · rw [Function.update_of_ne hu] at hb
      exact h.own_list u b hb p hp
  case own_own =>
    intro u v huv b hb b' hb'
    dsimp only at hb hb'
    rw [hblocks] at hb hb'
    by_cases hu : u = t
    · subst hu
      rw [Function.update_self] at hb
      rw [Function.update_of_ne (Ne.symm huv)] at hb'
      exact hm.apart hb (h.owned v b' hb') fun c hc => h.own_own u v huv c hc b' hb'
    · rw [Function.update_of_ne hu] at hb
      by_cases hv : v = t
      · subst hv
        rw [Function.update_self] at hb'
        exact blocksApart_symm (hm.apart hb' (h.owned u b hb)
          fun c hc => h.own_own v u (Ne.symm huv) c hc b hb)
      · rw [Function.update_of_ne hv] at hb'
        exact h.own_own u v huv b hb b' hb'
  case own =>
    intro u
    dsimp only
    rw [hblocks]
    by_cases hu : u = t
    · subst hu
      rw [Function.update_self]
      exact hm.own
    · rw [Function.update_of_ne hu]
      exact h.own u
  case list_high => exact hm.list ▸ h.list_high
  case own_high =>
    intro u b hb
    dsimp only at hb
    rw [hblocks] at hb
    by_cases hu : u = t
    · subst hu
      rw [Function.update_self] at hb
      rcases (hm.mine b hb).2 with hold | hnew
      · exact h.own_high u b hold
      · exact hnew.1
    · rw [Function.update_of_ne hu] at hb
      exact h.own_high u b hb
  case unique => exact hmap ▸ h.unique
  case pending =>
    intro u no hp
    dsimp only at hp ⊢
    rw [hmap]
    by_cases hu : u = t
    · subst hu
      rw [Function.update_self] at hp
      rcases hm.pending no hp with hold | ⟨hfind, -⟩
      · exact h.pending u no hold
      · intro hin
        obtain ⟨q, hq, he⟩ := List.mem_map.mp hin
        exact findOpen_none hfind q hq he
    · rw [Function.update_of_ne hu] at hp
      exact h.pending u no hp
  case alone =>
    intro u v no huv hp hq
    dsimp only at hp hq
    by_cases hu : u = t
    · subst hu
      rw [Function.update_self] at hp
      rw [Function.update_of_ne (Ne.symm huv)] at hq
      rcases hm.pending no hp with hold | ⟨-, hnone⟩
      · exact h.alone u v no huv hold hq
      · exact hnone v hq
    · rw [Function.update_of_ne hu] at hp
      by_cases hv : v = t
      · subst hv
        rw [Function.update_self] at hq
        rcases hm.pending no hq with hold | ⟨-, hnone⟩
        · exact h.alone u v no huv hp hold
        · exact hnone u hp
      · rw [Function.update_of_ne hv] at hq
        exact h.alone u v no huv hp hq
  case right =>
    intro u
    dsimp only
    by_cases hu : u = t
    · subst hu
      rw [Function.update_self]
      exact hm.right
    · rw [Function.update_of_ne hu]
      exact right_congr hm.table (fun p hp => ⟨hm.list ▸ hp, hm.numbers p hp⟩)
        (hm.others u hu) (h.right u)
  case opened =>
    intro o hmem
    exact ⟨hm.list ▸ (ho o hmem).1, (hm.numbers o.2 (ho o hmem).1).trans (ho o hmem).2⟩

/-! ## The steps -/

theorem hit_inv (h : RaceInv x) (ht : x.stage t = .idle) (hf : findOpen x.fs no = some p) :
    RaceInv { x with
      fs := { x.fs with mem := setOpenCnts x.fs.mem p (u32 (iOpenCnts x.fs.mem p + 1)) }
      opened := (no, p) :: x.opened } := by
  obtain ⟨hp, hno⟩ := findOpen_some hf
  have hm : Move x t
      { x.fs with mem := setOpenCnts x.fs.mem p (u32 (iOpenCnts x.fs.mem p + 1)) } .idle := by
    refine ⟨rfl, rfl, fun q hq => ?_, fun u _ b hb => ?_, fun b hb _ _ => hb, ?_, List.Pairwise.nil,
      ?_, trivial⟩
    · by_cases hqp : q = p
      · rw [hqp]
        exact iNo_setOpenCnts_self _ _ _
      · refine (kept_setOpenCnts ?_).iNo
        exact h.list_apart.forall (List.mem_map_of_mem hp) (List.mem_map_of_mem hq)
          fun he => hqp (congrArg Live.ptr he).symm
    · exact kept_setOpenCnts (blocksApart_symm (h.own_list u b hb p hp))
    · exact fun b hb => absurd hb List.not_mem_nil
    · exact fun no he => nomatch he
  have hopened : ∀ o ∈ (no, p) :: x.opened, o.2 ∈ x.fs.openInodes ∧ iNo x.fs.mem o.2 = o.1 := by
    intro o ho
    rcases List.mem_cons.mp ho with rfl | ho
    · exact ⟨hp, hno⟩
    · exact h.opened o ho
  have hinv := hm.inv h hopened
  rw [← ht, Function.update_eq_self] at hinv
  exact hinv

theorem miss_inv (h : RaceInv x) (hf : findOpen x.fs no = none)
    (hn : ∀ u, (x.stage u).pending ≠ some no) :
    RaceInv { x with stage := Function.update x.stage t (.missed no) } := by
  have hm : Move x t x.fs (.missed no) := by
    refine ⟨rfl, rfl, fun _ _ => rfl, fun _ _ _ _ _ _ => rfl, fun b hb _ _ => hb, ?_,
      List.Pairwise.nil, fun no' he => ?_, trivial⟩
    · exact fun b hb => absurd hb List.not_mem_nil
    · cases he
      exact Or.inr ⟨hf, hn⟩
  exact hm.inv h h.opened

theorem malloc_move {n : ℕ} (h : RaceInv x) (hfresh : Fresh x.fs.live p n)
    (hst : st.blocks x.fs = given p n ((x.stage t).blocks x.fs))
    (hpend : st.pending = (x.stage t).pending)
    (hright : st.Right { x.fs with mem := cleared p n x.fs.mem, live := given p n x.fs.live }) :
    Move x t { x.fs with mem := cleared p n x.fs.mem, live := given p n x.fs.live } st := by
  by_cases hp : p = 0
  · rw [given, if_pos hp] at hst
    rw [cleared, if_pos hp, given, if_pos hp] at hright ⊢
    exact ⟨rfl, rfl, fun _ _ => rfl, fun _ _ _ _ _ _ => rfl, fun b hb _ _ => hb,
      fun b hb => ⟨h.owned t b (hst ▸ hb), Or.inl (hst ▸ hb)⟩, hst ▸ h.own t,
      fun no he => Or.inl (hpend ▸ he), hright⟩
  rw [given, if_neg hp] at hst
  obtain ⟨hhigh, hap⟩ := hfresh.resolve_left hp
  have hgiven : given p n x.fs.live = ⟨p, n⟩ :: x.fs.live := if_neg hp
  have hkept : ∀ b ∈ x.fs.live, Kept x.fs.mem (cleared p n x.fs.mem) b :=
    fun b hb => kept_cleared fun _ => hap b hb
  refine ⟨rfl, rfl, fun q hq => (hkept _ (h.listed q hq)).iNo, fun u _ b hb => hkept b (h.owned u b hb),
    fun b hb _ _ => ?_, fun b hb => ?_, ?_, fun no he => Or.inl (hpend ▸ he), hright⟩
  · dsimp only
    rw [hgiven]
    exact List.mem_cons_of_mem _ hb
  · dsimp only
    rw [hgiven]
    rw [hst] at hb
    rcases List.mem_cons.mp hb with rfl | hb
    · exact ⟨List.mem_cons_self, Or.inr ⟨hhigh, hap⟩⟩
    · exact ⟨List.mem_cons_of_mem _ (h.owned t b hb), Or.inl hb⟩
  · rw [hst]
    exact List.pairwise_cons.mpr ⟨fun b hb => hap b (h.owned t b hb), h.own t⟩

theorem read_move (h : RaceInv x) (ht : x.stage t = .reading no p q) (hslot : slotNo x.fs no = no) :
    Move x t { x.fs with
      mem := ideRead x.fs.disk (inodePosition x.fs.inodeTableLba no).secLba x.fs.mem q
        (inodePosition x.fs.inodeTableLba no).sects } (.slotRead no p q) := by
  have hmine : q ≠ 0 → ioBlock x.fs no q ∈ (x.stage t).blocks x.fs := by
    intro hq
    rw [ht, Stage.blocks, given, if_neg hq]
    exact List.mem_cons_self
  -- a read to address 0 stays in the first page, where there are no blocks
  have hkept : ∀ b, 4096 ≤ b.ptr → (q ≠ 0 → BlocksApart (ioBlock x.fs no q) b) → Kept x.fs.mem
      (ideRead x.fs.disk (inodePosition x.fs.inodeTableLba no).secLba x.fs.mem q
        (inodePosition x.fs.inodeTableLba no).sects) b := by
    intro b hhigh hap
    by_cases hq : q = 0
    · have hsects : (inodePosition x.fs.inodeTableLba no).sects ≤ 2 := by
        rw [InodePosition.sects]
        split <;> omega
      intro i hi
      exact copyBytes_outside (Or.inr (by omega))
    · exact kept_copyBytes (hap hq)
  have hst : (Stage.slotRead no p q).blocks x.fs = (x.stage t).blocks x.fs := by rw [ht]; rfl
  refine ⟨rfl, rfl, fun r hr => ?_, fun u hu b hb => ?_, fun b hb _ _ => hb, fun b hb => ?_,
    hst ▸ h.own t, fun no' he => ?_, fun hne => ?_⟩
  · exact (hkept _ (h.list_high r hr) fun hq => h.own_list t _ (hmine hq) r hr).iNo
  · exact hkept b (h.own_high u b hb) fun hq => h.own_own t u (Ne.symm hu) _ (hmine hq) b hb
  · exact ⟨h.owned t b (hst ▸ hb), Or.inl (hst ▸ hb)⟩
  · rw [ht]
    exact Or.inl he
  · have hright := h.right t
    rw [ht] at hright
    refine ⟨fun hq => hne ?_, (loadWord_ideRead _ _ _ _ _).trans hslot⟩
    rw [hq, hright hq]

theorem free_move (ht : x.stage t = .entered no p q) :
    Move x t { x.fs with live := x.fs.live.eraseP (·.ptr = q) } .idle := by
  refine ⟨rfl, rfl, fun _ _ => rfl, fun _ _ _ _ _ _ => rfl, fun b hb _ hap => ?_, ?_,
    List.Pairwise.nil, ?_, trivial⟩
  · have hne : q ≠ b.ptr := (hap (ioBlock x.fs no q) (by rw [ht]; exact List.mem_cons_self)).1
    exact (List.mem_eraseP_of_neg (by simpa using Ne.symm hne)).mpr hb
  · exact fun b hb => absurd hb List.not_mem_nil
  · exact fun no he => nomatch he

theorem slotRead_blocks (ht : x.stage t = .slotRead no p q) (hp : p ≠ 0) (hq : q ≠ 0) :
    (x.stage t).blocks x.fs = [ioBlock x.fs no q, inodeBlock p] := by
  rw [ht, Stage.blocks, given, if_neg hq, given, if_neg hp]
  rfl

/-- Of the thread's blocks only the buffer remains its own. -/
theorem entered_blocks (h : RaceInv x) (ht : x.stage t = .slotRead no p q) (hp : p ≠ 0)
    (hq : q ≠ 0) (u : ℕ) {b : Live}
    (hb : b ∈ (Function.update x.stage t (.entered no p q) u).blocks x.fs) :
    b ∈ (x.stage u).blocks x.fs ∧ BlocksApart b (inodeBlock p) := by
  have hblocks := slotRead_blocks ht hp hq
  by_cases hu : u = t
  · subst hu
    rw [Function.update_self] at hb
    obtain rfl := List.mem_singleton.mp hb
    have hown := h.own u
    rw [hblocks] at hown ⊢
    exact ⟨List.mem_cons_self, (List.pairwise_cons.mp hown).1 _ (List.mem_singleton_self _)⟩
  · rw [Function.update_of_ne hu] at hb
    exact ⟨hb, h.own_own u t hu b hb _ (by simp [hblocks])⟩

theorem entered_pending (u : ℕ) {no' : ℕ}
    (hp : (Function.update x.stage t (.entered no p q) u).pending = some no') :
    u ≠ t ∧ (x.stage u).pending = some no' := by
  by_cases hu : u = t
  · subst hu
    rw [Function.update_self] at hp
    exact nomatch hp
  · rw [Function.update_of_ne hu] at hp
    exact ⟨hu, hp⟩

theorem enter_inv (h : RaceInv x) (ht : x.stage t = .slotRead no p q) (hp : p ≠ 0)
    (hne : q + (inodePosition x.fs.inodeTableLba no).offSize ≠ 0) :
    RaceInv { x with
      fs := { x.fs with
        mem := enteredMem x.fs (inodePosition x.fs.inodeTableLba no) p q
        openInodes := x.fs.openInodes ++ [p] }
      stage := Function.update x.stage t (.entered no p q) } := by
  have hright := h.right t
  rw [ht] at hright
  obtain ⟨hq, hword⟩ := hright hne
  have hblocks := slotRead_blocks ht hp hq
  have hpmine : inodeBlock p ∈ (x.stage t).blocks x.fs := by simp [hblocks]
  have hkept : ∀ b, BlocksApart (inodeBlock p) b → Kept x.fs.mem
      (enteredMem x.fs (inodePosition x.fs.inodeTableLba no) p q) b := fun b hb => kept_enteredMem hb
  have hnum : ∀ r ∈ x.fs.openInodes, iNo (enteredMem x.fs (inodePosition x.fs.inodeTableLba no) p q) r
      = iNo x.fs.mem r := fun r hr => (hkept _ (h.own_list t _ hpmine r hr)).iNo
  have hno : iNo (enteredMem x.fs (inodePosition x.fs.inodeTableLba no) p q) p = no :=
    iNo_enteredMem.trans hword
  have hpending : (x.stage t).pending = some no := by rw [ht]; rfl
  have hfresh := h.pending t no hpending
  have hmap : (x.fs.openInodes ++ [p]).map
      (iNo (enteredMem x.fs (inodePosition x.fs.inodeTableLba no) p q)) =
      x.fs.openInodes.map (iNo x.fs.mem) ++ [no] := by
    rw [List.map_append, List.map_congr_left hnum, List.map_singleton, hno]
  constructor
  case listed =>
    intro r hr
    rcases List.mem_append.mp hr with hr | hr
    · exact h.listed r hr
    · obtain rfl := List.mem_singleton.mp hr
      exact h.owned t _ hpmine
  case owned =>
    intro u b hb
    exact h.owned u b (entered_blocks h ht hp hq u (blocks_congr rfl _ ▸ hb)).1
  case list_apart =>
    dsimp only
    rw [List.map_append, List.pairwise_append]
    refine ⟨h.list_apart, List.pairwise_singleton _ _, fun b hb c hc => ?_⟩
    obtain ⟨r, hr, rfl⟩ := List.mem_map.mp hb
    obtain rfl := List.mem_singleton.mp hc
    exact blocksApart_symm (h.own_list t _ hpmine r hr)
  case own_list =>
    intro u b hb r hr
    obtain ⟨hold, hap⟩ := entered_blocks h ht hp hq u (blocks_congr rfl _ ▸ hb)
    rcases List.mem_append.mp hr with hr | hr
    · exact h.own_list u b hold r hr
    · obtain rfl := List.mem_singleton.mp hr
      exact hap
  case own_own =>
    intro u v huv b hb b' hb'
    exact h.own_own u v huv b (entered_blocks h ht hp hq u (blocks_congr rfl _ ▸ hb)).1 b'
      (entered_blocks h ht hp hq v (blocks_congr rfl _ ▸ hb')).1
  case own =>
    intro u
    by_cases hu : u = t
    · subst hu
      dsimp only
      rw [Function.update_self]
      exact List.pairwise_singleton _ _
    · dsimp only
      rw [Function.update_of_ne hu]
      exact blocks_congr (s := x.fs) rfl (x.stage u) ▸ h.own u
  case list_high =>
    intro r hr
    rcases List.mem_append.mp hr with hr | hr
    · exact h.list_high r hr
    · obtain rfl := List.mem_singleton.mp hr
      exact h.own_high t _ hpmine
  case own_high =>
    intro u b hb
    exact h.own_high u b (entered_blocks h ht hp hq u (blocks_congr rfl _ ▸ hb)).1
  case unique =>
    dsimp only
    rw [hmap]
    refine List.nodup_append.mpr ⟨h.unique, List.nodup_singleton _, fun a ha b hb he => ?_⟩
    exact hfresh ((he.trans (List.mem_singleton.mp hb)) ▸ ha)
  case pending =>
    intro u no' hpend
    obtain ⟨hu, hold⟩ := entered_pending u hpend
    dsimp only
    rw [hmap, List.mem_append, List.mem_singleton]
    rintro (hin | he)
    · exact h.pending u no' hold hin
    · exact h.alone u t no' hu hold (he ▸ hpending)
  case alone =>
    intro u v no' huv hpend hpend'
    exact h.alone u v no' huv (entered_pending u hpend).2 (entered_pending v hpend').2
  case right =>
    intro u
    by_cases hu : u = t
    · subst hu
      dsimp only
      rw [Function.update_self]
      exact ⟨List.mem_append_right _ (List.mem_singleton_self _), hno⟩
    · dsimp only
      rw [Function.update_of_ne hu]
      refine right_congr (s := x.fs) rfl (fun r hr => ⟨List.mem_append_left _ hr, hnum r hr⟩)
        (fun b hb => hkept b ?_) (h.right u)
      exact h.own_own t u (Ne.symm hu) _ hpmine b hb
  case opened =>
    intro o ho
    obtain ⟨hin, he⟩ := h.opened o ho
    exact ⟨List.mem_append_left _ hin, (hnum o.2 hin).trans he⟩

theorem goOn_inv {answer : ℕ} (h : RaceInv x) (hord : Orderly x (.goOn t answer))
    (hfresh : FreshAnswer x.fs answer (x.stage t))
    (hrun : goOn answer (x.stage t) x.fs = .ok (st, s')) :
    RaceInv ⟨s', Function.update x.stage t st, (x.stage t).returned ++ x.opened⟩ := by
  cases ht : x.stage t with
  | idle =>
    rw [ht] at hrun
    cases hrun
    rw [← ht, Function.update_eq_self, ht]
    exact h
  | missed no =>
    rw [ht] at hfresh hrun
    rw [goOn, bind_of_ok sysMalloc_run] at hrun
    obtain ⟨_, u, hloc, hrun⟩ := bind_ok_iff.mp hrun
    obtain ⟨-, -, rfl⟩ := inodeLocate_ok hloc
    cases hrun
    refine Move.inv (malloc_move h hfresh ?_ ?_ trivial) h h.opened
    · rw [ht]
      rfl
    · rw [ht]
      rfl
  | allocated no p =>
    simp only [Orderly, ht, Supplied] at hord
    rw [ht] at hfresh hrun
    rw [goOn, get_bind, bind_of_ok sysMalloc_run] at hrun
    cases hrun
    refine Move.inv (malloc_move h hfresh ?_ ?_ hord) h h.opened
    · rw [ht]
      rfl
    · rw [ht]
      rfl
  | reading no p q =>
    simp only [Orderly, ht, Supplied] at hord
    rw [ht, goOn, get_bind, readSlot, modify_bind] at hrun
    cases hrun
    exact Move.inv (read_move h ht hord) h h.opened
  | slotRead no p q =>
    rw [ht, goOn, get_bind] at hrun
    obtain ⟨_, u, henter, hrun⟩ := bind_ok_iff.mp hrun
    obtain ⟨⟨hp, hne⟩, -, rfl⟩ := enterInode_ok henter
    cases hrun
    exact enter_inv h ht hp hne
  | entered no p q =>
    rw [ht, goOn] at hrun
    obtain ⟨_, u, hfree, hrun⟩ := bind_ok_iff.mp hrun
    obtain ⟨-, rfl⟩ := sysFree_ok hfree
    cases hrun
    refine Move.inv (free_move ht) h fun o ho => ?_
    rcases List.mem_cons.mp ho with rfl | ho
    · have hright := h.right t
      rw [ht] at hright
      exact hright
    · exact h.opened o ho

theorem search_inv (h : RaceInv x) (hord : Orderly x (.search t no)) (ht : x.stage t = .idle)
    (hrun : happens (.search t no) x = .ok ((), y)) : RaceInv y := by
  simp only [happens] at hrun
  cases hf : findOpen x.fs no with
  | none =>
    simp only [searchOpen_none hf] at hrun
    cases hrun
    exact miss_inv h hf (hord hf)
  | some q =>
    simp only [searchOpen_some hf] at hrun
    cases hrun
    exact hit_inv h ht hf

theorem step_inv (h : RaceInv x) (hs : OrderlyStep x y) : RaceInv y := by
  obtain ⟨e, hord, henabled, hrun⟩ := hs
  cases e with
  | search t no => exact search_inv h hord henabled hrun
  | goOn t answer =>
    simp only [happens] at hrun
    split at hrun
    · next hgo =>
      cases hrun
      exact goOn_inv h hord henabled hgo
    · cases hrun

/-- In every run whose steps all meet the condition, no number is on the list twice. -/
theorem opens_share (h : Reachable RaceStart OrderlyStep x) : RaceSound x := by
  have hinv := reachable_invariant RaceInv h (fun _ => raceInv_start) fun _ _ => step_inv
  exact ⟨hinv.unique, hinv.opened⟩

/-! ## Two openers -/

instance (live : List Live) (p n : ℕ) : Decidable (Fresh live p n) :=
  inferInstanceAs (Decidable (_ ∨ _))

instance (s : InodeState) (answer : ℕ) (st : Stage) : Decidable (FreshAnswer s answer st) := by
  cases st <;> unfold FreshAnswer <;> infer_instance

instance (x : RaceState) (e : RaceEvent) : Decidable (Enabled x e) := by
  cases e <;> unfold Enabled <;> infer_instance

instance (s : InodeState) (answer : ℕ) (st : Stage) : Decidable (Supplied s answer st) := by
  cases st <;> unfold Supplied <;> infer_instance

def raceState : RaceState := ⟨FsInodeRuns.mountedRun.fs, fun _ => .idle, []⟩

theorem raceStart_raceState : RaceStart raceState := ⟨rfl, fun _ => rfl, rfl⟩

/-- One thread opens inode 3 and returns with it. -/
theorem opens_share_one_thread : ∃ x : RaceState, x.opened = [(3, 0x10000)] ∧ RaceSound x := by
  let missed : RaceState := { raceState with stage := Function.update raceState.stage 0 (.missed 3) }
  have hrun : (runs (fun a => happens (.goOn 0 a)) (fun x a => decide (Enabled x (.goOn 0 a) ∧
      Supplied x.fs a (x.stage 0))) [0x10000, 0x20000, 0, 0, 0] missed).map RaceState.opened =
      some [(3, 0x10000)] := by
    decide +kernel
  obtain ⟨x, hx, hopened⟩ := Option.map_eq_some_iff.mp hrun
  have hfirst : OrderlyStep raceState missed := ⟨.search 0 3, fun _ u => nofun, rfl, rfl⟩
  have hrest : Relation.ReflTransGen OrderlyStep missed x := by
    refine runs_reaches (fun s t a hf hc => ?_) hx
    obtain ⟨henabled, hord⟩ := of_decide_eq_true hf
    exact ⟨.goOn 0 a, hord, henabled, hc⟩
  exact ⟨x, hopened, opens_share ⟨raceState, raceStart_raceState, .head hfirst hrest⟩⟩

/-- Both threads miss inode 3 before one of them has put it on the list. -/
theorem inode_twice : RaceStart raceState ∧ ∃ x,
    Relation.ReflTransGen AnyStep raceState x ∧ ¬ RaceSound x := by
  have hrun : (runs happens (fun x e => decide (Enabled x e)) [.search 0 3, .search 1 3,
      .goOn 0 0x10000, .goOn 1 0x11000, .goOn 0 0x20000, .goOn 1 0x21000, .goOn 0 0, .goOn 1 0,
      .goOn 0 0, .goOn 1 0] raceState).map (fun x => x.fs.openInodes.map (iNo x.fs.mem)) =
      some [3, 3] := by
    decide +kernel
  obtain ⟨x, hx, hlist⟩ := Option.map_eq_some_iff.mp hrun
  refine ⟨raceStart_raceState, x, runs_reaches (fun s t e hf hc => ?_) hx, fun h => ?_⟩
  · exact ⟨e, of_decide_eq_true hf, hc⟩
  · have hnodup := h.unique
    rw [hlist] at hnodup
    exact absurd hnodup (by decide)

end FsInodeRaces
