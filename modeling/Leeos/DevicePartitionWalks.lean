import Leeos.DevicePartitionScan

/-!
# Walks over the partition records

A walk follows the links of a disk and lists the partitions it meets. It has no arrays and no depth,
and so an endless chain of records has no walk.
-/
namespace DevicePartitionWalks

open ExecRules KernelBitmap DevicePartitions DevicePartitionScan LibStdint
open FsDisk (maxLba)

/-- What has been listed, and the sector that further links are relative to. -/
structure Listing where
  base : ℕ
  prims : List Partition
  logics : List Partition
  deriving DecidableEq, Repr

namespace Listing

def addPrim (l : Listing) (q : Partition) : Listing := { l with prims := l.prims ++ [q] }

def addLogic (l : Listing) (q : Partition) : Listing := { l with logics := l.logics ++ [q] }

/-- The record that a link leads to. -/
def target (l : Listing) (p : PartitionTableEntry) : ℕ :=
  if l.base = 0 then p.startLba else u32 (p.startLba + l.base)

def follow (l : Listing) (p : PartitionTableEntry) : Listing :=
  { l with base := if l.base = 0 then p.startLba else l.base }

end Listing

/-- The walk over the entries of the record at `lba`. It leaves an extended record when `full` holds
of the number of logical partitions. -/
inductive Walk (disk : Bytes) (hd : ℕ) (full : ℕ → Prop) :
    ℕ → List PartitionTableEntry → Listing → Listing → Prop
  | done {lba : ℕ} {l : Listing} : Walk disk hd full lba [] l l
  | empty {lba : ℕ} {p : PartitionTableEntry} {es : List PartitionTableEntry} {l l' : Listing} :
      p.isLink = false → p.isPart = false → Walk disk hd full lba es l l' →
      Walk disk hd full lba (p :: es) l l'
  | prim {lba : ℕ} {p : PartitionTableEntry} {es : List PartitionTableEntry} {l l' : Listing} :
      p.isLink = false → p.isPart = true → lba = 0 →
      Walk disk hd full lba es (l.addPrim (partitionOf hd lba p)) l' →
      Walk disk hd full lba (p :: es) l l'
  | logic {lba : ℕ} {p : PartitionTableEntry} {es : List PartitionTableEntry} {l l' : Listing} :
      p.isLink = false → p.isPart = true → lba ≠ 0 → ¬ full (l.logics.length + 1) →
      Walk disk hd full lba es (l.addLogic (partitionOf hd lba p)) l' →
      Walk disk hd full lba (p :: es) l l'
  | leave {lba : ℕ} {p : PartitionTableEntry} {es : List PartitionTableEntry} {l : Listing} :
      p.isLink = false → p.isPart = true → lba ≠ 0 → full (l.logics.length + 1) →
      Walk disk hd full lba (p :: es) l (l.addLogic (partitionOf hd lba p))
  | link {lba : ℕ} {p : PartitionTableEntry} {es : List PartitionTableEntry} {l m l' : Listing} :
      p.isLink = true → l.target p ≤ maxLba →
      Walk disk hd full (l.target p) (partitionTable disk (l.target p)) (l.follow p) m →
      Walk disk hd full lba es m l' → Walk disk hd full lba (p :: es) l l'

def eight (n : ℕ) : Prop := 8 ≤ n

def unlimited (_ : ℕ) : Prop := False

/-- The records of the disk list `l`, if links are relative to `base`, or to the first one for the
base 0. -/
def Listed (disk : Bytes) (hd : ℕ) (full : ℕ → Prop) (base : ℕ) (l : Listing) : Prop :=
  Walk disk hd full 0 (partitionTable disk 0) ⟨base, [], []⟩ l

def extendedStart (es : List PartitionTableEntry) : ℕ :=
  ((linksOf es).head?.map PartitionTableEntry.startLba).getD 0

/-- `s` has recorded what `l` lists, in arrays that began as `f` and `g`. -/
structure Holds (f g : ℕ → Partition) (s : ScanState) (l : Listing) : Prop where
  base : s.extraLbaBase = l.base
  primCount : s.primaryIdx = l.prims.length
  logicCount : s.logicIdx = l.logics.length
  prim : s.primParts = place f 0 l.prims
  logic : s.logicParts = place g 0 l.logics
  primRoom : l.prims.length < 4
  logicRoom : l.logics.length ≤ 8

variable {disk : Bytes} {hd lba base fuel : ℕ} {full full' : ℕ → Prop}
  {p : PartitionTableEntry} {es : List PartitionTableEntry} {l l' m : Listing}
  {f g : ℕ → Partition} {s t : ScanState} {scan : ℕ → ScanM Unit}

@[simp] theorem Listing.length_addPrim (l : Listing) (q : Partition) :
    (l.addPrim q).prims.length = l.prims.length + 1 := List.length_append

@[simp] theorem Listing.length_addLogic (l : Listing) (q : Partition) :
    (l.addLogic q).logics.length = l.logics.length + 1 := List.length_append

/-! ## Walks -/

theorem Walk.grows (h : Walk disk hd full lba es l l') :
    l.prims.length ≤ l'.prims.length ∧ l.logics.length ≤ l'.logics.length := by
  induction h with
  | done => exact ⟨Nat.le_refl _, Nat.le_refl _⟩
  | empty _ _ _ ih => exact ih
  | prim _ _ _ _ ih =>
    simp only [Listing.length_addPrim] at ih
    exact ⟨by omega, ih.2⟩
  | logic _ _ _ _ _ ih =>
    simp only [Listing.length_addLogic] at ih
    exact ⟨ih.1, by omega⟩
  | leave => exact ⟨Nat.le_refl _, by simp⟩
  | link _ _ _ _ ihcall ihrest =>
    exact ⟨ihcall.1.trans ihrest.1, ihcall.2.trans ihrest.2⟩

/-- Two limits that agree as far as the walk comes list the same. -/
theorem Walk.relimit (h : Walk disk hd full lba es l l')
    (hsame : ∀ n ≤ l'.logics.length, full n ↔ full' n) : Walk disk hd full' lba es l l' := by
  induction h with
  | done => exact .done
  | empty hl hp _ ih => exact .empty hl hp (ih hsame)
  | prim hl hp hz _ ih => exact .prim hl hp hz (ih hsame)
  | @logic _ p _ l l' hl hp hne hroom hrest ih =>
    have hlen := hrest.grows.2
    rw [Listing.length_addLogic] at hlen
    exact .logic hl hp hne (fun hfull => hroom ((hsame _ hlen).mpr hfull)) (ih hsame)
  | leave hl hp hne hfull =>
    refine .leave hl hp hne ((hsame _ ?_).mp hfull)
    simp
  | link hl hmax _ hrest ihcall ihrest =>
    have hlen := hrest.grows.2
    exact .link hl hmax (ihcall fun n hn => hsame n (hn.trans hlen)) (ihrest hsame)

theorem walk_unlimited_iff (hfew : l'.logics.length < 8) :
    Walk disk hd eight lba es l l' ↔ Walk disk hd unlimited lba es l l' := by
  have hsame : ∀ n ≤ l'.logics.length, eight n ↔ unlimited n := by
    intro n hn
    simp only [eight, unlimited, iff_false]
    omega
  constructor
  · exact fun h => h.relimit hsame
  · exact fun h => h.relimit fun n hn => (hsame n hn).symm

/-! What the first entry says of a walk. -/

theorem Walk.of_empty (h : Walk disk hd full lba (p :: es) l l') (hl : p.isLink = false)
    (hp : p.isPart = false) : Walk disk hd full lba es l l' := by
  cases h with
  | empty _ _ hrest => exact hrest
  | prim _ hpart => cases hp.symm.trans hpart
  | logic _ hpart => cases hp.symm.trans hpart
  | leave _ hpart => cases hp.symm.trans hpart
  | link hlink => cases hl.symm.trans hlink

theorem Walk.of_link (h : Walk disk hd full lba (p :: es) l l') (hl : p.isLink = true) :
    ∃ m, Walk disk hd full (l.target p) (partitionTable disk (l.target p)) (l.follow p) m ∧
      Walk disk hd full lba es m l' := by
  cases h with
  | empty hlink => cases hl.symm.trans hlink
  | prim hlink => cases hl.symm.trans hlink
  | logic hlink => cases hl.symm.trans hlink
  | leave hlink => cases hl.symm.trans hlink
  | link _ _ hcall hrest => exact ⟨_, hcall, hrest⟩

theorem Walk.of_prim (h : Walk disk hd full lba (p :: es) l l') (hp : p.isPart = true)
    (hz : lba = 0) : Walk disk hd full lba es (l.addPrim (partitionOf hd lba p)) l' := by
  cases h with
  | empty _ hpart => cases hp.symm.trans hpart
  | prim _ _ _ hrest => exact hrest
  | logic _ _ hne => exact absurd hz hne
  | leave _ _ hne => exact absurd hz hne
  | link hlink => cases (isPart_of_isLink hlink).symm.trans hp

theorem Walk.of_logic (h : Walk disk hd full lba (p :: es) l l') (hp : p.isPart = true)
    (hne : lba ≠ 0) :
    (full (l.logics.length + 1) ∧ l' = l.addLogic (partitionOf hd lba p)) ∨
    ¬ full (l.logics.length + 1) ∧
      Walk disk hd full lba es (l.addLogic (partitionOf hd lba p)) l' := by
  cases h with
  | empty _ hpart => cases hp.symm.trans hpart
  | prim _ _ hz => exact absurd hz hne
  | logic _ _ _ hroom hrest => exact Or.inr ⟨hroom, hrest⟩
  | leave _ _ _ hfull => exact Or.inl ⟨hfull, rfl⟩
  | link hlink => cases (isPart_of_isLink hlink).symm.trans hp

theorem Walk.unique (h : Walk disk hd full lba es l l') (h' : Walk disk hd full lba es l m) :
    l' = m := by
  induction h generalizing m with
  | done =>
    cases h'
    rfl
  | empty hl hp _ ih => exact ih (h'.of_empty hl hp)
  | prim _ hp hz _ ih => exact ih (h'.of_prim hp hz)
  | logic _ hp hne hroom _ ih =>
    rcases h'.of_logic hp hne with ⟨hfull, -⟩ | ⟨-, hrest⟩
    · exact absurd hfull hroom
    · exact ih hrest
  | leave _ hp hne hfull =>
    rcases h'.of_logic hp hne with ⟨-, heq⟩ | ⟨hroom, -⟩
    · exact heq.symm
    · exact absurd hfull hroom
  | link hl _ _ _ ihcall ihrest =>
    obtain ⟨n, hcall, hrest⟩ := h'.of_link hl
    rw [← ihcall hcall] at hrest
    exact ihrest hrest

/-! ## What a scan records is a walk -/

/-- With the counters at 0 nothing is recorded yet. -/
theorem holds_nil (hprim : s.primaryIdx = 0) (hlogic : s.logicIdx = 0) :
    Holds s.primParts s.logicParts s ⟨s.extraLbaBase, [], []⟩ := by
  constructor
  case base => rfl
  case primCount => exact hprim
  case logicCount => exact hlogic
  case prim => rfl
  case logic => rfl
  case primRoom => exact Nat.zero_lt_succ 3
  case logicRoom => exact Nat.zero_le 8

theorem holds_follow (h : Holds f g s l) : ∃ t, followLink p s = .ok (l.target p, t) ∧
    Holds f g t (l.follow p) := by
  have hbase := h.base
  by_cases hz : l.base = 0
  · refine ⟨{ s with extraLbaBase := p.startLba }, ?_, ?_⟩
    · rw [Listing.target, if_pos hz]
      exact followLink_first (hbase.trans hz)
    · exact { h with base := (if_pos hz).symm }
  · refine ⟨s, ?_, ?_⟩
    · rw [Listing.target, if_neg hz, ← hbase]
      exact followLink_later (by rwa [hbase])
    · exact { h with base := hbase.trans (if_neg hz).symm }

theorem place_snoc (f : ℕ → Partition) (qs : List Partition) (q : Partition) :
    place f 0 (qs ++ [q]) = Function.update (place f 0 qs) qs.length q := by
  rw [place_append, Nat.zero_add]
  rfl

theorem holds_prim (hd : ℕ) (p : PartitionTableEntry) (h : Holds f g s l)
    (hroom : l.prims.length < 3) :
    ∃ t, recordPrim hd 0 p s = .ok ((), t) ∧ Holds f g t (l.addPrim (partitionOf hd 0 p)) := by
  refine ⟨_, recordPrim_eq (by rwa [h.primCount]), ?_⟩
  constructor
  case base => exact h.base
  case primCount => simp [h.primCount]
  case logicCount => exact h.logicCount
  case prim =>
    rw [Listing.addPrim, place_snoc, ← h.prim, ← h.primCount]
  case logic => exact h.logic
  case primRoom =>
    rw [Listing.length_addPrim]
    omega
  case logicRoom => exact h.logicRoom

theorem holds_logic (hd lba : ℕ) (p : PartitionTableEntry) (h : Holds f g s l)
    (hroom : l.logics.length < 8) :
    ∃ t, recordLogic hd lba p s = .ok ((), t) ∧
      Holds f g t (l.addLogic (partitionOf hd lba p)) := by
  refine ⟨_, recordLogic_eq (by rwa [h.logicCount]), ?_⟩
  constructor
  case base => exact h.base
  case primCount => exact h.primCount
  case logicCount => simp [withLogic, h.logicCount]
  case prim => exact h.prim
  case logic =>
    rw [Listing.addLogic, place_snoc, ← h.logic, ← h.logicCount]
    rfl
  case primRoom => exact h.primRoom
  case logicRoom =>
    rw [Listing.length_addLogic]
    omega

theorem recordPrim_ok_iff : (∃ t, recordPrim hd lba p s = .ok ((), t)) ↔ s.primaryIdx < 3 := by
  constructor
  · rintro ⟨t, h⟩
    by_contra hidx
    rcases Nat.lt_or_ge 3 s.primaryIdx with hover | hle
    · cases (recordPrim_full hover).symm.trans h
    · cases (recordPrim_fourth (Nat.le_antisymm hle (Nat.not_lt.mp hidx))).symm.trans h
  · exact fun h => ⟨_, recordPrim_eq h⟩

theorem scanEntries_room (hl : p.isLink = false) (hp : p.isPart = true) (hne : lba ≠ 0)
    (hs : Holds f g s l) (hroom : l.logics.length < 8) :
    ∃ t, Holds f g t (l.addLogic (partitionOf hd lba p)) ∧
      ∀ scan, scanEntries scan hd lba (p :: es) s =
        if 8 ≤ l.logics.length + 1 then .ok ((), t) else scanEntries scan hd lba es t := by
  obtain ⟨t, hrec, ht⟩ := holds_logic hd lba p hs hroom
  refine ⟨t, ht, fun scan => ?_⟩
  rw [scanEntries_logic hl hp hne, bind_of_ok hrec, get_bind, ht.logicCount,
    Listing.length_addLogic]
  split
  · rfl
  · rfl

theorem scanEntries_walk (hscan : ∀ lba s t l, scan lba s = .ok ((), t) → Holds f g s l →
      lba ≤ maxLba ∧ ∃ l', Walk disk hd eight lba (partitionTable disk lba) l l' ∧ Holds f g t l')
    (h : scanEntries scan hd lba es s = .ok ((), t)) (hs : Holds f g s l) :
    ∃ l', Walk disk hd eight lba es l l' ∧ Holds f g t l' := by
  induction es generalizing s l with
  | nil =>
    cases h
    exact ⟨l, .done, hs⟩
  | cons p rest ih =>
    cases hl : p.isLink with
    | true =>
      obtain ⟨u, hfollow, hu⟩ := holds_follow (p := p) hs
      rw [scanEntries_link hl, bind_of_ok hfollow] at h
      obtain ⟨_, v, hcall, hrest⟩ := bind_ok_iff.mp h
      obtain ⟨hmax, m, hwalk, hv⟩ := hscan _ u v _ hcall hu
      obtain ⟨l', hwalk', ht⟩ := ih hrest hv
      exact ⟨l', .link hl hmax hwalk hwalk', ht⟩
    | false =>
      cases hp : p.isPart with
      | false =>
        rw [scanEntries_empty hl hp] at h
        obtain ⟨l', hwalk, ht⟩ := ih h hs
        exact ⟨l', .empty hl hp hwalk, ht⟩
      | true =>
        by_cases hz : lba = 0
        · rw [scanEntries_prim hl hp hz, hz] at h
          obtain ⟨_, u, hrec, hrest⟩ := bind_ok_iff.mp h
          have hidx := recordPrim_ok_iff.mp ⟨u, hrec⟩
          obtain ⟨v, hrec', hv⟩ := holds_prim hd p hs (by rwa [← hs.primCount])
          cases hrec.symm.trans hrec'
          rw [hz] at ih ⊢
          obtain ⟨l', hwalk, ht⟩ := ih hrest hv
          exact ⟨l', .prim hl hp rfl hwalk, ht⟩
        · by_cases hroom : l.logics.length < 8
          · obtain ⟨v, hv, hrun⟩ := scanEntries_room hl hp hz hs hroom
            rw [hrun] at h
            by_cases hfull : 8 ≤ l.logics.length + 1
            · rw [if_pos hfull] at h
              cases h
              exact ⟨_, .leave hl hp hz hfull, hv⟩
            · rw [if_neg hfull] at h
              obtain ⟨l', hwalk, ht⟩ := ih h hv
              exact ⟨l', .logic hl hp hz hfull hwalk, ht⟩
          · have hover : 8 ≤ s.logicIdx := by
              rw [hs.logicCount]
              omega
            rw [scanEntries_logic hl hp hz, bind_of_error (recordLogic_full hover)] at h
            cases h

theorem partitionScan_walk (h : partitionScan disk hd fuel lba s = .ok ((), t))
    (hs : Holds f g s l) : lba ≤ maxLba ∧
      ∃ l', Walk disk hd eight lba (partitionTable disk lba) l l' ∧ Holds f g t l' := by
  induction fuel generalizing lba s t l with
  | zero => cases h
  | succ fuel ih =>
    rw [partitionScan, ensure_bind_ok_iff] at h
    exact ⟨h.1, scanEntries_walk (fun _ _ _ _ => ih) h.2 hs⟩

/-! ## A walk is what a scan records -/

/-- The entries are scanned to the end of the walk, or to the assertion that there are less than
four primary partitions. -/
def Performs (disk : Bytes) (hd lba : ℕ) (f g : ℕ → Partition) (es : List PartitionTableEntry)
    (s : ScanState) (l' : Listing) : Prop :=
  ∃ fuel, (∃ t, scanEntries (partitionScan disk hd fuel) hd lba es s = .ok ((), t) ∧
      Holds f g t l') ∨
    4 ≤ l'.prims.length ∧
      scanEntries (partitionScan disk hd fuel) hd lba es s = .error .primaryIdx

theorem Performs.step (h : Performs disk hd lba f g es t l')
    (hrun : ∀ scan, scanEntries scan hd lba (p :: es) s = scanEntries scan hd lba es t) :
    Performs disk hd lba f g (p :: es) s l' := by
  obtain ⟨fuel, h⟩ := h
  refine ⟨fuel, ?_⟩
  rwa [hrun]

theorem walk_performs (h : Walk disk hd eight lba es l l') (hroom : l'.logics.length ≤ 8)
    (hs : Holds f g s l) : Performs disk hd lba f g es s l' := by
  induction h generalizing s with
  | done => exact ⟨0, Or.inl ⟨s, rfl, hs⟩⟩
  | empty hl hp _ ih =>
    refine (ih hroom hs).step fun scan => ?_
    rw [scanEntries_empty hl hp]
  | @prim lba p es l l' hl hp hz hrest ih =>
    have hlen := hrest.grows.1
    rw [Listing.length_addPrim] at hlen
    by_cases hidx : l.prims.length < 3
    · obtain ⟨t, hrec, ht⟩ := holds_prim hd p hs hidx
      rw [← hz] at hrec ht
      refine (ih hroom ht).step fun scan => ?_
      rw [scanEntries_prim hl hp hz, bind_of_ok hrec]
    · have hfull := hs.primRoom
      refine ⟨0, Or.inr ⟨by omega, ?_⟩⟩
      rw [scanEntries_prim hl hp hz, hz]
      exact bind_of_error (recordPrim_fourth (by rw [hs.primCount]; omega))
  | @logic lba p es l l' hl hp hne hfull hrest ih =>
    rw [eight] at hfull
    obtain ⟨t, ht, hrun⟩ := scanEntries_room hl hp hne hs (by omega)
    refine (ih hroom ht).step fun scan => ?_
    rw [hrun, if_neg hfull]
  | @leave lba p es l hl hp hne hfull =>
    rw [Listing.length_addLogic] at hroom
    rw [eight] at hfull
    obtain ⟨t, ht, hrun⟩ := scanEntries_room hl hp hne hs hroom
    refine ⟨0, Or.inl ⟨t, ?_, ht⟩⟩
    rw [hrun, if_pos hfull]
  | @link lba p es l m l' hl hmax _ hrest ihcall ihrest =>
    have hlen := hrest.grows
    obtain ⟨u, hfollow, hu⟩ := holds_follow (p := p) hs
    obtain ⟨depth, hcall⟩ := ihcall (hlen.2.trans hroom) hu
    have hscan : partitionScan disk hd (depth + 1) (l.target p) u =
        scanEntries (partitionScan disk hd depth) hd (l.target p)
          (partitionTable disk (l.target p)) u := by
      rw [partitionScan, ensure_bind_of_true hmax]
    rcases hcall with ⟨v, hok, hv⟩ | ⟨hprims, herr⟩
    · obtain ⟨fuel, hend⟩ := ihrest hroom hv
      -- enough for the call and for the entries behind it
      refine ⟨max (depth + 1) fuel, ?_⟩
      have hmore := (partitionScan_more (ok_ne_fuel (hscan.trans hok))
        (Nat.le_max_left (depth + 1) fuel)).trans (hscan.trans hok)
      rw [scanEntries_link hl, bind_of_ok hfollow, bind_of_ok hmore]
      have hne : scanEntries (partitionScan disk hd fuel) hd lba es v ≠ .error .fuel := by
        rcases hend with ⟨t, hrun, -⟩ | ⟨-, hrun⟩
        · exact ok_ne_fuel hrun
        · exact error_ne_fuel hrun (by decide)
      rwa [scanEntries_extends (fun _ _ h =>
        partitionScan_more h (Nat.le_max_right (depth + 1) fuel)) v hne]
    · refine ⟨depth + 1, Or.inr ⟨hprims.trans hlen.1, ?_⟩⟩
      rw [scanEntries_link hl, bind_of_ok hfollow, bind_of_error (hscan.trans herr)]

theorem listed_performs (h : Listed disk hd eight base l) (hroom : l.logics.length ≤ 8)
    (hs : Holds f g s ⟨base, [], []⟩) :
    ∃ fuel, (∃ t, partitionScan disk hd fuel 0 s = .ok ((), t) ∧ Holds f g t l) ∨
      4 ≤ l.prims.length ∧ partitionScan disk hd fuel 0 s = .error .primaryIdx := by
  obtain ⟨fuel, hend⟩ := walk_performs h hroom hs
  refine ⟨fuel + 1, ?_⟩
  rwa [partitionScan, ensure_bind_of_true (Nat.zero_le _)]

/-! ## The base that is left -/

theorem Walk.keeps_base (h : Walk disk hd full lba es l l') (hne : l.base ≠ 0) :
    l'.base = l.base := by
  induction h with
  | done => rfl
  | empty _ _ _ ih => exact ih hne
  | prim _ _ _ _ ih => exact ih hne
  | logic _ _ _ _ _ ih => exact ih hne
  | leave => rfl
  | @link _ p _ l m l' _ _ _ _ ihcall ihrest =>
    have hfollow : (l.follow p).base = l.base := if_neg hne
    have hmid := (ihcall (by rwa [hfollow])).trans hfollow
    exact (ihrest (by rwa [hmid])).trans hmid

theorem Walk.not_home (h : Walk disk hd full lba es l l') (hlba : lba = 0) (hbase : l.base = 0)
    (hhead : (linksOf es).head?.map PartitionTableEntry.startLba = some 0)
    (hhome : (linksOf (partitionTable disk 0)).head?.map PartitionTableEntry.startLba = some 0) :
    False := by
  induction h with
  | done => cases hhead
  | empty hl _ _ ih =>
    rw [linksOf_skip hl] at hhead
    exact ih hlba hbase hhead
  | prim hl _ _ _ ih =>
    rw [linksOf_skip hl] at hhead
    exact ih hlba hbase hhead
  | logic _ _ hne => exact hne hlba
  | leave _ _ hne => exact hne hlba
  | @link _ p _ l _ _ hl _ _ _ ihcall =>
    rw [linksOf_link hl, List.head?_cons, Option.map_some, Option.some_inj] at hhead
    have htarget : l.target p = 0 := (if_pos hbase).trans hhead
    have hfollow : (l.follow p).base = 0 := (if_pos hbase).trans hhead
    rw [htarget] at ihcall
    exact ihcall rfl hfollow hhome

theorem Walk.leaves_base (h : Walk disk hd full lba es l l') (hlba : lba = 0) (hbase : l.base = 0)
    (hhead : (linksOf es).head?.map PartitionTableEntry.startLba ≠ some 0) :
    l'.base = extendedStart es := by
  induction h with
  | done => exact hbase
  | empty hl _ _ ih =>
    rw [linksOf_skip hl] at hhead
    rw [extendedStart, linksOf_skip hl]
    exact ih hlba hbase hhead
  | prim hl _ _ _ ih =>
    rw [linksOf_skip hl] at hhead
    rw [extendedStart, linksOf_skip hl]
    exact ih hlba hbase hhead
  | logic _ _ hne => exact absurd hlba hne
  | leave _ _ hne => exact absurd hlba hne
  | @link _ p _ l m _ hl _ hcall hrest _ _ =>
    rw [linksOf_link hl, List.head?_cons, Option.map_some, ne_eq, Option.some_inj] at hhead
    have hfollow : (l.follow p).base = p.startLba := if_pos hbase
    have hmid := (hcall.keeps_base (by rwa [hfollow])).trans hfollow
    have hend := (hrest.keeps_base (by rwa [hmid])).trans hmid
    rw [hend, extendedStart, linksOf_link hl]
    rfl

theorem listed_base (h : Listed disk hd full 0 l) :
    l.base = extendedStart (partitionTable disk 0) := by
  apply Walk.leaves_base h rfl rfl
  exact fun hhome => Walk.not_home h rfl rfl hhome hhome

theorem Walk.rebase (h : Walk disk hd full lba es l l') (hnone : linksOf es = []) :
    Walk disk hd full lba es { l with base := base } { l' with base := base } := by
  induction h with
  | done => exact .done
  | empty hl hp _ ih =>
    rw [linksOf_skip hl] at hnone
    exact .empty hl hp (ih hnone)
  | prim hl hp hz _ ih =>
    rw [linksOf_skip hl] at hnone
    exact .prim hl hp hz (ih hnone)
  | logic hl hp hne hroom _ ih =>
    rw [linksOf_skip hl] at hnone
    exact .logic hl hp hne hroom (ih hnone)
  | leave hl hp hne hfull => exact .leave hl hp hne hfull
  | link hl =>
    rw [linksOf_link hl] at hnone
    cases hnone

/-! ## What the arrays tell of the lists -/

theorem Walk.myDisk (h : Walk disk hd full lba es l l')
    (hl : (∀ q ∈ l.prims, q.myDisk = hd) ∧ ∀ q ∈ l.logics, q.myDisk = hd) :
    (∀ q ∈ l'.prims, q.myDisk = hd) ∧ ∀ q ∈ l'.logics, q.myDisk = hd := by
  have hsnoc : ∀ (qs : List Partition) (lba : ℕ) (p : PartitionTableEntry),
      (∀ q ∈ qs, q.myDisk = hd) → ∀ q ∈ qs ++ [partitionOf hd lba p], q.myDisk = hd := by
    intro qs lba p hqs q hq
    rcases List.mem_append.mp hq with hold | hlast
    · exact hqs q hold
    · rw [List.mem_singleton.mp hlast]
      rfl
  induction h with
  | done => exact hl
  | empty _ _ _ ih => exact ih hl
  | prim _ _ _ _ ih => exact ih ⟨hsnoc _ _ _ hl.1, hl.2⟩
  | logic _ _ _ _ _ ih => exact ih ⟨hl.1, hsnoc _ _ _ hl.2⟩
  | leave => exact ⟨hl.1, hsnoc _ _ _ hl.2⟩
  | link _ _ _ _ ihcall ihrest => exact ihrest (ihcall hl)

theorem listed_myDisk (h : Listed disk hd full base l) :
    (∀ q ∈ l.prims, q.myDisk = hd) ∧ ∀ q ∈ l.logics, q.myDisk = hd :=
  Walk.myDisk h ⟨fun _ hq => absurd hq List.not_mem_nil, fun _ hq => absurd hq List.not_mem_nil⟩

theorem place_beyond {i k : ℕ} {qs : List Partition} (h : i + qs.length ≤ k) :
    place f i qs k = f k := by
  induction qs generalizing f i with
  | nil => rfl
  | cons q qs ih =>
    rw [List.length_cons] at h
    rw [place, ih (by omega), Function.update_of_ne (by omega)]

theorem place_apply (f : ℕ → Partition) (qs : List Partition) (k : ℕ) :
    place f 0 qs k = qs[k]?.getD (f k) := by
  cases hq : qs[k]? with
  | none =>
    rw [List.getElem?_eq_none_iff] at hq
    exact place_beyond (by rwa [Nat.zero_add])
  | some q =>
    have hget := place_get (f := f) (i := 0) hq
    rwa [Nat.zero_add] at hget

theorem place_injective {qs rs : List Partition} (hne : ∀ k, (f k).myDisk ≠ hd)
    (hqs : ∀ q ∈ qs, q.myDisk = hd) (hrs : ∀ q ∈ rs, q.myDisk = hd)
    (h : place f 0 qs = place f 0 rs) : qs = rs := by
  apply List.ext_getElem?
  intro k
  have hk := congrFun h k
  rw [place_apply, place_apply] at hk
  cases hq : qs[k]? with
  | none =>
    cases hr : rs[k]? with
    | none => rfl
    | some r =>
      rw [hq, hr] at hk
      have hempty : f k = r := hk
      exact absurd (hempty ▸ hrs r (List.mem_of_getElem? hr)) (hne k)
  | some q =>
    cases hr : rs[k]? with
    | none =>
      rw [hq, hr] at hk
      have hempty : q = f k := hk
      exact absurd (hempty ▸ hqs q (List.mem_of_getElem? hq)) (hne k)
    | some r =>
      rw [hq, hr] at hk
      exact congrArg some hk

end DevicePartitionWalks
