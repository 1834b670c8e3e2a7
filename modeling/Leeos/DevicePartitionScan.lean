import Leeos.DevicePartitions

/-!
# What a scan records

The master boot record and the chain of extended records say which partitions a disk has. A scan
meets the logical ones in another order if a record has its link in front of its partition, and a
fourth primary one stops it.
-/
namespace DevicePartitionScan

open ExecRules KernelBitmap DevicePartitions LibStdint
open FsDisk (loadWord maxLba)

/-! ## The partitions of a disk -/

def partsOf (hd lba : ℕ) (es : List PartitionTableEntry) : List Partition :=
  (es.filter PartitionTableEntry.isPart).map (partitionOf hd lba)

def linksOf (es : List PartitionTableEntry) : List PartitionTableEntry :=
  es.filter PartitionTableEntry.isLink

def primaries (disk : Bytes) (hd : ℕ) : List Partition := partsOf hd 0 (partitionTable disk 0)

/-- In the order of the chain. -/
def logicals (disk : Bytes) (hd : ℕ) (chain : List ℕ) : List Partition :=
  chain.flatMap fun lba => partsOf hd lba (partitionTable disk lba)

/-- The extended records from `lba` on; the chain comes to an end, so no record is in it twice. -/
inductive Chain (disk : Bytes) (base : ℕ) : ℕ → List ℕ → Prop
  | last {lba : ℕ} : lba ≠ 0 → lba ≤ maxLba → linksOf (partitionTable disk lba) = [] →
      Chain disk base lba [lba]
  | next {lba : ℕ} {p : PartitionTableEntry} {rest : List ℕ} : lba ≠ 0 → lba ≤ maxLba →
      linksOf (partitionTable disk lba) = [p] → Chain disk base (u32 (p.startLba + base)) rest →
      Chain disk base lba (lba :: rest)

structure Layout (disk : Bytes) (hd : ℕ) (chain : List ℕ) : Prop where
  extended : linksOf (partitionTable disk 0) = [] ∧ chain = [] ∨
    ∃ p, linksOf (partitionTable disk 0) = [p] ∧ Chain disk p.startLba p.startLba chain
  single : ∀ lba ∈ chain, (partsOf hd lba (partitionTable disk lba)).length ≤ 1
  count : (logicals disk hd chain).length ≤ 8

/-- The tags of the partitions in the order in which the scan comes to them, `m` of them logical. -/
def tags (m : ℕ) : ℕ → List PartitionTableEntry → List PartTag
  | _, [] => []
  | k, p :: rest =>
    if p.isLink then (List.range m).map .logic ++ tags m k rest
    else if p.isPart then .prim k :: tags m (k + 1) rest
    else tags m k rest

structure Fresh (s : ScanState) : Prop where
  prim : s.primaryIdx = 0
  logic : s.logicIdx = 0
  base : s.extraLbaBase = 0

/-- The partitions are recorded, and no others. -/
structure Recorded (disk : Bytes) (hd : ℕ) (chain : List ℕ) (s t : ScanState) : Prop where
  primCount : t.primaryIdx = (primaries disk hd).length
  prim : ∀ k q, (primaries disk hd)[k]? = some q → t.primParts k = q
  logicCount : t.logicIdx = (logicals disk hd chain).length
  logic : ∀ k q, (logicals disk hd chain)[k]? = some q → t.logicParts k = q
  list : t.partitionList =
    s.partitionList ++ tags (logicals disk hd chain).length 0 (partitionTable disk 0)

/-- The scan returns, and has recorded them. -/
def Scanned (disk : Bytes) (hd : ℕ) (chain : List ℕ) (s : ScanState) : Prop :=
  ∃ fuel t, partitionScan disk hd fuel 0 s = .ok ((), t) ∧ Recorded disk hd chain s t

/-! ## The order of discovery -/

/-- The link comes before the partition. -/
def linkFirst : List PartitionTableEntry → Bool
  | [] => false
  | p :: rest =>
    if p.isLink then rest.any PartitionTableEntry.isPart
    else if p.isPart then false
    else linkFirst rest

/-- A partition behind its link is behind the partitions of all later records. -/
def discovered (disk : Bytes) (hd : ℕ) : List ℕ → List Partition
  | [] => []
  | lba :: rest =>
    if linkFirst (partitionTable disk lba)
    then discovered disk hd rest ++ partsOf hd lba (partitionTable disk lba)
    else partsOf hd lba (partitionTable disk lba) ++ discovered disk hd rest

/-- A record with its link first has no logical partitions behind it. -/
def InOrder (disk : Bytes) (hd : ℕ) : List ℕ → Prop
  | [] => True
  | lba :: rest => (linkFirst (partitionTable disk lba) = true → logicals disk hd rest = []) ∧
      InOrder disk hd rest

def met (hd lba : ℕ) (later : List Partition) : List PartitionTableEntry → List Partition
  | [] => []
  | p :: rest =>
    if p.isLink then later ++ met hd lba later rest
    else if p.isPart then partitionOf hd lba p :: met hd lba later rest
    else met hd lba later rest

variable {disk : Bytes} {hd lba base i k m fuel : ℕ} {chain : List ℕ} {s t : ScanState}
  {p : PartitionTableEntry} {es bs : List PartitionTableEntry} {scan : ℕ → ScanM Unit}
  {f : ℕ → Partition} {q : Partition} {qs later : List Partition}

theorem isPart_of_isLink (h : p.isLink = true) : p.isPart = false := by
  have htype : p.fsType = 0x5 := by simpa [PartitionTableEntry.isLink] using h
  simp [PartitionTableEntry.isPart, htype]

theorem partsOf_part (hp : p.isPart = true) :
    partsOf hd lba (p :: es) = partitionOf hd lba p :: partsOf hd lba es := by
  rw [partsOf, List.filter_cons_of_pos hp]
  rfl

theorem partsOf_skip (hp : p.isPart = false) : partsOf hd lba (p :: es) = partsOf hd lba es := by
  rw [partsOf, List.filter_cons_of_neg (by simpa using hp)]
  rfl

theorem linksOf_link (hl : p.isLink = true) : linksOf (p :: es) = p :: linksOf es :=
  List.filter_cons_of_pos hl

theorem linksOf_skip (hl : p.isLink = false) : linksOf (p :: es) = linksOf es :=
  List.filter_cons_of_neg (by simpa using hl)

theorem no_link_cons (h : linksOf (p :: es) = []) : p.isLink = false ∧ linksOf es = [] := by
  cases hl : p.isLink with
  | true =>
    rw [linksOf_link hl] at h
    cases h
  | false => exact ⟨rfl, by rwa [linksOf_skip hl] at h⟩

theorem met_link (hl : p.isLink = true) :
    met hd lba later (p :: es) = later ++ met hd lba later es := by
  rw [met, if_pos hl]

theorem met_part (hl : p.isLink = false) (hp : p.isPart = true) :
    met hd lba later (p :: es) = partitionOf hd lba p :: met hd lba later es := by
  rw [met, hl, if_neg Bool.false_ne_true, if_pos hp]

theorem met_skip (hl : p.isLink = false) (hp : p.isPart = false) :
    met hd lba later (p :: es) = met hd lba later es := by
  rw [met, hl, if_neg Bool.false_ne_true, hp, if_neg Bool.false_ne_true]

theorem met_of_no_link (h : linksOf es = []) : met hd lba later es = partsOf hd lba es := by
  induction es with
  | nil => rfl
  | cons p rest ih =>
    obtain ⟨hl, hrest⟩ := no_link_cons h
    cases hp : p.isPart with
    | true => rw [met_part hl hp, partsOf_part hp, ih hrest]
    | false => rw [met_skip hl hp, partsOf_skip hp, ih hrest]

theorem partsOf_eq_nil_iff :
    partsOf hd lba es = [] ↔ es.any PartitionTableEntry.isPart = false := by
  rw [partsOf, List.map_eq_nil_iff, List.filter_eq_nil_iff, List.any_eq_false]

theorem linkFirst_of_no_part (h : partsOf hd lba es = []) : linkFirst es = false := by
  induction es with
  | nil => rfl
  | cons p rest ih =>
    cases hp : p.isPart with
    | true =>
      rw [partsOf_part hp] at h
      cases h
    | false =>
      rw [partsOf_skip hp] at h
      rw [linkFirst, hp, if_neg Bool.false_ne_true, ih h, partsOf_eq_nil_iff.mp h, ite_self]

theorem met_eq (hlinks : (linksOf es).length ≤ 1) (hparts : (partsOf hd lba es).length ≤ 1)
    (hlast : linksOf es = [] → later = []) : met hd lba later es =
      if linkFirst es then later ++ partsOf hd lba es else partsOf hd lba es ++ later := by
  induction es with
  | nil =>
    rw [hlast rfl]
    rfl
  | cons p rest ih =>
    cases hl : p.isLink with
    | true =>
      rw [linksOf_link hl] at hlinks
      have hrest : linksOf rest = [] := by
        simpa using hlinks
      rw [met_link hl, met_of_no_link hrest, partsOf_skip (isPart_of_isLink hl), linkFirst,
        if_pos hl]
      by_cases hany : rest.any PartitionTableEntry.isPart = true
      · rw [if_pos hany]
      · rw [if_neg hany, partsOf_eq_nil_iff.mpr (by simpa using hany), List.append_nil,
          List.nil_append]
    | false =>
      rw [linksOf_skip hl] at hlinks hlast
      rw [linkFirst, hl, if_neg Bool.false_ne_true]
      cases hp : p.isPart with
      | true =>
        rw [partsOf_part hp] at hparts ⊢
        have hrest : partsOf hd lba rest = [] := by
          simpa using hparts
        rw [met_part hl hp, if_pos rfl, if_neg Bool.false_ne_true,
          ih hlinks (by rw [hrest]; exact Nat.zero_le _) hlast, linkFirst_of_no_part hrest,
          if_neg Bool.false_ne_true]
        rfl
      | false =>
        rw [partsOf_skip hp] at hparts ⊢
        rw [met_skip hl hp, if_neg Bool.false_ne_true]
        exact ih hlinks hparts hlast

theorem discovered_perm (disk : Bytes) (hd : ℕ) (chain : List ℕ) :
    (discovered disk hd chain).Perm (logicals disk hd chain) := by
  induction chain with
  | nil => exact List.Perm.refl _
  | cons lba rest ih =>
    rw [discovered, logicals, List.flatMap_cons]
    split
    · exact List.perm_append_comm.trans (ih.append_left _)
    · exact ih.append_left _

theorem discovered_of_inOrder (h : InOrder disk hd chain) :
    discovered disk hd chain = logicals disk hd chain := by
  induction chain with
  | nil => rfl
  | cons lba rest ih =>
    obtain ⟨hfirst, hrest⟩ := h
    have hlater := ih hrest
    rw [discovered, logicals, List.flatMap_cons]
    split
    · rename_i hlink
      have hnone : logicals disk hd rest = [] := hfirst hlink
      rw [hlater]
      rw [logicals] at hnone ⊢
      rw [hnone, List.append_nil, List.nil_append]
    · rw [hlater]
      rfl

theorem inOrder_of_discovered (hnodup : (logicals disk hd chain).Nodup)
    (hsingle : ∀ lba ∈ chain, (partsOf hd lba (partitionTable disk lba)).length ≤ 1)
    (h : discovered disk hd chain = logicals disk hd chain) : InOrder disk hd chain := by
  induction chain with
  | nil => trivial
  | cons lba rest ih =>
    have hcons : logicals disk hd (lba :: rest) =
      partsOf hd lba (partitionTable disk lba) ++ logicals disk hd rest := List.flatMap_cons
    rw [hcons] at hnodup h
    have hlater := (List.nodup_append.mp hnodup).2.1
    have hothers : ∀ lba ∈ rest, (partsOf hd lba (partitionTable disk lba)).length ≤ 1 :=
      fun lba hmem => hsingle lba (List.mem_cons_of_mem _ hmem)
    rw [discovered] at h
    cases hfirst : linkFirst (partitionTable disk lba) with
    | false =>
      rw [hfirst, if_neg Bool.false_ne_true] at h
      refine ⟨fun hlink => ?_, ih hlater hothers (List.append_cancel_left h)⟩
      cases hfirst.symm.trans hlink
    | true =>
      rw [hfirst, if_pos rfl] at h
      have hnone : logicals disk hd rest = [] := by
        cases hparts : partsOf hd lba (partitionTable disk lba) with
        | nil =>
          have hfalse := linkFirst_of_no_part hparts
          cases hfirst.symm.trans hfalse
        | cons q qs =>
          cases hdisc : discovered disk hd rest with
          | nil =>
            have hperm := discovered_perm disk hd rest
            rw [hdisc] at hperm
            exact hperm.nil_eq.symm
          | cons first more =>
            -- the first partition of the later records would be the one of this record
            rw [hparts, hdisc] at h
            have heq : first = q := (List.cons.inj h).1
            have hmem : first ∈ logicals disk hd rest := by
              apply (discovered_perm disk hd rest).subset
              rw [hdisc]
              exact List.mem_cons_self
            rw [hparts] at hnodup
            have hapart := (List.nodup_append.mp hnodup).2.2 q List.mem_cons_self first hmem
            exact absurd heq.symm hapart
      refine ⟨fun _ => hnone, ih hlater hothers ?_⟩
      have hperm := discovered_perm disk hd rest
      rw [hnone] at hperm ⊢
      exact hperm.eq_nil

/-! ## Recording -/

def place (f : ℕ → Partition) : ℕ → List Partition → ℕ → Partition
  | _, [] => f
  | i, q :: qs => place (Function.update f i q) (i + 1) qs

theorem place_below (h : k < i) : place f i qs k = f k := by
  induction qs generalizing f i with
  | nil => rfl
  | cons q qs ih =>
    rw [place, ih (Nat.lt_succ_of_lt h), Function.update_of_ne (Nat.ne_of_lt h)]

theorem place_get (h : qs[k]? = some q) : place f i qs (i + k) = q := by
  induction qs generalizing f i k with
  | nil => cases h
  | cons first qs ih =>
    rw [place]
    cases k with
    | zero =>
      rw [List.getElem?_cons_zero, Option.some_inj] at h
      apply (place_below (Nat.lt_add_one i)).trans
      rw [Function.update_self, h]
    | succ k =>
      rw [List.getElem?_cons_succ] at h
      rw [show i + (k + 1) = i + 1 + k by omega]
      exact ih h

theorem place_append : place f i (qs ++ later) = place (place f i qs) (i + qs.length) later := by
  induction qs generalizing f i with
  | nil => rfl
  | cons q qs ih =>
    rw [List.cons_append, place, place, ih, List.length_cons]
    congr 1
    omega

/-- `s` with `qs` recorded as the next logical partitions. -/
def withLogic (qs : List Partition) (s : ScanState) : ScanState :=
  { s with
    logicParts := place s.logicParts s.logicIdx qs
    logicIdx := s.logicIdx + qs.length
    partitionList := s.partitionList ++ (List.range' s.logicIdx qs.length).map .logic }

theorem withLogic_nil : withLogic [] s = s := by
  simp [withLogic, place]

theorem withLogic_append : withLogic (qs ++ later) s = withLogic later (withLogic qs s) := by
  simp only [withLogic, place_append, List.length_append, Nat.add_assoc, List.append_assoc,
    ← List.map_append, ← List.range'_append_1]

theorem recordLogic_eq (h : s.logicIdx < 8) :
    recordLogic hd lba p s = .ok ((), withLogic [partitionOf hd lba p] s) := by
  have hwrap : u8 (s.logicIdx + 1) = s.logicIdx + 1 := Nat.mod_eq_of_lt (by omega)
  rw [recordLogic, get_bind, ensure_bind_of_true h, hwrap]
  rfl

theorem recordLogic_full (h : 8 ≤ s.logicIdx) : recordLogic hd lba p s = .error .bounds := by
  rw [recordLogic, get_bind, ensure_bind_of_false (by omega)]

/-- `s` with the primary partitions among `es` recorded. -/
def withPrim (hd : ℕ) (es : List PartitionTableEntry) (s : ScanState) : ScanState :=
  { s with
    primParts := place s.primParts s.primaryIdx (partsOf hd 0 es)
    primaryIdx := s.primaryIdx + (partsOf hd 0 es).length
    partitionList := s.partitionList ++ tags 0 s.primaryIdx es }

theorem recordPrim_eq (h : s.primaryIdx < 3) : recordPrim hd lba p s = .ok ((), { s with
    primParts := Function.update s.primParts s.primaryIdx (partitionOf hd lba p)
    partitionList := s.partitionList ++ [.prim s.primaryIdx]
    primaryIdx := s.primaryIdx + 1 }) := by
  have hwrap : u8 (s.primaryIdx + 1) = s.primaryIdx + 1 := Nat.mod_eq_of_lt (by omega)
  rw [recordPrim, get_bind, ensure_bind_of_true (by omega), set_bind, get_bind, hwrap]
  rw [ensure, if_pos (Nat.succ_lt_succ h)]
  rfl

theorem recordPrim_fourth (h : s.primaryIdx = 3) :
    recordPrim hd lba p s = .error .primaryIdx := by
  rw [recordPrim, get_bind, ensure_bind_of_true (by omega), set_bind, get_bind, h]
  rfl

theorem recordPrim_full (h : 4 ≤ s.primaryIdx) : recordPrim hd lba p s = .error .bounds := by
  rw [recordPrim, get_bind, ensure_bind_of_false (by omega)]

theorem followLink_later (h : s.extraLbaBase ≠ 0) :
    followLink p s = .ok (u32 (p.startLba + s.extraLbaBase), s) := by
  rw [followLink, get_bind, if_pos h]
  rfl

theorem followLink_first (h : s.extraLbaBase = 0) :
    followLink p s = .ok (p.startLba, { s with extraLbaBase := p.startLba }) := by
  rw [followLink, get_bind, if_neg (not_not.mpr h)]
  rfl

/-! ## The extended records -/

theorem scanEntries_logics (hlba : lba ≠ 0) (hne : base ≠ 0) (hbase : s.extraLbaBase = base)
    (hscan : ∀ p ∈ es, p.isLink = true → ∀ t : ScanState, t.extraLbaBase = base →
      t.logicIdx + later.length ≤ 8 →
      scan (u32 (p.startLba + base)) t = .ok ((), withLogic later t))
    (hroom : s.logicIdx + (met hd lba later es).length ≤ 8) :
    scanEntries scan hd lba es s = .ok ((), withLogic (met hd lba later es) s) := by
  induction es generalizing s with
  | nil => exact congrArg (fun t => Except.ok ((), t)) withLogic_nil.symm
  | cons p rest ih =>
    have hrest : ∀ p ∈ rest, p.isLink = true → ∀ t : ScanState, t.extraLbaBase = base →
        t.logicIdx + later.length ≤ 8 →
        scan (u32 (p.startLba + base)) t = .ok ((), withLogic later t) :=
      fun q hmem => hscan q (List.mem_cons_of_mem p hmem)
    cases hl : p.isLink with
    | true =>
      rw [met_link hl, List.length_append] at hroom
      rw [met_link hl, scanEntries_link hl]
      apply (bind_of_ok (followLink_later (by rwa [hbase]))).trans
      rw [hbase]
      apply (bind_of_ok (hscan p List.mem_cons_self hl s hbase (by omega))).trans
      rw [withLogic_append]
      refine ih (s := withLogic later s) hbase hrest ?_
      rw [← Nat.add_assoc] at hroom
      exact hroom
    | false =>
      cases hp : p.isPart with
      | false =>
        rw [met_skip hl hp] at hroom ⊢
        rw [scanEntries_empty hl hp]
        exact ih hbase hrest hroom
      | true =>
        rw [met_part hl hp, List.length_cons] at hroom
        rw [met_part hl hp, scanEntries_logic hl hp hlba, ← List.singleton_append, withLogic_append]
        apply (bind_of_ok (recordLogic_eq (by omega))).trans
        rw [get_bind]
        by_cases hfull : s.logicIdx + 1 ≥ 8
        · -- the call returns, and nothing would be recorded behind it
          have hnone : met hd lba later rest = [] := List.eq_nil_of_length_eq_zero (by omega)
          rw [hnone, withLogic_nil]
          exact congrFun (if_pos hfull) _
        · apply (congrFun (if_neg hfull) _).trans
          refine ih (s := withLogic [partitionOf hd lba p] s) hbase hrest ?_
          change s.logicIdx + 1 + (met hd lba later rest).length ≤ 8
          omega

theorem chain_run (h : Chain disk base lba chain) (hne : base ≠ 0)
    (hsingle : ∀ lba ∈ chain, (partsOf hd lba (partitionTable disk lba)).length ≤ 1)
    (hbase : s.extraLbaBase = base) (hroom : s.logicIdx + (discovered disk hd chain).length ≤ 8) :
    partitionScan disk hd chain.length lba s =
      .ok ((), withLogic (discovered disk hd chain) s) := by
  induction h generalizing s with
  | @last lba hlba hmax hlinks =>
    have hmet : met hd lba [] (partitionTable disk lba) = discovered disk hd [lba] :=
      met_eq (by rw [hlinks]; exact Nat.zero_le _) (hsingle lba List.mem_cons_self) fun _ => rfl
    rw [← hmet] at hroom ⊢
    rw [List.length_singleton, partitionScan, ensure_bind_of_true hmax]
    refine scanEntries_logics hlba hne hbase (fun p hmem hl => ?_) hroom
    have hfound : p ∈ linksOf (partitionTable disk lba) := List.mem_filter.mpr ⟨hmem, hl⟩
    rw [hlinks] at hfound
    cases hfound
  | @next lba link rest hlba hmax hlinks hchain ih =>
    have hmet : met hd lba (discovered disk hd rest) (partitionTable disk lba) =
        discovered disk hd (lba :: rest) := by
      refine met_eq (by rw [hlinks]; exact Nat.le_refl 1) (hsingle lba List.mem_cons_self) ?_
      rw [hlinks]
      intro hnil
      cases hnil
    rw [← hmet] at hroom ⊢
    rw [List.length_cons, partitionScan, ensure_bind_of_true hmax]
    refine scanEntries_logics hlba hne hbase (fun p hmem hl t ht hfits => ?_) hroom
    have hfound : p ∈ linksOf (partitionTable disk lba) := List.mem_filter.mpr ⟨hmem, hl⟩
    rw [hlinks, List.mem_singleton] at hfound
    rw [hfound]
    exact ih (fun lba hmem => hsingle lba (List.mem_cons_of_mem _ hmem)) ht hfits

/-! ## The master boot record -/

theorem tags_link (hl : p.isLink = true) :
    tags m k (p :: es) = (List.range m).map .logic ++ tags m k es := by
  rw [tags, if_pos hl]

theorem tags_part (hl : p.isLink = false) (hp : p.isPart = true) :
    tags m k (p :: es) = .prim k :: tags m (k + 1) es := by
  rw [tags, hl, if_neg Bool.false_ne_true, if_pos hp]

theorem tags_skip (hl : p.isLink = false) (hp : p.isPart = false) :
    tags m k (p :: es) = tags m k es := by
  rw [tags, hl, if_neg Bool.false_ne_true, hp, if_neg Bool.false_ne_true]

theorem tags_of_no_link (h : linksOf es = []) : tags m k es = tags 0 k es := by
  induction es generalizing k with
  | nil => rfl
  | cons p rest ih =>
    obtain ⟨hl, hrest⟩ := no_link_cons h
    cases hp : p.isPart with
    | true => rw [tags_part hl hp, tags_part hl hp, ih hrest]
    | false => rw [tags_skip hl hp, tags_skip hl hp, ih hrest]

theorem withPrim_part (hl : p.isLink = false) (hp : p.isPart = true) :
    withPrim hd (p :: es) s = withPrim hd es { s with
      primParts := Function.update s.primParts s.primaryIdx (partitionOf hd 0 p)
      partitionList := s.partitionList ++ [.prim s.primaryIdx]
      primaryIdx := s.primaryIdx + 1 } := by
  simp only [withPrim, partsOf_part hp, place, List.length_cons, tags_part hl hp,
    List.append_assoc, List.singleton_append, Nat.add_assoc, Nat.add_comm 1]

theorem withPrim_skip (hl : p.isLink = false) (hp : p.isPart = false) :
    withPrim hd (p :: es) s = withPrim hd es s := by
  simp only [withPrim, partsOf_skip hp, tags_skip hl hp]

theorem scanEntries_prims (hlinks : linksOf es = [])
    (hroom : s.primaryIdx + (partsOf hd 0 es).length ≤ 3) :
    scanEntries scan hd 0 es s = .ok ((), withPrim hd es s) := by
  induction es generalizing s with
  | nil => simp [scanEntries, withPrim, partsOf, place, tags]
  | cons p rest ih =>
    obtain ⟨hl, hrest⟩ := no_link_cons hlinks
    cases hp : p.isPart with
    | false =>
      rw [partsOf_skip hp] at hroom
      rw [scanEntries_empty hl hp, withPrim_skip hl hp]
      exact ih hrest hroom
    | true =>
      rw [partsOf_part hp, List.length_cons] at hroom
      rw [scanEntries_prim hl hp rfl, withPrim_part hl hp]
      apply (bind_of_ok (recordPrim_eq (by omega))).trans
      apply ih hrest
      change s.primaryIdx + 1 + (partsOf hd 0 rest).length ≤ 3
      omega

theorem scanEntries_overflow (hlinks : linksOf es = []) (hidx : s.primaryIdx ≤ 3)
    (hover : 3 < s.primaryIdx + (partsOf hd 0 es).length) :
    scanEntries scan hd 0 es s = .error .primaryIdx := by
  induction es generalizing s with
  | nil => exact absurd hidx (Nat.not_le.mpr hover)
  | cons p rest ih =>
    obtain ⟨hl, hrest⟩ := no_link_cons hlinks
    cases hp : p.isPart with
    | false =>
      rw [partsOf_skip hp] at hover
      rw [scanEntries_empty hl hp]
      exact ih hrest hidx hover
    | true =>
      rw [partsOf_part hp, List.length_cons] at hover
      rw [scanEntries_prim hl hp rfl]
      by_cases hthird : s.primaryIdx < 3
      · apply (bind_of_ok (recordPrim_eq hthird)).trans
        apply ih hrest (Nat.succ_le_of_lt hthird)
        change 3 < s.primaryIdx + 1 + (partsOf hd 0 rest).length
        omega
      · exact bind_of_error (recordPrim_fourth (by omega))

/-- `t` is the state behind a master boot record with a link. -/
structure Both (hd : ℕ) (later : List Partition) (es : List PartitionTableEntry)
    (s t : ScanState) : Prop where
  primCount : t.primaryIdx = s.primaryIdx + (partsOf hd 0 es).length
  prim : t.primParts = place s.primParts s.primaryIdx (partsOf hd 0 es)
  logicCount : t.logicIdx = later.length
  logic : t.logicParts = place s.logicParts 0 later
  list : t.partitionList = s.partitionList ++ tags later.length s.primaryIdx es

theorem scanEntries_both (hlinks : linksOf es = [p]) (hlogic : s.logicIdx = 0)
    (hbase : s.extraLbaBase = 0)
    (hscan : ∀ t : ScanState, t.logicIdx = 0 → t.extraLbaBase = p.startLba →
      scan p.startLba t = .ok ((), withLogic later t))
    (hroom : s.primaryIdx + (partsOf hd 0 es).length ≤ 3) :
    ∃ t, scanEntries scan hd 0 es s = .ok ((), t) ∧ Both hd later es s t := by
  induction es generalizing s with
  | nil => cases hlinks
  | cons first rest ih =>
    cases hl : first.isLink with
    | true =>
      have hnopart := isPart_of_isLink hl
      rw [linksOf_link hl] at hlinks
      obtain ⟨hfirst, hrest⟩ := List.cons.inj hlinks
      rw [partsOf_skip hnopart] at hroom
      refine ⟨withPrim hd rest (withLogic later { s with extraLbaBase := first.startLba }), ?_, ?_⟩
      · rw [scanEntries_link hl, hfirst]
        apply (bind_of_ok (followLink_first hbase)).trans
        apply (bind_of_ok (hscan { s with extraLbaBase := p.startLba } hlogic rfl)).trans
        exact scanEntries_prims hrest hroom
      · constructor
        case primCount => simp [withPrim, withLogic, partsOf_skip hnopart]
        case prim => simp [withPrim, withLogic, partsOf_skip hnopart]
        case logicCount => simp [withPrim, withLogic, hlogic]
        case logic => simp [withPrim, withLogic, hlogic]
        case list =>
          simp [withPrim, withLogic, hlogic, tags_link hl, List.range_eq_range',
            tags_of_no_link hrest]
    | false =>
      rw [linksOf_skip hl] at hlinks
      cases hp : first.isPart with
      | false =>
        rw [partsOf_skip hp] at hroom
        obtain ⟨t, hrun, hboth⟩ := ih hlinks hlogic hbase hroom
        refine ⟨t, (congrFun (scanEntries_empty hl hp) s).trans hrun, ?_⟩
        constructor
        case primCount => rw [hboth.primCount, partsOf_skip hp]
        case prim => rw [hboth.prim, partsOf_skip hp]
        case logicCount => exact hboth.logicCount
        case logic => exact hboth.logic
        case list => rw [hboth.list, tags_skip hl hp]
      | true =>
        rw [partsOf_part hp, List.length_cons] at hroom
        obtain ⟨t, hrun, hboth⟩ := @ih { s with
          primParts := Function.update s.primParts s.primaryIdx (partitionOf hd 0 first)
          partitionList := s.partitionList ++ [.prim s.primaryIdx]
          primaryIdx := s.primaryIdx + 1 } hlinks hlogic hbase (by dsimp only; omega)
        refine ⟨t, ?_, ?_⟩
        · rw [scanEntries_prim hl hp rfl]
          exact (bind_of_ok (recordPrim_eq (by omega))).trans hrun
        · constructor
          case primCount =>
            rw [hboth.primCount, partsOf_part hp, List.length_cons]
            dsimp only
            omega
          case prim =>
            rw [hboth.prim, partsOf_part hp]
            rfl
          case logicCount => exact hboth.logicCount
          case logic => exact hboth.logic
          case list =>
            rw [hboth.list, tags_part hl hp]
            exact List.append_assoc _ _ _

theorem parts_add_links_le (hd lba : ℕ) (es : List PartitionTableEntry) :
    (partsOf hd lba es).length + (linksOf es).length ≤ es.length := by
  induction es with
  | nil => exact Nat.le_refl 0
  | cons p rest ih =>
    rw [List.length_cons]
    cases hl : p.isLink with
    | true =>
      rw [partsOf_skip (isPart_of_isLink hl), linksOf_link hl, List.length_cons]
      omega
    | false =>
      rw [linksOf_skip hl]
      cases hp : p.isPart with
      | true =>
        rw [partsOf_part hp, List.length_cons]
        omega
      | false =>
        rw [partsOf_skip hp]
        omega

theorem partitionTable_length : (partitionTable disk lba).length = 4 := by
  rw [partitionTable, List.length_map, List.length_range]

theorem no_link_of_four (h : 3 < (primaries disk hd).length) :
    linksOf (partitionTable disk 0) = [] := by
  have hle := parts_add_links_le hd 0 (partitionTable disk 0)
  rw [partitionTable_length] at hle
  apply List.eq_nil_of_length_eq_zero
  change 3 < (partsOf hd 0 (partitionTable disk 0)).length at h
  omega

/-! ## The whole scan -/

theorem scan_run (h : Layout disk hd chain) (hfresh : Fresh s)
    (hprims : (primaries disk hd).length ≤ 3) :
    ∃ fuel t, partitionScan disk hd fuel 0 s = .ok ((), t) ∧
      Both hd (discovered disk hd chain) (partitionTable disk 0) s t := by
  have hroom : s.primaryIdx + (partsOf hd 0 (partitionTable disk 0)).length ≤ 3 := by
    rw [hfresh.prim, Nat.zero_add]
    exact hprims
  rcases h.extended with ⟨hnone, rfl⟩ | ⟨p, hlinks, hchain⟩
  · refine ⟨1, withPrim hd (partitionTable disk 0) s, ?_, ?_⟩
    · rw [partitionScan, ensure_bind_of_true (Nat.zero_le _)]
      exact scanEntries_prims hnone hroom
    · constructor
      case primCount => rfl
      case prim => rfl
      case logicCount => exact hfresh.logic
      case logic => rfl
      case list => rfl
  · have hne : p.startLba ≠ 0 := by
      cases hchain <;> assumption
    have hlength : (discovered disk hd chain).length ≤ 8 := by
      rw [(discovered_perm disk hd chain).length_eq]
      exact h.count
    obtain ⟨t, hrun, hboth⟩ := scanEntries_both hlinks hfresh.logic hfresh.base
      (fun t hlogic hbase => chain_run hchain hne h.single hbase (by rw [hlogic]; omega)) hroom
    refine ⟨chain.length + 1, t, ?_, hboth⟩
    rw [partitionScan, ensure_bind_of_true (Nat.zero_le _)]
    exact hrun

theorem scan_stops (hfresh : Fresh s) (hover : 3 < (primaries disk hd).length) :
    partitionScan disk hd 1 0 s = .error .primaryIdx := by
  rw [partitionScan, ensure_bind_of_true (Nat.zero_le _)]
  apply scanEntries_overflow (no_link_of_four hover)
  case hidx =>
    rw [hfresh.prim]
    exact Nat.zero_le 3
  case hover =>
    rw [hfresh.prim, Nat.zero_add]
    exact hover

theorem recorded_iff (h : Both hd (discovered disk hd chain) (partitionTable disk 0) s t)
    (hfresh : Fresh s) :
    Recorded disk hd chain s t ↔ discovered disk hd chain = logicals disk hd chain := by
  have hlength : (discovered disk hd chain).length = (logicals disk hd chain).length :=
    (discovered_perm disk hd chain).length_eq
  constructor
  · intro hrec
    apply List.ext_getElem hlength
    intro k hk hk'
    have hget : t.logicParts k = (logicals disk hd chain)[k] :=
      hrec.logic k _ (List.getElem?_eq_getElem hk')
    have hplace := place_get (f := s.logicParts) (i := 0) (List.getElem?_eq_getElem hk)
    rw [Nat.zero_add] at hplace
    rw [← hget, h.logic]
    exact hplace.symm
  · intro heq
    constructor
    case primCount =>
      rw [h.primCount, hfresh.prim, Nat.zero_add]
      rfl
    case prim =>
      intro k q hq
      rw [h.prim, hfresh.prim, ← Nat.zero_add k]
      exact place_get hq
    case logicCount => rw [h.logicCount, heq]
    case logic =>
      intro k q hq
      rw [h.logic, heq, ← Nat.zero_add k]
      exact place_get hq
    case list => rw [h.list, heq, hfresh.prim]

theorem scanned_iff (h : Layout disk hd chain) (hfresh : Fresh s) : Scanned disk hd chain s ↔
    (primaries disk hd).length ≤ 3 ∧ discovered disk hd chain = logicals disk hd chain := by
  constructor
  · rintro ⟨fuel, t, hrun, hrec⟩
    have hend : partitionScan disk hd fuel 0 s ≠ .error .fuel := ok_ne_fuel hrun
    have hprims : (primaries disk hd).length ≤ 3 := by
      by_contra hover
      have hstop := scan_stops hfresh (Nat.not_le.mp hover)
      have hsame := partitionScan_unique hend (error_ne_fuel hstop (by decide))
      cases hrun.symm.trans (hsame.trans hstop)
    obtain ⟨fuel', t', hrun', hboth⟩ := scan_run h hfresh hprims
    have hsame := partitionScan_unique hend (ok_ne_fuel hrun')
    cases hrun.symm.trans (hsame.trans hrun')
    exact ⟨hprims, (recorded_iff hboth hfresh).mp hrec⟩
  · rintro ⟨hprims, heq⟩
    obtain ⟨fuel, t, hrun, hboth⟩ := scan_run h hfresh hprims
    exact ⟨fuel, t, hrun, (recorded_iff hboth hfresh).mpr heq⟩

/-- Everything is recorded iff there are at most three primary partitions and the logical ones are
found in the order of the chain, which is so if no record lists its link in front of its partition
while there are more behind it; where the logical partitions differ, only then. -/
theorem scan_records_iff (h : Layout disk hd chain) (hfresh : Fresh s) :
    (Scanned disk hd chain s ↔ (primaries disk hd).length ≤ 3 ∧
      discovered disk hd chain = logicals disk hd chain) ∧
    (InOrder disk hd chain → discovered disk hd chain = logicals disk hd chain) ∧
    ((logicals disk hd chain).Nodup → discovered disk hd chain = logicals disk hd chain →
      InOrder disk hd chain) := by
  refine ⟨scanned_iff h hfresh, discovered_of_inOrder, ?_⟩
  exact fun hnodup => inOrder_of_discovered hnodup h.single

/-- The bytes of a disk with the given entries in the tables of its records. -/
def tableDisk (entries : List (ℕ × ℕ × PartitionTableEntry)) (address : ℕ) : BitVec 8 :=
  entries.foldr (fun ⟨lba, i, p⟩ byte =>
    if address = 512 * lba + 446 + 16 * i + 4 then p.fsType
    else if address = 512 * lba + 446 + 16 * i + 8 then BitVec.ofNat 8 p.startLba
    else if address = 512 * lba + 446 + 16 * i + 12 then BitVec.ofNat 8 p.secCnt
    else byte) 0

def freshScan : ScanState where
  primParts _ := ⟨0, 0, 0⟩
  logicParts _ := ⟨0, 0, 0⟩
  primaryIdx := 0
  logicIdx := 0
  extraLbaBase := 0
  partitionList := []

/-- Three primary partitions and two logical ones. -/
def fiveParts : Bytes := tableDisk [(0, 0, ⟨0x83, 1, 2⟩), (0, 1, ⟨0x83, 3, 2⟩),
  (0, 2, ⟨0x5, 8, 20⟩), (0, 3, ⟨0x83, 30, 4⟩), (8, 0, ⟨0x83, 1, 3⟩), (8, 1, ⟨0x5, 6, 10⟩),
  (14, 0, ⟨0x83, 1, 9⟩)]

theorem scan_records_five_parts :
    Layout fiveParts 0 [8, 14] ∧ Fresh freshScan ∧ Scanned fiveParts 0 [8, 14] freshScan := by
  have hlayout : Layout fiveParts 0 [8, 14] := by
    constructor
    case extended =>
      refine Or.inr ⟨⟨0x5, 8, 20⟩, by decide +kernel, ?_⟩
      apply Chain.next (p := ⟨0x5, 6, 10⟩) (by decide) (by decide) (by decide +kernel)
      exact Chain.last (by decide) (by decide) (by decide +kernel)
    case single => decide +kernel
    case count => decide +kernel
  have hfresh : Fresh freshScan := ⟨rfl, rfl, rfl⟩
  refine ⟨hlayout, hfresh, (scan_records_iff hlayout hfresh).1.mpr ?_⟩
  constructor <;> decide +kernel

def fourPrimaries : Bytes := tableDisk [(0, 0, ⟨0x83, 1, 2⟩), (0, 1, ⟨0x83, 3, 2⟩),
  (0, 2, ⟨0x83, 5, 2⟩), (0, 3, ⟨0x83, 7, 2⟩)]

/-- The link of the record in sector 8 is in front of its partition. -/
def linkInFront : Bytes := tableDisk [(0, 0, ⟨0x5, 8, 20⟩), (8, 0, ⟨0x5, 6, 10⟩),
  (8, 1, ⟨0x83, 1, 3⟩), (14, 0, ⟨0x83, 1, 9⟩)]

theorem scan_stops_at_fourth_primary : Fresh freshScan ∧
    (Layout fourPrimaries 0 [] ∧ ¬ Scanned fourPrimaries 0 [] freshScan) ∧
    Layout linkInFront 0 [8, 14] ∧ ¬ Scanned linkInFront 0 [8, 14] freshScan := by
  have hfresh : Fresh freshScan := ⟨rfl, rfl, rfl⟩
  have hfour : Layout fourPrimaries 0 [] := by
    constructor
    case extended => exact Or.inl ⟨by decide +kernel, rfl⟩
    case single => decide +kernel
    case count => decide +kernel
  have hfront : Layout linkInFront 0 [8, 14] := by
    constructor
    case extended =>
      refine Or.inr ⟨⟨0x5, 8, 20⟩, by decide +kernel, ?_⟩
      apply Chain.next (p := ⟨0x5, 6, 10⟩) (by decide) (by decide) (by decide +kernel)
      exact Chain.last (by decide) (by decide) (by decide +kernel)
    case single => decide +kernel
    case count => decide +kernel
  refine ⟨hfresh, ⟨hfour, ?_⟩, hfront, ?_⟩
  · rw [scanned_iff hfour hfresh]
    decide +kernel
  · rw [scanned_iff hfront hfresh]
    decide +kernel

end DevicePartitionScan
