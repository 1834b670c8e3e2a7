import Leeos.DevicePartitionWalks

/-!
# The buffers of the partition scan

Each call of `partition_scan` reads its record into a buffer that it allocates. The call that finds
the eighth logical partition returns without freeing it, and those above go on.
-/
namespace DevicePartitionBuffers

open ExecRules KernelBitmap DevicePartitions DevicePartitionScan DevicePartitionWalks
open FsDisk (maxLba)

/-- `sys_malloc` for a `struct boot_sector`: any address that is not in use. -/
structure Allocator where
  pick : List ℕ → ℕ
  fresh : ∀ live, pick live ∉ live

/-- `exits` tells of each call that has returned whether its buffer was free then. -/
structure BufferState where
  scan : ScanState
  live : List ℕ
  exits : List Bool

abbrev BufferM := Exec ScanHalt BufferState

def sysMalloc (a : Allocator) : BufferM ℕ := do
  let s ← get
  set { s with live := a.pick s.live :: s.live }
  pure (a.pick s.live)

def sysFree (bs : ℕ) : BufferM Unit :=
  modify fun s => { s with live := s.live.erase bs }

def leave (bs : ℕ) : BufferM Unit :=
  modify fun s => { s with exits := s.exits ++ [decide (bs ∉ s.live)] }

def onScan {α : Type} (x : ScanM α) : BufferM α := fun s =>
  match x s.scan with
  | .ok (a, t) => .ok (a, { s with scan := t })
  | .error e => .error e

def entriesBuffers (scan : ℕ → BufferM Unit) (hd extLba bs : ℕ) :
    List PartitionTableEntry → BufferM Unit
  | [] => sysFree bs
  | p :: rest =>
    if p.isLink then do
      let lba ← onScan (followLink p)
      scan lba
      entriesBuffers scan hd extLba bs rest
    else if p.isPart then
      if extLba = 0 then do
        onScan (recordPrim hd extLba p)
        entriesBuffers scan hd extLba bs rest
      else do
        onScan (recordLogic hd extLba p)
        let s ← get
        -- `return` in front of `sys_free(bs)`
        if s.scan.logicIdx ≥ 8 then pure () else entriesBuffers scan hd extLba bs rest
    else entriesBuffers scan hd extLba bs rest

def scanBuffers (a : Allocator) (disk : Bytes) (hd : ℕ) : ℕ → ℕ → BufferM Unit
  | 0, _ => throw .fuel
  | fuel + 1, extLba => do
    let bs ← sysMalloc a
    ensure .maxLba (extLba ≤ maxLba)
    entriesBuffers (scanBuffers a disk hd fuel) hd extLba bs (partitionTable disk extLba)
    leave bs

/-- What a scan should leave. -/
structure Clean (s t : BufferState) : Prop where
  once : ∃ added, t.scan.partitionList = s.scan.partitionList ++ added ∧ added.Nodup
  exits : ∀ free ∈ t.exits, free = true
  heap : t.live = s.live

/-- It stores nothing outside the arrays, and is clean if it returns. -/
def ScanSafe (a : Allocator) (disk : Bytes) (hd : ℕ) (s : BufferState) : Prop :=
  ∀ fuel, scanBuffers a disk hd fuel 0 s ≠ .error .bounds ∧
    ∀ t, scanBuffers a disk hd fuel 0 s = .ok ((), t) → Clean s t

/-- The scan returns, or comes to a store outside the arrays, behind which nothing is known. -/
def Terminates (a : Allocator) (disk : Bytes) (hd : ℕ) (s : BufferState) : Prop :=
  ∃ fuel, (∃ t, scanBuffers a disk hd fuel 0 s = .ok ((), t)) ∨
    scanBuffers a disk hd fuel 0 s = .error .bounds

/-- `ide_init` calls `partition_scan` with both counters 0. -/
structure Entered (s : BufferState) : Prop where
  prim : s.scan.primaryIdx = 0
  logic : s.scan.logicIdx = 0
  exits : s.exits = []

variable {a : Allocator} {disk : Bytes} {hd lba bs fuel : ℕ} {s t u : BufferState}
  {p : PartitionTableEntry} {es : List PartitionTableEntry} {scan : ℕ → BufferM Unit}
  {scan' : ℕ → ScanM Unit}

theorem onScan_ok {α : Type} {x : ScanM α} {b : α} (h : onScan x s = .ok (b, t)) :
    ∃ v, x s.scan = .ok (b, v) ∧ t = { s with scan := v } := by
  rw [onScan] at h
  cases hx : x s.scan with
  | error e =>
    rw [hx] at h
    cases h
  | ok r =>
    rw [hx] at h
    cases h
    exact ⟨_, rfl, rfl⟩

theorem mirrors_onScan {α : Type} (x : ScanM α) : Mirrors BufferState.scan (onScan x) x := by
  intro s
  rw [onScan]
  cases x s.scan <;> rfl

/-! ## One entry -/

theorem entriesBuffers_link (h : p.isLink = true) :
    entriesBuffers scan hd lba bs (p :: es) = (do
      let next ← onScan (followLink p)
      scan next
      entriesBuffers scan hd lba bs es) := by
  rw [entriesBuffers, if_pos h]

theorem entriesBuffers_prim (hl : p.isLink = false) (hp : p.isPart = true) (h : lba = 0) :
    entriesBuffers scan hd lba bs (p :: es) = (do
      onScan (recordPrim hd lba p)
      entriesBuffers scan hd lba bs es) := by
  rw [entriesBuffers, hl, if_neg Bool.false_ne_true, if_pos hp, if_pos h]

theorem entriesBuffers_logic (hl : p.isLink = false) (hp : p.isPart = true) (h : lba ≠ 0) :
    entriesBuffers scan hd lba bs (p :: es) = (do
      onScan (recordLogic hd lba p)
      let s ← get
      if s.scan.logicIdx ≥ 8 then pure () else entriesBuffers scan hd lba bs es) := by
  rw [entriesBuffers, hl, if_neg Bool.false_ne_true, if_pos hp, if_neg h]

theorem entriesBuffers_empty (hl : p.isLink = false) (hp : p.isPart = false) :
    entriesBuffers scan hd lba bs (p :: es) = entriesBuffers scan hd lba bs es := by
  rw [entriesBuffers, hl, if_neg Bool.false_ne_true, hp, if_neg Bool.false_ne_true]

/-! ## The scan without its buffers -/

theorem entriesBuffers_mirrors (h : ∀ lba, Mirrors BufferState.scan (scan lba) (scan' lba)) :
    Mirrors BufferState.scan (entriesBuffers scan hd lba bs es) (scanEntries scan' hd lba es) := by
  induction es with
  | nil => exact fun s => rfl
  | cons p rest ih =>
    cases hl : p.isLink with
    | true =>
      rw [entriesBuffers_link hl, scanEntries_link hl]
      exact (mirrors_onScan _).bind fun next => (h next).bind fun _ => ih
    | false =>
      cases hp : p.isPart with
      | false =>
        rw [entriesBuffers_empty hl hp, scanEntries_empty hl hp]
        exact ih
      | true =>
        by_cases hz : lba = 0
        · rw [entriesBuffers_prim hl hp hz, scanEntries_prim hl hp hz]
          exact (mirrors_onScan _).bind fun _ => ih
        · rw [entriesBuffers_logic hl hp hz, scanEntries_logic hl hp hz]
          refine (mirrors_onScan _).bind fun _ => ?_
          intro s
          rw [get_bind, get_bind]
          by_cases hfull : s.scan.logicIdx ≥ 8
          · rw [if_pos hfull, if_pos hfull]
            rfl
          · rw [if_neg hfull, if_neg hfull]
            exact ih s

theorem scanBuffers_mirrors (a : Allocator) (disk : Bytes) (hd fuel lba : ℕ) :
    Mirrors BufferState.scan (scanBuffers a disk hd fuel lba) (partitionScan disk hd fuel lba) := by
  induction fuel generalizing lba with
  | zero => exact mirrors_throw _
  | succ fuel ih =>
    rw [scanBuffers, partitionScan]
    apply Mirrors.before
    case hx => exact fun s => ⟨_, _, rfl, rfl⟩
    case hf =>
      intro bs
      refine mirrors_ensure.bind fun _ => ?_
      exact (entriesBuffers_mirrors ih).after fun s => ⟨_, rfl, rfl⟩

theorem partitionScan_of_scanBuffers (h : scanBuffers a disk hd fuel lba s = .ok ((), t)) :
    partitionScan disk hd fuel lba s.scan = .ok ((), t.scan) := by
  rw [scanBuffers_mirrors a disk hd fuel lba s, h]
  rfl

/-! ## What a call leaves allocated -/

/-- From `s` to `t` a call frees what it has allocated if the counter stays below the limit, and
leaves something if it reaches it. -/
structure Balanced (s t : BufferState) : Prop where
  count : s.scan.logicIdx ≤ t.scan.logicIdx
  heap : t.scan.logicIdx < 8 → t.live = s.live
  exits : t.scan.logicIdx < 8 → (∀ free ∈ s.exits, free = true) → ∀ free ∈ t.exits, free = true
  keeps : s.live.length ≤ t.live.length
  leaks : s.scan.logicIdx < 8 → 8 ≤ t.scan.logicIdx → s.live.length < t.live.length

/-- The same for the entries behind some point in a call, which free the buffer `bs`. -/
structure Frees (bs : ℕ) (s t : BufferState) : Prop where
  count : s.scan.logicIdx ≤ t.scan.logicIdx
  heap : t.scan.logicIdx < 8 → t.live = s.live.erase bs
  exits : t.scan.logicIdx < 8 → (∀ free ∈ s.exits, free = true) → ∀ free ∈ t.exits, free = true
  keeps : s.live.length ≤ t.live.length + 1
  leaks : s.scan.logicIdx < 8 → 8 ≤ t.scan.logicIdx → s.live.length ≤ t.live.length

theorem Balanced.frees (h : Balanced s t) (h' : Frees bs t u) : Frees bs s u := by
  have hcount := h'.count
  have hkeeps := h.keeps
  constructor
  case count => exact h.count.trans hcount
  case heap =>
    intro hfew
    rw [h'.heap hfew, h.heap (by omega)]
  case exits => exact fun hfew hs => h'.exits hfew (h.exits (by omega) hs)
  case keeps =>
    have hkeeps' := h'.keeps
    omega
  case leaks =>
    intro hfew hfull
    by_cases hmid : 8 ≤ t.scan.logicIdx
    · have hleaks := h.leaks hfew hmid
      have hkeeps' := h'.keeps
      omega
    · have hleaks := h'.leaks (by omega) hfull
      omega

/-- A step that has nothing to do with buffers and leaves the counter alone. -/
theorem Frees.of_scan {v : ScanState} (h : Frees bs { s with scan := v } t)
    (hcount : v.logicIdx = s.scan.logicIdx) : Frees bs s t := by
  constructor
  case count => exact hcount ▸ h.count
  case heap => exact h.heap
  case exits => exact h.exits
  case keeps => exact h.keeps
  case leaks => exact fun hfew => h.leaks (by rwa [hcount])

/-- A step that raises the counter, but not to the limit. -/
theorem Frees.of_counted {v : ScanState} (h : Frees bs { s with scan := v } t)
    (hcount : s.scan.logicIdx ≤ v.logicIdx) (hroom : v.logicIdx < 8) : Frees bs s t := by
  constructor
  case count => exact hcount.trans h.count
  case heap => exact h.heap
  case exits => exact h.exits
  case keeps => exact h.keeps
  case leaks => exact fun _ => h.leaks hroom

/-- The return at the limit leaves the buffer allocated. -/
theorem frees_limit {v : ScanState} (hcount : s.scan.logicIdx ≤ v.logicIdx)
    (hfull : 8 ≤ v.logicIdx) : Frees bs s { s with scan := v } := by
  constructor
  case count => exact hcount
  case heap => exact fun hfew => absurd hfew (Nat.not_lt.mpr hfull)
  case exits => exact fun hfew => absurd hfew (Nat.not_lt.mpr hfull)
  case keeps => exact Nat.le_succ _
  case leaks => exact fun _ _ => Nat.le_refl _

theorem sysFree_frees : Frees bs s { s with live := s.live.erase bs } := by
  constructor
  case count => exact Nat.le_refl _
  case heap => exact fun _ => rfl
  case exits => exact fun _ hs => hs
  case keeps =>
    rw [List.length_erase]
    split <;> omega
  case leaks => exact fun hfew hfull => absurd hfew (Nat.not_lt.mpr hfull)

theorem followLink_logicIdx {next : ℕ} {v w : ScanState} (h : followLink p v = .ok (next, w)) :
    w.logicIdx = v.logicIdx := by
  by_cases hbase : v.extraLbaBase = 0
  · cases (followLink_first hbase).symm.trans h
    rfl
  · cases (followLink_later hbase).symm.trans h
    rfl

theorem recordPrim_logicIdx {v w : ScanState} (h : recordPrim hd lba p v = .ok ((), w)) :
    w.logicIdx = v.logicIdx := by
  have hroom := recordPrim_ok_iff.mp ⟨w, h⟩
  cases (recordPrim_eq hroom).symm.trans h
  rfl

theorem recordLogic_logicIdx {v w : ScanState} (h : recordLogic hd lba p v = .ok ((), w)) :
    v.logicIdx < 8 ∧ w.logicIdx = v.logicIdx + 1 := by
  by_cases hroom : v.logicIdx < 8
  · cases (recordLogic_eq hroom).symm.trans h
    exact ⟨hroom, rfl⟩
  · cases (recordLogic_full (Nat.not_lt.mp hroom)).symm.trans h

theorem entriesBuffers_frees (hscan : ∀ lba s t, scan lba s = .ok ((), t) → Balanced s t)
    (h : entriesBuffers scan hd lba bs es s = .ok ((), t)) : Frees bs s t := by
  induction es generalizing s with
  | nil =>
    cases h
    exact sysFree_frees
  | cons p rest ih =>
    cases hl : p.isLink with
    | true =>
      rw [entriesBuffers_link hl] at h
      obtain ⟨next, u, hfollow, hcall⟩ := bind_ok_iff.mp h
      obtain ⟨⟨⟩, w, hrun, hrest⟩ := bind_ok_iff.mp hcall
      obtain ⟨v, hv, rfl⟩ := onScan_ok hfollow
      exact ((hscan _ _ _ hrun).frees (ih hrest)).of_scan (followLink_logicIdx hv)
    | false =>
      cases hp : p.isPart with
      | false =>
        rw [entriesBuffers_empty hl hp] at h
        exact ih h
      | true =>
        by_cases hz : lba = 0
        · rw [entriesBuffers_prim hl hp hz] at h
          obtain ⟨⟨⟩, u, hrec, hrest⟩ := bind_ok_iff.mp h
          obtain ⟨v, hv, rfl⟩ := onScan_ok hrec
          exact (ih hrest).of_scan (recordPrim_logicIdx hv)
        · rw [entriesBuffers_logic hl hp hz] at h
          obtain ⟨⟨⟩, u, hrec, hrest⟩ := bind_ok_iff.mp h
          obtain ⟨v, hv, rfl⟩ := onScan_ok hrec
          have hcount : s.scan.logicIdx ≤ v.logicIdx :=
            Nat.le.intro (recordLogic_logicIdx hv).2.symm
          rw [get_bind] at hrest
          by_cases hfull : v.logicIdx ≥ 8
          · rw [if_pos hfull] at hrest
            cases hrest
            exact frees_limit hcount hfull
          · rw [if_neg hfull] at hrest
            exact (ih hrest).of_counted hcount (Nat.not_le.mp hfull)

theorem scanBuffers_balanced (h : scanBuffers a disk hd fuel lba s = .ok ((), t)) :
    Balanced s t := by
  induction fuel generalizing lba s t with
  | zero => cases h
  | succ fuel ih =>
    rw [scanBuffers] at h
    obtain ⟨bs, u, halloc, hcall⟩ := bind_ok_iff.mp h
    cases halloc
    obtain ⟨⟨⟩, v, hrun, hexit⟩ := bind_ok_iff.mp (ensure_bind_ok_iff.mp hcall).2
    cases hexit
    have hfrees := entriesBuffers_frees (fun _ _ _ => ih) hrun
    have hback : v.scan.logicIdx < 8 → v.live = s.live := by
      intro hfew
      rw [hfrees.heap hfew]
      exact List.erase_cons_head (a.pick s.live) s.live
    constructor
    case count => exact hfrees.count
    case heap => exact hback
    case exits =>
      intro hfew hs free hfree
      rcases List.mem_append.mp hfree with hold | hnew
      · exact hfrees.exits hfew hs free hold
      · rw [List.mem_singleton.mp hnew, hback hfew]
        exact decide_eq_true (a.fresh s.live)
    case keeps => exact Nat.le_of_succ_le_succ hfrees.keeps
    case leaks => exact hfrees.leaks

/-! ## Each partition is in the list once -/

theorem scanEntries_keeps {inv : ScanState → Prop}
    (hlink : ∀ p, Triple inv (followLink p) fun _ => inv)
    (hprim : ∀ p, Triple inv (recordPrim hd lba p) fun _ => inv)
    (hlogic : ∀ p, Triple inv (recordLogic hd lba p) fun _ => inv)
    (hscan : ∀ next, Triple inv (scan' next) fun _ => inv) :
    Triple inv (scanEntries scan' hd lba es) fun _ => inv := by
  induction es with
  | nil => exact triple_pure fun _ hs => hs
  | cons p rest ih =>
    cases hl : p.isLink with
    | true =>
      rw [scanEntries_link hl]
      exact (hlink p).bind fun next => (hscan next).bind fun _ => ih
    | false =>
      cases hp : p.isPart with
      | false =>
        rw [scanEntries_empty hl hp]
        exact ih
      | true =>
        by_cases hz : lba = 0
        · rw [scanEntries_prim hl hp hz]
          exact (hprim p).bind fun _ => ih
        · rw [scanEntries_logic hl hp hz]
          refine (hlogic p).bind fun _ => triple_get_bind fun s hs => ?_
          apply triple_ite
          · exact triple_pure fun t ht => ht ▸ hs
          · exact ih.of_state hs

theorem partitionScan_keeps {inv : ScanState → Prop}
    (hlink : ∀ p, Triple inv (followLink p) fun _ => inv)
    (hprim : ∀ lba p, Triple inv (recordPrim hd lba p) fun _ => inv)
    (hlogic : ∀ lba p, Triple inv (recordLogic hd lba p) fun _ => inv) :
    Triple inv (partitionScan disk hd fuel lba) fun _ => inv := by
  induction fuel generalizing lba with
  | zero => exact triple_throw
  | succ fuel ih =>
    rw [partitionScan]
    exact triple_ensure_bind fun _ => scanEntries_keeps hlink (hprim lba) (hlogic lba) fun _ => ih

/-- The tags that were added to `tags` are different, and those of recorded partitions. -/
def Tagged (tags : List PartTag) (s : ScanState) : Prop :=
  ∃ added, s.partitionList = tags ++ added ∧ added.Nodup ∧
    (∀ i, .prim i ∈ added → i < s.primaryIdx) ∧ ∀ i, .logic i ∈ added → i < s.logicIdx

variable {tags : List PartTag}

theorem tagged_start (v : ScanState) : Tagged v.partitionList v :=
  ⟨[], (List.append_nil _).symm, List.nodup_nil, fun _ h => absurd h List.not_mem_nil,
    fun _ h => absurd h List.not_mem_nil⟩

theorem followLink_tagged (p : PartitionTableEntry) :
    Triple (Tagged tags) (followLink p) fun _ => Tagged tags := by
  rw [followLink]
  refine triple_get_bind fun v hv => triple_ite ?_ ?_
  · exact triple_pure_state hv
  · exact triple_set_bind (triple_pure_state hv)

theorem Tagged.add {v w : ScanState} {tag : PartTag} (h : Tagged tags v)
    (hlist : w.partitionList = v.partitionList ++ [tag]) (hprim : v.primaryIdx ≤ w.primaryIdx)
    (hlogic : v.logicIdx ≤ w.logicIdx)
    (hnew : tag = .prim v.primaryIdx ∧ v.primaryIdx < w.primaryIdx ∨
      tag = .logic v.logicIdx ∧ v.logicIdx < w.logicIdx) : Tagged tags w := by
  obtain ⟨added, hadded, hnodup, hprims, hlogics⟩ := h
  have hfresh : tag ∉ added := by
    intro hmem
    rcases hnew with ⟨rfl, -⟩ | ⟨rfl, -⟩
    · exact Nat.lt_irrefl _ (hprims _ hmem)
    · exact Nat.lt_irrefl _ (hlogics _ hmem)
  refine ⟨added ++ [tag], ?_, ?_, ?_, ?_⟩
  · rw [hlist, hadded, List.append_assoc]
  · apply (List.perm_append_singleton tag added).nodup_iff.mpr
    exact List.nodup_cons.mpr ⟨hfresh, hnodup⟩
  · intro i hi
    rcases List.mem_append.mp hi with hold | hlast
    · exact (hprims i hold).trans_le hprim
    · rcases hnew with ⟨htag, hlt⟩ | ⟨htag, -⟩
      · cases (List.mem_singleton.mp hlast).trans htag
        exact hlt
      · cases (List.mem_singleton.mp hlast).trans htag
  · intro i hi
    rcases List.mem_append.mp hi with hold | hlast
    · exact (hlogics i hold).trans_le hlogic
    · rcases hnew with ⟨htag, -⟩ | ⟨htag, hlt⟩
      · cases (List.mem_singleton.mp hlast).trans htag
      · cases (List.mem_singleton.mp hlast).trans htag
        exact hlt

theorem recordPrim_tagged (lba : ℕ) (p : PartitionTableEntry) :
    Triple (Tagged tags) (recordPrim hd lba p) fun _ => Tagged tags := by
  rintro v ⟨⟩ w hv hrun
  have hroom := recordPrim_ok_iff.mp ⟨w, hrun⟩
  cases (recordPrim_eq hroom).symm.trans hrun
  refine hv.add rfl ?_ ?_ (Or.inl ⟨rfl, ?_⟩)
  · exact Nat.le_succ _
  · exact Nat.le_refl _
  · exact Nat.lt_succ_self _

theorem recordLogic_tagged (lba : ℕ) (p : PartitionTableEntry) :
    Triple (Tagged tags) (recordLogic hd lba p) fun _ => Tagged tags := by
  rintro v ⟨⟩ w hv hrun
  obtain ⟨hroom, -⟩ := recordLogic_logicIdx hrun
  cases (recordLogic_eq hroom).symm.trans hrun
  refine hv.add rfl ?_ ?_ (Or.inr ⟨rfl, ?_⟩)
  · exact Nat.le_refl _
  · exact Nat.le_succ _
  · exact Nat.lt_succ_self _

/-! ## When a scan is safe -/

theorem holds_start (hs : Entered s) :
    Holds s.scan.primParts s.scan.logicParts s.scan ⟨s.scan.extraLbaBase, [], []⟩ :=
  holds_nil hs.prim hs.logic

theorem clean_of_few (hs : Entered s) (h : scanBuffers a disk hd fuel 0 s = .ok ((), t))
    (hfew : t.scan.logicIdx < 8) : Clean s t := by
  have hbal := scanBuffers_balanced h
  have hkeeps : Triple (Tagged s.scan.partitionList) (partitionScan disk hd fuel 0)
      fun _ => Tagged s.scan.partitionList :=
    partitionScan_keeps followLink_tagged recordPrim_tagged recordLogic_tagged
  obtain ⟨added, hlist, hnodup, -⟩ :=
    hkeeps _ _ _ (tagged_start s.scan) (partitionScan_of_scanBuffers h)
  constructor
  case once => exact ⟨added, hlist, hnodup⟩
  case exits =>
    apply hbal.exits hfew
    rw [hs.exits]
    exact fun _ hmem => absurd hmem List.not_mem_nil
  case heap => exact hbal.heap hfew

/-- Records that list fewer than eight: at every depth that is enough the scan stays below the
limit, or stops at the assertion. -/
theorem scan_of_few {l : Listing} (hs : Entered s)
    (hlists : Listed disk hd unlimited s.scan.extraLbaBase l) (hfew : l.logics.length < 8)
    (hne : partitionScan disk hd fuel 0 s.scan ≠ .error .fuel) :
    partitionScan disk hd fuel 0 s.scan = .error .primaryIdx ∨
      ∃ t, partitionScan disk hd fuel 0 s.scan = .ok ((), t) ∧ t.logicIdx < 8 := by
  obtain ⟨depth, ⟨t, hrun, ht⟩ | ⟨-, hrun⟩⟩ := listed_performs
    ((walk_unlimited_iff hfew).mpr hlists) (Nat.le_of_lt hfew) (holds_start hs)
  · have heq := partitionScan_unique hne (ok_ne_fuel hrun)
    exact Or.inr ⟨t, heq.trans hrun, ht.logicCount ▸ hfew⟩
  · have heq := partitionScan_unique hne (error_ne_fuel hrun (by decide))
    exact Or.inl (heq.trans hrun)

theorem safe_of_few {l : Listing} (hs : Entered s)
    (hlists : Listed disk hd unlimited s.scan.extraLbaBase l) (hfew : l.logics.length < 8) :
    ScanSafe a disk hd s := by
  intro fuel
  constructor
  · intro hbounds
    have hstop : partitionScan disk hd fuel 0 s.scan = .error .bounds := by
      rw [scanBuffers_mirrors a disk hd fuel 0 s, hbounds]
      rfl
    rcases scan_of_few hs hlists hfew (error_ne_fuel hstop (by decide)) with h | ⟨t, h, -⟩
    · cases hstop.symm.trans h
    · cases hstop.symm.trans h
  · intro t hrun
    have hscan := partitionScan_of_scanBuffers hrun
    rcases scan_of_few hs hlists hfew (ok_ne_fuel hscan) with h | ⟨t', h, hlt⟩
    · cases hscan.symm.trans h
    · cases hscan.symm.trans h
      exact clean_of_few hs hrun hlt

theorem few_of_safe (hs : Entered s) (hsafe : ScanSafe a disk hd s)
    (hrun : scanBuffers a disk hd fuel 0 s = .ok ((), t)) : t.scan.logicIdx < 8 := by
  by_contra hfull
  have hleak := (scanBuffers_balanced hrun).leaks (by rw [hs.logic]; decide) (Nat.not_lt.mp hfull)
  rw [((hsafe fuel).2 t hrun).heap] at hleak
  exact Nat.lt_irrefl _ hleak

/-- A scan that terminates is safe exactly if the records of the disk list fewer than eight logical
partitions. -/
theorem scan_safe_iff (hs : Entered s) (hterm : Terminates a disk hd s) : ScanSafe a disk hd s ↔
    ∃ l, Listed disk hd unlimited s.scan.extraLbaBase l ∧ l.logics.length < 8 := by
  constructor
  · intro hsafe
    obtain ⟨fuel, ⟨t, hrun⟩ | hbounds⟩ := hterm
    case inr => exact absurd hbounds (hsafe fuel).1
    case inl =>
      obtain ⟨-, l, hwalk, hl⟩ :=
        partitionScan_walk (partitionScan_of_scanBuffers hrun) (holds_start hs)
      have hfew : l.logics.length < 8 := hl.logicCount ▸ few_of_safe hs hsafe hrun
      exact ⟨l, (walk_unlimited_iff hfew).mp hwalk, hfew⟩
  · rintro ⟨l, hlists, hfew⟩
    exact safe_of_few hs hlists hfew

def nextFree : Allocator where
  pick live := live.foldr max 0 + 1
  fresh live := by
    have hle : ∀ x ∈ live, x ≤ live.foldr max 0 := by
      intro x hx
      induction live with
      | nil => cases hx
      | cons y rest ih =>
        rcases List.mem_cons.mp hx with rfl | hrest
        · exact Nat.le_max_left _ _
        · exact (ih hrest).trans (Nat.le_max_right _ _)
    exact fun hmem => Nat.not_succ_le_self _ (hle _ hmem)

def freshBuffers : BufferState := ⟨freshScan, [], []⟩

theorem scan_safe_five_parts : Entered freshBuffers ∧ Terminates nextFree fiveParts 0 freshBuffers ∧
    ScanSafe nextFree fiveParts 0 freshBuffers := by
  have hentered : Entered freshBuffers := ⟨rfl, rfl, rfl⟩
  have hyields : yields (scanBuffers nextFree fiveParts 0 3 0) freshBuffers
      (fun _ t => t.scan.logicIdx == 2) = true := by decide +kernel
  obtain ⟨⟨⟩, t, hrun, htwo⟩ := yields_iff.mp hyields
  have hterm : Terminates nextFree fiveParts 0 freshBuffers := ⟨3, Or.inl ⟨t, hrun⟩⟩
  refine ⟨hentered, hterm, (scan_safe_iff hentered hterm).mpr ?_⟩
  obtain ⟨-, l, hwalk, hl⟩ :=
    partitionScan_walk (partitionScan_of_scanBuffers hrun) (holds_start hentered)
  have hcount : l.logics.length = 2 := hl.logicCount.symm.trans (beq_iff_eq.mp htwo)
  have hfew : l.logics.length < 8 := by omega
  exact ⟨l, (walk_unlimited_iff hfew).mp hwalk, hfew⟩

/-- Three records with three, three and two logical partitions. -/
def eightLogicals : Bytes := tableDisk [(0, 0, ⟨0x5, 8, 40⟩),
  (8, 0, ⟨0x83, 1, 1⟩), (8, 1, ⟨0x83, 2, 1⟩), (8, 2, ⟨0x83, 3, 1⟩), (8, 3, ⟨0x5, 8, 20⟩),
  (16, 0, ⟨0x83, 1, 1⟩), (16, 1, ⟨0x83, 2, 1⟩), (16, 2, ⟨0x83, 3, 1⟩), (16, 3, ⟨0x5, 16, 20⟩),
  (24, 0, ⟨0x83, 1, 1⟩), (24, 1, ⟨0x83, 2, 1⟩)]

/-- The link of the first extended record is in front of two of its partitions, and so the record
behind it is scanned between them. -/
def tenLogicals : Bytes := tableDisk [(0, 0, ⟨0x5, 8, 40⟩),
  (8, 0, ⟨0x83, 1, 1⟩), (8, 1, ⟨0x5, 8, 20⟩), (8, 2, ⟨0x83, 2, 1⟩), (8, 3, ⟨0x83, 3, 1⟩),
  (16, 0, ⟨0x83, 1, 1⟩), (16, 1, ⟨0x83, 2, 1⟩), (16, 2, ⟨0x83, 3, 1⟩), (16, 3, ⟨0x5, 16, 20⟩),
  (24, 0, ⟨0x83, 1, 1⟩), (24, 1, ⟨0x83, 2, 1⟩), (24, 2, ⟨0x83, 3, 1⟩), (24, 3, ⟨0x83, 4, 1⟩)]

theorem eighth_logical_unsafe :
    (Terminates nextFree eightLogicals 0 freshBuffers ∧
      ¬ ScanSafe nextFree eightLogicals 0 freshBuffers) ∧
    Terminates nextFree tenLogicals 0 freshBuffers ∧
      ¬ ScanSafe nextFree tenLogicals 0 freshBuffers := by
  constructor
  · have hyields : yields (scanBuffers nextFree eightLogicals 0 4 0) freshBuffers
        (fun _ t => t.live == [4]) = true := by decide +kernel
    obtain ⟨⟨⟩, t, hrun, hlive⟩ := yields_iff.mp hyields
    refine ⟨⟨4, Or.inl ⟨t, hrun⟩⟩, fun hsafe => ?_⟩
    have hheap := ((hsafe 4).2 t hrun).heap
    cases (beq_iff_eq.mp hlive).symm.trans hheap
  · have hbounds : scanBuffers nextFree tenLogicals 0 4 0 freshBuffers = .error .bounds := by
      have hend : (scanBuffers nextFree tenLogicals 0 4 0 freshBuffers).map (fun _ => ()) =
        .error .bounds := by decide +kernel
      cases hrun : scanBuffers nextFree tenLogicals 0 4 0 freshBuffers with
      | error e =>
        rw [hrun] at hend
        cases hend
        rfl
      | ok r =>
        rw [hrun] at hend
        cases hend
    exact ⟨⟨4, Or.inr hbounds⟩, fun hsafe => (hsafe 4).1 hbounds⟩

end DevicePartitionBuffers
