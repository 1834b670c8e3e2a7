import Leeos.DevicePartitionWalks

/-!
# The disks of `ide_init`

`ide_init` scans the second disk of each channel and resets the two counters behind each. The sector
that links are relative to it does not reset, and so the scan of a disk finds the one of the disk
before.
-/
namespace DevicePartitionDisks

open ExecRules KernelBitmap DevicePartitions DevicePartitionScan DevicePartitionWalks LibStdint
open FsDisk (loadWord_lt maxLba)

structure Channel where
  no : ℕ
  devices : ℕ → Bytes

/-- The number of a disk is its letter in the name `sdX`. -/
def Channel.disk (c : Channel) (devNo : ℕ) : ℕ := 2 * c.no + devNo

structure IdeState where
  primParts : ℕ → ℕ → Partition
  logicParts : ℕ → ℕ → Partition
  primaryIdx : ℕ
  logicIdx : ℕ
  extraLbaBase : ℕ
  partitionList : List (ℕ × PartTag)

abbrev IdeM := Exec ScanHalt IdeState

/-- What `partition_scan` sees when it is called for `hd`. -/
def IdeState.view (s : IdeState) (hd : ℕ) : ScanState where
  primParts := s.primParts hd
  logicParts := s.logicParts hd
  primaryIdx := s.primaryIdx
  logicIdx := s.logicIdx
  extraLbaBase := s.extraLbaBase
  partitionList := []

def IdeState.put (s : IdeState) (hd : ℕ) (t : ScanState) : IdeState where
  primParts := Function.update s.primParts hd t.primParts
  logicParts := Function.update s.logicParts hd t.logicParts
  primaryIdx := t.primaryIdx
  logicIdx := t.logicIdx
  extraLbaBase := t.extraLbaBase
  partitionList := s.partitionList ++ t.partitionList.map (hd, ·)

def onDisk (hd : ℕ) (x : ScanM Unit) : IdeM Unit := fun s =>
  match x (s.view hd) with
  | .ok ((), t) => .ok ((), s.put hd t)
  | .error e => .error e

def initDisk (fuel : ℕ) (c : Channel) (devNo : ℕ) : IdeM Unit := do
  -- the disk of the kernel itself is not scanned
  if devNo ≠ 0 then onDisk (c.disk devNo) (partitionScan (c.devices devNo) (c.disk devNo) fuel 0)
  modify fun s => { s with
    primaryIdx := 0
    logicIdx := 0 }

def ideInit (fuel : ℕ) : List Channel → IdeM Unit
  | [] => pure ()
  | c :: rest => do
    initDisk fuel c 0
    initDisk fuel c 1
    ideInit fuel rest

def started : IdeState where
  primParts _ _ := ⟨0, 0, 0⟩
  logicParts _ _ := ⟨0, 0, 0⟩
  primaryIdx := 0
  logicIdx := 0
  extraLbaBase := 0
  partitionList := []

def recorded (c : Channel) (s : IdeState) : (ℕ → Partition) × (ℕ → Partition) :=
  (s.primParts (c.disk 1), s.logicParts (c.disk 1))

def Returns (cs : List Channel) : Prop := ∃ fuel t, ideInit fuel cs started = .ok ((), t)

/-- For the disk of `b` the same is recorded with and without the scan of `a` in front. -/
def Independent (a b : Channel) : Prop :=
  ∃ fuel t u, ideInit fuel [b] started = .ok ((), t) ∧ ideInit fuel [a, b] started = .ok ((), u) ∧
    recorded b u = recorded b t

def masterRecord (c : Channel) : List PartitionTableEntry := partitionTable (c.devices 1) 0

/-- The records list the same partitions relative to the two bases. -/
def SameLists (disk : Bytes) (hd base base' : ℕ) : Prop :=
  ∃ l l', Listed disk hd eight base l ∧ Listed disk hd eight base' l' ∧
    l.prims = l'.prims ∧ l.logics = l'.logics

variable {disk : Bytes} {hd base fuel : ℕ} {l l' : Listing} {a b c : Channel}
  {cs : List Channel} {s u : IdeState} {v : ScanState}

/-! ## One channel -/

/-- What the scan of a channel starts from. -/
def entry (c : Channel) (s : IdeState) : ScanState :=
  { s.view (c.disk 1) with
    primaryIdx := 0
    logicIdx := 0 }

/-- What it leaves for the next channel. -/
def settled (c : Channel) (s : IdeState) (v : ScanState) : IdeState :=
  { s.put (c.disk 1) v with
    primaryIdx := 0
    logicIdx := 0 }

theorem onDisk_ok {x : ScanM Unit} (h : onDisk hd x s = .ok ((), u)) :
    ∃ v, x (s.view hd) = .ok ((), v) ∧ u = s.put hd v := by
  rw [onDisk] at h
  split at h
  case h_1 v hv =>
    cases h
    exact ⟨v, hv, rfl⟩
  case h_2 => cases h

theorem onDisk_of_ok {x : ScanM Unit} (h : x (s.view hd) = .ok ((), v)) :
    onDisk hd x s = .ok ((), s.put hd v) := by
  rw [onDisk, h]

theorem ideInit_cons_iff : ideInit fuel (c :: cs) s = .ok ((), u) ↔
    ∃ v, partitionScan (c.devices 1) (c.disk 1) fuel 0 (entry c s) = .ok ((), v) ∧
      ideInit fuel cs (settled c s v) = .ok ((), u) := by
  have hmaster : initDisk fuel c 0 s = .ok ((), { s with
    primaryIdx := 0
    logicIdx := 0 }) := rfl
  rw [ideInit, bind_of_ok hmaster]
  constructor
  · intro h
    obtain ⟨⟨⟩, t, hslave, hrest⟩ := bind_ok_iff.mp h
    obtain ⟨⟨⟩, t', hdisk, hreset⟩ := bind_ok_iff.mp hslave
    obtain ⟨v, hscan, rfl⟩ := onDisk_ok hdisk
    cases hreset
    exact ⟨v, hscan, hrest⟩
  · rintro ⟨v, hscan, hrest⟩
    have hslave : initDisk fuel c 1 { s with
        primaryIdx := 0
        logicIdx := 0 } = .ok ((), settled c s v) := bind_of_ok (onDisk_of_ok hscan)
    exact (bind_of_ok hslave).trans hrest

theorem returns_single (h : Returns [c]) :
    ∃ fuel v, partitionScan (c.devices 1) (c.disk 1) fuel 0 (entry c started) = .ok ((), v) := by
  obtain ⟨fuel, t, hrun⟩ := h
  obtain ⟨v, hscan, -⟩ := ideInit_cons_iff.mp hrun
  exact ⟨fuel, v, hscan⟩

theorem recorded_settled : recorded c (settled c s v) = (v.primParts, v.logicParts) := by
  simp only [recorded, settled, IdeState.put, Function.update_self]

theorem holds_entry (c : Channel) (base : ℕ) : Holds (fun _ => ⟨0, 0, 0⟩) (fun _ => ⟨0, 0, 0⟩)
    { entry c started with extraLbaBase := base } ⟨base, [], []⟩ :=
  holds_nil (s := { entry c started with extraLbaBase := base }) rfl rfl

theorem disk_ne (h : a.no ≠ b.no) : b.disk 1 ≠ a.disk 1 := by
  simp only [Channel.disk]
  omega

/-- The scan of one disk leaves the arrays of the others alone. -/
theorem entry_settled (h : a.no ≠ b.no) :
    entry b (settled a started v) = { entry b started with extraLbaBase := v.extraLbaBase } := by
  simp only [entry, settled, IdeState.view, IdeState.put, Function.update_of_ne (disk_ne h)]

theorem scan_lists (base : ℕ) (h : partitionScan (c.devices 1) (c.disk 1) fuel 0
      { entry c started with extraLbaBase := base } = .ok ((), v)) :
    ∃ l, Listed (c.devices 1) (c.disk 1) eight base l ∧
      Holds (fun _ => ⟨0, 0, 0⟩) (fun _ => ⟨0, 0, 0⟩) v l := by
  obtain ⟨-, l, hwalk, hl⟩ := partitionScan_walk h (holds_entry c base)
  exact ⟨l, hwalk, hl⟩

theorem listed_scan (h : Listed (c.devices 1) (c.disk 1) eight base l)
    (hprims : l.prims.length < 4) (hlogics : l.logics.length ≤ 8) :
    ∃ fuel v, partitionScan (c.devices 1) (c.disk 1) fuel 0
        { entry c started with extraLbaBase := base } = .ok ((), v) ∧
      Holds (fun _ => ⟨0, 0, 0⟩) (fun _ => ⟨0, 0, 0⟩) v l := by
  obtain ⟨fuel, ⟨v, hrun, hv⟩ | ⟨hfour, -⟩⟩ := listed_performs h hlogics (holds_entry c base)
  · exact ⟨fuel, v, hrun, hv⟩
  · exact absurd hprims (Nat.not_lt.mpr hfour)

theorem scan_base (h : partitionScan (a.devices 1) (a.disk 1) fuel 0 (entry a started) =
      .ok ((), v)) : v.extraLbaBase = extendedStart (masterRecord a) := by
  obtain ⟨l, hlists, hv⟩ := scan_lists 0 h
  exact hv.base.trans (listed_base hlists)

/-! ## Two channels -/

theorem holds_eq {v w : ScanState} (hv : Holds (fun _ => ⟨0, 0, 0⟩) (fun _ => ⟨0, 0, 0⟩) v l)
    (hw : Holds (fun _ => ⟨0, 0, 0⟩) (fun _ => ⟨0, 0, 0⟩) w l')
    (hprims : l.prims = l'.prims) (hlogics : l.logics = l'.logics) :
    (w.primParts, w.logicParts) = (v.primParts, v.logicParts) := by
  rw [hv.prim, hv.logic, hw.prim, hw.logic, hprims, hlogics]

theorem lists_of_independent (hne : a.no ≠ b.no) (h : Independent a b) :
    SameLists (b.devices 1) (b.disk 1) 0 (extendedStart (masterRecord a)) := by
  obtain ⟨fuel, t, u, halone, hboth, heq⟩ := h
  obtain ⟨v, hscan, hend⟩ := ideInit_cons_iff.mp halone
  obtain ⟨va, hscana, hrest⟩ := ideInit_cons_iff.mp hboth
  obtain ⟨vb, hscanb, hend'⟩ := ideInit_cons_iff.mp hrest
  cases hend
  cases hend'
  rw [entry_settled hne, scan_base hscana] at hscanb
  obtain ⟨l, hl, hv⟩ := scan_lists 0 hscan
  obtain ⟨l', hl', hvb⟩ := scan_lists _ hscanb
  rw [recorded_settled, recorded_settled, Prod.mk.injEq, hv.prim, hv.logic, hvb.prim,
    hvb.logic] at heq
  have hzero : ∀ _ : ℕ, (⟨0, 0, 0⟩ : Partition).myDisk ≠ b.disk 1 := by
    intro _
    simp only [Channel.disk]
    omega
  have hmine := listed_myDisk hl
  have hmine' := listed_myDisk hl'
  refine ⟨l, l', hl, hl', ?_, ?_⟩
  · exact (place_injective hzero hmine'.1 hmine.1 heq.1).symm
  · exact (place_injective hzero hmine'.2 hmine.2 heq.2).symm

theorem scan_more {j k : ℕ} {w : ScanState} (hle : j ≤ k)
    (h : partitionScan disk hd j 0 w = .ok ((), v)) : partitionScan disk hd k 0 w = .ok ((), v) :=
  (partitionScan_more (ok_ne_fuel h) hle).trans h

theorem independent_of_lists (hne : a.no ≠ b.no) (ha : Returns [a]) (hb : Returns [b])
    (h : SameLists (b.devices 1) (b.disk 1) 0 (extendedStart (masterRecord a))) :
    Independent a b := by
  obtain ⟨l, l', hl, hl', hprims, hlogics⟩ := h
  obtain ⟨m, va, hscana⟩ := returns_single ha
  obtain ⟨n, v, hscan⟩ := returns_single hb
  obtain ⟨l₀, hl₀, hv⟩ := scan_lists 0 hscan
  cases Walk.unique hl₀ hl
  obtain ⟨k, vb, hscanb, hvb⟩ := listed_scan hl' (hprims ▸ hv.primRoom) (hlogics ▸ hv.logicRoom)
  -- enough for the three scans
  refine ⟨max m (max n k), settled b started v, settled b (settled a started va) vb, ?_, ?_, ?_⟩
  · exact ideInit_cons_iff.mpr ⟨v, scan_more (by omega) hscan, rfl⟩
  · apply ideInit_cons_iff.mpr
    refine ⟨va, scan_more (by omega) hscana, ideInit_cons_iff.mpr ⟨vb, ?_, rfl⟩⟩
    rw [entry_settled hne, scan_base hscana]
    exact scan_more (by omega) hscanb
  · rw [recorded_settled, recorded_settled]
    exact holds_eq hv hvb hprims hlogics

theorem independent_iff_lists (hne : a.no ≠ b.no) (ha : Returns [a]) (hb : Returns [b]) :
    Independent a b ↔
      SameLists (b.devices 1) (b.disk 1) 0 (extendedStart (masterRecord a)) :=
  ⟨lists_of_independent hne, independent_of_lists hne ha hb⟩

/-! ## A disk that shows the difference -/

/-- A disk with one logical partition, in the record in sector `x`. -/
def oneLogical (x : ℕ) : Bytes := tableDisk [(0, 0, ⟨0x5, x, 1⟩), (x, 0, ⟨0x83, 1, 1⟩)]

def blank : PartitionTableEntry := ⟨0, 0, 0⟩

theorem walk_blank {full : ℕ → Prop} {lba : ℕ} {es : List PartitionTableEntry}
    (h : ∀ p ∈ es, p.fsType = 0) : Walk disk hd full lba es l l := by
  induction es with
  | nil => exact .done
  | cons p rest ih =>
    have hp : p.fsType = 0 := h p List.mem_cons_self
    apply Walk.empty
    case a => simp [PartitionTableEntry.isLink, hp]
    case a => simp [PartitionTableEntry.isPart, hp]
    case a => exact ih fun q hq => h q (List.mem_cons_of_mem p hq)

theorem blank_replicate (n : ℕ) : ∀ p ∈ List.replicate n blank, p.fsType = 0 := by
  intro p hp
  rw [List.eq_of_mem_replicate hp]
  rfl

theorem oneLogical_tables {x : ℕ} (hx : x = 1 ∨ x = 2) :
    partitionTable (oneLogical x) 0 = ⟨0x5, x, 1⟩ :: List.replicate 3 blank ∧
    partitionTable (oneLogical x) x = ⟨0x83, 1, 1⟩ :: List.replicate 3 blank := by
  rcases hx with rfl | rfl <;> decide +kernel

theorem oneLogical_elsewhere {x y : ℕ} (hzero : y ≠ 0) (hne : y ≠ x) :
    ∀ p ∈ partitionTable (oneLogical x) y, p.fsType = 0 := by
  intro p hp
  obtain ⟨i, hi, rfl⟩ := List.mem_map.mp hp
  rw [List.mem_range] at hi
  simp only [tableEntry, oneLogical, tableDisk, List.foldr_cons, List.foldr_nil]
  repeat rw [if_neg (by omega)]

theorem oneLogical_lists {x : ℕ} (hx : x = 1 ∨ x = 2) (hd : ℕ) :
    Listed (oneLogical x) hd eight 0 ⟨x, [], [partitionOf hd x ⟨0x83, 1, 1⟩]⟩ := by
  obtain ⟨hfirst, hsecond⟩ := oneLogical_tables hx
  rw [Listed, hfirst]
  refine Walk.link (m := ⟨x, [], [partitionOf hd x ⟨0x83, 1, 1⟩]⟩) rfl ?_ ?_ ?_
  · change x ≤ maxLba
    rw [maxLba]
    omega
  · change Walk (oneLogical x) hd eight x (partitionTable (oneLogical x) x) ⟨x, [], []⟩ _
    rw [hsecond]
    refine Walk.logic rfl rfl (by omega) ?_ (walk_blank (blank_replicate 3))
    rw [eight, List.length_nil]
    omega
  · exact walk_blank (blank_replicate 3)

/-- Relative to a base that leads elsewhere nothing is found. -/
theorem oneLogical_moved {x : ℕ} (hx : x = 1 ∨ x = 2) (hbase : base ≠ 0)
    (hzero : u32 (x + base) ≠ 0) (hne : u32 (x + base) ≠ x)
    (h : Listed (oneLogical x) hd eight base l) : l.logics = [] := by
  obtain ⟨hfirst, -⟩ := oneLogical_tables hx
  rw [Listed, hfirst] at h
  obtain ⟨m, hcall, hrest⟩ := h.of_link rfl
  have htarget : Listing.target ⟨base, [], []⟩ ⟨0x5, x, 1⟩ = u32 (x + base) := if_neg hbase
  rw [htarget] at hcall
  have hm := hcall.unique (walk_blank (oneLogical_elsewhere hzero hne))
  have hl := hrest.unique (walk_blank (blank_replicate 3))
  rw [hl, hm]
  rfl

theorem oneLogical_differs (hne : a.no ≠ b.no) (ha : Returns [a])
    (hbase : extendedStart (masterRecord a) ≠ 0) (hlt : extendedStart (masterRecord a) < 2 ^ 32) :
    ∃ c, c.no = b.no ∧ Returns [c] ∧ ¬ Independent a c := by
  obtain ⟨x, hx, hzero, hmoved⟩ : ∃ x, (x = 1 ∨ x = 2) ∧
      u32 (x + extendedStart (masterRecord a)) ≠ 0 ∧
      u32 (x + extendedStart (masterRecord a)) ≠ x := by
    by_cases hwrap : extendedStart (masterRecord a) = 2 ^ 32 - 1
    · refine ⟨2, Or.inr rfl, ?_⟩
      rw [hwrap]
      decide
    · refine ⟨1, Or.inl rfl, ?_⟩
      rw [u32, Nat.mod_eq_of_lt (by omega)]
      omega
  let c : Channel := ⟨b.no, fun _ => oneLogical x⟩
  have hlists := oneLogical_lists hx (c.disk 1)
  have hreturns : Returns [c] := by
    obtain ⟨fuel, v, hscan, -⟩ := listed_scan (c := c) hlists (Nat.zero_lt_succ 3)
      (by rw [List.length_singleton]; omega)
    exact ⟨fuel, _, ideInit_cons_iff.mpr ⟨v, hscan, rfl⟩⟩
  have hother : a.no ≠ c.no := hne
  refine ⟨c, rfl, hreturns, fun hind => ?_⟩
  obtain ⟨l, l', hl, hl', -, hlogics⟩ := (independent_iff_lists hother ha hreturns).mp hind
  rw [oneLogical_moved hx hbase hzero hmoved hl', ← hlists.unique hl] at hlogics
  cases hlogics

/-! ## When the scans are independent -/

theorem extendedStart_lt (disk : Bytes) (lba : ℕ) :
    extendedStart (partitionTable disk lba) < 2 ^ 32 := by
  rw [extendedStart]
  cases hhead : (linksOf (partitionTable disk lba)).head? with
  | none => exact Nat.two_pow_pos 32
  | some p =>
    have hmem : p ∈ partitionTable disk lba :=
      (List.mem_filter.mp (List.mem_of_mem_head? hhead)).1
    obtain ⟨i, -, rfl⟩ := List.mem_map.mp hmem
    exact loadWord_lt _ _

theorem extendedStart_ne_zero (ha : Returns [a]) (hlinks : linksOf (masterRecord a) ≠ []) :
    extendedStart (masterRecord a) ≠ 0 := by
  intro hzero
  obtain ⟨fuel, v, hscan⟩ := returns_single ha
  obtain ⟨l, hlists, -⟩ := scan_lists 0 hscan
  obtain ⟨p, links, hcons⟩ := List.exists_cons_of_ne_nil hlinks
  have hhome : (linksOf (masterRecord a)).head?.map PartitionTableEntry.startLba = some 0 := by
    rw [extendedStart, hcons] at hzero
    rw [hcons]
    exact congrArg some hzero
  exact Walk.not_home hlists rfl rfl hhome hhome

/-- What is recorded for the disk of `b` does not depend on the scan of the disk of `a` exactly if
one of the master boot records has no extended partition, or the extended records of the disk of
`b` list the same relative to the extended partition of the other disk. Where the first has one,
some second disk is recorded wrong. -/
theorem disks_independent_iff (hne : a.no ≠ b.no) (ha : Returns [a]) (hb : Returns [b]) :
    (Independent a b ↔ linksOf (masterRecord a) = [] ∨ linksOf (masterRecord b) = [] ∨
      SameLists (b.devices 1) (b.disk 1) 0 (extendedStart (masterRecord a))) ∧
    (linksOf (masterRecord a) ≠ [] →
      ∃ c, c.no = b.no ∧ Returns [c] ∧ ¬ Independent a c) := by
  constructor
  case right =>
    intro hlinks
    exact oneLogical_differs hne ha (extendedStart_ne_zero ha hlinks) (extendedStart_lt _ _)
  case left =>
    rw [independent_iff_lists hne ha hb]
    constructor
    · exact fun h => Or.inr (Or.inr h)
    · obtain ⟨fuel, v, hscan⟩ := returns_single hb
      obtain ⟨l, hlists, -⟩ := scan_lists 0 hscan
      rintro (hnone | hnone | hsame)
      · have hzero : extendedStart (masterRecord a) = 0 := by
          rw [extendedStart, hnone]
          rfl
        rw [hzero]
        exact ⟨l, l, hlists, hlists, rfl, rfl⟩
      · exact ⟨l, _, hlists, Walk.rebase hlists hnone, rfl, rfl⟩
      · exact hsame

def onePrimary : Bytes := tableDisk [(0, 0, ⟨0x83, 1, 2⟩)]

theorem returns_of_yields (fuel : ℕ)
    (h : yields (ideInit fuel cs) started (fun _ _ => true) = true) : Returns cs := by
  obtain ⟨⟨⟩, t, hrun, -⟩ := yields_iff.mp h
  exact ⟨fuel, t, hrun⟩

theorem fiveParts_returns : Returns [⟨0, fun _ => fiveParts⟩] :=
  returns_of_yields 3 (by decide +kernel)

theorem disks_independent_sample :
    Independent ⟨0, fun _ => fiveParts⟩ ⟨1, fun _ => onePrimary⟩ ∧
    ∃ c, c.no = 1 ∧ Returns [c] ∧ ¬ Independent ⟨0, fun _ => fiveParts⟩ c := by
  have hb : Returns [⟨1, fun _ => onePrimary⟩] := returns_of_yields 1 (by decide +kernel)
  obtain ⟨hiff, hdiffers⟩ := disks_independent_iff (by decide) fiveParts_returns hb
  constructor
  · exact hiff.mpr (Or.inr (Or.inl (by decide +kernel)))
  · exact hdiffers (by decide +kernel)

/-- The extended partition of the first disk begins in sector 8, that of the second in sector 1, and
the scan of the second looks for its record in sector 9. -/
theorem base_not_reset :
    Returns [⟨0, fun _ => fiveParts⟩] ∧ Returns [⟨1, fun _ => oneLogical 1⟩] ∧
    ¬ Independent ⟨0, fun _ => fiveParts⟩ ⟨1, fun _ => oneLogical 1⟩ := by
  have hb : Returns [⟨1, fun _ => oneLogical 1⟩] := returns_of_yields 2 (by decide +kernel)
  have hstart : extendedStart (masterRecord ⟨0, fun _ => fiveParts⟩) = 8 := by decide +kernel
  refine ⟨fiveParts_returns, hb, fun hind => ?_⟩
  obtain ⟨l, l', hl, hl', -, hlogics⟩ :=
    (independent_iff_lists (by decide) fiveParts_returns hb).mp hind
  rw [hstart] at hl'
  rw [oneLogical_moved (Or.inl rfl) (by decide) (by decide) (by decide) hl',
    ← (oneLogical_lists (Or.inl rfl) _).unique hl] at hlogics
  cases hlogics

end DevicePartitionDisks
