import Leeos.ExecRules
import Leeos.FsDisk

/-!
# The partition scan (`partition_scan` in `device/ide.c`)

The scan of a record follows the links in it by calling itself, and nothing bounds how deep. `fuel`
is the depth that is allowed; a scan terminates if some depth is enough. Each call reads its record
into a buffer of its own, and what `sys_malloc` is asked for it gives.
-/
namespace DevicePartitions

open ExecRules KernelBitmap LibStdint
open FsDisk (loadWord maxLba)

structure PartitionTableEntry where
  fsType : BitVec 8
  startLba : ℕ
  secCnt : ℕ
  deriving DecidableEq, Repr

def PartitionTableEntry.isLink (p : PartitionTableEntry) : Bool := p.fsType == 0x5

def PartitionTableEntry.isPart (p : PartitionTableEntry) : Bool :=
  p.fsType != 0x5 && p.fsType != 0

def tableEntry (disk : Bytes) (lba i : ℕ) : PartitionTableEntry where
  fsType := disk (512 * lba + 446 + 16 * i + 4)
  startLba := loadWord disk (512 * lba + 446 + 16 * i + 8)
  secCnt := loadWord disk (512 * lba + 446 + 16 * i + 12)

def partitionTable (disk : Bytes) (lba : ℕ) : List PartitionTableEntry :=
  (List.range 4).map (tableEntry disk lba)

structure Partition where
  startLba : ℕ
  sectorCounter : ℕ
  myDisk : ℕ
  deriving DecidableEq, Repr

inductive PartTag where
  | prim (idx : ℕ)
  | logic (idx : ℕ)
  deriving DecidableEq, Repr

structure ScanState where
  primParts : ℕ → Partition
  logicParts : ℕ → Partition
  primaryIdx : ℕ
  logicIdx : ℕ
  extraLbaBase : ℕ
  partitionList : List PartTag

inductive ScanHalt where
  /-- `ASSERT(lba <= max_lba)` of `ide_read` -/
  | maxLba
  /-- `ASSERT(primary_idx < 4)` -/
  | primaryIdx
  /-- A partition is written behind its array. The code has no check there and goes on; what it
  does with the memory behind the array is not followed. -/
  | bounds
  | fuel
  deriving DecidableEq, Repr

abbrev ScanM := Exec ScanHalt ScanState

def partitionOf (hd extLba : ℕ) (p : PartitionTableEntry) : Partition :=
  ⟨u32 (extLba + p.startLba), p.secCnt, hd⟩

def recordPrim (hd extLba : ℕ) (p : PartitionTableEntry) : ScanM Unit := do
  let s ← get
  ensure .bounds (s.primaryIdx < 4)
  set { s with
    primParts := Function.update s.primParts s.primaryIdx (partitionOf hd extLba p)
    partitionList := s.partitionList ++ [PartTag.prim s.primaryIdx]
    primaryIdx := u8 (s.primaryIdx + 1) }
  let s ← get
  ensure .primaryIdx (s.primaryIdx < 4)

def recordLogic (hd extLba : ℕ) (p : PartitionTableEntry) : ScanM Unit := do
  let s ← get
  ensure .bounds (s.logicIdx < 8)
  set { s with
    logicParts := Function.update s.logicParts s.logicIdx (partitionOf hd extLba p)
    partitionList := s.partitionList ++ [PartTag.logic s.logicIdx]
    logicIdx := u8 (s.logicIdx + 1) }

/-- The address of the next record; the first link gives the base of the later ones. -/
def followLink (p : PartitionTableEntry) : ScanM ℕ := do
  let s ← get
  if s.extraLbaBase ≠ 0 then pure (u32 (p.startLba + s.extraLbaBase))
  else
    set { s with extraLbaBase := p.startLba }
    pure p.startLba

def scanEntries (scan : ℕ → ScanM Unit) (hd extLba : ℕ) : List PartitionTableEntry → ScanM Unit
  | [] => pure ()
  | p :: rest =>
    if p.isLink then do
      let lba ← followLink p
      scan lba
      scanEntries scan hd extLba rest
    else if p.isPart then
      if extLba = 0 then do
        recordPrim hd extLba p
        scanEntries scan hd extLba rest
      else do
        recordLogic hd extLba p
        let s ← get
        -- only this call returns, not those it was made from
        if s.logicIdx ≥ 8 then pure () else scanEntries scan hd extLba rest
    else scanEntries scan hd extLba rest

def partitionScan (disk : Bytes) (hd : ℕ) : ℕ → ℕ → ScanM Unit
  | 0, _ => throw .fuel
  | fuel + 1, extLba => do
    ensure .maxLba (extLba ≤ maxLba)
    scanEntries (partitionScan disk hd fuel) hd extLba (partitionTable disk extLba)

variable {disk : Bytes} {hd extLba fuel n : ℕ} {s t : ScanState} {p : PartitionTableEntry}
  {es bs : List PartitionTableEntry} {scan scan' : ℕ → ScanM Unit}

/-! ## One entry -/

theorem scanEntries_link (h : p.isLink = true) : scanEntries scan hd extLba (p :: es) = (do
    let lba ← followLink p
    scan lba
    scanEntries scan hd extLba es) := by
  rw [scanEntries, if_pos h]

theorem scanEntries_prim (hl : p.isLink = false) (hp : p.isPart = true) (h : extLba = 0) :
    scanEntries scan hd extLba (p :: es) = (do
      recordPrim hd extLba p
      scanEntries scan hd extLba es) := by
  rw [scanEntries, hl, if_neg Bool.false_ne_true, if_pos hp, if_pos h]

theorem scanEntries_logic (hl : p.isLink = false) (hp : p.isPart = true) (h : extLba ≠ 0) :
    scanEntries scan hd extLba (p :: es) = (do
      recordLogic hd extLba p
      let s ← get
      if s.logicIdx ≥ 8 then pure () else scanEntries scan hd extLba es) := by
  rw [scanEntries, hl, if_neg Bool.false_ne_true, if_pos hp, if_neg h]

theorem scanEntries_empty (hl : p.isLink = false) (hp : p.isPart = false) :
    scanEntries scan hd extLba (p :: es) = scanEntries scan hd extLba es := by
  rw [scanEntries, hl, if_neg Bool.false_ne_true, hp, if_neg Bool.false_ne_true]

/-! ## More depth changes nothing -/

/-- A call that needs no more depth does the same with more. -/
def Extends (scan scan' : ℕ → ScanM Unit) : Prop :=
  ∀ lba s, scan lba s ≠ .error .fuel → scan' lba s = scan lba s

theorem ok_ne_fuel {α : Type} {x : ScanM α} {r : α × ScanState} (h : x s = .ok r) :
    x s ≠ .error .fuel := by
  intro hfuel
  cases h.symm.trans hfuel

theorem error_ne_fuel {α : Type} {x : ScanM α} {e : ScanHalt} (h : x s = .error e)
    (he : e ≠ .fuel) : x s ≠ .error .fuel := by
  intro hfuel
  exact he (Except.error.inj (h.symm.trans hfuel))

theorem bind_extends {α β : Type} {x x' : ScanM α} {f f' : α → ScanM β}
    (hx : x s ≠ .error .fuel → x' s = x s)
    (hf : ∀ a t, f a t ≠ .error .fuel → f' a t = f a t) (h : (x >>= f) s ≠ .error .fuel) :
    (x' >>= f') s = (x >>= f) s := by
  cases hrun : x s with
  | error e =>
    rw [bind_of_error hrun] at h ⊢
    apply bind_of_error
    refine (hx fun hfuel => ?_).trans hrun
    cases hrun.symm.trans hfuel
    exact h rfl
  | ok a =>
    have hsame := (hx (ok_ne_fuel hrun)).trans hrun
    rw [bind_of_ok hrun] at h ⊢
    rw [bind_of_ok hsame]
    exact hf _ _ h

theorem scanEntries_extends (h : Extends scan scan') :
    ∀ s, scanEntries scan hd extLba es s ≠ .error .fuel →
      scanEntries scan' hd extLba es s = scanEntries scan hd extLba es s := by
  induction es with
  | nil => exact fun _ _ => rfl
  | cons p rest ih =>
    intro s hs
    cases hl : p.isLink with
    | true =>
      rw [scanEntries_link hl] at hs ⊢
      rw [scanEntries_link hl]
      refine bind_extends (fun _ => rfl) (fun lba t => ?_) hs
      exact bind_extends (h lba t) fun _ u => ih u
    | false =>
      cases hp : p.isPart with
      | false =>
        rw [scanEntries_empty hl hp] at hs ⊢
        rw [scanEntries_empty hl hp]
        exact ih s hs
      | true =>
        by_cases hz : extLba = 0
        · rw [scanEntries_prim hl hp hz] at hs ⊢
          rw [scanEntries_prim hl hp hz]
          exact bind_extends (fun _ => rfl) (fun _ u => ih u) hs
        · rw [scanEntries_logic hl hp hz] at hs ⊢
          rw [scanEntries_logic hl hp hz]
          refine bind_extends (fun _ => rfl) (fun _ t => ?_) hs
          refine bind_extends (fun _ => rfl) fun u v => ?_
          split
          · exact fun _ => rfl
          · exact ih v

theorem partitionScan_extends :
    Extends (partitionScan disk hd n) (partitionScan disk hd (n + 1)) := by
  induction n with
  | zero => exact fun lba s h => absurd rfl h
  | succ n ih =>
    intro lba s h
    rw [partitionScan] at h ⊢
    exact bind_extends (fun _ => rfl) (fun _ t => scanEntries_extends ih t) h

theorem partitionScan_more (h : partitionScan disk hd fuel extLba s ≠ .error .fuel)
    (hle : fuel ≤ n) : partitionScan disk hd n extLba s = partitionScan disk hd fuel extLba s := by
  induction n, hle using Nat.le_induction with
  | base => rfl
  | succ n _ ih => exact (partitionScan_extends _ _ (by rwa [ih])).trans ih

/-- A scan that needs no more depth has one result. -/
theorem partitionScan_unique {m : ℕ} (h : partitionScan disk hd m extLba s ≠ .error .fuel)
    (h' : partitionScan disk hd n extLba s ≠ .error .fuel) :
    partitionScan disk hd m extLba s = partitionScan disk hd n extLba s := by
  rcases Nat.le_total m n with hle | hle
  · exact (partitionScan_more h hle).symm
  · exact partitionScan_more h' hle

end DevicePartitions
