import Mathlib.Data.Set.Card
import Leeos.DevicePartitionScan

/-!
# Cycles of links

`partition_scan` follows every link and looks for no cycle. A cycle comes to an end only if a
partition is recorded on the way around it, since there is room for twelve.
-/
namespace DevicePartitionLinks

open ExecRules KernelBitmap DevicePartitions DevicePartitionScan LibStdint
open FsDisk (loadWord maxLba)
open Relation (ReflTransGen TransGen)

/-- From a node behind which there is no cycle and only finitely many nodes, no path is endless. -/
theorem acc_of_acyclic {α : Type} {r : α → α → Prop} {x : α} (hfin : {y | TransGen r x y}.Finite)
    (h : ∀ y, ReflTransGen r x y → ¬ TransGen r y y) : Acc (flip r) x := by
  induction hcard : {y | TransGen r x y}.ncard using Nat.strong_induction_on generalizing x with
  | _ n ih =>
    refine Acc.intro x fun y (hxy : r x y) => ?_
    have hsub : {z | TransGen r y z} ⊆ {z | TransGen r x z} := fun z hz => hz.head hxy
    -- `y` itself is left behind
    have hless : {z | TransGen r y z} ⊂ {z | TransGen r x z} := by
      refine ⟨hsub, fun hback => ?_⟩
      exact h y (ReflTransGen.single hxy) (hback (TransGen.single hxy))
    apply ih _ (hcard ▸ Set.ncard_lt_ncard hless hfin) (hfin.subset hsub) ?_ rfl
    exact fun z hz => h z (hz.head hxy)

/-! ## The graph of the records -/

/-- The entries in front of the first partition. -/
def beforePart (es : List PartitionTableEntry) : List PartitionTableEntry :=
  es.takeWhile fun p => !p.isPart

def Link (disk : Bytes) (base lba lba' : ℕ) : Prop :=
  ∃ p ∈ linksOf (partitionTable disk lba), lba' = u32 (p.startLba + base)

/-- A link in front of the first partition. -/
def FreeLink (disk : Bytes) (base lba lba' : ℕ) : Prop :=
  ∃ p ∈ linksOf (beforePart (partitionTable disk lba)), lba' = u32 (p.startLba + base)

/-- Every cycle that can be reached from `lba` leads past a partition. -/
def NoFreeCycle (disk : Bytes) (base lba : ℕ) : Prop :=
  ∀ x, ReflTransGen (Link disk base) lba x → ¬ TransGen (FreeLink disk base) x x

/-- So does every cycle that can be reached from the master boot record. -/
structure Uncycled (disk : Bytes) (base : ℕ) : Prop where
  later : base ≠ 0 → NoFreeCycle disk base 0
  /-- A first link to sector 0 leaves the base 0, and leads back to itself. -/
  home : base = 0 → ∀ p, (linksOf (partitionTable disk 0)).head? = some p → p.startLba = 0 →
    p ∉ beforePart (partitionTable disk 0)
  first : base = 0 → ∀ p rest, linksOf (partitionTable disk 0) = p :: rest → p.startLba ≠ 0 →
    NoFreeCycle disk p.startLba p.startLba ∧
    ∀ q ∈ rest, NoFreeCycle disk p.startLba (u32 (q.startLba + p.startLba))

/-- The scan returns, or an assertion or the end of an array stops it. -/
def Stops (disk : Bytes) (hd lba : ℕ) (s : ScanState) : Prop :=
  ∃ fuel, partitionScan disk hd fuel lba s ≠ .error .fuel

def EntriesStop (disk : Bytes) (hd lba : ℕ) (es : List PartitionTableEntry) (s : ScanState) :
    Prop := ∃ fuel, scanEntries (partitionScan disk hd fuel) hd lba es s ≠ .error .fuel

/-- How many partitions can still be recorded. -/
def remaining (s : ScanState) : ℕ := (4 - s.primaryIdx) + (8 - s.logicIdx)

/-- What a call leaves of the state it was made in. -/
structure Kept (s t : ScanState) : Prop where
  base : s.extraLbaBase ≠ 0 → t.extraLbaBase = s.extraLbaBase
  room : remaining t ≤ remaining s

variable {disk : Bytes} {hd lba lba' base fuel n : ℕ} {s t u : ScanState}
  {p : PartitionTableEntry} {es links : List PartitionTableEntry} {scan : ℕ → ScanM Unit}

theorem beforePart_cons (hp : p.isPart = false) : beforePart (p :: es) = p :: beforePart es := by
  rw [beforePart, List.takeWhile_cons, hp, Bool.not_false, if_pos rfl]
  rfl

theorem Kept.refl : Kept s s := ⟨fun _ => rfl, Nat.le_refl _⟩

theorem Kept.trans (h : Kept s t) (h' : Kept t u) : Kept s u := by
  constructor
  case base =>
    intro hne
    have hbase := h.base hne
    exact (h'.base (hbase ▸ hne)).trans hbase
  case room => exact h'.room.trans h.room

theorem FreeLink.link (h : FreeLink disk base lba lba') : Link disk base lba lba' := by
  obtain ⟨p, hp, hlba⟩ := h
  exact ⟨p, ((List.takeWhile_sublist _).filter _).subset hp, hlba⟩

theorem NoFreeCycle.link (h : NoFreeCycle disk base lba) (hlink : Link disk base lba lba') :
    NoFreeCycle disk base lba' := fun x hx => h x (hx.head hlink)

theorem NoFreeCycle.acc (h : NoFreeCycle disk base lba) : Acc (flip (FreeLink disk base)) lba := by
  apply acc_of_acyclic
  case hfin =>
    apply (Set.finite_lt_nat (2 ^ 32)).subset
    intro y hy
    obtain ⟨x, -, p, -, hlast⟩ := TransGen.tail'_iff.mp hy
    rw [hlast]
    exact Nat.mod_lt _ (by decide)
  case h =>
    have hle : FreeLink disk base ≤ Link disk base := fun _ _ hfree => hfree.link
    exact fun y hy => h y (ReflTransGen.mono hle _ _ hy)

/-! ## One entry -/

theorem recordPrim_cases (hd lba : ℕ) (p : PartitionTableEntry) (s : ScanState) :
    (∃ e, e ≠ .fuel ∧ recordPrim hd lba p s = .error e) ∨
    ∃ t, recordPrim hd lba p s = .ok ((), t) ∧ t.extraLbaBase = s.extraLbaBase ∧
      remaining t < remaining s := by
  rcases Nat.lt_trichotomy s.primaryIdx 3 with hroom | hfourth | hfull
  · refine Or.inr ⟨_, recordPrim_eq hroom, rfl, ?_⟩
    simp only [remaining]
    omega
  · exact Or.inl ⟨.primaryIdx, by decide, recordPrim_fourth hfourth⟩
  · exact Or.inl ⟨.bounds, by decide, recordPrim_full hfull⟩

theorem recordLogic_cases (hd lba : ℕ) (p : PartitionTableEntry) (s : ScanState) :
    (∃ e, e ≠ .fuel ∧ recordLogic hd lba p s = .error e) ∨
    ∃ t, recordLogic hd lba p s = .ok ((), t) ∧ t.extraLbaBase = s.extraLbaBase ∧
      remaining t < remaining s := by
  rcases Nat.lt_or_ge s.logicIdx 8 with hroom | hfull
  · refine Or.inr ⟨_, recordLogic_eq hroom, rfl, ?_⟩
    simp only [remaining, withLogic, List.length_singleton]
    omega
  · exact Or.inl ⟨.bounds, by decide, recordLogic_full hfull⟩

theorem scanEntries_part (hd lba : ℕ) (es : List PartitionTableEntry) (s : ScanState)
    (hl : p.isLink = false) (hp : p.isPart = true) :
    (∃ e, e ≠ .fuel ∧ ∀ scan, scanEntries scan hd lba (p :: es) s = .error e) ∨
    ∃ t, t.extraLbaBase = s.extraLbaBase ∧ remaining t < remaining s ∧
      (lba ≠ 0 ∧ (∀ scan, scanEntries scan hd lba (p :: es) s = .ok ((), t)) ∨
        ∀ scan, scanEntries scan hd lba (p :: es) s = scanEntries scan hd lba es t) := by
  by_cases hz : lba = 0
  · rcases recordPrim_cases hd lba p s with
      ⟨e, hfuel, hstop⟩ | ⟨t, hrun, hbase, hroom⟩
    · refine Or.inl ⟨e, hfuel, fun scan => ?_⟩
      rw [scanEntries_prim hl hp hz, bind_of_error hstop]
    · refine Or.inr ⟨t, hbase, hroom, Or.inr fun scan => ?_⟩
      rw [scanEntries_prim hl hp hz, bind_of_ok hrun]
  · rcases recordLogic_cases hd lba p s with
      ⟨e, hfuel, hstop⟩ | ⟨t, hrun, hbase, hroom⟩
    · refine Or.inl ⟨e, hfuel, fun scan => ?_⟩
      rw [scanEntries_logic hl hp hz, bind_of_error hstop]
    · refine Or.inr ⟨t, hbase, hroom, ?_⟩
      by_cases hfull : t.logicIdx ≥ 8
      · refine Or.inl ⟨hz, fun scan => ?_⟩
        rw [scanEntries_logic hl hp hz, bind_of_ok hrun, get_bind, if_pos hfull]
        rfl
      · refine Or.inr fun scan => ?_
        rw [scanEntries_logic hl hp hz, bind_of_ok hrun, get_bind, if_neg hfull]

theorem followLink_kept (h : followLink p s = .ok (lba, t)) : Kept s t := by
  by_cases hbase : s.extraLbaBase = 0
  · rw [followLink_first hbase] at h
    cases h
    exact ⟨fun hne => absurd hbase hne, Nat.le_refl _⟩
  · rw [followLink_later hbase] at h
    cases h
    exact Kept.refl

theorem scanEntries_kept (hscan : ∀ lba s t, scan lba s = .ok ((), t) → Kept s t)
    (h : scanEntries scan hd lba es s = .ok ((), t)) : Kept s t := by
  induction es generalizing s with
  | nil =>
    cases h
    exact Kept.refl
  | cons p rest ih =>
    cases hl : p.isLink with
    | true =>
      rw [scanEntries_link hl] at h
      obtain ⟨next, u, hfollow, hcall⟩ := bind_ok_iff.mp h
      obtain ⟨_, v, hrun, hrest⟩ := bind_ok_iff.mp hcall
      exact ((followLink_kept hfollow).trans (hscan next u v hrun)).trans (ih hrest)
    | false =>
      cases hp : p.isPart with
      | false =>
        rw [scanEntries_empty hl hp] at h
        exact ih h
      | true =>
        rcases scanEntries_part hd lba rest s hl hp with
          ⟨e, -, hstop⟩ | ⟨u, hbase, hroom, ⟨-, hend⟩ | hrest⟩
        · cases (hstop scan).symm.trans h
        · cases (hend scan).symm.trans h
          exact ⟨fun _ => hbase, Nat.le_of_lt hroom⟩
        · rw [hrest scan] at h
          exact Kept.trans ⟨fun _ => hbase, Nat.le_of_lt hroom⟩ (ih h)

theorem partitionScan_kept (h : partitionScan disk hd fuel lba s = .ok ((), t)) : Kept s t := by
  induction fuel generalizing lba s t with
  | zero => cases h
  | succ fuel ih =>
    rw [partitionScan, ensure_bind_ok_iff] at h
    exact scanEntries_kept (fun _ _ _ => ih) h.2

theorem extends_of_le {m : ℕ} (h : m ≤ n) :
    Extends (partitionScan disk hd m) (partitionScan disk hd n) :=
  fun _ _ hend => partitionScan_more hend h

theorem stops_of_entries (h : EntriesStop disk hd lba (partitionTable disk lba) s) :
    Stops disk hd lba s := by
  obtain ⟨fuel, hend⟩ := h
  refine ⟨fuel + 1, ?_⟩
  rw [partitionScan]
  by_cases hmax : lba ≤ maxLba
  · rwa [ensure_bind_of_true hmax]
  · rw [ensure_bind_of_false hmax]
    intro hfuel
    cases hfuel

theorem entriesStop_skip (hl : p.isLink = false) (hp : p.isPart = false)
    (h : EntriesStop disk hd lba es s) : EntriesStop disk hd lba (p :: es) s := by
  obtain ⟨fuel, hend⟩ := h
  refine ⟨fuel, ?_⟩
  rwa [scanEntries_empty hl hp]

theorem entriesStop_part (hl : p.isLink = false) (hp : p.isPart = true)
    (hrest : ∀ t : ScanState, t.extraLbaBase = s.extraLbaBase → remaining t < remaining s →
      EntriesStop disk hd lba es t) : EntriesStop disk hd lba (p :: es) s := by
  rcases scanEntries_part hd lba es s hl hp with
    ⟨e, hfuel, hstop⟩ | ⟨t, hbase, hroom, ⟨-, hend⟩ | hgo⟩
  · exact ⟨0, error_ne_fuel (hstop _) hfuel⟩
  · exact ⟨0, ok_ne_fuel (hend _)⟩
  · obtain ⟨fuel, hstop⟩ := hrest t hbase hroom
    refine ⟨fuel, ?_⟩
    rwa [hgo]

theorem entriesStop_link (hl : p.isLink = true) (hfollow : followLink p s = .ok (lba', u))
    (hscan : Stops disk hd lba' u) (hrest : ∀ t, Kept u t → EntriesStop disk hd lba es t) :
    EntriesStop disk hd lba (p :: es) s := by
  obtain ⟨depth, hend⟩ := hscan
  cases hrun : partitionScan disk hd depth lba' u with
  | error e =>
    refine ⟨depth, ?_⟩
    rw [scanEntries_link hl, bind_of_ok hfollow, bind_of_error hrun]
    rwa [hrun] at hend
  | ok r =>
    obtain ⟨⟨⟩, t⟩ := r
    obtain ⟨fuel, hstop⟩ := hrest t (partitionScan_kept hrun)
    -- enough for the call and for the entries behind it
    refine ⟨max depth fuel, ?_⟩
    have hmore := (partitionScan_more hend (Nat.le_max_left depth fuel)).trans hrun
    rw [scanEntries_link hl, bind_of_ok hfollow, bind_of_ok hmore,
      scanEntries_extends (extends_of_le (Nat.le_max_right depth fuel)) t hstop]
    exact hstop

/-! ## With a base -/

/-- The calls for the links end; for those behind a partition with less room. -/
theorem entries_stop (hne : base ≠ 0) (hstop : ∀ p ∈ linksOf es, ∀ t : ScanState,
      t.extraLbaBase = base → remaining t < n ∨ p ∈ linksOf (beforePart es) ∧ remaining t ≤ n →
      Stops disk hd (u32 (p.startLba + base)) t)
    (hbase : s.extraLbaBase = base) (hroom : remaining s ≤ n) : EntriesStop disk hd lba es s := by
  induction es generalizing n s with
  | nil => exact ⟨0, ok_ne_fuel rfl⟩
  | cons p rest ih =>
    cases hl : p.isLink with
    | true =>
      rw [beforePart_cons (isPart_of_isLink hl), linksOf_link hl, linksOf_link hl] at hstop
      apply entriesStop_link hl (followLink_later (by rwa [hbase]))
      case hscan =>
        rw [hbase]
        exact hstop p List.mem_cons_self s hbase (Or.inr ⟨List.mem_cons_self, hroom⟩)
      case hrest =>
        intro t hkept
        refine ih (fun q hq v hv hor => ?_) ((hkept.base (by rwa [hbase])).trans hbase)
          (hkept.room.trans hroom)
        refine hstop q (List.mem_cons_of_mem p hq) v hv (hor.imp_right fun hfree => ?_)
        exact ⟨List.mem_cons_of_mem p hfree.1, hfree.2⟩
    | false =>
      rw [linksOf_skip hl] at hstop
      cases hp : p.isPart with
      | false =>
        rw [beforePart_cons hp, linksOf_skip hl] at hstop
        exact entriesStop_skip hl hp (ih hstop hbase hroom)
      | true =>
        refine entriesStop_part hl hp fun t ht hless => ?_
        apply ih (n := n - 1) (fun q hq v hv hor => ?_) (ht.trans hbase) (by omega)
        refine hstop q hq v hv (Or.inl ?_)
        rcases hor with hfew | ⟨-, hfew⟩ <;> omega

/-- The outer induction is on the room that is left, the inner one on the free links. -/
theorem stops_of_noFreeCycle (hne : base ≠ 0) (h : NoFreeCycle disk base lba)
    (hbase : s.extraLbaBase = base) : Stops disk hd lba s := by
  induction hn : remaining s using Nat.strong_induction_on generalizing lba s with
  | _ n room_ih =>
    have hacc := h.acc
    have hroom : remaining s ≤ n := Nat.le_of_eq hn
    clear hn
    induction hacc generalizing s with
    | intro lba _ link_ih =>
      apply stops_of_entries
      refine entries_stop (n := n) hne (fun p hp t ht hor => ?_) hbase hroom
      have hnext : NoFreeCycle disk base (u32 (p.startLba + base)) := h.link ⟨p, hp, rfl⟩
      by_cases hless : remaining t < n
      · exact room_ih (remaining t) hless hnext ht rfl
      · obtain ⟨hfree, hle⟩ := hor.resolve_left hless
        exact link_ih (u32 (p.startLba + base)) ⟨p, hfree, rfl⟩ hnext ht hle

/-! ## From the master boot record -/

theorem entries_home (hfirst : (linksOf es).head? = some p) (hzero : p.startLba = 0)
    (hloop : ∀ t : ScanState, t.extraLbaBase = 0 → remaining t < n →
      ∃ fuel e, e ≠ .fuel ∧ partitionScan disk hd fuel 0 t = .error e)
    (hbase : s.extraLbaBase = 0)
    (hroom : remaining s < n ∨ p ∉ beforePart es ∧ remaining s ≤ n) :
    ∃ fuel e, e ≠ .fuel ∧ scanEntries (partitionScan disk hd fuel) hd 0 es s = .error e := by
  induction es generalizing s with
  | nil => cases hfirst
  | cons q rest ih =>
    cases hl : q.isLink with
    | true =>
      rw [linksOf_link hl, List.head?_cons, Option.some_inj] at hfirst
      rw [hfirst] at hl hroom ⊢
      rw [beforePart_cons (isPart_of_isLink hl)] at hroom
      have hless : remaining s < n := hroom.resolve_right fun hnot => hnot.1 List.mem_cons_self
      obtain ⟨fuel, e, hfuel, hrun⟩ := hloop { s with extraLbaBase := p.startLba } hzero hless
      refine ⟨fuel, e, hfuel, ?_⟩
      rw [scanEntries_link hl, bind_of_ok (followLink_first hbase)]
      apply bind_of_error
      rwa [hzero] at hrun ⊢
    | false =>
      rw [linksOf_skip hl] at hfirst
      cases hp : q.isPart with
      | false =>
        rw [beforePart_cons hp] at hroom
        obtain ⟨fuel, e, hfuel, hrun⟩ := ih hfirst hbase
          (hroom.imp_right fun hnot => ⟨fun hmem => hnot.1 (List.mem_cons_of_mem q hmem), hnot.2⟩)
        refine ⟨fuel, e, hfuel, ?_⟩
        rwa [scanEntries_empty hl hp]
      | true =>
        rcases scanEntries_part hd 0 rest s hl hp with
          ⟨e, hfuel, hstop⟩ | ⟨t, ht, hless, ⟨hne, -⟩ | hgo⟩
        · exact ⟨0, e, hfuel, hstop _⟩
        · exact absurd rfl hne
        · have hfew : remaining s ≤ n := hroom.elim Nat.le_of_lt And.right
          obtain ⟨fuel, e, hfuel, hrun⟩ := ih hfirst (ht.trans hbase) (Or.inl (by omega))
          refine ⟨fuel, e, hfuel, ?_⟩
          rwa [hgo]

theorem home_stops (hd : ℕ) (hfirst : (linksOf (partitionTable disk 0)).head? = some p)
    (hzero : p.startLba = 0) (hpart : p ∉ beforePart (partitionTable disk 0))
    (hbase : s.extraLbaBase = 0) :
    ∃ fuel e, e ≠ .fuel ∧ partitionScan disk hd fuel 0 s = .error e := by
  induction hn : remaining s using Nat.strong_induction_on generalizing s with
  | _ n ih =>
    obtain ⟨fuel, e, hfuel, hrun⟩ := entries_home hfirst hzero
      (fun t ht hless => ih (remaining t) hless ht rfl) hbase (Or.inr ⟨hpart, Nat.le_of_eq hn⟩)
    refine ⟨fuel + 1, e, hfuel, ?_⟩
    rwa [partitionScan, ensure_bind_of_true (Nat.zero_le _)]

theorem entries_first (hlinks : linksOf es = p :: links) (hne : p.startLba ≠ 0)
    (hfirst : ∀ t : ScanState, t.extraLbaBase = p.startLba → Stops disk hd p.startLba t)
    (hrest : ∀ q ∈ links, ∀ t : ScanState, t.extraLbaBase = p.startLba →
      Stops disk hd (u32 (q.startLba + p.startLba)) t)
    (hbase : s.extraLbaBase = 0) : EntriesStop disk hd lba es s := by
  induction es generalizing s with
  | nil => cases hlinks
  | cons first rest ih =>
    cases hl : first.isLink with
    | true =>
      rw [linksOf_link hl] at hlinks
      obtain ⟨rfl, htail⟩ := List.cons.inj hlinks
      apply entriesStop_link hl (followLink_first hbase) (hfirst _ rfl)
      intro t hkept
      rw [← htail] at hrest
      refine entries_stop hne (fun q hq v hv _ => hrest q hq v hv) ?_ (Nat.le_refl _)
      exact hkept.base hne
    | false =>
      rw [linksOf_skip hl] at hlinks
      cases hp : first.isPart with
      | false => exact entriesStop_skip hl hp (ih hlinks hbase)
      | true => exact entriesStop_part hl hp fun t ht _ => ih hlinks (ht.trans hbase)

theorem entries_no_link (hnone : linksOf es = []) : EntriesStop disk hd lba es s := by
  induction es generalizing s with
  | nil => exact ⟨0, ok_ne_fuel rfl⟩
  | cons first rest ih =>
    obtain ⟨hl, hrest⟩ := no_link_cons hnone
    cases hp : first.isPart with
    | false => exact entriesStop_skip hl hp (ih hrest)
    | true => exact entriesStop_part hl hp fun t _ _ => ih hrest

/-- A scan comes to an end if every cycle it can reach leads past a partition. -/
theorem partitionScan_stops (h : Uncycled disk s.extraLbaBase) : Stops disk hd 0 s := by
  by_cases hbase : s.extraLbaBase = 0
  · cases hlinks : linksOf (partitionTable disk 0) with
    | nil => exact stops_of_entries (entries_no_link hlinks)
    | cons p links =>
      by_cases hzero : p.startLba = 0
      · have hhead : (linksOf (partitionTable disk 0)).head? = some p := by
          rw [hlinks, List.head?_cons]
        obtain ⟨fuel, e, hfuel, hrun⟩ :=
          home_stops hd hhead hzero (h.home hbase p hhead hzero) hbase
        exact ⟨fuel, error_ne_fuel hrun hfuel⟩
      · obtain ⟨hfirst, hrest⟩ := h.first hbase p links hlinks hzero
        apply stops_of_entries
        apply entries_first hlinks hzero
        case hfirst => exact fun t ht => stops_of_noFreeCycle hzero hfirst ht
        case hrest => exact fun q hq t ht => stops_of_noFreeCycle hzero (hrest q hq) ht
        case hbase => exact hbase
  · exact stops_of_noFreeCycle hbase (h.later hbase) rfl

/-- The record in sector 8 has a link back to itself, behind a partition. -/
def partitionCycle : Bytes := tableDisk [(0, 0, ⟨0x5, 8, 20⟩), (8, 0, ⟨0x83, 1, 3⟩),
  (8, 1, ⟨0x5, 0, 10⟩)]

theorem partitionScan_stops_cycle :
    Uncycled partitionCycle 0 ∧ Stops partitionCycle 0 0 freshScan := by
  have hlinks : linksOf (partitionTable partitionCycle 0) = [⟨0x5, 8, 20⟩] := by decide +kernel
  have hself : linksOf (partitionTable partitionCycle 8) = [⟨0x5, 0, 10⟩] := by decide +kernel
  have hfree : linksOf (beforePart (partitionTable partitionCycle 8)) = [] := by decide +kernel
  have hacyclic : NoFreeCycle partitionCycle 8 8 := by
    intro x hx
    have hstay : x = 8 := by
      induction hx with
      | refl => rfl
      | tail _ hlink ih =>
        obtain ⟨p, hp, hlba⟩ := hlink
        rw [ih, hself, List.mem_singleton] at hp
        rw [hlba, hp]
        rfl
    intro hcycle
    obtain ⟨_, ⟨p, hp, -⟩, -⟩ := TransGen.head'_iff.mp hcycle
    rw [hstay, hfree] at hp
    cases hp
  have huncycled : Uncycled partitionCycle 0 := by
    constructor
    case later => exact fun hne => absurd rfl hne
    case home =>
      intro _ p hhead hzero
      rw [hlinks] at hhead
      cases hhead
      cases hzero
    case first =>
      intro _ p rest hcons _
      rw [hlinks] at hcons
      obtain ⟨rfl, rfl⟩ := List.cons.inj hcons
      exact ⟨hacyclic, fun q hq => absurd hq List.not_mem_nil⟩
  exact ⟨huncycled, partitionScan_stops (s := freshScan) huncycled⟩

/-- The record in sector 1 has nothing but a link back to itself. -/
def emptyCycle : Bytes := tableDisk [(0, 0, ⟨0x5, 1, 20⟩), (1, 0, ⟨0x5, 0, 20⟩)]

theorem emptyCycle_fuel (hbase : s.extraLbaBase = 1) :
    partitionScan emptyCycle 0 fuel 1 s = .error .fuel := by
  have htable : partitionTable emptyCycle 1 =
    ⟨0x5, 0, 20⟩ :: (partitionTable emptyCycle 1).tail := by decide +kernel
  induction fuel with
  | zero => rfl
  | succ fuel ih =>
    rw [partitionScan, ensure_bind_of_true (by decide), htable, scanEntries_link rfl]
    apply (bind_of_ok (followLink_later (by rw [hbase]; decide))).trans
    rw [hbase]
    exact bind_of_error ih

theorem partitionScan_never_stops : ¬ Stops emptyCycle 0 0 freshScan := by
  rintro ⟨fuel, hend⟩
  have htable : partitionTable emptyCycle 0 =
    ⟨0x5, 1, 20⟩ :: (partitionTable emptyCycle 0).tail := by decide +kernel
  apply hend
  cases fuel with
  | zero => rfl
  | succ fuel =>
    rw [partitionScan, ensure_bind_of_true (by decide), htable, scanEntries_link rfl]
    apply (bind_of_ok (followLink_first rfl)).trans
    exact bind_of_error (emptyCycle_fuel rfl)

end DevicePartitionLinks
