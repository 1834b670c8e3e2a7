import Leeos.FsStartup

/-!
# A restart of the machine

`ide_init` reads the partition records from the disks, and the start of the file system writes to
the partitions it has found. Where no partition lies over a record the next boot finds the same
partitions, all of them with a file system, and leaves the disks as they are.
-/
namespace FsRestarts

open ExecRules KernelBitmap FsDisk FsLayout FsStartup
open DevicePartitions DevicePartitionScan DevicePartitionWalks DevicePartitionDisks

/-! ## The records that a scan reads -/

/-- The walk over the entries of a record comes to the record in sector `r`. -/
inductive Visits (disk : Bytes) (hd : ℕ) (full : ℕ → Prop) :
    ℕ → List PartitionTableEntry → Listing → ℕ → Prop
  | here {lba : ℕ} {p : PartitionTableEntry} {es : List PartitionTableEntry} {l : Listing} :
      p.isLink = true → Visits disk hd full lba (p :: es) l (l.target p)
  | inside {lba : ℕ} {p : PartitionTableEntry} {es : List PartitionTableEntry} {l : Listing}
      {r : ℕ} : p.isLink = true →
      Visits disk hd full (l.target p) (partitionTable disk (l.target p)) (l.follow p) r →
      Visits disk hd full lba (p :: es) l r
  | behind {lba : ℕ} {p : PartitionTableEntry} {es : List PartitionTableEntry} {l m : Listing}
      {r : ℕ} : p.isLink = true →
      Walk disk hd full (l.target p) (partitionTable disk (l.target p)) (l.follow p) m →
      Visits disk hd full lba es m r → Visits disk hd full lba (p :: es) l r
  | empty {lba : ℕ} {p : PartitionTableEntry} {es : List PartitionTableEntry} {l : Listing}
      {r : ℕ} : p.isLink = false → p.isPart = false → Visits disk hd full lba es l r →
      Visits disk hd full lba (p :: es) l r
  | prim {lba : ℕ} {p : PartitionTableEntry} {es : List PartitionTableEntry} {l : Listing}
      {r : ℕ} : p.isLink = false → p.isPart = true → lba = 0 →
      Visits disk hd full lba es (l.addPrim (partitionOf hd lba p)) r →
      Visits disk hd full lba (p :: es) l r
  | logic {lba : ℕ} {p : PartitionTableEntry} {es : List PartitionTableEntry} {l : Listing}
      {r : ℕ} : p.isLink = false → p.isPart = true → lba ≠ 0 → ¬ full (l.logics.length + 1) →
      Visits disk hd full lba es (l.addLogic (partitionOf hd lba p)) r →
      Visits disk hd full lba (p :: es) l r

variable {disk disk' : Bytes} {hd lba fuel channelCnt no r : ℕ} {full : ℕ → Prop}
  {p : PartitionTableEntry} {es : List PartitionTableEntry} {l l' : Listing}
  {f g : ℕ → Partition} {s t u : ScanState} {scan scan' : ℕ → ScanM Unit}
  {disks disks' : ℕ → Bytes} {ide ide' : IdeState} {garbage garbage' : Slot → Garbage}

/-- The entries are scanned alike if the records they lead to are. -/
theorem scanEntries_reads (hwalk : ∀ lba s t l, scan lba s = .ok ((), t) → Holds f g s l →
      lba ≤ maxLba ∧ ∃ l', Walk disk hd eight lba (partitionTable disk lba) l l' ∧ Holds f g t l')
    (hscan : ∀ lba s t l, scan lba s = .ok ((), t) → Holds f g s l →
      (∀ r, r = lba ∨ Visits disk hd eight lba (partitionTable disk lba) l r →
        partitionTable disk' r = partitionTable disk r) → scan' lba s = .ok ((), t))
    (h : scanEntries scan hd lba es s = .ok ((), t)) (hs : Holds f g s l)
    (hsame : ∀ r, Visits disk hd eight lba es l r →
      partitionTable disk' r = partitionTable disk r) :
    scanEntries scan' hd lba es s = .ok ((), t) := by
  induction es generalizing s l with
  | nil => exact h
  | cons p rest ih =>
    cases hl : p.isLink with
    | true =>
      obtain ⟨u, hfollow, hu⟩ := holds_follow (p := p) hs
      rw [scanEntries_link hl, bind_of_ok hfollow] at h ⊢
      obtain ⟨_, v, hcall, hrest⟩ := bind_ok_iff.mp h
      obtain ⟨-, m, hm, hv⟩ := hwalk _ u v _ hcall hu
      have hcall' : scan' (l.target p) u = .ok ((), v) := by
        apply hscan _ u v _ hcall hu
        rintro r (rfl | hr)
        · exact hsame _ (.here hl)
        · exact hsame r (.inside hl hr)
      rw [bind_of_ok hcall']
      exact ih hrest hv fun r hr => hsame r (.behind hl hm hr)
    | false =>
      cases hp : p.isPart with
      | false =>
        rw [scanEntries_empty hl hp] at h ⊢
        exact ih h hs fun r hr => hsame r (.empty hl hp hr)
      | true =>
        by_cases hz : lba = 0
        · subst hz
          rw [scanEntries_prim hl hp rfl] at h ⊢
          obtain ⟨_, u, hrec, hrest⟩ := bind_ok_iff.mp h
          have hidx := recordPrim_ok_iff.mp ⟨u, hrec⟩
          obtain ⟨v, hrec', hv⟩ := holds_prim hd p hs (by rwa [← hs.primCount])
          cases hrec.symm.trans hrec'
          rw [bind_of_ok hrec]
          exact ih hrest hv fun r hr => hsame r (.prim hl hp rfl hr)
        · by_cases hroom : l.logics.length < 8
          · obtain ⟨v, hv, hrun⟩ := scanEntries_room hl hp hz hs hroom
            rw [hrun] at h ⊢
            by_cases hfull : 8 ≤ l.logics.length + 1
            · rwa [if_pos hfull] at h ⊢
            · rw [if_neg hfull] at h ⊢
              exact ih h hv fun r hr => hsame r (.logic hl hp hz hfull hr)
          · have hover : 8 ≤ s.logicIdx := by
              rw [hs.logicCount]
              omega
            rw [scanEntries_logic hl hp hz, bind_of_error (recordLogic_full hover)] at h
            cases h

theorem partitionScan_reads (h : partitionScan disk hd fuel lba s = .ok ((), t))
    (hs : Holds f g s l)
    (hsame : ∀ r, r = lba ∨ Visits disk hd eight lba (partitionTable disk lba) l r →
      partitionTable disk' r = partitionTable disk r) :
    partitionScan disk' hd fuel lba s = .ok ((), t) := by
  induction fuel generalizing lba s t l with
  | zero => cases h
  | succ fuel ih =>
    rw [partitionScan, ensure_bind_ok_iff] at h ⊢
    refine ⟨h.1, ?_⟩
    rw [hsame lba (Or.inl rfl)]
    exact scanEntries_reads (fun _ _ _ _ => partitionScan_walk) (fun _ _ _ _ => ih) h.2 hs
      fun r hr => hsame r (Or.inr hr)

/-! ## The channels -/

def channels (n : ℕ) (disks : ℕ → Bytes) : List Channel :=
  (List.range n).map fun no => ⟨no, fun dev => disks (2 * no + dev)⟩

/-- `ide_init` reads sector `r` of the second disk of the channel `no`. -/
def Reads (fuel : ℕ) (disks : ℕ → Bytes) (no r : ℕ) : Prop :=
  ∃ s, ideInit fuel (channels no disks) started = .ok ((), s) ∧ (r = 0 ∨
    Visits (disks (2 * no + 1)) (2 * no + 1) eight 0 (partitionTable (disks (2 * no + 1)) 0)
      ⟨s.extraLbaBase, [], []⟩ r)

/-- What is recorded of a disk names the disk. -/
def Own (ide : IdeState) : Prop :=
  ∀ x : Slot, Used (deref ide x) → (deref ide x).myDisk = x.hd

theorem ideInit_append_iff {cs cs' : List Channel} {s : IdeState} :
    ideInit fuel (cs ++ cs') s = .ok ((), ide) ↔
      ∃ s', ideInit fuel cs s = .ok ((), s') ∧ ideInit fuel cs' s' = .ok ((), ide) := by
  induction cs generalizing s with
  | nil =>
    constructor
    · exact fun h => ⟨s, rfl, h⟩
    · rintro ⟨s', h, h'⟩
      cases h
      exact h'
  | cons c rest ih =>
    rw [List.cons_append, ideInit_cons_iff]
    simp only [ih, ideInit_cons_iff]
    constructor
    · rintro ⟨v, hscan, s', hrest, hend⟩
      exact ⟨s', ⟨v, hscan, hrest⟩, hend⟩
    · rintro ⟨s', ⟨v, hscan, hrest⟩, hend⟩
      exact ⟨v, hscan, s', hrest, hend⟩

theorem ideInit_succ_iff {n : ℕ} :
    ideInit fuel (channels (n + 1) disks) started = .ok ((), ide) ↔
      ∃ s v, ideInit fuel (channels n disks) started = .ok ((), s) ∧
        partitionScan (disks (2 * n + 1)) (2 * n + 1) fuel 0
          (entry ⟨n, fun dev => disks (2 * n + dev)⟩ s) = .ok ((), v) ∧
        ide = settled ⟨n, fun dev => disks (2 * n + dev)⟩ s v := by
  have hlast : channels (n + 1) disks =
      channels n disks ++ [⟨n, fun dev => disks (2 * n + dev)⟩] := by
    simp [channels, List.range_succ]
  rw [hlast, ideInit_append_iff]
  simp only [ideInit_cons_iff]
  constructor
  · rintro ⟨s, hfirst, v, hscan, hend⟩
    cases hend
    exact ⟨s, v, hfirst, hscan, rfl⟩
  · rintro ⟨s, v, hfirst, hscan, rfl⟩
    exact ⟨s, hfirst, v, hscan, rfl⟩

theorem holds_channel (c : Channel) (s : IdeState) :
    Holds (s.primParts (c.disk 1)) (s.logicParts (c.disk 1)) (entry c s)
      ⟨s.extraLbaBase, [], []⟩ := holds_nil (s := entry c s) rfl rfl

theorem ideInit_reads {n : ℕ} (h : ideInit fuel (channels n disks) started = .ok ((), ide))
    (hsame : ∀ no < n, ∀ r, Reads fuel disks no r →
      partitionTable (disks' (2 * no + 1)) r = partitionTable (disks (2 * no + 1)) r) :
    ideInit fuel (channels n disks') started = .ok ((), ide) := by
  induction n generalizing ide with
  | zero => exact h
  | succ n ih =>
    obtain ⟨s, v, hfirst, hscan, rfl⟩ := ideInit_succ_iff.mp h
    have hfirst' := ih hfirst fun no hno => hsame no (by omega)
    refine ideInit_succ_iff.mpr ⟨s, v, hfirst', ?_, rfl⟩
    apply partitionScan_reads hscan (holds_channel ⟨n, fun dev => disks (2 * n + dev)⟩ s)
    intro r hr
    exact hsame n (by omega) r ⟨s, hfirst, hr⟩

theorem place_own {old : ℕ → Partition} {qs : List Partition} {i : ℕ}
    (hqs : ∀ q ∈ qs, q.myDisk = hd) (hold : Used (old i) → (old i).myDisk = hd)
    (hused : Used (place old 0 qs i)) : (place old 0 qs i).myDisk = hd := by
  rw [place_apply] at hused ⊢
  cases hq : qs[i]? with
  | none =>
    rw [hq] at hused
    exact hold hused
  | some q => exact hqs q (List.mem_of_getElem? hq)

theorem ideInit_own {n : ℕ} (h : ideInit fuel (channels n disks) started = .ok ((), ide)) :
    Own ide := by
  induction n generalizing ide with
  | zero =>
    cases h
    rintro ⟨hd, tag⟩ hused
    cases tag <;> exact absurd rfl hused
  | succ n ih =>
    obtain ⟨s, v, hfirst, hscan, rfl⟩ := ideInit_succ_iff.mp h
    have hown := ih hfirst
    let c : Channel := ⟨n, fun dev => disks (2 * n + dev)⟩
    obtain ⟨-, l, hwalk, hv⟩ := partitionScan_walk hscan (holds_channel c s)
    obtain ⟨hprims, hlogics⟩ := listed_myDisk hwalk
    have hprim : v.primParts = place (s.primParts (c.disk 1)) 0 l.prims := hv.prim
    have hlogic : v.logicParts = place (s.logicParts (c.disk 1)) 0 l.logics := hv.logic
    rintro ⟨hd, tag⟩ hused
    by_cases hhd : hd = c.disk 1
    · subst hhd
      cases tag with
      | prim i =>
        have hat : deref (settled c s v) ⟨c.disk 1, .prim i⟩ =
            place (s.primParts (c.disk 1)) 0 l.prims i := by
          simp only [deref, settled, IdeState.put, Function.update_self, hprim]
        rw [hat] at hused ⊢
        exact place_own hprims (hown ⟨c.disk 1, .prim i⟩) hused
      | logic i =>
        have hat : deref (settled c s v) ⟨c.disk 1, .logic i⟩ =
            place (s.logicParts (c.disk 1)) 0 l.logics i := by
          simp only [deref, settled, IdeState.put, Function.update_self, hlogic]
        rw [hat] at hused ⊢
        exact place_own hlogics (hown ⟨c.disk 1, .logic i⟩) hused
    · have hat : deref (settled c s v) ⟨hd, tag⟩ = deref s ⟨hd, tag⟩ := by
        cases tag <;> simp only [deref, settled, IdeState.put, Function.update_of_ne hhd]
      rw [hat] at hused ⊢
      exact hown ⟨hd, tag⟩ hused

/-! ## Two boots -/

/-- `ide_init` and then `filesys_init`; `none` is a failed assertion of either. -/
def boot (fuel : ℕ) (garbage : Slot → Garbage) (channelCnt : ℕ) (disks : ℕ → Bytes) :
    Option (IdeState × Startup) :=
  match ideInit fuel (channels channelCnt disks) started with
  | .error _ => none
  | .ok ((), ide) =>
    (filesysInit ide garbage channelCnt ⟨disks, []⟩).map fun st => (ide, st)

/-- The partitions that have been found are large enough, on their disk and apart from each other
and from all records. None starts at 1215, where a super block would share its sector with the root
directories. -/
structure Sound (fuel channelCnt : ℕ) (disks : ℕ → Bytes) (ide : IdeState) : Prop where
  fits : ∀ x ∈ slots channelCnt, Used (deref ide x) → Fits (deref ide x)
  apart : ∀ x ∈ slots channelCnt, ∀ y ∈ slots channelCnt, x ≠ y → x.hd = y.hd →
    Used (deref ide x) → Used (deref ide y) →
    ∀ a, Inside (deref ide x) a → ¬ Inside (deref ide y) a
  base : ∀ x ∈ slots channelCnt, Used (deref ide x) → (deref ide x).startLba ≠ 1215
  records : ∀ no < channelCnt, ∀ r, Reads fuel disks no r → r ≠ 1216 ∧
    ∀ x ∈ slots channelCnt, x.hd = 2 * no + 1 → Used (deref ide x) →
      ∀ a, Inside (deref ide x) a → ¬ InSector r a

theorem layout_of_sound (h : Sound fuel channelCnt disks ide) (hown : Own ide) :
    Layout ide (slots channelCnt) := ⟨fun x _ => hown x, h.fits, h.apart⟩

theorem partitionTable_congr (h : ∀ a, InSector lba a → disk' a = disk a) :
    partitionTable disk' lba = partitionTable disk lba := by
  apply List.map_congr_left
  intro i hi
  rw [List.mem_range] at hi
  simp only [tableEntry, PartitionTableEntry.mk.injEq]
  refine ⟨h _ ?_, loadWord_congr fun j hj => h _ ?_, loadWord_congr fun j hj => h _ ?_⟩
  all_goals
    rw [InSector]
    omega

theorem inSector_unique {a : ℕ} (h : InSector lba a) (h' : InSector r a) : lba = r := by
  rw [InSector] at h h'
  omega

theorem start_records {st : Startup} (h : Sound fuel channelCnt disks ide) (hown : Own ide)
    (hrun : filesysInit ide garbage channelCnt ⟨disks, []⟩ = some st) (hno : no < channelCnt)
    (hr : Reads fuel disks no r) :
    partitionTable (st.disks (2 * no + 1)) r = partitionTable (disks (2 * no + 1)) r := by
  obtain ⟨hroot, hparts⟩ := h.records no hno r hr
  obtain ⟨st', hrun', hchanges⟩ := start_changes garbage ⟨disks, []⟩ (layout_of_sound h hown)
  cases hrun.symm.trans hrun'
  apply partitionTable_congr
  intro a ha
  by_contra hne
  rcases (hchanges (2 * no + 1) a hne).2 with hsector | ⟨x, hx, hxd, hused, -, hinside⟩
  · exact hroot (inSector_unique ha hsector)
  · exact hparts x hx hxd hused a hinside ha

/-- The boot behind a boot finds the same partitions, all with a file system, and changes nothing on
the disks. -/
theorem boot_again (hinit : ideInit fuel (channels channelCnt disks) started = .ok ((), ide))
    (h : Sound fuel channelCnt disks ide) (garbage garbage' : Slot → Garbage) :
    ∃ st, boot fuel garbage channelCnt disks = some (ide, st) ∧
      (∀ x ∈ slots channelCnt, Used (deref ide x) → Ready ide st x) ∧
      ∃ texts, boot fuel garbage' channelCnt st.disks = some (ide, ⟨st.disks, texts⟩) ∧
        ∀ text ∈ texts, ∃ x ∈ slots channelCnt, text = hasText x := by
  have hown := ideInit_own hinit
  have hl := layout_of_sound h hown
  obtain ⟨st, hrun, hiff⟩ := start_ready garbage ⟨disks, []⟩ hl
  have hready : ∀ x ∈ slots channelCnt, Used (deref ide x) → Ready ide st x :=
    fun x hx hused => (hiff x hx hused).mpr (Or.inl (h.base x hx hused))
  refine ⟨st, ?_, hready, ?_⟩
  · simp only [boot, hinit, hrun, Option.map_some]
  · have hinit' : ideInit fuel (channels channelCnt st.disks) started = .ok ((), ide) :=
      ideInit_reads hinit fun no hno r hr => start_records h hown hrun hno hr
    obtain ⟨texts, hagain, htexts⟩ := start_settled garbage' ⟨st.disks, []⟩ hl hready
    refine ⟨texts, ?_, htexts⟩
    simp only [boot, hinit', hagain, Option.map_some, List.nil_append]

/-- A disk with one partition, of 700 sectors from sector 1 on. -/
def oneLarge : Bytes := fun a =>
  if a = 450 then 0x83 else if a = 454 then 1 else if a = 458 then 0xbc else if a = 459 then 2 else 0

theorem visits_link (h : Visits disk hd full lba es l r) : ∃ p ∈ es, p.isLink = true := by
  induction h with
  | here hl | inside hl | behind hl => exact ⟨_, List.mem_cons_self, hl⟩
  | empty _ _ _ ih | prim _ _ _ _ ih | logic _ _ _ _ _ ih =>
    obtain ⟨q, hq, hlink⟩ := ih
    exact ⟨q, List.mem_cons_of_mem _ hq, hlink⟩

theorem oneLarge_found : ∃ ide, ideInit 1 (channels 1 fun _ => oneLarge) started = .ok ((), ide) ∧
    (slots 1).map (deref ide) = ⟨1, 700, 1⟩ :: List.replicate 11 ⟨0, 0, 0⟩ := by
  obtain ⟨⟨⟩, ide, hrun, htest⟩ := yields_iff.mp (show yields
    (ideInit 1 (channels 1 fun _ => oneLarge)) started (fun _ ide =>
      (slots 1).map (deref ide) == ⟨1, 700, 1⟩ :: List.replicate 11 ⟨0, 0, 0⟩) = true by
    decide +kernel)
  exact ⟨ide, hrun, eq_of_beq htest⟩

theorem oneLarge_used (hfound : (slots 1).map (deref ide) =
      ⟨1, 700, 1⟩ :: List.replicate 11 ⟨0, 0, 0⟩) {x : Slot} (hx : x ∈ slots 1)
    (hused : Used (deref ide x)) : x = ⟨1, .prim 0⟩ ∧ deref ide x = ⟨1, 700, 1⟩ := by
  have hslots : slots 1 = ⟨1, .prim 0⟩ :: (slots 1).tail := rfl
  rw [hslots, List.map_cons, List.cons.injEq] at hfound
  rw [hslots] at hx
  rcases List.mem_cons.mp hx with rfl | hx
  · exact ⟨rfl, hfound.1⟩
  · have hzero : deref ide x ∈ List.replicate 11 (⟨0, 0, 0⟩ : Partition) := by
      rw [← hfound.2]
      exact List.mem_map_of_mem hx
    rw [List.eq_of_mem_replicate hzero] at hused
    exact absurd rfl hused

theorem oneLarge_sound (hfound : (slots 1).map (deref ide) =
    ⟨1, 700, 1⟩ :: List.replicate 11 ⟨0, 0, 0⟩) : Sound 1 1 (fun _ => oneLarge) ide := by
  have htable : ∀ p ∈ partitionTable oneLarge 0, p.isLink = false := by decide +kernel
  constructor
  case fits =>
    intro x hx hused
    rw [(oneLarge_used hfound hx hused).2]
    exact ⟨by decide, by decide⟩
  case apart =>
    intro x hx y hy hne _ hxused hyused
    have hxy := (oneLarge_used hfound hx hxused).1.trans (oneLarge_used hfound hy hyused).1.symm
    exact absurd hxy hne
  case base =>
    intro x hx hused
    rw [(oneLarge_used hfound hx hused).2]
    decide
  case records =>
    rintro no hno r ⟨s, -, rfl | hvisits⟩
    · refine ⟨by decide, fun x hx _ hused a hinside => ?_⟩
      rw [(oneLarge_used hfound hx hused).2, Inside] at hinside
      rw [InSector]
      dsimp only at hinside
      omega
    · obtain ⟨p, hp, hlink⟩ := visits_link hvisits
      cases (htable p hp).symm.trans hlink

theorem boot_again_sample : ∃ ide garbage st,
    boot 1 garbage 1 (fun _ => oneLarge) = some (ide, st) ∧ ∃ texts,
      boot 1 garbage 1 st.disks = some (ide, ⟨st.disks, texts⟩) := by
  obtain ⟨ide, hinit, hfound⟩ := oneLarge_found
  let garbage : Slot → Garbage := fun _ => ⟨fun _ => 0, fun _ => 0⟩
  obtain ⟨st, hfirst, -, texts, hagain, -⟩ :=
    boot_again hinit (oneLarge_sound hfound) garbage garbage
  exact ⟨ide, garbage, st, hfirst, texts, hagain⟩

end FsRestarts
