import Leeos.KernelPoolRanges

/-!
# One page more (`page_table_add` in `kernel/memory.c`)

What a walk through the tables finds before and after a page has been added. The code reaches the
tables through the directory's last entry, and so writes into the tables it reads through: a table
that is shared, or that is the directory itself, carries the new entry to other pages.
-/
namespace KernelPageWalks

open ExecRules KernelPaging KernelPools KernelPoolSteps

variable {s s' : MemState} {p q f t : ℕ}

/-- The page's table entry, if the directory entry and the table entry are present. -/
def walk (s : MemState) (p : ℕ) : Option Word := (s.entryOf p).filter fun e => present e

def writable (e : Word) : Bool := e.getLsbD 1
def userAccess (e : Word) : Bool := e.getLsbD 2

/-- Adding the page maps it to the frame for everybody, and no other page is touched. -/
def MapsOnly (s : MemState) (p f : ℕ) : Prop :=
  ∃ s', pageTableAdd (4096 * p) (4096 * f) s = .ok ((), s') ∧
    (∃ e, walk s' p = some e ∧ entryFrame e = f ∧ writable e = true ∧ userAccess e = true) ∧
    ∀ q, q / 1024 < 1023 → q ≠ p → walk s' q = walk s q

/-- The page's table is not the directory and serves no second directory entry. Where it has to be
made first, no entry leads back to the directory, and the frame it gets is no table yet. -/
structure MapFits (s : MemState) (p : ℕ) : Prop where
  own_table : ∀ t, s.tableOf (p / 1024) = some t →
    t ≠ s.pageDir ∧ ∀ d < 1023, d ≠ p / 1024 → s.tableOf d ≠ some t
  new_table : s.tableOf (p / 1024) = none → (∀ d < 1023, s.tableOf d ≠ some s.pageDir) ∧
    ∃ i, s.firstFree .kernel = some i ∧ s.poolStart .kernel + i ≠ s.pageDir ∧
      ∀ d < 1023, s.tableOf d ≠ some (s.poolStart .kernel + i)

def FreeFrame (s : MemState) : Prop :=
  ∃ i < s.poolLen .kernel, s.poolBit .kernel i = false ∧ s.poolStart .kernel + i ≠ s.pageDir ∧
    ∀ d < 1023, s.tableOf d ≠ some (s.poolStart .kernel + i)

theorem pgEntry_bits {phy : ℕ} : writable (pgEntry phy) = true ∧ userAccess (pgEntry phy) = true := by
  simp [writable, userAccess, pgEntry]

theorem walk_eq_none_iff : walk s p = none ↔ s.frameOf p = none := by
  rw [walk, MemState.frameOf, KernelPaging.frameOf, MemState.entryOf]
  cases KernelPaging.entryOf s.frames s.pageDir p with
  | none => simp
  | some e => simp [target]

theorem walk_of_no_table (h : s.tableOf (q / 1024) = none) : walk s q = none := by
  rw [walk_eq_none_iff, MemState.frameOf, KernelPaging.frameOf, KernelPaging.entryOf]
  rw [MemState.tableOf_eq h]
  rfl

theorem entryOf_mapEntry {t : ℕ} (hfits : MapFits s p) (ht : s.tableOf (p / 1024) = some t)
    (hq : q / 1024 < 1023) : (mapEntry s t p f).entryOf q =
      if q = p then some (pgEntry (4096 * f)) else s.entryOf q := by
  obtain ⟨hdir, hother⟩ := hfits.own_table t ht
  have hset : (mapEntry s t p f).entryOf q = if s.tableOf (q / 1024) = some t ∧
      q % 1024 = p % 1024 then some (pgEntry (4096 * f)) else s.entryOf q :=
    entryOf_setEntry hdir _ _ q
  have hself : s.tableOf (q / 1024) = some t ∧ q % 1024 = p % 1024 ↔ q = p := by
    constructor
    · rintro ⟨htable, hmod⟩
      have hd : q / 1024 = p / 1024 := by
        by_contra hne
        exact hother _ hq hne htable
      omega
    · rintro rfl
      exact ⟨ht, rfl⟩
  simp only [hset, hself]

theorem entryOf_newTable (h : SelfMapped s.frames s.pageDir) (hdir : tableFrame s ≠ s.pageDir)
    (hother : ∀ d < 1023, s.tableOf d ≠ some (tableFrame s)) (hq : q / 1024 < 1023) :
    (mapEntry (newTable s (p / 1024)) (tableFrame s) p f).entryOf q =
      if q = p then some (pgEntry (4096 * f))
      else if q / 1024 = p / 1024 then some 0#32 else s.entryOf q := by
  have hdir' : tableFrame s ≠ (newTable s (p / 1024)).pageDir := by simpa [newTable] using hdir
  have hset : (mapEntry (newTable s (p / 1024)) (tableFrame s) p f).entryOf q =
      if (newTable s (p / 1024)).tableOf (q / 1024) = some (tableFrame s) ∧
        q % 1024 = p % 1024 then some (pgEntry (4096 * f)) else (newTable s (p / 1024)).entryOf q :=
    entryOf_setEntry hdir' _ _ q
  have hnew : (newTable s (p / 1024)).entryOf q =
      if q / 1024 = p / 1024 ∨ s.tableOf (q / 1024) = some (tableFrame s) then some 0#32
      else s.entryOf q := by
    rw [MemState.entryOf, newTable, setFrames_frames, setFrames_pageDir, takeTable_pageDir]
    exact entryOf_addTable h hdir (tableFrame_lt s) hq
  simp only [hset, hnew, tableOf_newTable hdir]
  by_cases hd : q / 1024 = p / 1024
  · have hself : q % 1024 = p % 1024 ↔ q = p := by omega
    simp only [hd, if_true, true_and, hself, true_or]
  · have hne : q ≠ p := fun he => hd (congrArg (· / 1024) he)
    have hapart := hother _ hq
    simp only [hd, if_false, hapart, false_and, or_false, hne]

theorem pageTableAdd_fits (hself : s.tableOf 1023 = some s.pageDir) (hp : p / 1024 < 1023)
    (habsent : walk s p = none) (hfits : MapFits s p) :
    ∃ s', pageTableAdd (4096 * p) (4096 * f) s = .ok ((), s') ∧ ∀ q, q / 1024 < 1023 →
      s'.entryOf q = if q = p then some (pgEntry (4096 * f))
        else if q / 1024 = p / 1024 ∧ s.tableOf (p / 1024) = none then some 0#32
        else s.entryOf q := by
  have hframe := walk_eq_none_iff.mp habsent
  cases ht : s.tableOf (p / 1024) with
  | some t =>
    refine ⟨_, pageTableAdd_table hself hp ht hframe, fun q hq => ?_⟩
    simp only [entryOf_mapEntry hfits ht hq, reduceCtorEq, and_false, if_false]
  | none =>
    obtain ⟨hloop, i, hi, hdir, hother⟩ := hfits.new_table ht
    have hnew : tableFrame s = s.poolStart .kernel + i := by rw [tableFrame, hi]
    rw [← hnew] at hdir hother
    have hmapped : SelfMapped s.frames s.pageDir := ⟨hself, hloop⟩
    refine ⟨_, pageTableAdd_apply hmapped hp hframe fun _ => hdir, fun q hq => ?_⟩
    rw [addPage, ht]
    simp only [entryOf_newTable hmapped hdir hother hq, and_true]

theorem maps_only (hself : s.tableOf 1023 = some s.pageDir) (hp : p / 1024 < 1023)
    (habsent : walk s p = none) (hfits : MapFits s p) (hf : f < 2 ^ 20) : MapsOnly s p f := by
  obtain ⟨s', hrun, hentry⟩ := pageTableAdd_fits (f := f) hself hp habsent hfits
  refine ⟨s', hrun, ⟨pgEntry (4096 * f), ?_, entryFrame_pgEntry hf, pgEntry_bits.1,
    pgEntry_bits.2⟩, fun q hq hne => ?_⟩
  · rw [walk, hentry p hp, if_pos rfl]
    simp
  · rw [walk, hentry q hq, if_neg hne]
    split
    case isTrue hnew =>
      rw [walk_of_no_table (hnew.1 ▸ hnew.2)]
      simp
    case isFalse => rfl

theorem maps_only_first_page : MapsOnly (sampleMachine 64) 0x8048 0x300 := by
  have habsent : walk (sampleMachine 64) 0x8048 = none := by decide +kernel
  have hno : (sampleMachine 64).tableOf (0x8048 / 1024) = none := by decide +kernel
  have htables : ∀ d < 1023, (sampleMachine 64).tableOf d ≠ some 0x100 ∧
      (sampleMachine 64).tableOf d ≠ some 0x200 := by
    decide +kernel
  refine maps_only (by decide +kernel) (by norm_num) habsent ⟨fun t ht => ?_,
    fun _ => ⟨fun d hd => (htables d hd).1, 0, by decide +kernel, by decide +kernel,
      fun d hd => (htables d hd).2⟩⟩ (by norm_num)
  rw [hno] at ht
  cases ht

/-- Directory entry 5 leads back to the directory. -/
def loopedMachine : MemState :=
  setFrames (sampleMachine 64)
    (setEntry (sampleMachine 64).frames 0x100 5 (pgEntry (4096 * 0x100)))

/-- The table of directory entry 5 lies on the first free frame. -/
def reusedMachine : MemState :=
  setFrames (sampleMachine 64) (setEntry
    (setEntry (sampleMachine 64).frames 0x100 5 (pgEntry (4096 * 0x200))) 0x200 0
      (pgEntry (4096 * 0x300)))

def Addable (s : MemState) (p : ℕ) : Prop :=
  s.tableOf 1023 = some s.pageDir ∧ p / 1024 < 1023 ∧ walk s p = none ∧
    (s.tableOf (p / 1024) = none → FreeFrame s)

theorem not_mapsOnly (q : ℕ) (hq : q / 1024 < 1023) (hne : q ≠ p)
    (hrun : yields (pageTableAdd (4096 * p) (4096 * f)) s
      (fun _ s' => walk s' q != walk s q) = true) : ¬ MapsOnly s p f := by
  rintro ⟨s', hs, -, hother⟩
  obtain ⟨⟨⟩, t, ht, hwalk⟩ := yields_iff.mp hrun
  cases hs.symm.trans ht
  rw [hother q hq hne] at hwalk
  simp at hwalk

/-- Entries 0 and 768 of the loader's directory share a table; the directory is its own table; a
new table is entered in it; the new table is another entry's table. -/
theorem other_pages_mapped :
    (Addable (sampleMachine 64) 384 ∧ ¬ MapsOnly (sampleMachine 64) 384 0x300) ∧
    (Addable loopedMachine (5 * 1024 + 6) ∧ ¬ MapsOnly loopedMachine (5 * 1024 + 6) 0x101) ∧
    (Addable loopedMachine (6 * 1024) ∧ ¬ MapsOnly loopedMachine (6 * 1024) 0x300) ∧
    (Addable reusedMachine (6 * 1024) ∧ ¬ MapsOnly reusedMachine (6 * 1024) 0x301) := by
  refine ⟨⟨⟨by decide +kernel, by norm_num, by decide +kernel, fun hnone => ?_⟩,
      not_mapsOnly (768 * 1024 + 384) (by norm_num) (by norm_num) (by decide +kernel)⟩,
    ⟨⟨by decide +kernel, by norm_num, by decide +kernel, fun hnone => ?_⟩,
      not_mapsOnly (6 * 1024) (by norm_num) (by norm_num) (by decide +kernel)⟩,
    ⟨⟨by decide +kernel, by norm_num, by decide +kernel, fun _ => ⟨0, by decide +kernel⟩⟩,
      not_mapsOnly (5 * 1024 + 6) (by norm_num) (by norm_num) (by decide +kernel)⟩,
    ⟨by decide +kernel, by norm_num, by decide +kernel, fun _ => ⟨1, by decide +kernel⟩⟩,
      not_mapsOnly (5 * 1024) (by norm_num) (by norm_num) (by decide +kernel)⟩
  · have hsome : (sampleMachine 64).tableOf (384 / 1024) ≠ none := by decide +kernel
    exact (hsome hnone).elim
  · have hsome : loopedMachine.tableOf ((5 * 1024 + 6) / 1024) ≠ none := by decide +kernel
    exact (hsome hnone).elim

end KernelPageWalks
