import Leeos.FsDisk
import Mathlib.Data.BitVec
import Mathlib.Order.Bounds.Defs

/-!
# The size of the memory (`boot/loader.asm`)

All segments start at 0, so an offset is an address. The interrupt `0x15` is known by its answer
for each continuation value in `ebx`: it sets the carry flag, or it fills in a record and returns
the next value. The other registers it reads are the same at each call.
-/
namespace BootMemorySize

open KernelBitmap FsDisk

structure Ards where
  baseLow : BitVec 32
  baseHigh : BitVec 32
  lengthLow : BitVec 32
  lengthHigh : BitVec 32
  type : BitVec 32
  deriving DecidableEq, Repr

inductive Reply where
  | carry (eax : BitVec 32)
  | record (r : Ards) (ebx : BitVec 32)
  deriving DecidableEq, Repr

abbrev Bios := BitVec 32 → Reply

def memorySize : ℕ := 0xb00
def ardsBufs : ℕ := 0xb0a
def ardsLength : ℕ := 0xbfe

def word (m : Bytes) (a : ℕ) : BitVec 32 := BitVec.ofNat 32 (loadWord m a)

def loadHalf (m : Bytes) (a : ℕ) : ℕ := (m a).toNat + 256 * (m (a + 1)).toNat

def storeHalf (m : Bytes) (a x : ℕ) : Bytes := fun i =>
  if a ≤ i ∧ i < a + 2 then BitVec.ofNat 8 (x / 256 ^ (i - a)) else m i

def storeArds (m : Bytes) (di : ℕ) (r : Ards) : Bytes :=
  let m := storeWord m di r.baseLow.toNat
  let m := storeWord m (di + 4) r.baseHigh.toNat
  let m := storeWord m (di + 8) r.lengthLow.toNat
  let m := storeWord m (di + 12) r.lengthHigh.toNat
  storeWord m (di + 16) r.type.toNat

def incWord (m : Bytes) (a : ℕ) : Bytes := storeHalf m a ((loadHalf m a + 1) % 2 ^ 16)

/-- Behind the loop: the register `eax` of a failed call, or nothing. -/
def e820Loop (bios : Bios) : ℕ → BitVec 32 → ℕ → Bytes → Option (Option (BitVec 32) × Bytes)
  | 0, _, _, _ => none
  | fuel + 1, ebx, di, m =>
    match bios ebx with
    | .carry eax => some (some eax, m)
    | .record r ebx =>
      let m := incWord (storeArds m di r) ardsLength
      if ebx ≠ 0#32 then e820Loop bios fuel ebx ((di + 20) % 2 ^ 16) m else some (none, m)

/-- `jge` keeps `eax` where it is not below `edx` as a signed number. -/
def findMemorySize (m : Bytes) : ℕ → ℕ → BitVec 32 → BitVec 32
  | 0, _, eax => eax
  | cx + 1, ebx, eax =>
    let edx := word m ebx + word m (ebx + 8)
    findMemorySize m cx (ebx + 20) (if edx.sle eax then eax else edx)

/-- `loop` counts `cx` down before it looks whether that is 0. -/
def rounds (cx : ℕ) : ℕ := if cx = 0 then 2 ^ 16 else cx

/-- From `loader_start` to `set_memory_size`. -/
def loaderStart (bios : Bios) (fuel : ℕ) (m : Bytes) : Option Bytes :=
  match e820Loop bios fuel 0#32 ardsBufs m with
  | none => none
  | some (some eax, m) => some (storeWord m memorySize eax.toNat)
  | some (none, m) =>
    some (storeWord m memorySize
      (findMemorySize m (rounds (loadHalf m ardsLength)) ardsBufs 0#32).toNat)

/-! ## The memory map -/

/-- The interrupt delivers the records one after another, and the last with the value 0. -/
inductive Serves (bios : Bios) : BitVec 32 → List Ards → Prop where
  | last {ebx r} : bios ebx = .record r 0#32 → Serves bios ebx [r]
  | next {ebx ebx' r rs} : bios ebx = .record r ebx' → ebx' ≠ 0#32 → Serves bios ebx' rs →
      Serves bios ebx (r :: rs)

def Ards.stop (r : Ards) : ℕ :=
  (r.baseLow.toNat + 2 ^ 32 * r.baseHigh.toNat) + (r.lengthLow.toNat + 2 ^ 32 * r.lengthHigh.toNat)

def Ards.UsableLow (r : Ards) : Prop := r.type = 1#32 ∧ r.stop < 2 ^ 32

instance (r : Ards) : Decidable r.UsableLow := inferInstanceAs (Decidable (_ ∧ _))

/-- The sum of the low words, which is all that the loader looks at. -/
def Ards.lowStop (r : Ards) : BitVec 32 := r.baseLow + r.lengthLow

/-- The loader comes to its end and leaves the largest end of usable RAM below 4 GB for the
kernel, which reads it in `mem_init`. -/
def StoresLargest (bios : Bios) (rs : List Ards) (m : Bytes) : Prop :=
  ∀ fuel ≥ rs.length, ∃ m', loaderStart bios fuel m = some m' ∧
    IsGreatest {e | ∃ r ∈ rs, r.UsableLow ∧ r.stop = e} (loadWord m' memorySize)

/-- Some usable RAM ends below 4 GB, none of it at 2 GB or above, and no other record has low
words that add up to less than 2 GB but more than the ends of usable RAM. -/
def PlainMap (rs : List Ards) : Prop :=
  (∃ r ∈ rs, r.UsableLow) ∧ (∀ r ∈ rs, r.UsableLow → r.stop < 2 ^ 31) ∧
    ∀ r ∈ rs, r.lowStop.toNat < 2 ^ 31 → ∃ u ∈ rs, u.UsableLow ∧ r.lowStop.toNat ≤ u.stop

instance (rs : List Ards) : Decidable (PlainMap rs) :=
  inferInstanceAs (Decidable (_ ∧ _ ∧ ∀ _ ∈ _, _))

section

variable {m m' : Bytes} {a b i x : ℕ} {r : Ards} {rs : List Ards} {bios : Bios}
  {ebx eax : BitVec 32} {di fuel : ℕ}

/-! ## The buffer of records -/

def Holds (m : Bytes) : ℕ → List Ards → Prop
  | _, [] => True
  | a, r :: rs => word m a = r.baseLow ∧ word m (a + 8) = r.lengthLow ∧ Holds m (a + 20) rs

theorem storeHalf_outside (h : i < a ∨ a + 2 ≤ i) : storeHalf m a x i = m i := if_neg (by omega)

theorem loadHalf_storeHalf (hx : x < 2 ^ 16) : loadHalf (storeHalf m a x) a = x := by
  have h₀ : storeHalf m a x a = BitVec.ofNat 8 x := by
    rw [storeHalf, if_pos (by omega), Nat.sub_self, Nat.pow_zero, Nat.div_one]
  have h₁ : storeHalf m a x (a + 1) = BitVec.ofNat 8 (x / 256) := by
    rw [storeHalf, if_pos (by omega), Nat.add_sub_cancel_left, Nat.pow_one]
  simp only [loadHalf, h₀, h₁, BitVec.toNat_ofNat]
  omega

theorem storeArds_outside (h : i < di ∨ di + 20 ≤ i) : storeArds m di r i = m i := by
  simp only [storeArds]
  rw [storeWord_outside (by omega), storeWord_outside (by omega), storeWord_outside (by omega),
    storeWord_outside (by omega), storeWord_outside (by omega)]

theorem word_storeWord (m : Bytes) (a : ℕ) (x : BitVec 32) :
    word (storeWord m a x.toNat) a = x := by
  rw [word, loadWord_storeWord x.isLt, BitVec.ofNat_toNat, BitVec.setWidth_eq]

theorem storeArds_words (m : Bytes) (di : ℕ) (r : Ards) :
    word (storeArds m di r) di = r.baseLow ∧ word (storeArds m di r) (di + 8) = r.lengthLow := by
  constructor
  · simp only [storeArds, word]
    rw [loadWord_storeWord_of_apart (by omega), loadWord_storeWord_of_apart (by omega),
      loadWord_storeWord_of_apart (by omega), loadWord_storeWord_of_apart (by omega)]
    exact word_storeWord m di r.baseLow
  · simp only [storeArds, word]
    rw [loadWord_storeWord_of_apart (by omega), loadWord_storeWord_of_apart (by omega)]
    exact word_storeWord _ (di + 8) r.lengthLow

theorem word_congr (h : ∀ i < a + 4, a ≤ i → m i = m' i) : word m a = word m' a := by
  rw [word, word, loadWord_congr fun j hj => h (a + j) (by omega) (by omega)]

theorem recorded (hdi : di + 20 ≤ ardsLength) (hcount : loadHalf m ardsLength + 1 < 2 ^ 16) :
    Holds (incWord (storeArds m di r) ardsLength) di [r] ∧
      loadHalf (incWord (storeArds m di r) ardsLength) ardsLength = loadHalf m ardsLength + 1 ∧
      ∀ i < di, incWord (storeArds m di r) ardsLength i = m i := by
  have hsame : loadHalf (storeArds m di r) ardsLength = loadHalf m ardsLength := by
    simp only [loadHalf]
    rw [storeArds_outside (by omega), storeArds_outside (by omega)]
  have hbelow : ∀ i < ardsLength,
      incWord (storeArds m di r) ardsLength i = storeArds m di r i :=
    fun i hi => storeHalf_outside (Or.inl hi)
  obtain ⟨hbase, hlength⟩ := storeArds_words m di r
  refine ⟨⟨?_, ?_, trivial⟩, ?_, fun i hi => ?_⟩
  · rw [← hbase]
    exact word_congr fun i hi _ => hbelow i (by omega)
  · rw [← hlength]
    exact word_congr fun i hi _ => hbelow i (by omega)
  · rw [incWord, loadHalf_storeHalf (Nat.mod_lt _ (by decide)), hsame, Nat.mod_eq_of_lt hcount]
  · rw [hbelow i (by omega), storeArds_outside (Or.inl hi)]

theorem e820Loop_run (h : Serves bios ebx rs) (hfuel : rs.length ≤ fuel)
    (hdi : di + 20 * rs.length ≤ ardsLength)
    (hcount : loadHalf m ardsLength + rs.length < 2 ^ 16) :
    ∃ m', e820Loop bios fuel ebx di m = some (none, m') ∧ Holds m' di rs ∧
      loadHalf m' ardsLength = loadHalf m ardsLength + rs.length ∧ ∀ i < di, m' i = m i := by
  induction h generalizing fuel di m with
  | @last ebx r hreply =>
    rw [List.length_singleton] at hfuel hdi hcount
    obtain ⟨fuel, rfl⟩ := Nat.exists_eq_add_of_le' hfuel
    obtain ⟨hholds, hinc, hrest⟩ := recorded (r := r) hdi hcount
    refine ⟨_, ?_, hholds, hinc, hrest⟩
    simp [e820Loop, hreply]
  | @next ebx ebx' r rs hreply hne _ ih =>
    rw [List.length_cons] at hfuel hdi hcount
    obtain ⟨fuel, rfl⟩ := Nat.exists_eq_add_of_le' (Nat.le_trans (Nat.le_add_left 1 _) hfuel)
    have hspace : di + 20 ≤ ardsLength := by omega
    obtain ⟨⟨hbase, hlength, -⟩, hinc, hrest⟩ := recorded (m := m) (r := r) hspace (by omega)
    have hspace' : di + 20 + 20 * rs.length ≤ ardsLength := by omega
    have hfuel' : rs.length ≤ fuel := by omega
    obtain ⟨m', hrun, hholds, hlen, hkept⟩ :=
      ih (m := incWord (storeArds m di r) ardsLength) hfuel' hspace' (by omega)
    refine ⟨m', ?_, ⟨?_, ?_, hholds⟩, ?_, fun i hi => ?_⟩
    · have hwrap : (di + 20) % 2 ^ 16 = di + 20 :=
        Nat.mod_eq_of_lt (by unfold ardsLength at hdi; omega)
      simp only [e820Loop, hreply, if_pos hne, hwrap]
      exact hrun
    · rw [← hbase]
      exact word_congr fun i hi _ => hkept i (by omega)
    · rw [← hlength]
      exact word_congr fun i hi _ => hkept i (by omega)
    · rw [hlen, hinc, List.length_cons]
      omega
    · rw [hkept i (by omega), hrest i hi]

/-! ## The largest value -/

def largest (rs : List Ards) (eax : BitVec 32) : BitVec 32 :=
  rs.foldl (fun eax r => if r.lowStop.sle eax then eax else r.lowStop) eax

theorem findMemorySize_eq (h : Holds m a rs) (eax : BitVec 32) :
    findMemorySize m rs.length a eax = largest rs eax := by
  induction rs generalizing a eax with
  | nil => rfl
  | cons r rs ih =>
    obtain ⟨hbase, hlength, hrest⟩ := h
    simp only [List.length_cons, findMemorySize, hbase, hlength]
    exact ih hrest _

theorem signed_max (edx : BitVec 32) (heax : eax.toNat < 2 ^ 31) :
    (if edx.sle eax then eax else edx).toNat < 2 ^ 31 ∧
      eax.toNat ≤ (if edx.sle eax then eax else edx).toNat ∧
      (edx.toNat < 2 ^ 31 → edx.toNat ≤ (if edx.sle eax then eax else edx).toNat) := by
  have hle : edx.sle eax = true ↔ edx.toInt ≤ eax.toInt := by simp [BitVec.sle]
  rw [BitVec.toInt_eq_toNat_cond, BitVec.toInt_eq_toNat_cond] at hle
  have hlt := edx.isLt
  split
  case isTrue h =>
    have h' := hle.mp h
    split at h' <;> split at h' <;> omega
  case isFalse h =>
    have h' := mt hle.mpr h
    split at h' <;> split at h' <;> omega

/-- From a value that is not negative the loop goes to the largest of the sums that are not. -/
theorem largest_spec (rs : List Ards) (heax : eax.toNat < 2 ^ 31) :
    (largest rs eax).toNat < 2 ^ 31 ∧ eax.toNat ≤ (largest rs eax).toNat ∧
      (∀ r ∈ rs, r.lowStop.toNat < 2 ^ 31 → r.lowStop.toNat ≤ (largest rs eax).toNat) ∧
      (largest rs eax = eax ∨ ∃ r ∈ rs, largest rs eax = r.lowStop) := by
  induction rs generalizing eax with
  | nil => exact ⟨heax, Nat.le_refl _, fun _ hr => absurd hr List.not_mem_nil, Or.inl rfl⟩
  | cons r rs ih =>
    obtain ⟨hlt, hge, hsum⟩ := signed_max r.lowStop heax
    obtain ⟨hlt', hge', hall, hfrom⟩ := ih hlt
    refine ⟨hlt', Nat.le_trans hge hge', fun u hu hu' => ?_, ?_⟩
    · rcases List.mem_cons.mp hu with rfl | hu
      · exact Nat.le_trans (hsum hu') hge'
      · exact hall u hu hu'
    · rcases hfrom with he | ⟨u, hu, he⟩
      · change largest rs _ = _ ∨ _
        by_cases hs : r.lowStop.sle eax
        · exact Or.inl (he.trans (if_pos hs))
        · exact Or.inr ⟨r, List.mem_cons_self, he.trans (if_neg hs)⟩
      · exact Or.inr ⟨u, List.mem_cons_of_mem r hu, he⟩

theorem lowStop_of_low (h : r.stop < 2 ^ 32) : r.lowStop.toNat = r.stop := by
  unfold Ards.stop at h ⊢
  rw [Ards.lowStop, BitVec.toNat_add]
  omega

theorem largest_greatest_iff (rs : List Ards) :
    IsGreatest {e | ∃ r ∈ rs, r.UsableLow ∧ r.stop = e} (largest rs 0#32).toNat ↔ PlainMap rs := by
  have hstart : (0#32).toNat < 2 ^ 31 := by decide
  obtain ⟨hlt, -, hall, hfrom⟩ := largest_spec rs hstart
  constructor
  · rintro ⟨⟨u, hu, husable, he⟩, hmax⟩
    refine ⟨⟨u, hu, husable⟩, fun r hr hr' => ?_, fun r hr hr' => ?_⟩
    · exact Nat.lt_of_le_of_lt (hmax ⟨r, hr, hr', rfl⟩) hlt
    · exact ⟨u, hu, husable, he ▸ hall r hr hr'⟩
  · rintro ⟨⟨u, hu, husable⟩, hsmall, hcovered⟩
    have hmax : ∀ r ∈ rs, r.UsableLow → r.stop ≤ (largest rs 0#32).toNat := by
      intro r hr hr'
      have hlow := lowStop_of_low hr'.2
      have hle := hall r hr (by rw [hlow]; exact hsmall r hr hr')
      rwa [hlow] at hle
    refine ⟨?_, fun e he => ?_⟩
    · rcases hfrom with he | ⟨r, hr, he⟩
      · have hzero := hmax u hu husable
        rw [he] at hzero ⊢
        exact ⟨u, hu, husable, Nat.le_zero.mp hzero⟩
      · rw [he] at hlt
        obtain ⟨v, hv, hv', hle⟩ := hcovered r hr hlt
        have hge := hmax v hv hv'
        rw [he] at hge ⊢
        exact ⟨v, hv, hv', Nat.le_antisymm hge hle⟩
    · obtain ⟨r, hr, hr', rfl⟩ := he
      exact hmax r hr hr'

theorem loaderStart_eq (h : Serves bios 0#32 rs) (hlen : rs.length ≤ 12)
    (hzero : loadHalf m ardsLength = 0) (hfuel : rs.length ≤ fuel) :
    ∃ m', loaderStart bios fuel m = some m' ∧
      loadWord m' memorySize = (largest rs 0#32).toNat := by
  have hpos : rs.length ≠ 0 := by
    cases h <;> exact Nat.succ_ne_zero _
  have hspace : ardsBufs + 20 * rs.length ≤ ardsLength := by
    unfold ardsBufs ardsLength
    omega
  obtain ⟨m', hrun, hholds, hcount, -⟩ := e820Loop_run (m := m) h hfuel hspace (by omega)
  rw [hzero, Nat.zero_add] at hcount
  refine ⟨storeWord m' memorySize (largest rs 0#32).toNat, ?_,
    loadWord_storeWord (BitVec.isLt _)⟩
  simp only [loaderStart, hrun, hcount, rounds, if_neg hpos, findMemorySize_eq hholds]

theorem plainMap_of_stores (h : Serves bios 0#32 rs) (hlen : rs.length ≤ 12)
    (hzero : loadHalf m ardsLength = 0) (hstores : StoresLargest bios rs m) : PlainMap rs := by
  obtain ⟨m', hrun, hgreatest⟩ := hstores rs.length (Nat.le_refl _)
  obtain ⟨m'', hrun', hsize⟩ := loaderStart_eq h hlen hzero (Nat.le_refl rs.length)
  obtain rfl : m'' = m' := Option.some.inj (hrun'.symm.trans hrun)
  rw [hsize] at hgreatest
  exact (largest_greatest_iff rs).mp hgreatest

end

/-- The loader ignores the types and the high words, and compares signed numbers; its answer is
right on the maps on which none of this matters. -/
theorem stores_largest_iff {bios : Bios} {rs : List Ards} {m : Bytes} (h : Serves bios 0#32 rs)
    (hlen : rs.length ≤ 12) (hzero : loadHalf m ardsLength = 0) :
    StoresLargest bios rs m ↔ PlainMap rs := by
  constructor
  · exact plainMap_of_stores h hlen hzero
  · intro hplain fuel hfuel
    obtain ⟨m', hrun, hsize⟩ := loaderStart_eq h hlen hzero hfuel
    refine ⟨m', hrun, ?_⟩
    rw [hsize]
    exact (largest_greatest_iff rs).mpr hplain

def twoRecords (r r' : Ards) : Bios := fun ebx =>
  if ebx = 0#32 then .record r 1#32 else .record r' 0#32

theorem twoRecords_serves (r r' : Ards) : Serves (twoRecords r r') 0#32 [r, r'] :=
  .next rfl (by decide) (.last rfl)

def lowRam : Ards := ⟨0#32, 0#32, 0x9fc00#32, 0#32, 1#32⟩

def highRam (length : BitVec 32) : Ards := ⟨0x100000#32, 0#32, length, 0#32, 1#32⟩

/-- The last 64 KB of 512 MB, where the firmware keeps its tables. -/
def firmwareTables : Ards := ⟨0x1fff0000#32, 0#32, 0x10000#32, 0#32, 3#32⟩

theorem stores_largest_512 :
    (Serves (twoRecords lowRam (highRam 0x1ff00000#32)) 0#32 [lowRam, highRam 0x1ff00000#32] ∧
      loadHalf (fun _ => 0#8) ardsLength = 0 ∧ PlainMap [lowRam, highRam 0x1ff00000#32]) ∧
    StoresLargest (twoRecords lowRam (highRam 0x1ff00000#32)) [lowRam, highRam 0x1ff00000#32]
      (fun _ => 0#8) := by
  have hplain : PlainMap [lowRam, highRam 0x1ff00000#32] := by decide
  exact ⟨⟨twoRecords_serves _ _, rfl, hplain⟩,
    (stores_largest_iff (twoRecords_serves _ _) (by decide) rfl).mpr hplain⟩

/-- With 3 GB of RAM only the part below 640 KB is seen, and the firmware's tables behind other
RAM are counted as RAM. -/
theorem stores_wrong_size :
    ¬ StoresLargest (twoRecords lowRam (highRam 0xbff00000#32)) [lowRam, highRam 0xbff00000#32]
      (fun _ => 0#8) ∧
    ¬ StoresLargest (twoRecords (highRam 0x1fef0000#32) firmwareTables)
      [highRam 0x1fef0000#32, firmwareTables] (fun _ => 0#8) := by
  constructor
  · intro h
    exact absurd (plainMap_of_stores (twoRecords_serves _ _) (by decide) rfl h) (by decide)
  · intro h
    exact absurd (plainMap_of_stores (twoRecords_serves _ _) (by decide) rfl h) (by decide)

end BootMemorySize
