import Leeos.RunSearch
import Mathlib.Data.Nat.Bitwise

/-!
# Bitmaps in byte memory (`lib/bitmap.c`)

A bitmap is a length in bytes and a pointer into byte memory, so reading or setting a bit
past the end touches whatever lies behind it. `memBit` numbers the bits of the whole
memory; bit `i` of a bitmap is the absolute bit `pos i`, also for neighbouring bitmaps.
Lengths stay below 2^28, so that `8 * bitmapLen` fits the code's `int`.
-/
namespace KernelBitmap

open RunSearch

structure Bitmap where
  bitmapLen : ℕ
  bits : ℕ
  deriving DecidableEq, Repr

abbrev Bytes := ℕ → BitVec 8

def bitmapInit (m : Bytes) (btmp : Bitmap) : Bytes := fun a =>
  if btmp.bits ≤ a ∧ a < btmp.bits + btmp.bitmapLen then 0#8 else m a

def bitmapScanTest (m : Bytes) (btmp : Bitmap) (index : ℕ) : BitVec 8 :=
  m (btmp.bits + index / 8) &&& (1#8 <<< (index % 8))

/-- The first `while`: skip the bytes equal to `0xff`, `left` of them still ahead. -/
def skipFull (m : Bytes) (btmp : Bitmap) : ℕ → ℕ → ℕ
  | 0, index => index
  | left + 1, index =>
    if m (btmp.bits + index) = 0xff#8 then skipFull m btmp left (index + 1) else index

def clearOffset (byte : BitVec 8) : ℕ → ℕ → ℕ
  | 0, offset => offset
  | left + 1, offset =>
    if (1#8 <<< offset) &&& byte ≠ 0#8 then clearOffset byte left (offset + 1) else offset

/-- The third `while`, `bitLeft` tests still to make. -/
def scanLoop (m : Bytes) (btmp : Bitmap) (cnt : ℕ) : ℕ → ℕ → ℕ → Option ℕ
  | 0, _, _ => none
  | bitLeft + 1, counter, bitIndex =>
    if bitmapScanTest m btmp bitIndex = 0#8 then
      if counter + 1 = cnt then some (bitIndex + 1 - cnt)
      else scanLoop m btmp cnt bitLeft (counter + 1) (bitIndex + 1)
    else scanLoop m btmp cnt bitLeft 0 (bitIndex + 1)

/-- `none` is the code's -1. The loop tests bits `bitIndex + 1` to `8 * bitmapLen`, one past
the last bit of the bitmap. -/
def bitmapScan (m : Bytes) (btmp : Bitmap) (cnt : ℕ) : Option ℕ :=
  let index := skipFull m btmp btmp.bitmapLen 0
  if index = btmp.bitmapLen then none
  else
    let offset := clearOffset (m (btmp.bits + index)) 8 0
    let bitIndex := index * 8 + offset
    let bitLeft := btmp.bitmapLen * 8 - bitIndex
    if cnt = 1 then some bitIndex
    else scanLoop m btmp cnt bitLeft 1 (bitIndex + 1)

/-- The callers pass the constants 0 and 1 only, as the function's assertion wants. -/
def bitmapSet (m : Bytes) (btmp : Bitmap) (index : ℕ) (value : Bool) : Bytes :=
  let base := index / 8
  let offset := index % 8
  Function.update m (btmp.bits + base)
    (if value then m (btmp.bits + base) ||| (1#8 <<< offset)
     else m (btmp.bits + base) &&& ~~~(1#8 <<< offset))

def memBit (m : Bytes) (k : ℕ) : Bool := (m (k / 8)).getLsbD (k % 8)

def Bitmap.pos (btmp : Bitmap) (i : ℕ) : ℕ := 8 * btmp.bits + i

def usedBit (m : Bytes) (btmp : Bitmap) (i : ℕ) : Bool := memBit m (btmp.pos i)

/-- The first bit position a scan for `cnt` bits never looks at. -/
def scanLimit (btmp : Bitmap) (cnt : ℕ) : ℕ :=
  8 * btmp.bitmapLen + if cnt = 1 then 0 else 1

variable {m : Bytes} {btmp : Bitmap}

theorem usedBit_eq (m : Bytes) (btmp : Bitmap) (i : ℕ) :
    usedBit m btmp i = (m (btmp.bits + i / 8)).getLsbD (i % 8) := by
  have hd : (8 * btmp.bits + i) / 8 = btmp.bits + i / 8 := by omega
  have hr : (8 * btmp.bits + i) % 8 = i % 8 := by omega
  simp only [usedBit, memBit, Bitmap.pos, hd, hr]

theorem maskBit (o i : ℕ) (hi : i < 8) : (1#8 <<< o).getLsbD i = decide (i = o) := by
  simp only [BitVec.getLsbD_shiftLeft, BitVec.getLsbD_one, hi, decide_true, Bool.true_and]
  rcases Nat.lt_trichotomy i o with h | h | h
  · simp [h, Nat.ne_of_lt h]
  · simp [h]
  · simp [Nat.not_lt_of_gt h, Nat.ne_of_gt h, Nat.sub_ne_zero_of_lt h]

theorem mask_ne_zero_iff (b : BitVec 8) {o : ℕ} (ho : o < 8) :
    (1#8 <<< o) &&& b ≠ 0#8 ↔ b.getLsbD o = true := by
  constructor
  · intro h
    by_contra hb
    apply h
    apply BitVec.eq_of_getLsbD_eq
    intro i hi
    rw [BitVec.getLsbD_and, maskBit o i hi, BitVec.getLsbD_zero]
    by_cases he : i = o
    · subst he; simpa using hb
    · simp [he]
  · intro hb h
    have := congrArg (fun c => c.getLsbD o) h
    simp only [BitVec.getLsbD_and, maskBit o o ho, decide_true, Bool.true_and,
      BitVec.getLsbD_zero, hb] at this
    cases this

theorem scanTest_eq_zero_iff (m : Bytes) (btmp : Bitmap) (i : ℕ) :
    bitmapScanTest m btmp i = 0#8 ↔ usedBit m btmp i = false := by
  have h := mask_ne_zero_iff (m (btmp.bits + i / 8)) (Nat.mod_lt i (by omega : 0 < 8))
  rw [usedBit_eq, bitmapScanTest, BitVec.and_comm]
  rw [← Bool.not_eq_true, ← h, not_not]

theorem setMask_bit (c : BitVec 8) (v : Bool) {o i : ℕ} (hi : i < 8) :
    (if v then c ||| (1#8 <<< o) else c &&& ~~~(1#8 <<< o)).getLsbD i =
      if i = o then v else c.getLsbD i := by
  have hm := maskBit o i hi
  cases v
  · rw [if_neg Bool.false_ne_true, BitVec.getLsbD_and, BitVec.getLsbD_not, hm]
    by_cases ho : i = o <;> simp [ho, hi]
  · rw [if_pos rfl, BitVec.getLsbD_or, hm]
    by_cases ho : i = o <;> simp [ho]

@[simp] theorem memBit_bitmapSet (m : Bytes) (btmp : Bitmap) (i : ℕ) (v : Bool) (k : ℕ) :
    memBit (bitmapSet m btmp i v) k = if k = btmp.pos i then v else memBit m k := by
  have hp : btmp.pos i = 8 * btmp.bits + i := rfl
  simp only [memBit, bitmapSet, Function.update_apply]
  by_cases hb : k / 8 = btmp.bits + i / 8
  · rw [if_pos hb, setMask_bit _ v (Nat.mod_lt _ (by omega)), hb]
    by_cases he : k = btmp.pos i
    · rw [if_pos he, if_pos (by omega)]
    · rw [if_neg he, if_neg (by omega)]
  · rw [if_neg hb, if_neg (by omega)]

@[simp] theorem memBit_bitmapInit (m : Bytes) (btmp : Bitmap) (k : ℕ) :
    memBit (bitmapInit m btmp) k =
      if btmp.pos 0 ≤ k ∧ k < btmp.pos (8 * btmp.bitmapLen) then false else memBit m k := by
  have hp : ∀ i, btmp.pos i = 8 * btmp.bits + i := fun _ => rfl
  have hi := hp (8 * btmp.bitmapLen)
  have h0 := hp 0
  simp only [memBit, bitmapInit]
  by_cases h : btmp.bits ≤ k / 8 ∧ k / 8 < btmp.bits + btmp.bitmapLen
  · rw [if_pos h, if_pos (by omega), BitVec.getLsbD_zero]
  · rw [if_neg h, if_neg (by omega)]

theorem bytes_ext {m m' : Bytes} (h : ∀ k, memBit m k = memBit m' k) : m = m' := by
  funext a
  apply BitVec.eq_of_getLsbD_eq
  intro i hi
  have hd : (8 * a + i) / 8 = a := by omega
  have hr : (8 * a + i) % 8 = i := by omega
  simpa only [memBit, hd, hr] using h (8 * a + i)

theorem ones_bit : ∀ i < 8, (0xff#8).getLsbD i = true := by decide

theorem byte_full_iff (m : Bytes) (btmp : Bitmap) (index : ℕ) :
    m (btmp.bits + index) = 0xff#8 ↔ ∀ o < 8, usedBit m btmp (8 * index + o) = true := by
  have hbit : ∀ o < 8, usedBit m btmp (8 * index + o) = (m (btmp.bits + index)).getLsbD o := by
    intro o ho
    rw [usedBit_eq, show (8 * index + o) / 8 = index by omega,
      show (8 * index + o) % 8 = o by omega]
  constructor
  · intro h o ho
    rw [hbit o ho, h, ones_bit o ho]
  · intro h
    apply BitVec.eq_of_getLsbD_eq
    intro i hi
    rw [← hbit i hi, h i hi, ones_bit i hi]

/-- The byte scan stops at the first byte with a clear bit, or at the end. -/
theorem skipFull_spec (left index : ℕ) :
    index ≤ skipFull m btmp left index ∧ skipFull m btmp left index ≤ index + left ∧
    (∀ i, 8 * index ≤ i → i < 8 * skipFull m btmp left index → usedBit m btmp i = true) ∧
    (skipFull m btmp left index < index + left →
      m (btmp.bits + skipFull m btmp left index) ≠ 0xff#8) := by
  induction left generalizing index with
  | zero => simp only [skipFull]; exact ⟨by omega, by omega, by omega, by omega⟩
  | succ left ih =>
    simp only [skipFull]
    split
    case isTrue h =>
      obtain ⟨h₁, h₂, h₃, h₄⟩ := ih (index + 1)
      refine ⟨by omega, by omega, ?_, fun hlt => h₄ (by omega)⟩
      intro i hi hlt
      by_cases he : 8 * (index + 1) ≤ i
      · exact h₃ i he hlt
      · have := (byte_full_iff m btmp index).mp h (i - 8 * index) (by omega)
        rwa [Nat.add_sub_cancel' hi] at this
    case isFalse h => exact ⟨by omega, by omega, by omega, fun _ => h⟩

theorem clearOffset_spec {b : BitVec 8} (left offset : ℕ) (hl : offset + left = 8)
    (hb : ∃ o, offset ≤ o ∧ o < 8 ∧ b.getLsbD o = false) :
    offset ≤ clearOffset b left offset ∧ clearOffset b left offset < 8 ∧
    b.getLsbD (clearOffset b left offset) = false ∧
    ∀ o, offset ≤ o → o < clearOffset b left offset → b.getLsbD o = true := by
  induction left generalizing offset with
  | zero =>
    obtain ⟨o, h₁, h₂, _⟩ := hb
    omega
  | succ left ih =>
    simp only [clearOffset, mask_ne_zero_iff b (show offset < 8 by omega)]
    split
    case isTrue h =>
      obtain ⟨o, h₁, h₂, h₃⟩ := hb
      have hne : o ≠ offset := by rintro rfl; simp [h] at h₃
      obtain ⟨k₁, k₂, k₃, k₄⟩ := ih (offset + 1) (by omega) ⟨o, by omega, h₂, h₃⟩
      refine ⟨by omega, k₂, k₃, fun j hj hlt => ?_⟩
      by_cases he : j = offset
      · rw [he, h]
      · exact k₄ j (by omega) hlt
    case isFalse h => exact ⟨le_rfl, by omega, by simpa using h, by omega⟩

theorem scanLoop_eq_runScan (cnt bitLeft counter bitIndex : ℕ) :
    scanLoop m btmp cnt bitLeft counter bitIndex =
      runScan (usedBit m btmp) cnt bitLeft counter bitIndex := by
  induction bitLeft generalizing counter bitIndex with
  | zero => rfl
  | succ left ih =>
    simp only [scanLoop, runScan, scanTest_eq_zero_iff, ih]
    cases usedBit m btmp bitIndex <;> simp

structure FirstClear (m : Bytes) (btmp : Bitmap) (f : ℕ) : Prop where
  inside : f < 8 * btmp.bitmapLen
  clear : usedBit m btmp f = false
  least : ∀ i < f, usedBit m btmp i = true

theorem bitmapScan_cases (m : Bytes) (btmp : Bitmap) (cnt : ℕ) :
    ((∀ i < 8 * btmp.bitmapLen, usedBit m btmp i = true) ∧ bitmapScan m btmp cnt = none) ∨
    ∃ f, FirstClear m btmp f ∧ bitmapScan m btmp cnt =
      if cnt = 1 then some f
      else runScan (usedBit m btmp) cnt (8 * btmp.bitmapLen - f) 1 (f + 1) := by
  obtain ⟨_, hle, hfull, hstop⟩ := @skipFull_spec m btmp btmp.bitmapLen 0
  have heq : bitmapScan m btmp cnt = if skipFull m btmp btmp.bitmapLen 0 = btmp.bitmapLen
      then none else if cnt = 1 then
        some (skipFull m btmp btmp.bitmapLen 0 * 8 +
          clearOffset (m (btmp.bits + skipFull m btmp btmp.bitmapLen 0)) 8 0)
      else scanLoop m btmp cnt (btmp.bitmapLen * 8 - (skipFull m btmp btmp.bitmapLen 0 * 8 +
          clearOffset (m (btmp.bits + skipFull m btmp btmp.bitmapLen 0)) 8 0)) 1
        (skipFull m btmp btmp.bitmapLen 0 * 8 +
          clearOffset (m (btmp.bits + skipFull m btmp btmp.bitmapLen 0)) 8 0 + 1) := rfl
  generalize skipFull m btmp btmp.bitmapLen 0 = index at *
  by_cases hend : index = btmp.bitmapLen
  · left
    rw [heq, if_pos hend]
    exact ⟨fun i hi => hfull i (by omega) (by omega), rfl⟩
  · right
    have hne := hstop (by omega)
    have hex : ∃ o, 0 ≤ o ∧ o < 8 ∧ (m (btmp.bits + index)).getLsbD o = false := by
      by_contra hno
      apply hne
      apply BitVec.eq_of_getLsbD_eq
      intro i hi
      rw [ones_bit i hi]
      by_contra hc
      exact hno ⟨i, by omega, hi, by simpa using hc⟩
    obtain ⟨_, ho, hclear, hbefore⟩ := clearOffset_spec 8 0 rfl hex
    generalize clearOffset (m (btmp.bits + index)) 8 0 = o at *
    have hbit : ∀ j < 8, usedBit m btmp (index * 8 + j) =
        (m (btmp.bits + index)).getLsbD j := by
      intro j hj
      rw [usedBit_eq, show (index * 8 + j) / 8 = index by omega,
        show (index * 8 + j) % 8 = j by omega]
    refine ⟨index * 8 + o, ⟨by omega, by rw [hbit o ho, hclear], ?_⟩, ?_⟩
    · intro i hi
      by_cases hi8 : i < 8 * index
      · exact hfull i (by omega) hi8
      · have := hbefore (i - index * 8) (by omega) (by omega)
        rw [← hbit _ (by omega), Nat.add_sub_cancel' (by omega)] at this
        exact this
    · rw [heq, if_neg hend, scanLoop_eq_runScan, Nat.mul_comm btmp.bitmapLen 8]

theorem FirstClear.scanned {f cnt : ℕ} (h : FirstClear m btmp f) (hc : 2 ≤ cnt) :
    Scanned (usedBit m btmp) cnt 1 (f + 1) where
  short := by omega
  bound := by omega
  clear := by
    intro k h₁ h₂
    rw [show k = f by omega, h.clear]
  longest := by
    intro r hr hcl
    by_contra hn
    have h₁ := hcl r le_rfl (by omega)
    simp [h.least r (by omega)] at h₁
  none_yet := by
    intro r hr hrun
    have h₁ := hrun 0 (by omega)
    simp [h.least r (by omega)] at h₁

theorem bitmapScan_some {cnt r : ℕ} (hc : 1 ≤ cnt) (h : bitmapScan m btmp cnt = some r) :
    FirstRun (usedBit m btmp) (scanLimit btmp cnt) cnt r := by
  rcases bitmapScan_cases m btmp cnt with ⟨_, hn⟩ | ⟨f, hf, he⟩
  · simp [hn] at h
  rw [he] at h
  split at h
  case isTrue h1 =>
    obtain rfl : f = r := by simpa using h
    have := hf.inside
    subst h1
    refine ⟨by simp only [scanLimit, ↓reduceIte]; omega, ?_, ?_⟩
    · intro i hi
      rw [show f + i = f by omega, hf.clear]
    · intro q hq hrun
      have := hrun 0 (by omega)
      simp [hf.least q hq] at this
  case isFalse h1 =>
    have := runScan_eq_some (hf.scanned (by omega)) h
    have hi := hf.inside
    rwa [show f + 1 + (8 * btmp.bitmapLen - f) = scanLimit btmp cnt by
      simp only [scanLimit, if_neg h1]; omega] at this

theorem bitmapScan_none {cnt r : ℕ} (hc : 1 ≤ cnt) (h : bitmapScan m btmp cnt = none)
    (hr : r + cnt ≤ scanLimit btmp cnt) : ¬ ClearRun (usedBit m btmp) r cnt := by
  rcases bitmapScan_cases m btmp cnt with ⟨hfull, _⟩ | ⟨f, hf, he⟩
  · intro hrun
    have h₀ := hrun 0 (by omega)
    have hlt : r < 8 * btmp.bitmapLen := by
      simp only [scanLimit] at hr
      split at hr <;> omega
    simp [hfull r hlt] at h₀
  · rw [he] at h
    split at h
    case isTrue => simp at h
    case isFalse h1 =>
      have hi := hf.inside
      refine runScan_eq_none (hf.scanned (by omega)) h ?_
      simp only [scanLimit, if_neg h1] at hr
      omega

theorem bitmapScan_eq_some_iff {cnt r : ℕ} (hc : 1 ≤ cnt) :
    bitmapScan m btmp cnt = some r ↔
      FirstRun (usedBit m btmp) (scanLimit btmp cnt) cnt r := by
  refine ⟨bitmapScan_some hc, fun h => ?_⟩
  cases hs : bitmapScan m btmp cnt with
  | none => exact (bitmapScan_none hc hs h.fits h.clear).elim
  | some q => rw [first_run_unique h (bitmapScan_some hc hs)]

theorem bitmapScan_one_some {r : ℕ} (h : bitmapScan m btmp 1 = some r) :
    FirstClear m btmp r := by
  have hf := bitmapScan_some le_rfl h
  have hlt := hf.fits
  simp only [scanLimit, ↓reduceIte, Nat.add_zero] at hlt
  refine ⟨by omega, hf.clear 0 (by omega), fun i hi => ?_⟩
  by_contra hc
  refine hf.least i hi fun j hj => ?_
  rw [show i + j = i by omega]
  simpa using hc

theorem bitmapScan_one_none (h : bitmapScan m btmp 1 = none) :
    ∀ i < 8 * btmp.bitmapLen, usedBit m btmp i = true := by
  intro i hi
  by_contra hc
  refine bitmapScan_none le_rfl h (r := i) (by simp only [scanLimit, ↓reduceIte]; omega) ?_
  intro j hj
  rw [show i + j = i by omega]
  simpa using hc

/-! ## The end of the bitmap -/

/-- What a scan finds is a run of clear bits of the bitmap. -/
def ScanInside (m : Bytes) (btmp : Bitmap) (cnt : ℕ) : Prop :=
  ∀ r, bitmapScan m btmp cnt = some r →
    r + cnt ≤ 8 * btmp.bitmapLen ∧ ClearRun (usedBit m btmp) r cnt

/-- The bit behind the bitmap and the `cnt - 1` bits before it are clear, and the bitmap itself
has no run of `cnt` clear bits. -/
structure EndsOpen (m : Bytes) (btmp : Bitmap) (cnt : ℕ) : Prop where
  several : 2 ≤ cnt
  fits : cnt ≤ 8 * btmp.bitmapLen + 1
  clear : ClearRun (usedBit m btmp) (8 * btmp.bitmapLen + 1 - cnt) cnt
  no_run : ∀ r, r + cnt ≤ 8 * btmp.bitmapLen → ¬ ClearRun (usedBit m btmp) r cnt

theorem EndsOpen.scan {cnt : ℕ} (h : EndsOpen m btmp cnt) :
    bitmapScan m btmp cnt = some (8 * btmp.bitmapLen + 1 - cnt) := by
  have hc := h.several
  have hf := h.fits
  refine (bitmapScan_eq_some_iff (by omega)).mpr ⟨?_, h.clear, fun q hq => h.no_run q (by omega)⟩
  rw [scanLimit, if_neg (by omega)]
  omega

/-- A scan counts the bit behind the bitmap exactly when that completes the only free run. -/
theorem scanInside_iff {cnt : ℕ} (hc : 1 ≤ cnt) :
    ScanInside m btmp cnt ↔ ¬ EndsOpen m btmp cnt := by
  constructor
  · intro h hopen
    have hin := (h _ hopen.scan).1
    have hf := hopen.fits
    omega
  · intro h r hr
    have hrun := bitmapScan_some hc hr
    refine ⟨?_, hrun.clear⟩
    by_contra hout
    have hfits := hrun.fits
    rw [scanLimit] at hfits
    split at hfits
    · omega
    · have hr : r = 8 * btmp.bitmapLen + 1 - cnt := by omega
      refine h ⟨by omega, by omega, hr ▸ hrun.clear, fun q hq hclear => ?_⟩
      exact hrun.least q (by omega) hclear

theorem scanInside_two_bits : ScanInside (fun _ => 0xfc#8) ⟨1, 0⟩ 2 := by
  refine (scanInside_iff (by decide)).mpr fun h => ?_
  exact h.no_run 0 (by decide) (by decide)

/-- One byte with its last bit clear: for two bits the scan returns 7. -/
theorem scan_past_end : ¬ ScanInside (Function.update (fun _ => 0#8) 0 0x7f#8) ⟨1, 0⟩ 2 := by
  intro h
  have hin := (h 7 (by decide)).1
  simp only at hin
  omega

end KernelBitmap
