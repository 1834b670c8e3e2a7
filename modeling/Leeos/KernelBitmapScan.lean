import Leeos.KernelBitmap

/-!
# The scan in machine integers (`bitmap_scan` in `lib/bitmap.c`)

`bit_index`, `bit_left` and `counter` are of type `int`, `cnt` of type `uint32_t`, and -1 stands for
no result. As long as the bits can be numbered by an `int` nothing wraps, and the result is that
of the scan over natural numbers.
-/
namespace KernelBitmapScan

open RunSearch KernelBitmap

/-- The third `while`; it makes `bit_left` tests, as long as that is positive. -/
def scanLoop32 (m : Bytes) (btmp : Bitmap) (cnt : BitVec 32) :
    ℕ → BitVec 32 → BitVec 32 → BitVec 32
  | 0, _, _ => -1
  | bitLeft + 1, counter, bitIndex =>
    if bitmapScanTest m btmp bitIndex.toNat = 0#8 then
      if counter + 1 = cnt then bitIndex + 1 - cnt
      else scanLoop32 m btmp cnt bitLeft (counter + 1) (bitIndex + 1)
    else scanLoop32 m btmp cnt bitLeft 0 (bitIndex + 1)

/-- The first two loops stay below `bitmap_len` and 8. -/
def bitmapScan32 (m : Bytes) (btmp : Bitmap) (cnt : BitVec 32) : BitVec 32 :=
  let index := skipFull m btmp btmp.bitmapLen 0
  if index = btmp.bitmapLen then -1
  else
    let offset := clearOffset (m (btmp.bits + index)) 8 0
    let bitIndex := BitVec.ofNat 32 index * 8 + BitVec.ofNat 32 offset
    let bitLeft := BitVec.ofNat 32 btmp.bitmapLen * 8 - bitIndex
    if cnt = 1 then bitIndex
    else scanLoop32 m btmp cnt bitLeft.toInt.toNat 1 (bitIndex + 1)

def resultWord : Option ℕ → BitVec 32
  | some r => BitVec.ofNat 32 r
  | none => -1

variable {m : Bytes} {btmp : Bitmap} {cnt : BitVec 32}

theorem resultWord_toInt {r : ℕ} (hr : r < 2 ^ 31) : (resultWord (some r)).toInt = r := by
  rw [resultWord, BitVec.toInt_eq_toNat_of_lt]
  · rw [BitVec.toNat_ofNat, Nat.mod_eq_of_lt (by omega)]
  · rw [BitVec.toNat_ofNat, Nat.mod_eq_of_lt (by omega)]
    omega

theorem ofNat_succ (k : ℕ) : BitVec.ofNat 32 k + 1 = BitVec.ofNat 32 (k + 1) := by
  simp [BitVec.ofNat_add]

theorem ofNat_succ_eq_iff {k : ℕ} (hk : k + 1 < 2 ^ 32) :
    BitVec.ofNat 32 k + 1 = cnt ↔ k + 1 = cnt.toNat := by
  rw [ofNat_succ, ← BitVec.toNat_inj, BitVec.toNat_ofNat, Nat.mod_eq_of_lt hk]

/-- No number in the loop leaves the range of an `int`. -/
theorem scanLoop32_eq (left counter bitIndex : ℕ) (h : bitIndex + left < 2 ^ 31)
    (hc : counter ≤ bitIndex) :
    scanLoop32 m btmp cnt left (BitVec.ofNat 32 counter) (BitVec.ofNat 32 bitIndex) =
      resultWord (scanLoop m btmp cnt.toNat left counter bitIndex) := by
  induction left generalizing counter bitIndex with
  | zero => rfl
  | succ left ih =>
    have hindex : (BitVec.ofNat 32 bitIndex).toNat = bitIndex := by
      rw [BitVec.toNat_ofNat, Nat.mod_eq_of_lt (by omega)]
    have hreset : scanLoop32 m btmp cnt left 0 (BitVec.ofNat 32 (bitIndex + 1)) = _ :=
      ih 0 (bitIndex + 1) (by omega) (by omega)
    have hcond := @ofNat_succ_eq_iff cnt counter (by omega)
    simp only [scanLoop32, scanLoop, hindex]
    split
    case isTrue =>
      by_cases he : counter + 1 = cnt.toNat
      · have hsub : bitIndex + 1 = (bitIndex + 1 - cnt.toNat) + cnt.toNat := by omega
        rw [if_pos (hcond.mpr he), if_pos he, ofNat_succ, resultWord, hsub, BitVec.ofNat_add,
          BitVec.ofNat_toNat, Nat.add_sub_cancel, BitVec.setWidth_eq]
        exact BitVec.add_sub_cancel _ _
      · rw [if_neg (mt hcond.mp he), if_neg he, ofNat_succ, ofNat_succ]
        exact ih (counter + 1) (bitIndex + 1) (by omega) (by omega)
    case isFalse =>
      rw [ofNat_succ]
      exact hreset

theorem bitmapScan32_eq (hlen : 8 * btmp.bitmapLen < 2 ^ 31) :
    bitmapScan32 m btmp cnt = resultWord (bitmapScan m btmp cnt.toNat) := by
  obtain ⟨-, hle, -, hstop⟩ := @skipFull_spec m btmp btmp.bitmapLen 0
  simp only [bitmapScan32, bitmapScan]
  generalize skipFull m btmp btmp.bitmapLen 0 = index at *
  split
  case isTrue => rfl
  case isFalse hend =>
    have hclear : ∃ o, 0 ≤ o ∧ o < 8 ∧ (m (btmp.bits + index)).getLsbD o = false := by
      by_contra hno
      apply hstop (by omega)
      apply BitVec.eq_of_getLsbD_eq
      intro i hi
      rw [ones_bit i hi]
      by_contra hc
      exact hno ⟨i, by omega, hi, by simpa using hc⟩
    obtain ⟨-, ho, -, -⟩ := clearOffset_spec 8 0 rfl hclear
    generalize clearOffset (m (btmp.bits + index)) 8 0 = o at *
    have hindex : BitVec.ofNat 32 index * 8 + BitVec.ofNat 32 o = BitVec.ofNat 32 (index * 8 + o) := by
      rw [BitVec.ofNat_add, BitVec.ofNat_mul]
      rfl
    have hleft : (BitVec.ofNat 32 btmp.bitmapLen * 8 - BitVec.ofNat 32 (index * 8 + o)).toInt.toNat =
        btmp.bitmapLen * 8 - (index * 8 + o) := by
      have hbits : BitVec.ofNat 32 btmp.bitmapLen * 8 =
          BitVec.ofNat 32 (btmp.bitmapLen * 8 - (index * 8 + o)) + BitVec.ofNat 32 (index * 8 + o) := by
        rw [← BitVec.ofNat_add, Nat.sub_add_cancel (by omega), BitVec.ofNat_mul]
        rfl
      have hint := @resultWord_toInt (btmp.bitmapLen * 8 - (index * 8 + o)) (by omega)
      rw [hbits, BitVec.add_sub_cancel]
      exact congrArg Int.toNat hint
    have hone : cnt = 1 ↔ cnt.toNat = 1 := by
      rw [← BitVec.toNat_inj]
      rfl
    rw [hindex, hleft]
    by_cases hc : cnt.toNat = 1
    · rw [if_pos (hone.mpr hc), if_pos hc]
      rfl
    · rw [if_neg (mt hone.mp hc), if_neg hc, ofNat_succ]
      refine scanLoop32_eq (btmp.bitmapLen * 8 - (index * 8 + o)) 1 (index * 8 + o + 1) ?_ ?_
      · omega
      · omega

/-- While a run of `cnt` clear bits exists the scan answers with the first one. -/
theorem bitmap_scan_first_fit {s : ℕ} (hlen : 8 * btmp.bitmapLen < 2 ^ 31) (hc : 1 ≤ cnt.toNat)
    (hs : s + cnt.toNat ≤ 8 * btmp.bitmapLen) (hrun : ClearRun (usedBit m btmp) s cnt.toNat) :
    ∃ r : ℕ, (bitmapScan32 m btmp cnt).toInt = r ∧ r ≤ s ∧
      FirstRun (usedBit m btmp) (8 * btmp.bitmapLen) cnt.toNat r := by
  obtain ⟨r, hr, hfirst⟩ := first_run_exists hrun hs
  have hlimit : FirstRun (usedBit m btmp) (scanLimit btmp cnt.toNat) cnt.toNat r := by
    have hfits := hfirst.fits
    refine ⟨?_, hfirst.clear, hfirst.least⟩
    rw [scanLimit]
    omega
  have hscan := (bitmapScan_eq_some_iff hc).mpr hlimit
  refine ⟨r, ?_, hr, hfirst⟩
  rw [bitmapScan32_eq hlen, hscan]
  exact resultWord_toInt (by omega)

/-- Two clear bits behind two single ones. -/
theorem bitmap_scan_first_fit_two_bits : ∃ r : ℕ,
    (bitmapScan32 (fun _ => 0xca#8) ⟨1, 0⟩ 2).toInt = r ∧ r ≤ 4 ∧
      FirstRun (usedBit (fun _ => 0xca#8) ⟨1, 0⟩) 8 2 r :=
  bitmap_scan_first_fit (by decide) (by decide) (by decide) (by decide)

end KernelBitmapScan
