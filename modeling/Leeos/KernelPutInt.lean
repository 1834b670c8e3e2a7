import Leeos.LibStdint
import Leeos.LibStdio

/-!
# Numerals of the kernel and of the library (`putInt` in `lib/kernel/print.asm`, `itoa`)

`putInt` fills its buffer from the end, strips zeros from the front and calls `putChar`, which
saves all registers, for each character that is left: the model lists these characters. A buffer
is the memory from `put_int_buffer` on, and `edi` an offset in it.
-/
namespace KernelPutInt

open KernelBitmap LibStdio
open LibStdint (charZero)

/-- `.16based_4bits` up to `.store`, from the register `edx` to `dl`. -/
def hexChar (edx : BitVec 32) : BitVec 8 :=
  let edx := edx &&& 0xf#32
  if (9#32).slt edx then (edx - 10#32 + 0x41#32).setWidth 8 else (edx + 0x30#32).setWidth 8

/-- The loop counts `ecx` down; behind it `edi` is -1. -/
def based4bits : ℕ → BitVec 32 → BitVec 32 → Bytes → BitVec 32 × Bytes
  | 0, edi, _, buf => (edi, buf)
  | ecx + 1, edi, eax, buf =>
    based4bits ecx (edi - 1#32) (eax >>> 4) (Function.update buf edi.toNat (hexChar eax))

/-- `edi` and `cl` on the way to `.put_each_num`. -/
def skipPrefix0 (buf : Bytes) (edi : BitVec 32) : BitVec 32 × BitVec 8 :=
  if edi = 8#32 then (edi, charZero)
  else
    let cl := buf edi.toNat
    if cl = charZero then skipPrefix0 buf (edi + 1#32) else (edi + 1#32 - 1#32, cl)
termination_by (8#32 - edi).toNat
decreasing_by bv_omega

/-- The byte behind the last one is read as well, but not sent. -/
def putEachNum (buf : Bytes) (edi : BitVec 32) (cl : BitVec 8) : List (BitVec 8) :=
  if (edi + 1#32).slt 8#32 then
    cl :: putEachNum buf (edi + 1#32) (buf (edi + 1#32).toNat)
  else [cl]
termination_by (7#32 - edi).toNat
decreasing_by
  have hne : edi ≠ 7#32 := by
    rintro rfl
    exact absurd ‹(7#32 + 1#32).slt 8#32 = true› (by decide)
  bv_omega

/-- The characters that `putInt(number)` sends, where `put_int_buffer` held `buf`. -/
def putInt (number : BitVec 32) (buf : Bytes) : List (BitVec 8) :=
  let filled := based4bits 8 7#32 number buf
  let start := skipPrefix0 filled.2 (filled.1 + 1#32)
  putEachNum filled.2 start.1 start.2

/-! ## Canonical numerals -/

/-- The value of a digit, 0 to 9 and then A to Z. -/
def charValue (c : BitVec 8) : ℕ := if c.toNat ≤ 0x39 then c.toNat - 0x30 else c.toNat - 0x41 + 10

def IsDigit (c : BitVec 8) : Prop :=
  0x30 ≤ c.toNat ∧ c.toNat ≤ 0x39 ∨ 0x41 ≤ c.toNat ∧ c.toNat ≤ 0x5a

structure Canonical (base n : ℕ) (text : List (BitVec 8)) : Prop where
  not_empty : text ≠ []
  digits : ∀ c ∈ text, IsDigit c ∧ charValue c < base
  leading : text.head? = some charZero → text = [charZero]
  value : text.foldl (fun v c => v * base + charValue c) 0 = n

/-- `text` is written at the pointer, which goes behind it, and nothing else changes. -/
structure Writes (text : List (BitVec 8)) (s s' : Print) : Prop where
  written : ∀ i < text.length, s'.dest (s.strIndex + i) = text.getD i 0#8
  kept : ∀ i, i < s.strIndex ∨ s.strIndex + text.length ≤ i → s'.dest i = s.dest i
  pointer : s'.strIndex = s.strIndex + text.length
  arguments : s'.ap = s.ap

section

variable {base d n : ℕ} {text : List (BitVec 8)}

theorem digitChar_digit (h : d < 36) : IsDigit (digitChar d) ∧ charValue (digitChar d) = d := by
  have hall : ∀ d < 36, ((0x30 ≤ (digitChar d).toNat ∧ (digitChar d).toNat ≤ 0x39 ∨
      0x41 ≤ (digitChar d).toNat ∧ (digitChar d).toNat ≤ 0x5a) ∧
      charValue (digitChar d) = d) := by decide
  exact hall d h

theorem canonical_single (hb : base ≤ 36) (h : d < base) : Canonical base d [digitChar d] := by
  obtain ⟨hdigit, hvalue⟩ := digitChar_digit (Nat.lt_of_lt_of_le h hb)
  refine ⟨by simp, fun c hc => ?_, fun h0 => ?_, ?_⟩
  · rw [List.mem_singleton.mp hc, hvalue]
    exact ⟨hdigit, h⟩
  · rw [Option.some.inj h0]
  · simp [hvalue]

theorem Canonical.snoc (h : Canonical base n text) (hn : n ≠ 0) (hb : base ≤ 36) (hd : d < base) :
    Canonical base (n * base + d) (text ++ [digitChar d]) := by
  obtain ⟨hdigit, hvalue⟩ := digitChar_digit (Nat.lt_of_lt_of_le hd hb)
  refine ⟨by simp, fun c hc => ?_, fun h0 => ?_, ?_⟩
  · rcases List.mem_append.mp hc with hc | hc
    · exact h.digits c hc
    · rw [List.mem_singleton.mp hc, hvalue]
      exact ⟨hdigit, hd⟩
  · rw [List.head?_append_of_ne_nil _ h.not_empty] at h0
    have hzero : n = 0 := by
      rw [← h.value, h.leading h0]
      simp [charValue, charZero]
    exact absurd hzero hn
  · rw [List.foldl_append, h.value, List.foldl_cons, List.foldl_nil, hvalue]

theorem canonical_numeral (hb : 2 ≤ base) (hb' : base ≤ 36) (n : ℕ) :
    Canonical base n (numeral base n) := by
  induction n using Nat.strongRecOn with
  | ind n ih =>
    have hmod : n % base < base := Nat.mod_lt n (by omega)
    by_cases h : n / base = 0
    · have hlt : n < base := (Nat.div_eq_zero_iff_lt (by omega)).mp h
      rw [numeral_of_lt hb h, Nat.mod_eq_of_lt hlt]
      exact canonical_single hb' hlt
    · have hn : 0 < n := Nat.pos_of_ne_zero fun he => h (by rw [he, Nat.zero_div])
      have hsnoc := (ih _ (Nat.div_lt_self hn hb)).snoc h hb' hmod
      rw [← digits_snoc hb h, Nat.mul_comm, Nat.div_add_mod] at hsnoc
      exact hsnoc

theorem writes_put (s : Print) : Writes text s (s.put text false 0) := by
  refine ⟨fun i hi => ?_, fun i hi => ?_, rfl, rfl⟩
  · simp [Print.put, hi]
  · simp only [Print.put]
    rw [if_neg (by omega), if_neg (by simp)]

end

/-! ## The buffer of `putInt` -/

/-- The last `k` digits of a number, the most significant first. -/
def padded (base : ℕ) : ℕ → ℕ → List ℕ
  | 0, _ => []
  | k + 1, n => padded base k (n / base) ++ [n % base]

/-- The bytes at the offsets from `k` on, `j` of them. -/
def window (buf : Bytes) (k j : ℕ) : List (BitVec 8) := (List.range' k j).map buf

/-- What is left of the digits without leading zeros, or a zero. -/
def stripped (text : List (BitVec 8)) : List (BitVec 8) :=
  if text.dropWhile (· = charZero) = [] then [charZero] else text.dropWhile (· = charZero)

section

variable {base k j n : ℕ} {buf : Bytes} {eax : BitVec 32}

theorem window_succ : window buf k (j + 1) = buf k :: window buf (k + 1) j := by
  rw [window, List.range'_succ, List.map_cons, window]

theorem window_concat : window buf k (j + 1) = window buf k j ++ [buf (k + j)] := by
  rw [window, List.range'_1_concat, List.map_append, window, List.map_singleton]

theorem hexChar_eq (eax : BitVec 32) : hexChar eax = digitChar (eax.toNat % 16) := by
  have hall : ∀ d < 16, hexChar (BitVec.ofNat 32 d) = digitChar d := by decide
  have hlow : hexChar eax = hexChar (BitVec.ofNat 32 (eax.toNat % 16)) := by
    have hand : eax &&& 0xf#32 = BitVec.ofNat 32 (eax.toNat % 16) &&& 0xf#32 := by
      apply BitVec.eq_of_toNat_eq
      have hmod : (BitVec.ofNat 32 (eax.toNat % 16)).toNat = eax.toNat % 16 :=
        Nat.mod_eq_of_lt (by omega)
      rw [BitVec.toNat_and, BitVec.toNat_and, hmod]
      change eax.toNat &&& (2 ^ 4 - 1) = eax.toNat % 16 &&& (2 ^ 4 - 1)
      rw [Nat.and_two_pow_sub_one_eq_mod, Nat.and_two_pow_sub_one_eq_mod, Nat.mod_mod]
    simp only [hexChar, hand]
  exact hlow.trans (hall _ (Nat.mod_lt _ (by decide)))

theorem based4bits_eq (ecx : ℕ) (eax : BitVec 32) (buf : Bytes) (h : ecx ≤ 8) :
    (based4bits ecx (BitVec.ofNat 32 ecx - 1#32) eax buf).1 = 0#32 - 1#32 ∧
      window (based4bits ecx (BitVec.ofNat 32 ecx - 1#32) eax buf).2 0 ecx =
        (padded 16 ecx eax.toNat).map digitChar ∧
      ∀ i ≥ ecx, (based4bits ecx (BitVec.ofNat 32 ecx - 1#32) eax buf).2 i = buf i := by
  induction ecx generalizing eax buf with
  | zero => exact ⟨rfl, rfl, fun i _ => rfl⟩
  | succ ecx ih =>
    have hedi : BitVec.ofNat 32 (ecx + 1) - 1#32 = BitVec.ofNat 32 ecx := by bv_omega
    have hto : (BitVec.ofNat 32 ecx).toNat = ecx := Nat.mod_eq_of_lt (by omega)
    simp only [based4bits, hedi, hto]
    obtain ⟨hend, hdigits, hrest⟩ := ih (eax >>> 4)
      (Function.update buf ecx (hexChar eax)) (by omega)
    refine ⟨hend, ?_, fun i hi => ?_⟩
    · have hshift : (eax >>> 4).toNat = eax.toNat / 16 := by
        rw [BitVec.toNat_ushiftRight, Nat.shiftRight_eq_div_pow]
      rw [window_concat, hdigits, padded, List.map_append, hshift, Nat.zero_add,
        hrest ecx (Nat.le_refl _), Function.update_self, hexChar_eq, List.map_singleton]
    · rw [hrest i (by omega), Function.update_of_ne (by omega)]

theorem putEachNum_eq (h : k + (j + 1) = 8) :
    putEachNum buf (BitVec.ofNat 32 k) (buf k) = window buf k (j + 1) := by
  induction j generalizing k with
  | zero =>
    obtain rfl : k = 7 := by omega
    rw [putEachNum, if_neg (by decide)]
    rfl
  | succ j ih =>
    have hnext : BitVec.ofNat 32 k + 1#32 = BitVec.ofNat 32 (k + 1) := by bv_omega
    have hto : (BitVec.ofNat 32 (k + 1)).toNat = k + 1 := Nat.mod_eq_of_lt (by omega)
    have hall : ∀ i < 8, (BitVec.ofNat 32 i).slt 8#32 = true := by decide
    rw [putEachNum, hnext, if_pos (hall _ (by omega)), hto, ih (by omega), ← window_succ]

/-- The characters from an offset on without the zeros in front are sent. -/
theorem skipPrefix0_put (h : k + j = 8) :
    putEachNum buf (skipPrefix0 buf (BitVec.ofNat 32 k)).1
      (skipPrefix0 buf (BitVec.ofNat 32 k)).2 = stripped (window buf k j) := by
  induction j generalizing k with
  | zero =>
    obtain rfl : k = 8 := by omega
    rw [skipPrefix0, if_pos rfl, putEachNum, if_neg (by decide)]
    rfl
  | succ j ih =>
    have hne : BitVec.ofNat 32 k ≠ 8#32 := by bv_omega
    have hnext : BitVec.ofNat 32 k + 1#32 = BitVec.ofNat 32 (k + 1) := by bv_omega
    have hback : BitVec.ofNat 32 (k + 1) - 1#32 = BitVec.ofNat 32 k := by bv_omega
    have hto : (BitVec.ofNat 32 k).toNat = k := Nat.mod_eq_of_lt (by omega)
    rw [skipPrefix0, if_neg hne]
    simp only [hto, hnext, hback]
    by_cases hc : buf k = charZero
    · rw [if_pos hc, ih (by omega), window_succ, stripped, stripped,
        List.dropWhile_cons_of_pos (by simpa using hc)]
    · rw [if_neg hc, stripped, window_succ, List.dropWhile_cons_of_neg (by simpa using hc),
        if_neg (by simp), ← window_succ]
      exact putEachNum_eq h

theorem stripped_snoc (text : List (BitVec 8)) (c : BitVec 8) : stripped (text ++ [c]) =
    if text.dropWhile (· = charZero) = [] then [c] else text.dropWhile (· = charZero) ++ [c] := by
  rw [stripped, List.dropWhile_append]
  by_cases h : text.dropWhile (· = charZero) = []
  · by_cases hc : c = charZero
    · simp [h, hc]
    · simp [h, hc]
  · simp [h]

theorem stripped_padded (h : n < 16 ^ k) :
    stripped ((padded 16 k n).map digitChar) = numeral 16 n := by
  induction k generalizing n with
  | zero =>
    obtain rfl : n = 0 := by simpa using h
    rfl
  | succ k ih =>
    have hdiv : n / 16 < 16 ^ k := Nat.div_lt_of_lt_mul (by rwa [Nat.pow_succ'] at h)
    rw [padded, List.map_append, List.map_singleton, stripped_snoc]
    have hprev := ih hdiv
    rw [stripped] at hprev
    split
    case isTrue hnil =>
      -- the numeral of the other digits is a single zero
      rw [if_pos hnil] at hprev
      have hzero := (canonical_numeral (by decide : 2 ≤ 16) (by decide) (n / 16)).value
      rw [← hprev] at hzero
      rw [numeral_of_lt (by decide) (hzero.symm.trans (by decide))]
    case isFalse hne =>
      rw [if_neg hne] at hprev
      have hpos : n / 16 ≠ 0 := by
        intro hz
        have hhead := List.head?_dropWhile_not (fun c => decide (c = charZero))
          ((padded 16 k (n / 16)).map digitChar)
        rw [hprev, hz, show numeral 16 0 = [charZero] from rfl] at hhead
        simp at hhead
      rw [digits_snoc (by decide) hpos, ← hprev]

theorem putInt_eq (number : BitVec 32) (buf : Bytes) :
    putInt number buf = numeral 16 number.toNat := by
  obtain ⟨hend, hdigits, -⟩ := based4bits_eq 8 number buf (Nat.le_refl 8)
  have hlt : number.toNat < 16 ^ 8 := number.isLt
  calc putInt number buf
      = stripped (window (based4bits 8 7#32 number buf).2 0 8) := by
        change (based4bits 8 7#32 number buf).1 = 0#32 - 1#32 at hend
        have hstart : 0#32 - 1#32 + 1#32 = BitVec.ofNat 32 0 := by decide
        rw [putInt, hend, hstart]
        exact skipPrefix0_put (Nat.zero_add 8)
    _ = stripped ((padded 16 8 number.toNat).map digitChar) := congrArg stripped hdigits
    _ = numeral 16 number.toNat := stripped_padded hlt

end

/-- `itoa` writes the canonical numeral, and in base 16 it is what `putInt` sends. -/
theorem itoa_canonical (n : BitVec 32) {base : ℕ} (hb : 2 ≤ base) (hb' : base ≤ 36) (s : Print) :
    ∃ text, Canonical base n.toNat text ∧ Writes text s (itoa n.toNat ⟨base, hb⟩ s) ∧
      (base = 16 → ∀ buf, putInt n buf = text) := by
  refine ⟨numeral base n.toNat, canonical_numeral hb hb' n.toNat, ?_, ?_⟩
  · rw [itoa_eq]
    exact writes_put s
  · rintro rfl buf
    exact putInt_eq n buf

/-- 0x1f0 is written and sent as "1F0". -/
theorem itoa_canonical_hex : (2 ≤ 16 ∧ 16 ≤ 36) ∧
    ∃ text, Canonical 16 (0x1f0#32).toNat text ∧
      Writes text ⟨fun _ => 0#8, 5, 1⟩ (itoa (0x1f0#32).toNat hexadecimal ⟨fun _ => 0#8, 5, 1⟩) ∧
      (16 = 16 → ∀ buf, putInt 0x1f0#32 buf = text) :=
  ⟨by decide, itoa_canonical 0x1f0#32 (by decide) (by decide) ⟨fun _ => 0#8, 5, 1⟩⟩

end KernelPutInt
