import Leeos.FsPaths
import Leeos.LibStdint
import Mathlib.Data.List.NodupEquivFin

/-!
# Searches in a string (`strchr`, `strrchr` and `strchrs` in `lib/string.c`)

A `Text` is what a pointer into an array of characters can read, the bytes from there to the end
of the array; behind its last byte there is nothing to read. An address is a number, and 0 is the
null pointer. `char` is signed, as the compiler has it on this machine.
-/
namespace LibStrings

open FsPaths
open LibStdint (charZero)

abbrev Text := List (BitVec 8)

inductive TextHalt where
  | nullPointer
  | pastEnd
  deriving DecidableEq, Repr

/-- `*str == ch` for a `char` and a `uint8_t`, both of which are widened to `int`. -/
def SameChar (c ch : BitVec 8) : Prop := c.toInt = ch.toNat

instance (c ch : BitVec 8) : Decidable (SameChar c ch) := inferInstanceAs (Decidable (_ = _))

def strchrLoop (ch : BitVec 8) : Text → ℕ → Except TextHalt ℕ
  | [], _ => .error .pastEnd
  | c :: text, str =>
    if c ≠ 0#8 then
      if SameChar c ch then .ok str else strchrLoop ch text (str + 1)
    else .ok 0

/-- `strchr(str, ch)` where `text` is to be read from the address `str` on. -/
def strchr (text : Text) (str : ℕ) (ch : BitVec 8) : Except TextHalt ℕ :=
  if str ≠ 0 then strchrLoop ch text str else .error .nullPointer

/-- The loop stops at the character `'0'`. -/
def strrchrLoop (ch : BitVec 8) : Text → ℕ → ℕ → Except TextHalt ℕ
  | [], _, _ => .error .pastEnd
  | c :: text, str, res =>
    if c ≠ charZero then
      strrchrLoop ch text (str + 1) (if SameChar c ch then str else res)
    else .ok res

/-- `res` is not initialised: `leftover` is what its place on the stack holds. -/
def strrchr (leftover : BitVec 32) (text : Text) (str : ℕ) (ch : BitVec 8) :
    Except TextHalt ℕ :=
  if str ≠ 0 then strrchrLoop ch text str leftover.toNat else .error .nullPointer

def strchrsLoop (ch : BitVec 8) : Text → BitVec 32 → Except TextHalt (BitVec 32)
  | [], _ => .error .pastEnd
  | c :: text, counter =>
    if c ≠ 0#8 then strchrsLoop ch text (if c = ch then counter + 1 else counter)
    else .ok counter

def strchrs (text : Text) (ch : BitVec 8) : Except TextHalt (BitVec 32) :=
  strchrsLoop ch text 0#32

/-- A string with its terminator at an address, all of it below 4 GB. -/
structure StoredString where
  str : ℕ
  bytes : CString
  nul_free : 0#8 ∉ bytes
  not_null : str ≠ 0
  fits : str + bytes.length < 2 ^ 32

def StoredString.text (s : StoredString) : Text := s.bytes ++ [0#8]

def IsFirst (s : StoredString) (ch : BitVec 8) (p : ℕ) : Prop :=
  ∃ i, p = s.str + i ∧ s.bytes[i]? = some ch ∧ ∀ j, s.bytes[j]? = some ch → i ≤ j

def IsLast (s : StoredString) (ch : BitVec 8) (p : ℕ) : Prop :=
  ∃ i, p = s.str + i ∧ s.bytes[i]? = some ch ∧ ∀ j, s.bytes[j]? = some ch → j ≤ i

/-- What the answers of the three searches are to say of the string and of each other. -/
structure Answers (s : StoredString) (ch : BitVec 8) (first last : ℕ) (n : BitVec 32) :
    Prop where
  is_first : ch ∈ s.bytes → IsFirst s ch first
  is_last : ch ∈ s.bytes → IsLast s ch last
  null_iff : first = 0 ∧ last = 0 ↔ n = 0#32
  same_iff : first = last ↔ n.toNat ≤ 1

/-- All three return, so none reads behind the terminator, and their answers are right whatever
the stack held. -/
def SearchesRight (s : StoredString) (ch : BitVec 8) : Prop :=
  ∀ leftover, ∃ first last n, strchr s.text s.str ch = .ok first ∧
    strrchr leftover s.text s.str ch = .ok last ∧ strchrs s.text ch = .ok n ∧
    Answers s ch first last n

/-- The string has a digit `'0'`, `ch` is an ASCII character, and it occurs before the first
`'0'` and not behind it. -/
def LastBeforeZero (s : StoredString) (ch : BitVec 8) : Prop :=
  charZero ∈ s.bytes ∧ ch.toNat < 128 ∧ ch ∈ s.bytes.takeWhile (· ≠ charZero) ∧
    ch ∉ s.bytes.dropWhile (· ≠ charZero)

instance (s : StoredString) (ch : BitVec 8) : Decidable (LastBeforeZero s ch) :=
  inferInstanceAs (Decidable (_ ∧ _))

section

variable {ch c : BitVec 8} {s : CString}

/-- A `char` from 0x80 on is negative and equals no `uint8_t`. -/
theorem sameChar_iff : SameChar c ch ↔ c = ch ∧ ch.toNat < 128 := by
  have hlt := c.isLt
  rw [SameChar, BitVec.toInt_eq_toNat_cond]
  constructor
  · intro h
    split at h
    · have he : c.toNat = ch.toNat := by omega
      exact ⟨BitVec.eq_of_toNat_eq he, by omega⟩
    · omega
  · rintro ⟨rfl, h⟩
    split
    · rfl
    · omega

theorem strchrLoop_absent (hnul : 0#8 ∉ s) (h : ch ∉ s ∨ 128 ≤ ch.toNat) (str : ℕ) :
    strchrLoop ch (s ++ [0#8]) str = .ok 0 := by
  induction s generalizing str with
  | nil => rfl
  | cons c rest ih =>
    have hc : c ≠ 0#8 := fun he => hnul (he ▸ List.mem_cons_self)
    have hsame : ¬ SameChar c ch := by
      rintro hsc
      obtain ⟨rfl, hlt⟩ := sameChar_iff.mp hsc
      rcases h with h | h
      · exact h List.mem_cons_self
      · omega
    simp only [List.cons_append, strchrLoop, if_pos hc, if_neg hsame]
    exact ih (fun hm => hnul (List.mem_cons_of_mem _ hm))
      (h.imp_left fun hn hm => hn (List.mem_cons_of_mem _ hm)) _

theorem strchrLoop_present (hnul : 0#8 ∉ s) (hmem : ch ∈ s) (hlt : ch.toNat < 128) (str : ℕ) :
    strchrLoop ch (s ++ [0#8]) str = .ok (str + s.idxOf ch) := by
  induction s generalizing str with
  | nil => cases hmem
  | cons c rest ih =>
    have hc : c ≠ 0#8 := fun he => hnul (he ▸ List.mem_cons_self)
    simp only [List.cons_append, strchrLoop, if_pos hc]
    by_cases he : c = ch
    · subst he
      rw [if_pos (sameChar_iff.mpr ⟨rfl, hlt⟩)]
      simp
    · have hmem' : ch ∈ rest := (List.mem_cons.mp hmem).resolve_left (Ne.symm he)
      rw [if_neg fun hsc => he (sameChar_iff.mp hsc).1,
        ih (fun hm => hnul (List.mem_cons_of_mem _ hm)) hmem']
      simp only [List.idxOf_cons_ne _ he]
      congr 1
      omega

theorem strchrsLoop_eq (hnul : 0#8 ∉ s) (counter : BitVec 32) :
    strchrsLoop ch (s ++ [0#8]) counter = .ok (counter + BitVec.ofNat 32 (s.count ch)) := by
  induction s generalizing counter with
  | nil => simp [strchrsLoop]
  | cons c rest ih =>
    have hc : c ≠ 0#8 := fun he => hnul (he ▸ List.mem_cons_self)
    simp only [List.cons_append, strchrsLoop, if_pos hc]
    rw [ih fun hm => hnul (List.mem_cons_of_mem _ hm)]
    by_cases he : c = ch
    · subst he
      simp only [if_pos, List.count_cons_self, BitVec.ofNat_add]
      congr 1
      exact (BitVec.add_assoc _ _ _).trans (congrArg _ (BitVec.add_comm _ _))
    · simp [he]

theorem strrchrLoop_pastEnd (h : charZero ∉ s) (str res : ℕ) :
    strrchrLoop ch (s ++ [0#8]) str res = .error .pastEnd := by
  induction s generalizing str res with
  | nil => rfl
  | cons c rest ih =>
    have hc : c ≠ charZero := fun he => h (he ▸ List.mem_cons_self)
    simp only [List.cons_append, strrchrLoop, if_pos hc]
    exact ih (fun hm => h (List.mem_cons_of_mem _ hm)) _ _

/-- With one it stops there, and answers the last place it has passed or else what was left. -/
theorem strrchrLoop_stops (h : charZero ∈ s) (text : Text) (str res : ℕ) :
    ∃ r, strrchrLoop ch (s ++ text) str res = .ok r ∧
      ((ch ∉ s.takeWhile (· ≠ charZero) ∨ 128 ≤ ch.toNat) ∧ r = res ∨
        ch.toNat < 128 ∧ ∃ i, r = str + i ∧ (s.takeWhile (· ≠ charZero))[i]? = some ch ∧
          ∀ j, (s.takeWhile (· ≠ charZero))[j]? = some ch → j ≤ i) := by
  induction s generalizing str res with
  | nil => cases h
  | cons c rest ih =>
    by_cases hc : c = charZero
    · refine ⟨res, ?_, Or.inl ⟨Or.inl ?_, rfl⟩⟩
      · simp [strrchrLoop, hc]
      · simp [hc]
    · have hmem : charZero ∈ rest := (List.mem_cons.mp h).resolve_left (Ne.symm hc)
      obtain ⟨r, hrun, hr⟩ := ih hmem (str + 1) (if SameChar c ch then str else res)
      refine ⟨r, ?_, ?_⟩
      · simp only [List.cons_append, strrchrLoop, if_pos hc]
        exact hrun
      · have htake : (c :: rest).takeWhile (· ≠ charZero) =
            c :: rest.takeWhile (· ≠ charZero) := by simp [hc]
        rw [htake]
        rcases hr with ⟨habs, rfl⟩ | ⟨hlt, i, rfl, hi, hlast⟩
        · by_cases hsame : SameChar c ch
          · -- the character stands here and, below 0x80, not behind it
            obtain ⟨rfl, hlt⟩ := sameChar_iff.mp hsame
            have hnot := habs.resolve_right (by omega)
            refine Or.inr ⟨hlt, 0, by simp [hsame], rfl, fun j hj => ?_⟩
            cases j with
            | zero => exact le_rfl
            | succ j =>
              rw [List.getElem?_cons_succ] at hj
              exact absurd (List.mem_of_getElem? hj) hnot
          · refine Or.inl ⟨?_, by simp [hsame]⟩
            refine habs.elim (fun hn => ?_) Or.inr
            by_cases hlt : ch.toNat < 128
            · refine Or.inl fun hm => ?_
              rcases List.mem_cons.mp hm with he | hm
              · exact hsame (sameChar_iff.mpr ⟨he.symm, hlt⟩)
              · exact hn hm
            · exact Or.inr (by omega)
        · refine Or.inr ⟨hlt, i + 1, by omega, hi, fun j hj => ?_⟩
          cases j with
          | zero => exact Nat.zero_le _
          | succ j => exact Nat.succ_le_succ (hlast j hj)

/-- A character occurs at most once exactly when it has one place. -/
theorem count_le_one_iff : s.count ch ≤ 1 ↔
    ∀ i j : ℕ, s[i]? = some ch → s[j]? = some ch → i = j := by
  have hdup : s.count ch ≤ 1 ↔ ¬ s.Duplicate ch := by
    rw [List.duplicate_iff_two_le_count]
    omega
  rw [hdup, List.duplicate_iff_exists_distinct_get]
  constructor
  · intro hno i j hi hj
    obtain ⟨hilt, hi⟩ := List.getElem?_eq_some_iff.mp hi
    obtain ⟨hjlt, hj⟩ := List.getElem?_eq_some_iff.mp hj
    rcases Nat.lt_trichotomy i j with h | h | h
    · exact absurd ⟨⟨i, hilt⟩, ⟨j, hjlt⟩, h, hi.symm, hj.symm⟩ hno
    · exact h
    · exact absurd ⟨⟨j, hjlt⟩, ⟨i, hilt⟩, h, hj.symm, hi.symm⟩ hno
  · rintro hone ⟨i, j, hlt, hi, hj⟩
    have he := hone i j (List.getElem?_eq_some_iff.mpr ⟨i.isLt, hi.symm⟩)
      (List.getElem?_eq_some_iff.mpr ⟨j.isLt, hj.symm⟩)
    exact Nat.ne_of_lt hlt he

theorem idxOf_le {j : ℕ} (hmem : ch ∈ s) (hj : s[j]? = some ch) : s.idxOf ch ≤ j := by
  have htake : ch ∈ s.take (j + 1) := by
    refine List.mem_of_getElem? (i := j) ?_
    rw [List.getElem?_take_of_lt (Nat.lt_succ_self j)]
    exact hj
  exact Nat.le_of_lt_succ ((List.mem_take_iff_idxOf_lt hmem).mp htake)

end

section

variable {ch : BitVec 8} {s : StoredString} {leftover : BitVec 32}

/-- `strchr` is right for every ASCII character, and finds no other. -/
theorem strchr_eq (s : StoredString) (ch : BitVec 8) : strchr s.text s.str ch =
    .ok (if ch ∈ s.bytes ∧ ch.toNat < 128 then s.str + s.bytes.idxOf ch else 0) := by
  rw [strchr, if_pos s.not_null]
  split
  case isTrue h => exact strchrLoop_present s.nul_free h.1 h.2 s.str
  case isFalse h =>
    refine strchrLoop_absent s.nul_free ?_ s.str
    by_cases hmem : ch ∈ s.bytes
    · exact Or.inr (Nat.le_of_not_lt fun hlt => h ⟨hmem, hlt⟩)
    · exact Or.inl hmem

theorem isFirst_idxOf (hmem : ch ∈ s.bytes) : IsFirst s ch (s.str + s.bytes.idxOf ch) :=
  ⟨_, rfl, List.getElem?_idxOf hmem, fun _ => idxOf_le hmem⟩

theorem strchrs_eq : strchrs s.text ch = .ok (BitVec.ofNat 32 (s.bytes.count ch)) := by
  have h : strchrs s.text ch = .ok (0#32 + BitVec.ofNat 32 (s.bytes.count ch)) :=
    strchrsLoop_eq s.nul_free 0#32
  rwa [BitVec.zero_add] at h

/-- The counter does not overflow on a string that fits below 4 GB. -/
theorem strchrs_toNat : (BitVec.ofNat 32 (s.bytes.count ch)).toNat = s.bytes.count ch := by
  have hle : s.bytes.count ch ≤ s.bytes.length := List.count_le_length
  have hfits := s.fits
  exact Nat.mod_eq_of_lt (by omega)

theorem strrchr_pastEnd (h : charZero ∉ s.bytes) :
    strrchr leftover s.text s.str ch = .error .pastEnd := by
  rw [strrchr, if_pos s.not_null]
  exact strrchrLoop_pastEnd h s.str _

theorem strrchr_stops (h : charZero ∈ s.bytes) :
    ∃ last, strrchr leftover s.text s.str ch = .ok last ∧
      ((ch ∉ s.bytes.takeWhile (· ≠ charZero) ∨ 128 ≤ ch.toNat) ∧ last = leftover.toNat ∨
        ch.toNat < 128 ∧ ∃ i, last = s.str + i ∧
          (s.bytes.takeWhile (· ≠ charZero))[i]? = some ch ∧
          ∀ j, (s.bytes.takeWhile (· ≠ charZero))[j]? = some ch → j ≤ i) := by
  rw [strrchr, if_pos s.not_null]
  exact strrchrLoop_stops h [0#8] s.str _

/-- The places of the string are those before its first `'0'` and those from there on. -/
theorem getElem?_split (j : ℕ) : s.bytes[j]? =
    if j < (s.bytes.takeWhile (· ≠ charZero)).length then
      (s.bytes.takeWhile (· ≠ charZero))[j]?
    else (s.bytes.dropWhile (· ≠ charZero))[j - (s.bytes.takeWhile (· ≠ charZero)).length]? := by
  calc s.bytes[j]?
      = (s.bytes.takeWhile (· ≠ charZero) ++ s.bytes.dropWhile (· ≠ charZero))[j]? := by
        rw [List.takeWhile_append_dropWhile]
    _ = _ := List.getElem?_append

theorem isLast_iff {i : ℕ} (h : (s.bytes.takeWhile (· ≠ charZero))[i]? = some ch)
    (hlast : ∀ j, (s.bytes.takeWhile (· ≠ charZero))[j]? = some ch → j ≤ i) :
    IsLast s ch (s.str + i) ↔ ch ∉ s.bytes.dropWhile (· ≠ charZero) := by
  obtain ⟨hi, -⟩ := List.getElem?_eq_some_iff.mp h
  constructor
  · rintro ⟨i', he, -, hmax⟩ hmem
    obtain ⟨k, hk⟩ := List.mem_iff_getElem?.mp hmem
    have hle := hmax ((s.bytes.takeWhile (· ≠ charZero)).length + k) (by
      rw [getElem?_split, if_neg (by omega), Nat.add_sub_cancel_left]
      exact hk)
    omega
  · intro hno
    refine ⟨i, rfl, ?_, fun j hj => ?_⟩
    · rw [getElem?_split, if_pos hi]
      exact h
    · rw [getElem?_split] at hj
      split at hj
      · exact hlast j hj
      · exact absurd (List.mem_of_getElem? hj) hno

/-- The two pointers and the count of one string go together. -/
theorem answers_of_places {first last : ℕ} (hmem : ch ∈ s.bytes) (hfirst : IsFirst s ch first)
    (hlast : IsLast s ch last) :
    Answers s ch first last (BitVec.ofNat 32 (s.bytes.count ch)) := by
  have hpos := s.not_null
  have hcount : 0 < s.bytes.count ch := List.count_pos_iff.mpr hmem
  obtain ⟨i, rfl, hi, hmin⟩ := id hfirst
  obtain ⟨j, rfl, hj, hmax⟩ := id hlast
  refine ⟨fun _ => hfirst, fun _ => hlast, ?_, ?_⟩
  · constructor
    · intro h
      omega
    · intro h
      have hzero := congrArg BitVec.toNat h
      rw [strchrs_toNat] at hzero
      exact absurd hzero (Nat.ne_of_gt hcount)
  · rw [strchrs_toNat, count_le_one_iff]
    constructor
    · intro he k l hk hl
      have := hmin k hk
      have := hmin l hl
      have := hmax k hk
      have := hmax l hl
      omega
    · intro hone
      rw [hone i j hi hj]

end

/-- The stop at `'0'` instead of at the terminator, the signed comparison and the pointer without
a value leave the searches right on these strings only. -/
theorem searches_right_iff (s : StoredString) (ch : BitVec 8) :
    SearchesRight s ch ↔ LastBeforeZero s ch := by
  constructor
  · intro hright
    -- a leftover that is no place of the string and not null
    have hfits : (BitVec.ofNat 32 (s.str + s.bytes.length)).toNat = s.str + s.bytes.length :=
      Nat.mod_eq_of_lt s.fits
    obtain ⟨first, last, n, -, hlast, hn, hans⟩ :=
      hright (BitVec.ofNat 32 (s.str + s.bytes.length))
    have hzero : charZero ∈ s.bytes := by
      by_contra hno
      rw [strrchr_pastEnd hno] at hlast
      cases hlast
    obtain ⟨r, hrun, hr⟩ := strrchr_stops hzero
    obtain rfl : r = last := Except.ok.inj (hrun.symm.trans hlast)
    rcases hr with ⟨-, rfl⟩ | ⟨hlt, i, rfl, hi, hmax⟩
    · by_cases hmem : ch ∈ s.bytes
      · obtain ⟨i, he, hi, -⟩ := hans.is_last hmem
        obtain ⟨hlt, -⟩ := List.getElem?_eq_some_iff.mp hi
        omega
      · have hn0 : n = 0#32 := by
          have hcount := strchrs_eq.symm.trans hn
          rw [List.count_eq_zero.mpr hmem] at hcount
          exact (Except.ok.inj hcount).symm
        have hnull := (hans.null_iff.mpr hn0).2
        have hpos := s.not_null
        omega
    · have hmem : ch ∈ s.bytes.takeWhile (· ≠ charZero) := List.mem_of_getElem? hi
      have hmem' := (List.takeWhile_prefix _).subset hmem
      exact ⟨hzero, hlt, hmem, (isLast_iff hi hmax).mp (hans.is_last hmem')⟩
  · rintro ⟨hzero, hlt, hmem, hno⟩ leftover
    have hmem' := (List.takeWhile_prefix _).subset hmem
    have hfirst := strchr_eq s ch
    rw [if_pos ⟨hmem', hlt⟩] at hfirst
    obtain ⟨last, hlast, hr⟩ := @strrchr_stops ch s leftover hzero
    have hisLast : IsLast s ch last := by
      rcases hr with ⟨habs, -⟩ | ⟨-, i, rfl, hi, hmax⟩
      · rcases habs with habs | habs
        · exact absurd hmem habs
        · omega
      · exact (isLast_iff hi hmax).mpr hno
    exact ⟨_, last, _, hfirst, hlast, strchrs_eq,
      answers_of_places hmem' (isFirst_idxOf hmem') hisLast⟩

/-- "a0", in which both searches for "a" find it. -/
example : LastBeforeZero ⟨0x1000, [0x61#8, 0x30#8], by decide, by decide, by decide⟩ 0x61#8 := by
  decide

/-- "ab". -/
def stringAB : StoredString := ⟨0x1000, [0x61#8, 0x62#8], by decide, by decide, by decide⟩

/-- In "ab" the search for the last "a" reads behind the terminator, and `strchr` does not find
a character from 0x80 on. -/
theorem searches_fail : ¬ SearchesRight stringAB 0x61#8 ∧
    ¬ SearchesRight ⟨0x1000, [0xe4#8, 0x30#8], by decide, by decide, by decide⟩ 0xe4#8 := by
  constructor
  · intro h
    obtain ⟨first, last, n, -, hlast, -⟩ := h 0
    cases hlast
  · intro h
    obtain ⟨first, last, n, hfirst, -, -, hans⟩ := h 0
    cases hfirst
    obtain ⟨i, he, -⟩ := hans.is_first (by decide)
    change 0 = 0x1000 + i at he
    omega

end LibStrings
