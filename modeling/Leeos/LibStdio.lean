import Leeos.ExecRules
import Leeos.KernelBitmap
import Leeos.FsPaths
import Mathlib.Data.Nat.Digits.Defs
import Mathlib.Data.List.GetD

/-!
# Formatted output (`lib/stdio.c`)

`dest` is the memory from the destination buffer on, `strIndex` the offset of `str_index` in it,
and `ap` the number of arguments taken. `args` are the words behind the format on the stack, and
`strings` the strings, outside the buffer, that words point to. `strlen` runs on fuel.
-/
namespace LibStdio

open ExecRules KernelBitmap FsPaths

structure Print where
  dest : Bytes
  strIndex : ℕ
  ap : ℕ

inductive PrintHalt where
  | nullString
  | fuel
  deriving DecidableEq, Repr

abbrev PrintM (α : Type) := Exec PrintHalt Print α

def Print.emit (s : Print) (c : BitVec 8) : Print :=
  { s with
    dest := Function.update s.dest s.strIndex c
    strIndex := s.strIndex + 1 }

def digitChar (remainder : ℕ) : BitVec 8 :=
  if remainder < 10 then BitVec.ofNat 8 (remainder + 0x30)
  else BitVec.ofNat 8 (remainder - 10 + 0x41)

/-- The bases with which `itoa` comes to an end. -/
abbrev Base := { b : ℕ // 2 ≤ b }

def itoa (number : ℕ) (base : Base) (s : Print) : Print :=
  let s' := if number / base ≠ 0 then itoa (number / base) base s else s
  s'.emit (digitChar (number % base))
termination_by number
decreasing_by
  apply Nat.div_lt_self
  · exact Nat.pos_of_ne_zero fun he => by simp [he] at *
  · exact base.2

def hexadecimal : Base := ⟨16, by decide⟩
def decimal : Base := ⟨10, by decide⟩

def strcpy : CString → ℕ → Bytes → Bytes
  | [], dst, m => Function.update m dst 0#8
  | c :: src, dst, m => strcpy src (dst + 1) (Function.update m dst c)

def strlenLoop : ℕ → ℕ → Bytes → Option ℕ
  | 0, _, _ => none
  | fuel + 1, len, str => if str len ≠ 0#8 then strlenLoop fuel (len + 1) str else some len

def strlen (fuel : ℕ) (str : Bytes) : Option ℕ := strlenLoop fuel 0 str

section

variable (args : ℕ → BitVec 32) (strings : BitVec 32 → CString)

def vaArg : PrintM (BitVec 32) := do
  let s ← get
  set { s with ap := s.ap + 1 }
  pure (args s.ap)

def percent : BitVec 8 := 0x25#8
def charX : BitVec 8 := 0x78#8
def charS : BitVec 8 := 0x73#8
def charC : BitVec 8 := 0x63#8
def charD : BitVec 8 := 0x64#8

/-- The cases of the switch but the default, with the argument they take. `number` is unsigned. -/
def convert (c : BitVec 8) (arg : BitVec 32) : PrintM Unit := do
  if c = charX then modify (itoa arg.toNat hexadecimal)
  else if c = charS then
    ensure .nullString (arg ≠ 0)
    modify fun s => { s with dest := strcpy (strings arg) s.strIndex s.dest
                             strIndex := s.strIndex + (strings arg).length }
  else if c = charC then modify fun s => s.emit (arg.setWidth 8)
  else if arg < 0 then modify fun s => itoa (0 - arg).toNat decimal (s.emit 0x2d#8)
  else modify (itoa arg.toNat decimal)

def directive (c : BitVec 8) : PrintM Unit := do
  let arg ← vaArg args
  convert strings c arg

def IsDirective (c : BitVec 8) : Prop := c = charX ∨ c = charS ∨ c = charC ∨ c = charD

instance (c : BitVec 8) : Decidable (IsDirective c) := inferInstanceAs (Decidable (_ ∨ _))

/-- The default case leaves the character where it is, and the loop goes on with it. -/
def vsprintfLoop : CString → PrintM Unit
  | [] => pure ()
  | [c] => if c ≠ percent then modify fun s => s.emit c else pure ()
  | c :: d :: rest =>
    if c ≠ percent then do
      modify fun s => s.emit c
      vsprintfLoop (d :: rest)
    else if IsDirective d then do
      directive args strings d
      vsprintfLoop rest
    else vsprintfLoop (d :: rest)

def vsprintf (fuel : ℕ) (format : CString) : PrintM ℕ := do
  vsprintfLoop args strings format
  let s ← get
  match strlen fuel s.dest with
  | some len => pure len
  | none => throw .fuel

def sprintf (fuel : ℕ) (format : CString) (buf : Bytes) : Except PrintHalt (ℕ × Print) :=
  vsprintf args strings fuel format ⟨buf, 0, 0⟩

/-! ## Formats and their rendering -/

inductive Piece where
  | literal (c : BitVec 8) (h : c ≠ 0#8 ∧ c ≠ percent)
  | hex
  | dec
  | str
  | chr
  deriving DecidableEq

def Piece.format : Piece → CString
  | .literal c _ => [c]
  | .hex => [percent, charX]
  | .dec => [percent, charD]
  | .str => [percent, charS]
  | .chr => [percent, charC]

def formatOf (ps : List Piece) : CString := ps.flatMap Piece.format

def Piece.takes : Piece → ℕ
  | .literal _ _ => 0
  | _ => 1

def takes (ps : List Piece) : ℕ := (ps.map Piece.takes).sum

/-- The digits of a number, the first one not 0 unless the number is. -/
def numeral (base n : ℕ) : List (BitVec 8) :=
  if n = 0 then [0x30#8] else ((Nat.digits base n).reverse).map digitChar

def signedDecimal (w : BitVec 32) : List (BitVec 8) :=
  if w.toInt < 0 then 0x2d#8 :: numeral 10 w.toInt.natAbs else numeral 10 w.toInt.natAbs

/-- What a piece stands for, with `k` arguments taken before it. -/
def Piece.meaning (k : ℕ) : Piece → List (BitVec 8)
  | .literal c _ => [c]
  | .hex => numeral 16 (args k).toNat
  | .dec => signedDecimal (args k)
  | .str => strings (args k)
  | .chr => [(args k).setWidth 8]

def Piece.written (k : ℕ) : Piece → List (BitVec 8)
  | .dec => numeral 10 (args k).toNat
  | p => p.meaning args strings k

/-- The pieces one after the other, each at its argument. -/
def rendering (text : ℕ → Piece → List (BitVec 8)) : ℕ → List Piece → List (BitVec 8)
  | _, [] => []
  | k, p :: ps => text k p ++ rendering text (k + p.takes) ps

def render (ps : List Piece) : List (BitVec 8) := rendering (Piece.meaning args strings) 0 ps

/-- The arguments fit the pieces: where a string is due, there is a pointer to one. -/
def Matching : ℕ → List Piece → Prop
  | _, [] => True
  | k, .str :: ps => (args k ≠ 0 ∧ 0#8 ∉ strings (args k)) ∧ Matching (k + 1) ps
  | k, p :: ps => Matching (k + p.takes) ps

/-- The arguments of `%d` are not negative. -/
def NoNegative : ℕ → List Piece → Prop
  | _, [] => True
  | k, .dec :: ps => (args k).toNat < 2 ^ 31 ∧ NoNegative (k + 1) ps
  | k, p :: ps => NoNegative (k + p.takes) ps

/-- On a zero-filled buffer: the arguments are taken one by one, the buffer holds the rendering
and zeros behind it, and without a NUL character in it its length is returned. -/
def VsprintfOk (ps : List Piece) : Prop :=
  ∃ out : Print, out.ap = takes ps ∧
    (∀ i, out.dest i = (render args strings ps).getD i 0#8) ∧
    ∀ fuel > (render args strings ps).length, ∃ len,
      vsprintf args strings fuel (formatOf ps) ⟨fun _ => 0#8, 0, 0⟩ = .ok (len, out) ∧
      (0#8 ∉ render args strings ps → len = (render args strings ps).length)

end

variable {args : ℕ → BitVec 32} {strings : BitVec 32 → CString} {s : Print} {p : Piece}
  {ps : List Piece} {text rest : List (BitVec 8)} {i n k : ℕ}

/-! ## What one piece writes -/

/-- `text` is put at `str_index`, and a NUL behind it if `str_index` stays before that. -/
def Print.put (s : Print) (text : List (BitVec 8)) (nul : Bool) (taken : ℕ) : Print where
  dest := fun i =>
    if s.strIndex ≤ i ∧ i < s.strIndex + text.length then text.getD (i - s.strIndex) 0#8
    else if nul ∧ i = s.strIndex + text.length then 0#8
    else s.dest i
  strIndex := s.strIndex + text.length
  ap := s.ap + taken

theorem put_nil (s : Print) : s.put [] false 0 = s := by
  simp only [Print.put, List.length_nil, Nat.add_zero]
  congr
  funext i
  rw [if_neg (by omega), if_neg (by simp)]

theorem put_emit (s : Print) (text : List (BitVec 8)) (c : BitVec 8) :
    (s.put text false 0).emit c = s.put (text ++ [c]) false 0 := by
  simp only [Print.put, Print.emit, List.length_append, List.length_singleton]
  congr 1
  funext i
  rw [Function.update_apply]
  by_cases hi : i = s.strIndex + text.length
  · rw [if_pos hi, if_pos (by omega), List.getD_append_right _ _ _ _ (by omega)]
    simp [hi]
  · rw [if_neg hi]
    by_cases hin : s.strIndex ≤ i ∧ i < s.strIndex + text.length
    · rw [if_pos hin, if_pos (by omega), List.getD_append _ _ _ _ (by omega)]
    · rw [if_neg hin, if_neg (by simp), if_neg (by omega), if_neg (by simp)]

theorem strcpy_eq (src : CString) (dst : ℕ) (m : Bytes) : strcpy src dst m = fun i =>
    if dst ≤ i ∧ i < dst + src.length then src.getD (i - dst) 0#8
    else if i = dst + src.length then 0#8 else m i := by
  induction src generalizing dst m with
  | nil =>
    funext i
    by_cases hi : i = dst
    · simp [strcpy, hi]
    · have hout : ¬ (dst ≤ i ∧ i < dst) := by omega
      simp [strcpy, hi, hout]
  | cons c src ih =>
    rw [strcpy, ih]
    funext i
    by_cases hi : i = dst
    · simp only [hi, Function.update_self]
      rw [if_neg (by omega), if_neg (by omega), if_pos (by simp), Nat.sub_self, List.getD_cons_zero]
    · have hin : dst + 1 ≤ i ∧ i < dst + 1 + src.length ↔
          dst ≤ i ∧ i < dst + (c :: src).length := by
        rw [List.length_cons]
        omega
      have hend : i = dst + 1 + src.length ↔ i = dst + (c :: src).length := by
        rw [List.length_cons]
        omega
      simp only [hin, hend, Function.update_of_ne hi]
      split_ifs with h
      · rw [show i - dst = i - (dst + 1) + 1 by omega, List.getD_cons_succ]
      · rfl
      · rfl

theorem digits_snoc {b n : ℕ} (hb : 2 ≤ b) (h : n / b ≠ 0) :
    numeral b n = numeral b (n / b) ++ [digitChar (n % b)] := by
  have hn : 0 < n := Nat.pos_of_ne_zero fun he => h (by rw [he, Nat.zero_div])
  rw [numeral, numeral, if_neg hn.ne', if_neg h, Nat.digits_def' hb hn, List.reverse_cons,
    List.map_append, List.map_singleton]

theorem numeral_of_lt {b n : ℕ} (hb : 2 ≤ b) (h : n / b = 0) :
    numeral b n = [digitChar (n % b)] := by
  have hlt : n < b := (Nat.div_eq_zero_iff_lt (by omega)).mp h
  rw [numeral, Nat.mod_eq_of_lt hlt]
  split
  case isTrue hz => rw [hz]; rfl
  case isFalse hz => rw [Nat.digits_of_lt b n hz hlt]; rfl

theorem itoa_eq (n : ℕ) (base : Base) (s : Print) :
    itoa n base s = s.put (numeral base n) false 0 := by
  induction n using Nat.strongRecOn with
  | ind n ih =>
    rw [itoa]
    by_cases h : n / base ≠ 0
    · have hn : 0 < n := Nat.pos_of_ne_zero fun he => h (by rw [he, Nat.zero_div])
      rw [if_pos h, ih _ (Nat.div_lt_self hn base.2), put_emit, digits_snoc base.2 h]
    · rw [if_neg h, numeral_of_lt base.2 (not_not.mp h)]
      simpa [put_nil] using put_emit s [] (digitChar (n % base))

theorem emit_eq (s : Print) (c : BitVec 8) : s.emit c = s.put [c] false 0 := by
  simpa [put_nil] using put_emit s [] c

/-- A NUL between two texts is overwritten by the second, if that is not empty. -/
theorem put_put {t t' : List (BitVec 8)} {b b' : Bool} {n n' : ℕ}
    (h : b = true → t' ≠ [] ∨ b' = true) :
    (s.put t b n).put t' b' n' = s.put (t ++ t') b' (n + n') := by
  simp only [Print.put, List.length_append, Nat.add_assoc]
  congr 1
  funext i
  by_cases hfirst : s.strIndex ≤ i ∧ i < s.strIndex + t.length
  · rw [if_neg (by omega), if_neg (by omega), if_pos hfirst, if_pos (by omega),
      List.getD_append _ _ _ _ (by omega)]
  · by_cases hsecond : s.strIndex + t.length ≤ i ∧ i < s.strIndex + (t.length + t'.length)
    · rw [if_pos hsecond, if_pos (by omega), List.getD_append_right _ _ _ _ (by omega)]
      congr 1
      omega
    · have hout : ¬ (s.strIndex ≤ i ∧ i < s.strIndex + (t.length + t'.length)) := by omega
      rw [if_neg hsecond, if_neg hout, if_neg hfirst]
      by_cases hend : b' = true ∧ i = s.strIndex + (t.length + t'.length)
      · rw [if_pos hend, if_pos hend]
      · rw [if_neg hend, if_neg hend, if_neg]
        rintro ⟨hb, hi⟩
        rcases h hb with hne | hb'
        · have := List.length_pos_iff.mpr hne
          omega
        · have : t'.length ≠ 0 := fun he => hend ⟨hb', by omega⟩
          omega

theorem matching_cons : Matching args strings k (p :: ps) ↔
    (p = .str → args k ≠ 0 ∧ 0#8 ∉ strings (args k)) ∧ Matching args strings (k + p.takes) ps := by
  cases p <;> simp [Matching, Piece.takes]

theorem noNegative_cons : NoNegative args k (p :: ps) ↔
    (p = .dec → (args k).toNat < 2 ^ 31) ∧ NoNegative args (k + p.takes) ps := by
  cases p <;> simp [NoNegative, Piece.takes]

theorem directive_apply (c : BitVec 8) : directive args strings c s =
    convert strings c (args s.ap) { s with ap := s.ap + 1 } := rfl

theorem vsprintfLoop_piece (hp : p = .str → args s.ap ≠ 0) :
    vsprintfLoop args strings (p.format ++ rest) s = vsprintfLoop args strings rest
      (s.put (p.written args strings s.ap) (decide (p = .str)) p.takes) := by
  have hdir : ∀ d, IsDirective d → vsprintfLoop args strings ([percent, d] ++ rest) s =
      (do directive args strings d; vsprintfLoop args strings rest : PrintM Unit) s := by
    intro d hd
    exact congrFun ((if_neg (not_not.mpr rfl)).trans (if_pos hd)) s
  cases p with
  | literal c h =>
    have hput : s.emit c = s.put [c] false 0 := emit_eq s c
    cases rest with
    | nil =>
      refine (congrFun (if_pos h.2) s).trans ?_
      rw [modify_apply, hput]
      rfl
    | cons d rest =>
      refine (congrFun (if_pos h.2) s).trans ?_
      rw [modify_bind, hput]
      rfl
  | hex =>
    rw [Piece.format, hdir _ (by decide)]
    apply (bind_of_ok rfl).trans
    rw [itoa_eq]
    rfl
  | dec =>
    have hrun : directive args strings charD s =
        .ok ((), itoa (args s.ap).toNat decimal { s with ap := s.ap + 1 }) := by
      have hpos : ¬ args s.ap < 0 := BitVec.not_lt_zero
      rw [directive_apply, convert, if_neg (by decide), if_neg (by decide), if_neg (by decide),
        if_neg hpos, modify_apply]
    rw [Piece.format, hdir _ (by decide), bind_of_ok hrun, itoa_eq]
    rfl
  | str =>
    have hrun : directive args strings charS s = .ok ((), s.put (strings (args s.ap)) true 1) := by
      rw [directive_apply, convert, if_neg (by decide), if_pos rfl,
        ensure_bind_of_true (hp rfl), modify_apply, strcpy_eq]
      simp only [Print.put, true_and]
    rw [Piece.format, hdir _ (by decide), bind_of_ok hrun]
    rfl
  | chr =>
    have hrun : directive args strings charC s =
        .ok ((), { s with ap := s.ap + 1 }.emit ((args s.ap).setWidth 8)) := by
      rw [directive_apply, convert, if_neg (by decide), if_neg (by decide), if_pos rfl,
        modify_apply]
    rw [Piece.format, hdir _ (by decide), bind_of_ok hrun, emit_eq]
    rfl

/-! ## Formats -/

theorem numeral_chars {b n : ℕ} (hb : 2 ≤ b) :
    numeral b n ≠ [] ∧ ∀ c ∈ numeral b n, ∃ d < b, c = digitChar d := by
  rw [numeral]
  split
  case isTrue => exact ⟨by simp, fun c hc => ⟨0, by omega, List.mem_singleton.mp hc⟩⟩
  case isFalse h =>
    constructor
    · simpa using Nat.digits_ne_nil_iff_ne_zero.mpr h
    · intro c hc
      obtain ⟨d, hd, rfl⟩ := List.mem_map.mp hc
      exact ⟨d, Nat.digits_lt_base hb (List.mem_reverse.mp hd), rfl⟩

theorem written_ne_nil (h : p ≠ .str) : p.written args strings k ≠ [] := by
  cases p with
  | literal c hc => exact List.cons_ne_nil c []
  | hex => exact (numeral_chars (by decide)).1
  | dec => exact (numeral_chars (by decide)).1
  | str => exact (h rfl).elim
  | chr => exact List.cons_ne_nil _ []

/-- A format that writes nothing ends with a string, unless it is empty. -/
theorem rendering_ne_nil (h : ps ≠ []) : rendering (Piece.written args strings) k ps ≠ [] ∨
    ps.getLast? = some .str := by
  induction ps generalizing k with
  | nil => exact (h rfl).elim
  | cons p ps ih =>
    by_cases hp : p = .str
    · by_cases hps : ps = []
      · exact Or.inr (by rw [hps, hp]; rfl)
      · rcases ih hps with hne | hlast
        · exact Or.inl fun he => hne (List.append_eq_nil_iff.mp he).2
        · exact Or.inr (by rw [List.getLast?_cons, hlast]; rfl)
    · exact Or.inl fun he => written_ne_nil hp (List.append_eq_nil_iff.mp he).1

theorem vsprintfLoop_eq (hm : Matching args strings s.ap ps) :
    vsprintfLoop args strings (formatOf ps) s = .ok ((),
      s.put (rendering (Piece.written args strings) s.ap ps)
        (decide (ps.getLast? = some .str)) (takes ps)) := by
  induction ps generalizing s with
  | nil =>
    exact congrArg (fun t => Except.ok ((), t)) (put_nil s).symm
  | cons p ps ih =>
    obtain ⟨hp, hrest⟩ := matching_cons.mp hm
    rw [formatOf, List.flatMap_cons]
    apply (vsprintfLoop_piece fun he => (hp he).1).trans
    apply (ih hrest).trans
    have htakes : takes (p :: ps) = p.takes + takes ps := List.sum_cons
    rw [rendering, htakes]
    cases ps with
    | nil =>
      simp only [rendering, List.append_nil, List.getLast?_singleton, Option.some.injEq]
      exact congrArg (fun t => Except.ok ((), t)) (put_nil _)
    | cons q qs =>
      rw [List.getLast?_cons_cons, put_put]
      · rfl
      · intro _
        exact (rendering_ne_nil (List.cons_ne_nil q qs)).imp_right decide_eq_true

/-! ## The length -/

theorem strlenLoop_eq {fuel len : ℕ} {str : Bytes} (hn : str n = 0#8)
    (hb : ∀ i < n, str i ≠ 0#8) (hle : len ≤ n) (hf : n < len + fuel) :
    strlenLoop fuel len str = some n := by
  induction fuel generalizing len with
  | zero => omega
  | succ fuel ih =>
    rw [strlenLoop]
    split
    case isTrue h =>
      have : len ≠ n := fun he => h (he ▸ hn)
      exact ih (by omega) (by omega)
    case isFalse h =>
      have : ¬ len < n := fun hlt => h (hb len hlt)
      exact congrArg some (by omega)

theorem strlen_eq {fuel : ℕ} {str : Bytes} (hn : str n = 0#8) (hb : ∀ i < n, str i ≠ 0#8)
    (hf : n < fuel) : strlen fuel str = some n :=
  strlenLoop_eq hn hb (Nat.zero_le n) (by omega)

theorem vsprintf_of_loop {fuel len : ℕ} {format : CString} {t : Print}
    (hrun : vsprintfLoop args strings format s = .ok ((), t))
    (hlen : strlen fuel t.dest = some len) :
    vsprintf args strings fuel format s = .ok (len, t) := by
  rw [vsprintf, bind_of_ok hrun, get_bind, hlen]
  rfl

theorem vsprintf_out {fuel len : ℕ} {format : CString} {t out : Print}
    (hrun : vsprintfLoop args strings format s = .ok ((), t))
    (hv : vsprintf args strings fuel format s = .ok (len, out)) :
    out = t ∧ strlen fuel t.dest = some len := by
  rw [vsprintf, bind_of_ok hrun, get_bind] at hv
  cases hlen : strlen fuel t.dest with
  | none =>
    rw [hlen] at hv
    cases hv
  | some n =>
    rw [hlen] at hv
    cases hv
    exact ⟨rfl, rfl⟩

theorem strlen_text {str : Bytes} (hs : ∀ i, str i = text.getD i 0#8) {fuel : ℕ}
    (hf : text.length < fuel) :
    ∃ len, strlen fuel str = some len ∧ (0#8 ∉ text → len = text.length) := by
  have hend : str text.length = 0#8 := by rw [hs, List.getD_eq_default _ _ le_rfl]
  have hex : ∃ n, str n = 0#8 := ⟨_, hend⟩
  have hle : Nat.find hex ≤ text.length := Nat.find_min' hex hend
  refine ⟨Nat.find hex, strlen_eq (Nat.find_spec hex) (fun i hi => Nat.find_min hex hi)
    (by omega), ?_⟩
  intro hnul
  apply Nat.le_antisymm hle
  by_contra hlt
  have hzero := Nat.find_spec hex
  rw [hs, List.getD_eq_getElem _ _ (by omega)] at hzero
  exact hnul (hzero ▸ List.getElem_mem _)

/-! ## The rendering -/

theorem toInt_neg_iff (w : BitVec 32) : w.toInt < 0 ↔ 2 ^ 31 ≤ w.toNat := by
  have hlt := w.isLt
  rw [BitVec.toInt_eq_toNat_cond]
  split <;> omega

theorem written_eq (h : p = .dec → (args k).toNat < 2 ^ 31) :
    p.written args strings k = p.meaning args strings k := by
  cases p with
  | dec =>
    have hpos : ¬ (args k).toInt < 0 := by
      rw [toInt_neg_iff]
      have := h rfl
      omega
    have habs : (args k).toInt.natAbs = (args k).toNat := by
      rw [BitVec.toInt_eq_toNat_of_lt (by have := h rfl; omega)]
      rfl
    simp only [Piece.written, Piece.meaning, signedDecimal, if_neg hpos, habs]
  | literal => rfl
  | hex => rfl
  | str => rfl
  | chr => rfl

theorem rendering_eq (h : NoNegative args k ps) : rendering (Piece.written args strings) k ps =
    rendering (Piece.meaning args strings) k ps := by
  induction ps generalizing k with
  | nil => rfl
  | cons p ps ih =>
    obtain ⟨hp, hrest⟩ := noNegative_cons.mp h
    rw [rendering, rendering, written_eq hp, ih hrest]

theorem digitChar_ne_minus {d : ℕ} (h : d < 10) : digitChar d ≠ 0x2d#8 := by
  have hall : ∀ d < 10, digitChar d ≠ 0x2d#8 := by decide
  exact hall d h

theorem negative_differs (h : 2 ^ 31 ≤ (args k).toNat) (ps : List Piece) :
    (rendering (Piece.written args strings) k (.dec :: ps)).getD 0 0#8 ≠
      (rendering (Piece.meaning args strings) k (.dec :: ps)).getD 0 0#8 := by
  obtain ⟨hne, hchars⟩ := numeral_chars (b := 10) (n := (args k).toNat) (by decide)
  obtain ⟨c, cs, hc⟩ := List.exists_cons_of_ne_nil hne
  obtain ⟨d, hd, rfl⟩ := hchars c (hc ▸ List.mem_cons_self)
  have hneg : (args k).toInt < 0 := (toInt_neg_iff _).mpr h
  simp only [rendering, Piece.written, Piece.meaning, signedDecimal, if_pos hneg, hc,
    List.cons_append, List.getD_cons_zero]
  exact digitChar_ne_minus hd

theorem rendering_differs (strings : BitVec 32 → CString) (h : ¬ NoNegative args k ps) : ∃ i,
    (rendering (Piece.written args strings) k ps).getD i 0#8 ≠
      (rendering (Piece.meaning args strings) k ps).getD i 0#8 := by
  induction ps generalizing k with
  | nil => exact (h trivial).elim
  | cons p ps ih =>
    by_cases hp : p = .dec → (args k).toNat < 2 ^ 31
    · have hrest : ¬ NoNegative args (k + p.takes) ps := fun hr => h (noNegative_cons.mpr ⟨hp, hr⟩)
      obtain ⟨i, hi⟩ := ih hrest
      refine ⟨(p.meaning args strings k).length + i, ?_⟩
      rw [rendering, rendering, written_eq hp, List.getD_append_right _ _ _ _ (by omega),
        List.getD_append_right _ _ _ _ (by omega), Nat.add_sub_cancel_left]
      exact hi
    · simp only [Classical.not_imp, not_lt] at hp
      obtain ⟨rfl, hneg⟩ := hp
      exact ⟨0, negative_differs hneg ps⟩

theorem put_zero (text : List (BitVec 8)) (nul : Bool) (taken i : ℕ) :
    (Print.put ⟨fun _ => 0#8, 0, 0⟩ text nul taken).dest i = text.getD i 0#8 := by
  simp only [Print.put, Nat.zero_add, Nat.zero_le, true_and, Nat.sub_zero]
  by_cases hi : i < text.length
  · rw [if_pos hi]
  · rw [if_neg hi, List.getD_eq_default _ _ (by omega)]
    split <;> rfl

/-- `vsprintf` does what it should exactly if no argument of a `%d` is negative. -/
theorem vsprintf_ok_iff (hm : Matching args strings 0 ps) :
    VsprintfOk args strings ps ↔ NoNegative args 0 ps := by
  have hrun := vsprintfLoop_eq (s := ⟨fun _ => 0#8, 0, 0⟩) hm
  constructor
  · rintro ⟨out, -, hdest, hret⟩
    by_contra hneg
    obtain ⟨i, hi⟩ := rendering_differs strings hneg
    obtain ⟨len, hlen, -⟩ := hret _ (Nat.lt_succ_self _)
    obtain ⟨rfl, -⟩ := vsprintf_out hrun hlen
    apply hi
    rw [← put_zero, hdest]
    rfl
  · intro hpos
    have hout : vsprintfLoop args strings (formatOf ps) ⟨fun _ => 0#8, 0, 0⟩ = .ok ((),
        Print.put ⟨fun _ => 0#8, 0, 0⟩ (render args strings ps)
          (decide (ps.getLast? = some .str)) (takes ps)) := by
      rw [render, ← rendering_eq hpos]
      exact hrun
    refine ⟨_, Nat.zero_add (takes ps), put_zero _ (decide (ps.getLast? = some .str)) _, ?_⟩
    intro fuel hfuel
    obtain ⟨len, hlen, hnul⟩ := strlen_text (put_zero _ _ _) hfuel
    exact ⟨len, vsprintf_of_loop hout hlen, hnul⟩

/-- `"%d %s"` with 10 and a string. -/
theorem vsprintf_ok_sample : VsprintfOk (fun k => if k = 0 then 10 else 0x1000)
    (fun _ => [0x6f#8, 0x6b#8]) [.dec, .literal 0x20#8 (by decide), .str] := by
  apply (vsprintf_ok_iff _).mpr
  · exact ⟨by decide, trivial⟩
  · exact ⟨⟨by decide, by decide⟩, trivial⟩

/-- `"%d"` with -1. -/
theorem minus_one_unsigned : ¬ VsprintfOk (fun _ => 0xffffffff) (fun _ => []) [.dec] := by
  rintro ⟨out, -, hdest, hret⟩
  have hrun := vsprintfLoop_eq (s := ⟨fun _ => 0#8, 0, 0⟩)
    (show Matching (fun _ => 0xffffffff) (fun _ => []) 0 [.dec] from trivial)
  obtain ⟨len, hlen, -⟩ := hret _ (Nat.lt_succ_self _)
  obtain ⟨rfl, -⟩ := vsprintf_out hrun hlen
  have hzero := hdest 0
  rw [put_zero] at hzero
  exact negative_differs (by decide) [] hzero

end LibStdio
