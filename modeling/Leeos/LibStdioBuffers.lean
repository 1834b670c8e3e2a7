import Leeos.LibStdio

/-!
# What a buffer held before (`sprintf` in `lib/stdio.c`)

Only `strcpy` writes a terminator, and the next character overwrites it. A buffer that was not
cleared then keeps what stood behind the last character, and the string runs on into it.
-/
namespace LibStdioBuffers

open KernelBitmap FsPaths LibStdio

variable (args : ℕ → BitVec 32) (strings : BitVec 32 → CString)

/-- `sprintf` leaves the string `text` in the buffer and returns its length. -/
def Leaves (ps : List Piece) (buf : Bytes) (text : CString) : Prop :=
  0#8 ∉ text ∧ ∃ out : Print,
    (∀ fuel > text.length, sprintf args strings fuel (formatOf ps) buf = .ok (text.length, out)) ∧
    (∀ i < text.length, out.dest i = text.getD i 0#8) ∧ out.dest text.length = 0#8

/-- Two buffers are left with the same string. -/
def Independent (ps : List Piece) : Prop :=
  ∀ buf buf', ∃ text, Leaves args strings ps buf text ∧ Leaves args strings ps buf' text

/-- An argument of a `%c` is the NUL character. -/
def NulChar : ℕ → List Piece → Prop
  | _, [] => False
  | k, .chr :: ps => (args k).setWidth 8 = 0#8 ∨ NulChar (k + 1) ps
  | k, p :: ps => NulChar (k + p.takes) ps

variable {args strings} {ps : List Piece} {p : Piece} {buf : Bytes} {text : CString} {k : ℕ}

theorem nulChar_cons : NulChar args k (p :: ps) ↔
    (p = .chr ∧ (args k).setWidth 8 = 0#8) ∨ NulChar args (k + p.takes) ps := by
  cases p <;> simp [NulChar, Piece.takes]

theorem digitChar_ne_nul {d : ℕ} (h : d < 16) : digitChar d ≠ 0#8 := by
  have hall : ∀ d < 16, digitChar d ≠ 0#8 := by decide
  exact hall d h

theorem numeral_no_nul {b n : ℕ} (hb : 2 ≤ b) (hb' : b ≤ 16) : 0#8 ∉ numeral b n := by
  intro hm
  obtain ⟨d, hd, he⟩ := (numeral_chars hb).2 _ hm
  exact digitChar_ne_nul (by omega) he.symm

theorem written_nul (hm : p = .str → args k ≠ 0 ∧ 0#8 ∉ strings (args k)) :
    0#8 ∈ p.written args strings k ↔ p = .chr ∧ (args k).setWidth 8 = 0#8 := by
  cases p with
  | literal c h => simp [Piece.written, Piece.meaning, h.1.symm]
  | hex => simpa [Piece.written, Piece.meaning] using numeral_no_nul (by decide) (by decide)
  | dec => simpa [Piece.written] using numeral_no_nul (by decide) (by decide)
  | str => simpa [Piece.written, Piece.meaning] using (hm rfl).2
  | chr => simp [Piece.written, Piece.meaning, eq_comm]

theorem rendering_nul (hm : Matching args strings k ps) :
    0#8 ∈ rendering (Piece.written args strings) k ps ↔ NulChar args k ps := by
  induction ps generalizing k with
  | nil => simp [rendering, NulChar]
  | cons p ps ih =>
    obtain ⟨hp, hrest⟩ := matching_cons.mp hm
    rw [rendering, List.mem_append, nulChar_cons, written_nul hp, ih hrest]

/-! ## What is left in the buffer -/

/-- The buffer after the loop. -/
def after (args : ℕ → BitVec 32) (strings : BitVec 32 → CString) (ps : List Piece) (buf : Bytes) :
    Print :=
  Print.put ⟨buf, 0, 0⟩ (rendering (Piece.written args strings) 0 ps)
    (decide (ps.getLast? = some .str)) (takes ps)

theorem after_text {i : ℕ} (hi : i < (rendering (Piece.written args strings) 0 ps).length) :
    (after args strings ps buf).dest i =
      (rendering (Piece.written args strings) 0 ps).getD i 0#8 := by
  simp only [after, Print.put, Nat.zero_add, Nat.zero_le, true_and, if_pos hi, Nat.sub_zero]

theorem after_end : (after args strings ps buf).dest
      (rendering (Piece.written args strings) 0 ps).length =
    if ps.getLast? = some .str then 0#8
    else buf (rendering (Piece.written args strings) 0 ps).length := by
  simp only [after, Print.put, Nat.zero_add, Nat.lt_irrefl, and_false, if_false, and_true,
    decide_eq_true_eq]

theorem leaves_of (hm : Matching args strings 0 ps) (ht : 0#8 ∉ text)
    (htext : ∀ i < text.length, (after args strings ps buf).dest i = text.getD i 0#8)
    (hend : (after args strings ps buf).dest text.length = 0#8) :
    Leaves args strings ps buf text := by
  refine ⟨ht, after args strings ps buf, ?_, htext, hend⟩
  intro fuel hfuel
  apply vsprintf_of_loop (vsprintfLoop_eq (s := ⟨buf, 0, 0⟩) hm)
  apply strlen_eq hend _ hfuel
  intro i hi
  rw [htext i hi, List.getD_eq_getElem _ _ hi]
  exact fun he => ht (he ▸ List.getElem_mem hi)

/-- What is left is read off the buffer after the loop. -/
theorem Leaves.dest (h : Leaves args strings ps buf text) (hm : Matching args strings 0 ps) :
    (∀ i < text.length, (after args strings ps buf).dest i ≠ 0#8) ∧
      (after args strings ps buf).dest text.length = 0#8 := by
  obtain ⟨ht, out, hret, htext, hend⟩ := h
  obtain ⟨rfl, -⟩ := vsprintf_out (vsprintfLoop_eq (s := ⟨buf, 0, 0⟩) hm)
    (hret _ (Nat.lt_succ_self _))
  refine ⟨?_, hend⟩
  intro i hi
  have := htext i hi
  rw [List.getD_eq_getElem _ _ hi] at this
  exact fun he => ht (he.symm.trans this ▸ List.getElem_mem hi)

/-- Without a terminator the string depends on what stood behind it. -/
theorem not_independent (hm : Matching args strings 0 ps) (hn : ¬ NulChar args 0 ps)
    (hl : ps.getLast? ≠ some .str) : ¬ Independent args strings ps := by
  intro h
  let w := rendering (Piece.written args strings) 0 ps
  have hw : 0#8 ∉ w := (rendering_nul hm).not.mpr hn
  obtain ⟨text, hzero, hone⟩ := h (fun _ => 0#8) fun i => if i = w.length then 0x41#8 else 0#8
  obtain ⟨hbefore, hend⟩ := hzero.dest hm
  obtain ⟨-, hend'⟩ := hone.dest hm
  have hlen : text.length = w.length := by
    rcases Nat.lt_trichotomy text.length w.length with hlt | heq | hgt
    · rw [after_text hlt, List.getD_eq_getElem _ _ hlt] at hend
      exact (hw (hend ▸ List.getElem_mem hlt)).elim
    · exact heq
    · refine (hbefore w.length hgt ?_).elim
      rw [after_end, if_neg hl]
  rw [hlen, after_end, if_neg hl, if_pos rfl] at hend'
  exact absurd hend' (by decide)

/-- The result does not depend on what the buffer held exactly if a NUL character is inserted or
the format ends with a string. -/
theorem sprintf_independent_iff (hm : Matching args strings 0 ps) :
    Independent args strings ps ↔ NulChar args 0 ps ∨ ps.getLast? = some .str := by
  constructor
  · intro h
    by_contra hnone
    obtain ⟨hn, hl⟩ := not_or.mp hnone
    exact not_independent hm hn hl h
  · intro h
    by_cases hn : NulChar args 0 ps
    · obtain ⟨text, rest, hw, ht⟩ := List.eq_append_cons_of_mem ((rendering_nul hm).mpr hn)
      have hleaves : ∀ buf, Leaves args strings ps buf text := by
        intro buf
        apply leaves_of hm ht
        · intro i hi
          rw [after_text (by rw [hw]; simp; omega), hw, List.getD_append _ _ _ _ hi]
        · rw [after_text (by rw [hw]; simp), hw, List.getD_append_right _ _ _ _ le_rfl,
            Nat.sub_self, List.getD_cons_zero]
      exact fun buf buf' => ⟨text, hleaves buf, hleaves buf'⟩
    · have hl := h.resolve_left hn
      have hleaves : ∀ buf, Leaves args strings ps buf _ := fun buf =>
        leaves_of hm ((rendering_nul hm).not.mpr hn) (fun i hi => after_text hi)
          (by rw [after_end, if_pos hl])
      exact fun buf buf' => ⟨_, hleaves buf, hleaves buf'⟩

theorem sprintf_independent_sample : Independent (fun _ => 0x1000) (fun _ => [0x61#8])
    [.literal 0x3a#8 (by decide), .str] := by
  apply (sprintf_independent_iff _).mpr
  · exact Or.inr rfl
  · exact ⟨⟨by decide, by decide⟩, trivial⟩

/-! ## The message of `ide_read` -/

def literals (text : CString) : List Piece := text.filterMap fun c =>
  if h : c ≠ 0#8 ∧ c ≠ percent then some (.literal c h) else none

def readFailed : List Piece :=
  .str :: literals [0x20, 0x72, 0x65, 0x61, 0x64, 0x20, 0x73, 0x65, 0x63, 0x74, 0x6f, 0x72, 0x20] ++
    .dec :: literals [0x20, 0x66, 0x61, 0x69, 0x6c, 0x65, 0x64, 0x21, 0x21, 0x21, 0x21, 0x21, 0x0a]

/-- For sector 7 of the disk `sdb`, on a buffer that was not cleared. -/
theorem readFailed_depends : ¬ Independent (fun k => if k = 0 then 0x1000 else 7)
    (fun _ => [0x73#8, 0x64#8, 0x62#8]) readFailed := by
  apply not_independent
  · exact ⟨⟨by decide, by decide⟩, trivial⟩
  · exact id
  · decide

end LibStdioBuffers
