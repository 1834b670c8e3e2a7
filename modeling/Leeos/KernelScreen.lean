import Leeos.ExecRules
import Mathlib.Data.BitVec
import Mathlib.Logic.Function.Basic

/-!
# The text screen (`lib/kernel/print.asm`)

`video` are the bytes from the base of the video segment on, two for each of the 25 × 80
characters, and `cursor` the cursor registers of the controller. `writes` is no part of the
machine: it lists the offsets that were written, the latest first.
-/
namespace KernelScreen

open ExecRules

structure Screen where
  video : ℕ → BitVec 8
  cursor : BitVec 16
  writes : List ℕ

inductive ScreenFault where
  | segmentLimit
  deriving DecidableEq, Repr

abbrev ScreenM (α : Type) := Exec ScreenFault Screen α

/-- The last offset of the video segment, of eight pages. -/
def videoLimit : ℕ := 0x7fff

def storeByte (offset : ℕ) (value : BitVec 8) : ScreenM Unit := do
  ensure .segmentLimit (offset ≤ videoLimit)
  modify fun s => { s with video := Function.update s.video offset value
                           writes := offset :: s.writes }

/-- The character and its attribute at the cell `bx`; the offset is formed in `bx` itself. -/
def putCell (bx : BitVec 16) (cl : BitVec 8) : ScreenM (BitVec 16) := do
  let bx := bx <<< 1
  storeByte bx.toNat cl
  let bx := bx + 1
  storeByte bx.toNat 0x07#8
  pure (bx >>> 1)

def isBackspace (bx : BitVec 16) : ScreenM (BitVec 16) := putCell (bx - 1) 0x20#8

def movsd (esi edi : ℕ) (s : Screen) : Screen :=
  { s with
    video := fun i => if edi ≤ i ∧ i < edi + 4 then s.video (esi + (i - edi)) else s.video i
    writes := [edi + 3, edi + 2, edi + 1, edi] ++ s.writes }

def repMovsd : ℕ → ℕ → ℕ → Screen → Screen
  | 0, _, _, s => s
  | ecx + 1, esi, edi, s => repMovsd ecx (esi + 4) (edi + 4) (movsd esi edi s)

def cls : ℕ → ℕ → ScreenM Unit
  | 0, _ => pure ()
  | ecx + 1, ebx => do
    storeByte ebx 0x20#8
    storeByte (ebx + 1) 0x07#8
    cls ecx (ebx + 2)

def rollScreen : ScreenM (BitVec 16) := do
  modify (repMovsd 960 0xa0 0)
  cls 80 3840
  pure 1920#16

/-- Also `.is_carriage_return`; `jl` compares signed. -/
def isLineFeed (bx : BitVec 16) : ScreenM (BitVec 16) :=
  let dx := bx % 80#16
  let bx := bx - dx + 80#16
  if bx.slt 2000#16 then pure bx else rollScreen

def putOther (bx : BitVec 16) (cl : BitVec 8) : ScreenM (BitVec 16) := do
  let bx ← putCell bx cl
  let bx := bx + 1
  if bx.slt 2000#16 then pure bx else isLineFeed bx

def setCursor (bx : BitVec 16) : ScreenM Unit := modify fun s => { s with cursor := bx }

/-- The jump to the byte's kind. -/
def printAt (bx : BitVec 16) (cl : BitVec 8) : ScreenM (BitVec 16) :=
  if cl = 0x0d#8 ∨ cl = 0x0a#8 then isLineFeed bx
  else if cl = 0x08#8 then isBackspace bx
  else putOther bx cl

def putChar (cl : BitVec 8) : ScreenM Unit := do
  let s ← get
  let bx ← printAt s.cursor cl
  setCursor bx

def putStr : List (BitVec 8) → ScreenM Unit
  | [] => pure ()
  | cl :: rest => do
    putChar cl
    putStr rest

/-! ## Rows -/

def row (s : Screen) (r : ℕ) : List (BitVec 8) :=
  (List.range 160).map fun i => s.video (160 * r + i)

def blankRow : List (BitVec 8) := (List.range 160).map fun i => if i % 2 = 0 then 0x20#8 else 0x07#8

/-- Where a byte moves the cursor, before the screen is rolled. -/
def target (cl : BitVec 8) (c : ℕ) : ℕ :=
  if cl = 0x0d#8 ∨ cl = 0x0a#8 then c - c % 80 + 80
  else if cl = 0x08#8 then c - 1
  else c + 1

def moved (cl : BitVec 8) (c : ℕ) : ℕ := if target cl c < 2000 then target cl c else 1920

def withCell (s : Screen) (c : ℕ) (cl : BitVec 8) : Screen :=
  { s with
    video := Function.update (Function.update s.video (2 * c) cl) (2 * c + 1) 0x07#8
    writes := (2 * c + 1) :: (2 * c) :: s.writes }

def withByte (cl : BitVec 8) (s : Screen) : Screen :=
  if cl = 0x0d#8 ∨ cl = 0x0a#8 ∨ cl = 0x08#8 then s else withCell s s.cursor.toNat cl

/-- The bytes written on the way from `s` to `s'` are bytes of the text buffer. -/
def Inside (s s' : Screen) : Prop :=
  ∃ new, s'.writes = new ++ s.writes ∧ ∀ offset ∈ new, offset < 4000

structure StepOk (cl : BitVec 8) (s s' : Screen) : Prop where
  cursor : s'.cursor.toNat < 2000
  inside : Inside s s'
  rolls : 2000 ≤ target cl s.cursor.toNat →
    (∀ r < 24, row s' r = row (withByte cl s) (r + 1)) ∧ row s' 24 = blankRow ∧
      s'.cursor = 1920#16

/-- Each byte is printed, and as it should be. -/
def Correct (s : Screen) : List (BitVec 8) → Prop
  | [] => True
  | cl :: rest => ∃ s', putChar cl s = .ok ((), s') ∧ StepOk cl s s' ∧ Correct s' rest

/-- No backspace arrives with the cursor at the first cell. -/
def NoBackspaceAtStart : ℕ → List (BitVec 8) → Prop
  | _, [] => True
  | c, cl :: rest => (cl = 0x08#8 → c ≠ 0) ∧ NoBackspaceAtStart (moved cl c) rest

variable {s s' s'' : Screen} {cl : BitVec 8} {bx : BitVec 16} {c : ℕ}

theorem Inside.refl (s : Screen) : Inside s s := ⟨[], rfl, fun _ h => by cases h⟩

theorem Inside.trans (h : Inside s s') (h' : Inside s' s'') : Inside s s'' := by
  obtain ⟨new, he, hn⟩ := h
  obtain ⟨new', he', hn'⟩ := h'
  refine ⟨new' ++ new, ?_, ?_⟩
  · rw [he', he, List.append_assoc]
  · intro offset ho
    rcases List.mem_append.mp ho with ho | ho
    · exact hn' offset ho
    · exact hn offset ho

theorem storeByte_ok {offset : ℕ} {v : BitVec 8} (h : offset ≤ videoLimit) :
    storeByte offset v s = .ok ((), { s with video := Function.update s.video offset v
                                             writes := offset :: s.writes }) :=
  ensure_bind_of_true h _ s

/-! ## Sixteen bits -/

theorem double_toNat (h : bx.toNat < 2 ^ 15) : (bx <<< 1).toNat = 2 * bx.toNat := by
  rw [BitVec.toNat_shiftLeft, Nat.shiftLeft_eq, Nat.mod_eq_of_lt (by omega)]
  omega

theorem double_add_one (h : bx.toNat < 2 ^ 15) : (bx <<< 1 + 1).toNat = 2 * bx.toNat + 1 := by
  rw [BitVec.toNat_add, double_toNat h]
  exact Nat.mod_eq_of_lt (by simp; omega)

theorem halved (h : bx.toNat < 2 ^ 15) : (bx <<< 1 + 1) >>> 1 = bx := by
  apply BitVec.eq_of_toNat_eq
  rw [BitVec.toNat_ushiftRight, double_add_one h, Nat.shiftRight_eq_div_pow]
  omega

theorem slt_iff (h : bx.toNat < 2 ^ 15) : bx.slt 2000#16 = true ↔ bx.toNat < 2000 := by
  rw [BitVec.slt, decide_eq_true_iff, BitVec.toInt_eq_toNat_of_lt (by omega),
    BitVec.toInt_eq_toNat_of_lt (by decide)]
  simp only [BitVec.toNat_ofNat]
  omega

theorem putCell_ok (cl : BitVec 8) (h : bx.toNat < 2 ^ 14) :
    putCell bx cl s = .ok (bx, withCell s bx.toNat cl) := by
  have h' : bx.toNat < 2 ^ 15 := by omega
  have h₁ : (bx <<< 1).toNat ≤ videoLimit := by
    rw [double_toNat h', videoLimit]
    omega
  have h₂ : (bx <<< 1 + 1).toNat ≤ videoLimit := by
    rw [double_add_one h', videoLimit]
    omega
  rw [putCell, bind_of_ok (storeByte_ok h₁), bind_of_ok (storeByte_ok h₂)]
  simp only [pure_apply, halved h', double_toNat h', double_add_one h', withCell]

theorem withCell_inside (h : c < 2000) : Inside s (withCell s c cl) := by
  refine ⟨[2 * c + 1, 2 * c], rfl, ?_⟩
  intro offset ho
  simp only [List.mem_cons, List.not_mem_nil, or_false] at ho
  omega

/-! ## Rolling -/

/-- The rows are copied upwards, so each is read before it is overwritten. -/
theorem repMovsd_video {n esi edi : ℕ} (h : edi ≤ esi) (i : ℕ) : (repMovsd n esi edi s).video i =
    if edi ≤ i ∧ i < edi + 4 * n then s.video (esi + (i - edi)) else s.video i := by
  induction n generalizing esi edi s with
  | zero => rw [repMovsd, if_neg (by omega)]
  | succ n ih =>
    rw [repMovsd, ih (Nat.add_le_add_right h 4)]
    simp only [movsd]
    by_cases hlow : i < edi + 4
    · rw [if_neg (by omega)]
      by_cases hi : edi ≤ i
      · rw [if_pos ⟨hi, hlow⟩, if_pos ⟨hi, by omega⟩]
      · rw [if_neg (by omega), if_neg (by omega)]
    · by_cases hi : i < edi + 4 * (n + 1)
      · rw [if_pos (by omega), if_neg (by omega), if_pos (by omega)]
        congr 1
        omega
      · rw [if_neg (by omega), if_neg (by omega), if_neg (by omega)]

theorem repMovsd_inside {n esi edi : ℕ} (h : edi + 4 * n ≤ 4000) :
    Inside s (repMovsd n esi edi s) := by
  induction n generalizing esi edi s with
  | zero => exact .refl s
  | succ n ih =>
    have hstep : Inside s (movsd esi edi s) := by
      refine ⟨[edi + 3, edi + 2, edi + 1, edi], rfl, ?_⟩
      intro offset ho
      simp only [List.mem_cons, List.not_mem_nil, or_false] at ho
      omega
    exact hstep.trans (ih (by omega))

theorem cls_ok (n ebx : ℕ) (h : ebx + 2 * n ≤ 4000) : ∃ s', cls n ebx s = .ok ((), s') ∧
    Inside s s' ∧ (∀ i < ebx, s'.video i = s.video i) ∧
    ∀ j < n, s'.video (ebx + 2 * j) = 0x20#8 ∧ s'.video (ebx + 2 * j + 1) = 0x07#8 := by
  induction n generalizing ebx s with
  | zero => exact ⟨s, rfl, .refl s, fun _ _ => rfl, fun j hj => by omega⟩
  | succ n ih =>
    have hlow : ebx ≤ videoLimit := by
      rw [videoLimit]
      omega
    have hhigh : ebx + 1 ≤ videoLimit := by
      rw [videoLimit]
      omega
    let t : Screen := { s with
      video := Function.update (Function.update s.video ebx 0x20#8) (ebx + 1) 0x07#8
      writes := (ebx + 1) :: ebx :: s.writes }
    have ht : Inside s t := by
      refine ⟨[ebx + 1, ebx], rfl, ?_⟩
      intro offset ho
      simp only [List.mem_cons, List.not_mem_nil, or_false] at ho
      omega
    obtain ⟨s', hrun, hin, hbefore, hcells⟩ := ih (s := t) (ebx + 2) (by omega)
    refine ⟨s', ?_, ht.trans hin, ?_, ?_⟩
    · rw [cls, bind_of_ok (storeByte_ok hlow), bind_of_ok (storeByte_ok hhigh)]
      exact hrun
    · intro i hi
      rw [hbefore i (by omega)]
      simp only [t]
      rw [Function.update_of_ne (by omega), Function.update_of_ne (by omega)]
    · intro j hj
      cases j with
      | zero =>
        rw [hbefore _ (by omega), hbefore _ (by omega)]
        simp [t]
      | succ j =>
        have hc := hcells j (by omega)
        rwa [show ebx + 2 + 2 * j = ebx + 2 * (j + 1) by omega] at hc

theorem rollScreen_ok (s : Screen) : ∃ s', rollScreen s = .ok (1920#16, s') ∧ Inside s s' ∧
    (∀ r < 24, row s' r = row s (r + 1)) ∧ row s' 24 = blankRow := by
  obtain ⟨s', hrun, hin, hbefore, hcells⟩ :=
    cls_ok (s := repMovsd 960 0xa0 0 s) 80 3840 (by omega)
  refine ⟨s', ?_, (repMovsd_inside (by omega)).trans hin, ?_, ?_⟩
  · rw [rollScreen, modify_bind]
    exact bind_of_ok hrun
  · intro r hr
    apply List.map_congr_left
    intro i hi
    have hi := List.mem_range.mp hi
    rw [hbefore _ (by omega), repMovsd_video (Nat.zero_le _), if_pos (by omega)]
    exact congrArg s.video (by omega)
  · apply List.map_congr_left
    intro i hi
    have hi := List.mem_range.mp hi
    obtain ⟨heven, hodd⟩ := hcells (i / 2) (by omega)
    split
    case isTrue h =>
      rwa [show 3840 + 2 * (i / 2) = 160 * 24 + i by omega] at heven
    case isFalse h =>
      rwa [show 3840 + 2 * (i / 2) + 1 = 160 * 24 + i by omega] at hodd

/-! ## Bytes -/

theorem isLineFeed_ok (bx : BitVec 16) (h : bx.toNat ≤ 2000) :
    ∃ bx' s', isLineFeed bx s = .ok (bx', s') ∧ Inside s s' ∧
      if bx.toNat - bx.toNat % 80 + 80 < 2000 then
        bx'.toNat = bx.toNat - bx.toNat % 80 + 80 ∧ s' = s
      else bx' = 1920#16 ∧ (∀ r < 24, row s' r = row s (r + 1)) ∧ row s' 24 = blankRow := by
  have hval : (bx - bx % 80#16 + 80#16).toNat = bx.toNat - bx.toNat % 80 + 80 := by
    have hmod : (bx % 80#16).toNat = bx.toNat % 80 := BitVec.toNat_umod
    have hsub : ∀ dx : BitVec 16, dx.toNat ≤ bx.toNat →
        (bx - dx + 80#16).toNat = bx.toNat - dx.toNat + 80 := by
      intro dx hdx
      bv_omega
    rw [hsub _ (hmod ▸ Nat.mod_le _ _), hmod]
  have hlt : (bx - bx % 80#16 + 80#16).toNat < 2 ^ 15 := by omega
  rw [isLineFeed]
  split_ifs
  case pos hs ht => exact ⟨_, s, rfl, .refl s, hval, rfl⟩
  case neg hs ht =>
    rw [slt_iff hlt, hval] at hs
    exact (ht hs).elim
  case pos hs ht =>
    rw [slt_iff hlt, hval] at hs
    exact (hs ht).elim
  case neg hs ht =>
    obtain ⟨s', hrun, hin, hrows, hlast⟩ := rollScreen_ok s
    exact ⟨_, s', hrun, hin, rfl, hrows, hlast⟩

theorem moved_lt (cl : BitVec 8) (c : ℕ) : moved cl c < 2000 := by
  rw [moved]
  split <;> omega

theorem withByte_printing (h : ¬ (cl = 0x0d#8 ∨ cl = 0x0a#8)) (h' : cl ≠ 0x08#8) :
    withByte cl s = withCell s s.cursor.toNat cl := by
  rw [withByte, if_neg]
  rintro (he | he | he)
  · exact h (Or.inl he)
  · exact h (Or.inr he)
  · exact h' he

/-- `bx` is where the byte leaves the cursor, and `s'` the screen before it is set. -/
structure Placed (cl : BitVec 8) (s : Screen) (bx : BitVec 16) (s' : Screen) : Prop where
  cursor : bx.toNat = moved cl s.cursor.toNat
  inside : Inside s s'
  rolls : 2000 ≤ target cl s.cursor.toNat →
    (∀ r < 24, row s' r = row (withByte cl s) (r + 1)) ∧ row s' 24 = blankRow

theorem lineFeed_placed (hc : s.cursor.toNat < 2000) (hcl : cl = 0x0d#8 ∨ cl = 0x0a#8) :
    ∃ bx s', isLineFeed s.cursor s = .ok (bx, s') ∧ Placed cl s bx s' := by
  obtain ⟨bx, s', hrun, hin, hcase⟩ := isLineFeed_ok (s := s) s.cursor (Nat.le_of_lt hc)
  have ht : target cl s.cursor.toNat = s.cursor.toNat - s.cursor.toNat % 80 + 80 := if_pos hcl
  refine ⟨bx, s', hrun, ?_, hin, ?_⟩
  · rw [moved, ht]
    split at hcase
    case isTrue h => rw [if_pos h, hcase.1]
    case isFalse h => rw [if_neg h, hcase.1]; rfl
  · intro hroll
    rw [ht] at hroll
    rw [if_neg (by omega)] at hcase
    rw [withByte, if_pos (by tauto)]
    exact hcase.2

theorem backspace_placed (hc : s.cursor.toNat < 2000) (hne : s.cursor.toNat ≠ 0) :
    ∃ bx s', isBackspace s.cursor s = .ok (bx, s') ∧ Placed 0x08#8 s bx s' := by
  have hval : (s.cursor - 1).toNat = s.cursor.toNat - 1 := by bv_omega
  refine ⟨s.cursor - 1, _, putCell_ok _ (by omega), ?_, ?_, ?_⟩
  · have ht : target 0x08#8 s.cursor.toNat = s.cursor.toNat - 1 := rfl
    rw [hval, moved, ht, if_pos (by omega)]
  · exact withCell_inside (by omega)
  · intro hroll
    have ht : target 0x08#8 s.cursor.toNat = s.cursor.toNat - 1 := rfl
    omega

theorem other_placed (hc : s.cursor.toNat < 2000) (h : ¬ (cl = 0x0d#8 ∨ cl = 0x0a#8))
    (h' : cl ≠ 0x08#8) : ∃ bx s', putOther s.cursor cl s = .ok (bx, s') ∧ Placed cl s bx s' := by
  have ht : target cl s.cursor.toNat = s.cursor.toNat + 1 := by
    rw [target, if_neg h, if_neg h']
  have hval : (s.cursor + 1).toNat = s.cursor.toNat + 1 := by bv_omega
  have hcell : Inside s (withCell s s.cursor.toNat cl) := withCell_inside hc
  have hput := putCell_ok (s := s) cl (show s.cursor.toNat < 2 ^ 14 by omega)
  rw [putOther, bind_of_ok hput]
  by_cases hlast : s.cursor.toNat + 1 < 2000
  · have hslt : (s.cursor + 1).slt 2000#16 = true := (slt_iff (by omega)).mpr (by omega)
    rw [if_pos hslt]
    refine ⟨_, _, rfl, ?_, hcell, ?_⟩
    · rw [hval, moved, ht, if_pos hlast]
    · intro hroll
      omega
  · have hslt : ¬ (s.cursor + 1).slt 2000#16 = true := fun he => by
      have := (slt_iff (by omega)).mp he
      omega
    rw [if_neg hslt]
    obtain ⟨bx, s', hrun, hin, hcase⟩ :=
      isLineFeed_ok (s := withCell s s.cursor.toNat cl) (s.cursor + 1) (by omega)
    rw [if_neg (by omega)] at hcase
    refine ⟨bx, s', hrun, ?_, hcell.trans hin, ?_⟩
    · rw [moved, ht, if_neg hlast, hcase.1]
      rfl
    · intro _
      rw [withByte_printing h h']
      exact hcase.2

/-- Every byte but a backspace at the first cell is printed as it should be. -/
theorem putChar_ok (hc : s.cursor.toNat < 2000) (hb : cl = 0x08#8 → s.cursor.toNat ≠ 0) :
    ∃ s', putChar cl s = .ok ((), s') ∧ StepOk cl s s' ∧
      s'.cursor.toNat = moved cl s.cursor.toNat := by
  have hplaced : ∃ bx s', printAt s.cursor cl s = .ok (bx, s') ∧ Placed cl s bx s' := by
    rw [printAt]
    split_ifs with hlf hbs
    · exact lineFeed_placed hc hlf
    · subst hbs
      exact backspace_placed hc (hb rfl)
    · exact other_placed hc hlf hbs
  obtain ⟨bx, s', hrun, hp⟩ := hplaced
  refine ⟨{ s' with cursor := bx }, ?_, ⟨?_, ?_, ?_⟩, hp.cursor⟩
  · rw [putChar, get_bind, bind_of_ok hrun]
    rfl
  · exact hp.cursor ▸ moved_lt cl s.cursor.toNat
  · exact hp.inside
  · intro hroll
    obtain ⟨hrows, hlast⟩ := hp.rolls hroll
    refine ⟨hrows, hlast, ?_⟩
    apply BitVec.eq_of_toNat_eq
    rw [hp.cursor, moved, if_neg (by omega)]
    rfl

/-- The offset of the cell before the first is outside the segment. -/
theorem putChar_fault (hc : s.cursor.toNat = 0) : putChar 0x08#8 s = .error .segmentLimit := by
  have hzero : s.cursor = 0#16 := BitVec.eq_of_toNat_eq hc
  rw [putChar, get_bind, hzero]
  rfl

/-- A run is correct exactly if no backspace arrives with the cursor at the first cell. -/
theorem putChar_correct_iff {cls : List (BitVec 8)} (hc : s.cursor.toNat < 2000) :
    Correct s cls ↔ NoBackspaceAtStart s.cursor.toNat cls := by
  induction cls generalizing s with
  | nil => exact Iff.rfl
  | cons cl rest ih =>
    by_cases hb : cl = 0x08#8 → s.cursor.toNat ≠ 0
    · obtain ⟨s', hrun, hok, hmoved⟩ := putChar_ok hc hb
      have hrest := ih hok.cursor
      rw [hmoved] at hrest
      constructor
      · rintro ⟨t, ht, -, hcorrect⟩
        rw [hrun] at ht
        cases ht
        exact ⟨hb, hrest.mp hcorrect⟩
      · rintro ⟨-, hsafe⟩
        exact ⟨s', hrun, hok, hrest.mpr hsafe⟩
    · simp only [not_forall, not_not] at hb
      obtain ⟨hcl, hzero⟩ := hb
      constructor
      · rintro ⟨t, ht, -⟩
        rw [hcl, putChar_fault hzero] at ht
        cases ht
      · rintro ⟨hsafe, -⟩
        exact (hsafe hcl hzero).elim

theorem putStr_ok (text : List (BitVec 8)) (hc : s.cursor.toNat < 2000) (ht : 0x08#8 ∉ text) :
    ∃ s', putStr text s = .ok ((), s') := by
  induction text generalizing s with
  | nil => exact ⟨s, rfl⟩
  | cons cl rest ih =>
    obtain ⟨s', hrun, hok, -⟩ :=
      putChar_ok hc (fun he => (ht (he ▸ List.mem_cons_self)).elim)
    obtain ⟨s'', hrest⟩ := ih hok.cursor (fun hm => ht (List.mem_cons_of_mem cl hm))
    exact ⟨s'', by rw [putStr, bind_of_ok hrun, hrest]⟩

/-- An `A` in the last cell, then a backspace. -/
theorem putChar_correct_sample : Correct ⟨fun _ => 0#8, 1999#16, []⟩ [0x41#8, 0x08#8] :=
  (putChar_correct_iff (by decide)).mpr (by simp [NoBackspaceAtStart, moved, target])

/-- On a cleared screen with the cursor at the first cell a backspace faults. -/
theorem backspace_faults : ¬ ∀ s bytes, s.cursor.toNat < 2000 → Correct s bytes := by
  intro h
  obtain ⟨s', hrun, -⟩ := h ⟨fun i => if i % 2 = 0 then 0x20#8 else 0x07#8, 0#16, []⟩ [0x08#8]
    (by decide)
  rw [putChar_fault rfl] at hrun
  cases hrun

end KernelScreen
