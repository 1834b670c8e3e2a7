import Leeos.FsPathDepth
import Leeos.LibStrings

/-!
# Splitting a path by repeated calls (`path_parse` in `fs/fs.c`)

Here the path is a text with its terminator, which the parser has to stop at, and the buffer for
the name has `size` bytes. The parser on whole strings of `FsPaths` is what this one does on a
path that ends with its first NUL.
-/
namespace FsPathSplits

open KernelBitmap FsDisk FsPaths FsPathSearch FsPathDepth LibStrings

inductive SplitHalt where
  | pastEnd
  | nameOverflow
  | fuel
  deriving DecidableEq, Repr

/-- `while (*(++pathname) == '/')`, on what is behind the first slash. -/
def skipText : Text → Except SplitHalt Text
  | [] => .error .pastEnd
  | c :: text => if c = slash then skipText text else .ok (c :: text)

section

variable (size : ℕ)

def copyText : Text → ℕ → Bytes → Except SplitHalt (Text × Bytes)
  | [], _, _ => .error .pastEnd
  | c :: text, nameStore, name =>
    if c ≠ slash ∧ c ≠ 0#8 then
      if nameStore < size then
        copyText text (nameStore + 1) (Function.update name nameStore c)
      else .error .nameOverflow
    else .ok (c :: text, name)

/-- `path_parse(pathname, name)`; `none` is the null pointer. -/
def parseText (pathname : Text) (name : Bytes) : Except SplitHalt (Option Text × Bytes) := do
  let start ← match pathname with
    | [] => .error .pastEnd
    | c :: text => if c = slash then skipText text else .ok (c :: text)
  let (rest, name) ← copyText size start 0 name
  match rest with
  | [] => .error .pastEnd
  | c :: text => if c = 0#8 then .ok (none, name) else .ok (some (c :: text), name)

/-- The string in the buffer from an offset on, of which `n` bytes are left. -/
def readName : ℕ → ℕ → Bytes → Except SplitHalt CString
  | 0, _, _ => .error .nameOverflow
  | n + 1, i, name => do
    if name i = 0#8 then .ok []
    else
      let rest ← readName n (i + 1) name
      .ok (name i :: rest)

/-- A call: its argument, the string that it leaves in the buffer and the pointer it returns. -/
structure Call where
  pathname : Text
  name : CString
  next : Option Text

/-- The buffer is cleared and `path_parse` called, until it returns null. -/
def splitLoop : ℕ → Text → Bytes → Except SplitHalt (List Call)
  | 0, _, _ => .error .fuel
  | fuel + 1, pathname, name => do
    let (next, name) ← parseText size pathname (memset name 0 0#8 size)
    let component ← readName size 0 name
    match next with
    | none => .ok [⟨pathname, component, none⟩]
    | some p =>
      let calls ← splitLoop fuel p name
      .ok (⟨pathname, component, some p⟩ :: calls)

end

/-- The non-empty components, and behind them an empty one if the path is empty or ends in a
slash. -/
def pieces (path : CString) : List CString :=
  components path ++ if path = [] ∨ closed path then [[]] else []

def Advances (p q : Text) : Prop := ∃ passed, passed ≠ [] ∧ p = passed ++ q

/-- Every component fits with a terminator. -/
def LargeEnough (size : ℕ) (path : CString) : Prop :=
  0 < size ∧ ∀ c ∈ components path, c.length < size

def storeAt : CString → ℕ → Bytes → Bytes
  | [], _, m => m
  | c :: text, i, m => storeAt text (i + 1) (Function.update m i c)

section

variable {size i n : ℕ} {s name : CString} {m : Bytes}

/-! ## The calls on a terminated path -/

theorem skipText_eq (s : CString) : skipText (s ++ [0#8]) = .ok (skipSlashes s ++ [0#8]) := by
  induction s with
  | nil => rfl
  | cons c rest ih =>
    rw [List.cons_append, skipText, skipSlashes]
    split
    · exact ih
    · rfl

theorem copyText_eq (hnul : 0#8 ∉ s) (hfit : i + (copyName s).1.length ≤ size) :
    copyText size (s ++ [0#8]) i m =
      .ok ((copyName s).2 ++ [0#8], storeAt (copyName s).1 i m) := by
  induction s generalizing i m with
  | nil => rfl
  | cons c rest ih =>
    have hc : c ≠ 0#8 := fun he => hnul (he ▸ List.mem_cons_self)
    rw [List.cons_append, copyText]
    by_cases hs : c = slash
    · rw [if_neg fun h : c ≠ slash ∧ c ≠ 0#8 => h.1 hs, copyName, if_pos hs]
      rfl
    · rw [copyName, if_neg hs, List.length_cons] at hfit
      rw [if_pos ⟨hs, hc⟩, if_pos (by omega), copyName, if_neg hs]
      exact ih (fun hm => hnul (List.mem_cons_of_mem _ hm)) (by omega)

/-- On bytes the parser does what it does on the string, and does not read behind the terminator. -/
theorem parseText_eq (hnul : 0#8 ∉ s) (hfit : (pathParse s).2.length ≤ size) :
    parseText size (s ++ [0#8]) m =
      .ok ((pathParse s).1.map (· ++ [0#8]), storeAt (pathParse s).2 0 m) := by
  have hstop : ∀ v : CString, 0#8 ∉ v → (copyName v).1.length ≤ size →
      (do
        let (rest, name) ← copyText size (v ++ [0#8]) 0 m
        match rest with
        | [] => .error .pastEnd
        | c :: text => if c = 0#8 then .ok (none, name) else .ok (some (c :: text), name)) =
      (.ok ((if (copyName v).2 = [] then none else some (copyName v).2).map (· ++ [0#8]),
        storeAt (copyName v).1 0 m) : Except SplitHalt (Option Text × Bytes)) := by
    intro v hv hfit
    rw [copyText_eq hv (by omega)]
    obtain ⟨-, -, he | ⟨r, he⟩⟩ := copyName_spec v
    · rw [he]
      rfl
    · rw [he]
      rfl
  cases s with
  | nil => exact hstop [] hnul (Nat.zero_le _)
  | cons c rest =>
    by_cases hc : c = slash
    · simp only [pathParse, if_pos hc] at hfit ⊢
      simp only [List.cons_append, parseText, if_pos hc, skipText_eq]
      exact hstop (skipSlashes rest) (fun hm => hnul (List.mem_cons_of_mem _
        (skipSlashes_mem rest hm))) hfit
    · simp only [pathParse, if_neg hc] at hfit ⊢
      simp only [List.cons_append, parseText, if_neg hc]
      exact hstop (c :: rest) hnul hfit

theorem storeAt_before {j : ℕ} (h : j < i) : storeAt s i m j = m j := by
  induction s generalizing i m with
  | nil => rfl
  | cons c rest ih =>
    rw [storeAt, ih (by omega), Function.update_of_ne (by omega)]

theorem readName_storeAt (hnul : 0#8 ∉ s) (hlen : s.length < n)
    (hzero : ∀ j, i ≤ j → j < i + n → m j = 0#8) :
    readName n i (storeAt s i m) = .ok s := by
  induction s generalizing i m n with
  | nil =>
    cases n with
    | zero => cases hlen
    | succ n =>
      rw [readName, storeAt, if_pos (hzero i le_rfl (by omega))]
  | cons c rest ih =>
    have hc : c ≠ 0#8 := fun he => hnul (he ▸ List.mem_cons_self)
    cases n with
    | zero => cases hlen
    | succ n =>
      have hbyte : storeAt rest (i + 1) (Function.update m i c) i = c := by
        rw [storeAt_before (Nat.lt_succ_self i), Function.update_self]
      have hrest := ih (m := Function.update m i c) (i := i + 1) (n := n)
        (fun hm => hnul (List.mem_cons_of_mem _ hm)) (Nat.lt_of_succ_lt_succ hlen)
        fun j hj hj' => by rw [Function.update_of_ne (by omega), hzero j (by omega) (by omega)]
      rw [readName, storeAt, hbyte, if_neg hc, hrest]
      rfl

/-! ## Repeated calls -/

theorem skipSlashes_suffix (s : CString) : skipSlashes s <:+ s := by
  induction s with
  | nil => exact List.suffix_rfl
  | cons c rest ih =>
    rw [skipSlashes]
    split
    · exact ih.trans (List.suffix_cons c rest)
    · exact List.suffix_rfl

theorem copyName_suffix (s : CString) : (copyName s).2 <:+ s :=
  ⟨(copyName s).1, (copyName_spec s).1.symm⟩

theorem pathParse_suffix {q : CString} (h : (pathParse s).1 = some q) : q <:+ s := by
  rw [← pathParse_slash] at h
  simp only [pathParse, if_true] at h
  split at h
  · cases h
  · cases h
    exact (copyName_suffix _).trans (skipSlashes_suffix s)

/-- A pointer that is returned is ahead of the argument. -/
theorem pathParse_advances {q : CString} (h : (pathParse s).1 = some q) :
    Advances (s ++ [0#8]) (q ++ [0#8]) := by
  obtain ⟨passed, rfl⟩ := pathParse_suffix h
  refine ⟨passed, ?_, List.append_assoc _ _ _⟩
  rintro rfl
  cases q with
  | nil => cases h
  | cons c rest =>
    have hshort := ptrLen_pathParse c rest
    rw [List.nil_append] at h
    rw [h] at hshort
    exact Nat.lt_irrefl _ hshort

theorem pieces_eq (s : CString) : pieces s =
    components (slash :: s) ++ if closed (slash :: s) then [[]] else [] := by
  rw [components_slash, pieces]
  cases s with
  | nil => rfl
  | cons c rest => simp [closed_slash]

/-- The pieces are the string just stored and those behind the pointer. -/
theorem pieces_next : pieces s = (pathParse s).2 ::
    match (pathParse s).1 with
    | none => []
    | some q => pieces q := by
  have hp := pathParse_parsed s
  rw [pieces_eq]
  by_cases hn : (pathParse s).2 = []
  · obtain ⟨hptr, hcomps, hclosed⟩ := hp.last hn
    simp [hptr, hcomps, hclosed, hn]
  · obtain ⟨hcomps, hclosed⟩ := hp.next hn
    rw [hcomps, hclosed]
    rcases hp.at_slash with hptr | ⟨r, hptr⟩
    · rw [hptr]
      rfl
    · simp only [hptr, pieces]
      by_cases hc : closed (slash :: r) = true
      · simp [ptrComponents, ptrClosed, hc]
      · simp [ptrComponents, ptrClosed, hc]

theorem LargeEnough.next {q : CString} (h : LargeEnough size s) (hq : (pathParse s).1 = some q) :
    LargeEnough size q := by
  have hp := pathParse_parsed s
  refine ⟨h.1, fun c hc => h.2 c ?_⟩
  by_cases hn : (pathParse s).2 = []
  · rw [(hp.last hn).1] at hq
    cases hq
  · rw [← components_slash, (hp.next hn).1, hq]
    exact List.mem_cons_of_mem _ hc

theorem LargeEnough.fits (h : LargeEnough size s) : (pathParse s).2.length < size := by
  have hp := pathParse_parsed s
  by_cases hn : (pathParse s).2 = []
  · rw [hn]
    exact h.1
  · apply h.2
    rw [← components_slash, (hp.next hn).1]
    exact List.mem_cons_self

/-- The calls on a path of any shape: they end with the null pointer before the fuel is used up,
read nothing behind the terminator, store nothing behind the buffer, yield the pieces of the path
and move forward each. -/
theorem splitLoop_pieces {fuel : ℕ} (hnul : 0#8 ∉ s) (hlarge : LargeEnough size s)
    (hf : s.length < fuel) (m : Bytes) :
    ∃ calls, splitLoop size fuel (s ++ [0#8]) m = .ok calls ∧ calls.map Call.name = pieces s ∧
      ∀ call ∈ calls, ∀ q, call.next = some q → Advances call.pathname q := by
  induction fuel generalizing s m with
  | zero => cases hf
  | succ fuel ih =>
    have hread : readName size 0 (storeAt (pathParse s).2 0 (memset m 0 0#8 size)) =
        .ok (pathParse s).2 :=
      readName_storeAt (fun hm => hnul (pathParse_mem (List.mem_append_left _ hm))) hlarge.fits
        fun j _ hj => memset_inside (Nat.zero_le j) hj
    rw [pieces_next]
    rw [splitLoop, parseText_eq hnul hlarge.fits.le]
    cases hptr : (pathParse s).1 with
    | none =>
      refine ⟨[⟨s ++ [0#8], (pathParse s).2, none⟩], ?_, rfl, ?_⟩
      · simp [bind, Except.bind, hread]
      · intro call hcall q hq
        rw [List.mem_singleton.mp hcall] at hq
        cases hq
    | some q =>
      have hadv := pathParse_advances hptr
      have hq : 0#8 ∉ q := fun hm => hnul ((pathParse_suffix hptr).subset hm)
      have hlt : q.length < s.length := by
        obtain ⟨passed, hne, he⟩ := hadv
        have hlen := congrArg List.length he
        have hpos := List.length_pos_iff.mpr hne
        simp only [List.length_append] at hlen
        omega
      obtain ⟨calls, hrun, hnames, hall⟩ := ih hq (hlarge.next hptr) (by omega)
        (storeAt (pathParse s).2 0 (memset m 0 0#8 size))
      refine ⟨⟨s ++ [0#8], (pathParse s).2, some (q ++ [0#8])⟩ :: calls, ?_, ?_, ?_⟩
      · simp [bind, Except.bind, hread, hrun]
      · simp [hnames]
      · intro call hcall q' hq'
        rcases List.mem_cons.mp hcall with rfl | hcall
        · cases hq'
          exact hadv
        · exact hall call hcall q' hq'

/-- "a//b/", in a buffer of two bytes. -/
theorem splitLoop_sample : (0#8 ∉ [0x61#8, slash, slash, 0x62#8, slash] ∧
      LargeEnough 2 [0x61#8, slash, slash, 0x62#8, slash]) ∧
    ∃ calls, splitLoop 2 6 [0x61#8, slash, slash, 0x62#8, slash, 0#8] (fun _ => 0xff#8) =
        .ok calls ∧ calls.map Call.name = [[0x61#8], [0x62#8], []] ∧
      ∀ call ∈ calls, ∀ q, call.next = some q → Advances call.pathname q := by
  have hnul : 0#8 ∉ [0x61#8, slash, slash, 0x62#8, slash] := by decide
  have hlarge : LargeEnough 2 [0x61#8, slash, slash, 0x62#8, slash] := by
    unfold LargeEnough
    decide
  exact ⟨⟨hnul, hlarge⟩, splitLoop_pieces hnul hlarge (by decide) (fun _ => 0xff#8)⟩

end

end FsPathSplits
