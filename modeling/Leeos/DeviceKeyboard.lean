import Leeos.DeviceIoqueueRing
import Leeos.KernelScreen

/-!
# The keyboard (`device/keyboard.c`)

The handler takes one byte an interrupt. 0xe0 is a prefix to the byte behind it; bit 7 tells a
break code from a make code. The flags are the static variables of the file, which nothing else
writes; between two interrupts any other code may run.
-/
namespace DeviceKeyboard

open ExecRules DeviceIoqueue DeviceIoqueueRing KernelScreen

/-- Columns without and with shift. -/
def keymap : List (BitVec 8 × BitVec 8) :=
  [(0x00, 0x00), (0x1b, 0x1b), (0x31, 0x21), (0x32, 0x40), (0x33, 0x23), (0x34, 0x24),
    (0x35, 0x25), (0x36, 0x5e), (0x37, 0x26), (0x38, 0x2a), (0x39, 0x28), (0x30, 0x29),
    (0x2d, 0x5f), (0x3d, 0x2b), (0x08, 0x08), (0x09, 0x09), (0x71, 0x51), (0x77, 0x57),
    (0x65, 0x45), (0x72, 0x52), (0x74, 0x54), (0x79, 0x59), (0x75, 0x55), (0x69, 0x49),
    (0x6f, 0x4f), (0x70, 0x50), (0x5b, 0x7b), (0x5d, 0x7d), (0x0d, 0x0d), (0x00, 0x00),
    (0x61, 0x41), (0x73, 0x53), (0x64, 0x44), (0x66, 0x46), (0x67, 0x47), (0x68, 0x48),
    (0x6a, 0x4a), (0x6b, 0x4b), (0x6c, 0x4c), (0x3b, 0x3a), (0x27, 0x22), (0x60, 0x7e),
    (0x00, 0x00), (0x5c, 0x7c), (0x7a, 0x5a), (0x78, 0x58), (0x63, 0x43), (0x76, 0x56),
    (0x62, 0x42), (0x6e, 0x4e), (0x6d, 0x4d), (0x2c, 0x3c), (0x2e, 0x3e), (0x2f, 0x3f),
    (0x00, 0x00), (0x2a, 0x2a), (0x00, 0x00), (0x20, 0x20), (0x00, 0x00)]

structure KbdFlags where
  ctrlStatus : Bool
  shiftStatus : Bool
  altStatus : Bool
  extScancode : Bool
  deriving DecidableEq, Repr

structure KbdState where
  flags : KbdFlags
  kdbBuf : IoqState
  screen : Screen

inductive KbdFault where
  | ioqueue (a : IoqAssertion)
  | screen (f : ScreenFault)
  | keymapIndex
  deriving DecidableEq, Repr

abbrev KbdM (α : Type) := Exec KbdFault KbdState α

def liftIoqueue (x : IoqM Unit) : KbdM Unit := fun s =>
  match x s.kdbBuf with
  | .ok ((), q) => .ok ((), { s with kdbBuf := q })
  | .error a => .error (.ioqueue a)

def liftScreen (x : ScreenM Unit) : KbdM Unit := fun s =>
  match x s.screen with
  | .ok ((), t) => .ok ((), { s with screen := t })
  | .error f => .error (.screen f)

def ctrlLMake : BitVec 16 := 0x1d
def ctrlRMake : BitVec 16 := 0xe01d
def shiftLMake : BitVec 16 := 0x2a
def shiftRMake : BitVec 16 := 0x36
def altLMake : BitVec 16 := 0x38
def altRMake : BitVec 16 := 0xe038

def breakCode (makeCode : BitVec 16) (f : KbdFlags) : KbdFlags :=
  if makeCode = ctrlLMake ∨ makeCode = ctrlRMake then { f with ctrlStatus := false }
  else if makeCode = shiftLMake ∨ makeCode = shiftRMake then { f with shiftStatus := false }
  else if makeCode = altLMake ∨ makeCode = altRMake then { f with altStatus := false }
  else f

/-- The keys that shift alone decides on. -/
def ShiftTest (scancode : BitVec 16) : Prop :=
  scancode < 0x0e ∨ scancode = 0x29 ∨ scancode = 0x1a ∨ scancode = 0x1b ∨ scancode = 0x2b ∨
    scancode = 0x27 ∨ scancode = 0x28 ∨ scancode = 0x33 ∨ scancode = 0x34 ∨ scancode = 0x35

instance (scancode : BitVec 16) : Decidable (ShiftTest scancode) :=
  inferInstanceAs (Decidable (_ ∨ _))

def shiftOf (scancode : BitVec 16) (f : KbdFlags) : Bool :=
  if ShiftTest scancode then f.shiftStatus
  else if f.shiftStatus && f.altStatus then false
  else f.shiftStatus || f.altStatus

def keymapAt (index : ℕ) : KbdM (BitVec 8 × BitVec 8) :=
  match keymap[index]? with
  | some entry => pure entry
  | none => throw .keymapIndex

/-- The character is shown and put into the queue, unless that is full. -/
def echo (ch : BitVec 8) (saved : SavedStack) : KbdM Unit := do
  if ch ≠ 0 then
    let s ← get
    ensure (.ioqueue .intrOff) (s.kdbBuf.threads.intr = false)
    if ioqueueIsFull s.kdbBuf.ioq = false then
      liftScreen (putChar ch)
      liftIoqueue (ioqEnter (.putchar ch) saved)

def makeCode (scancode : BitVec 16) (last : KbdFlags) (saved : SavedStack) : KbdM Unit := do
  let entry ← keymapAt (scancode &&& 0x00ff).toNat
  echo (if shiftOf scancode last then entry.2 else entry.1) saved

def unknowChar : List (BitVec 8) :=
  [0x75, 0x6e, 0x6b, 0x6e, 0x6f, 0x77, 0x20, 0x63, 0x68, 0x61, 0x72, 0x0a]

def keyCode (scancode : BitVec 16) (last : KbdFlags) (saved : SavedStack) : KbdM Unit := do
  if scancode &&& 0x0080 ≠ 0 then
    modify fun s => { s with flags := breakCode (scancode &&& 0xff7f) s.flags }
  else if (0x00 < scancode ∧ scancode < 0x3b) ∨ (scancode = altRMake ∧ scancode = ctrlLMake) then
    makeCode scancode last saved
  else liftScreen (putStr unknowChar)

def intrKeyboardHandler (byte : BitVec 8) (saved : SavedStack) : KbdM Unit := do
  let s ← get
  let scancode := byte.setWidth 16
  if scancode = 0xe0 then
    set { s with flags := { s.flags with extScancode := true } }
  else
    set { s with flags := { s.flags with extScancode := false } }
    keyCode (if s.flags.extScancode then scancode ||| 0xe000 else scancode) s.flags saved

/-! ## What the bytes mean -/

inductive Modifier where
  | ctrl
  | shift
  | alt
  deriving DecidableEq, Repr

def KbdFlags.status (f : KbdFlags) : Modifier → Bool
  | .ctrl => f.ctrlStatus
  | .shift => f.shiftStatus
  | .alt => f.altStatus

/-- The key codes of a sequence of bytes; the flag says whether 0xe0 came before. -/
def codes : Bool → List (BitVec 8) → List (BitVec 16)
  | _, [] => []
  | ext, byte :: rest =>
    if byte = 0xe0 then codes true rest
    else ((if ext then 0xe0#8 else 0x00#8) ++ byte) :: codes false rest

def keyEvent (code : BitVec 16) : Option (Modifier × Bool) :=
  if code = 0x1d ∨ code = 0xe01d then some (.ctrl, true)
  else if code = 0x9d ∨ code = 0xe09d then some (.ctrl, false)
  else if code = 0x2a ∨ code = 0x36 then some (.shift, true)
  else if code = 0xaa ∨ code = 0xb6 then some (.shift, false)
  else if code = 0x38 ∨ code = 0xe038 then some (.alt, true)
  else if code = 0xb8 ∨ code = 0xe0b8 then some (.alt, false)
  else none

/-- The last event of the modifier's keys was a make. -/
def Held (m : Modifier) (bytes : List (BitVec 8)) : Prop :=
  (((codes false bytes).filterMap keyEvent).filter fun e => e.1 = m).getLast? = some (m, true)

instance (m : Modifier) (bytes : List (BitVec 8)) : Decidable (Held m bytes) :=
  inferInstanceAs (Decidable (_ = _))

def Completes (bytes : List (BitVec 8)) (byte : BitVec 8) (code : BitVec 16) : Prop :=
  codes false (bytes ++ [byte]) = codes false bytes ++ [code]

/-- The bytes that came in since the start, and the state they lead to. -/
inductive KbdRun : List (BitVec 8) → KbdState → Prop
  | start {s : KbdState} : s.flags = ⟨false, false, false, false⟩ → KbdRun [] s
  | other {bytes : List (BitVec 8)} {s t : KbdState} :
      KbdRun bytes s → t.flags = s.flags → KbdRun bytes t
  | byte {bytes : List (BitVec 8)} {s t : KbdState} {byte : BitVec 8} (saved : SavedStack) :
      KbdRun bytes s → intrKeyboardHandler byte saved s = .ok ((), t) → KbdRun (bytes ++ [byte]) t

/-- `ch` is put into the queue. -/
def appended (q : Ioqueue) (ch : BitVec 8) : Ioqueue :=
  { q with
    buf := Function.update q.buf q.head ch
    head := nextPos q.head }

/-- The code of a digit or punctuation key puts the character of the column that shift selects:
whenever the handler returns, and it returns when nobody waits for the character. -/
structure Types (shift : Prop) [Decidable shift] (code : BitVec 16) (s : KbdState)
    (x : KbdM Unit) : Prop where
  puts : ∀ t, x s = .ok ((), t) → ∃ entry, keymap[code.toNat]? = some entry ∧
    t.kdbBuf.ioq = appended s.kdbBuf.ioq (if shift then entry.2 else entry.1)
  returns : s.screen.cursor.toNat < 2000 → Idle s.kdbBuf.ioq → ∃ t, x s = .ok ((), t)

structure KeyboardOk (bytes : List (BitVec 8)) : Prop where
  flags : ∀ before s, before <+: bytes → KbdRun before s →
    ∀ m, s.flags.status m = true ↔ Held m before
  types : ∀ before byte code s saved, before ++ [byte] <+: bytes → KbdRun before s →
    s.kdbBuf.threads.intr = false → ioqueueIsFull s.kdbBuf.ioq = false →
    Completes before byte code → 0 < code → ShiftTest code →
    Types (Held .shift before) code s (intrKeyboardHandler byte saved)
  keymap : ∀ before byte s saved, before ++ [byte] <+: bytes → KbdRun before s →
    intrKeyboardHandler byte saved s ≠ .error .keymapIndex

def NoModifierMake (bytes : List (BitVec 8)) : Prop :=
  ∀ code ∈ codes false bytes, ∀ m, keyEvent code ≠ some (m, true)

variable {s t : KbdState} {f last : KbdFlags} {bytes before : List (BitVec 8)} {byte : BitVec 8}
  {code scancode : BitVec 16} {saved : SavedStack} {m : Modifier} {ext : Bool}

/-! ## The prefix -/

def extAfter : Bool → List (BitVec 8) → Bool
  | ext, [] => ext
  | _, byte :: rest => extAfter (byte == 0xe0) rest

theorem codes_append (ext : Bool) (before after : List (BitVec 8)) :
    codes ext (before ++ after) = codes ext before ++ codes (extAfter ext before) after := by
  induction before generalizing ext with
  | nil => rfl
  | cons b rest ih =>
    rw [List.cons_append, codes, codes, extAfter]
    split
    case isTrue h => rw [ih, beq_iff_eq.mpr h]
    case isFalse h => rw [ih, beq_eq_false_iff_ne.mpr h, List.cons_append]

theorem extAfter_append (ext : Bool) (before : List (BitVec 8)) (byte : BitVec 8) :
    extAfter ext (before ++ [byte]) = (byte == 0xe0) := by
  induction before generalizing ext with
  | nil => rfl
  | cons b rest ih => exact ih _

theorem codes_mono (h : before <+: bytes) : codes ext before <+: codes ext bytes := by
  obtain ⟨after, rfl⟩ := h
  exact ⟨_, (codes_append ext before after).symm⟩

/-! ## One byte -/

theorem handler_ext (h : byte = 0xe0) : intrKeyboardHandler byte saved s =
    .ok ((), { s with flags := { s.flags with extScancode := true } }) := by
  subst h
  rfl

theorem handler_key (h : byte ≠ 0xe0) : intrKeyboardHandler byte saved s =
    keyCode (if s.flags.extScancode then byte.setWidth 16 ||| 0xe000 else byte.setWidth 16) s.flags
      saved { s with flags := { s.flags with extScancode := false } } := by
  have hne : byte.setWidth 16 ≠ 0xe0#16 := by bv_omega
  rw [intrKeyboardHandler, get_bind]
  exact congrFun (if_neg hne) s

/-! ## The flags are never set -/

theorem liftScreen_flags (x : ScreenM Unit) :
    Triple (fun s => s.flags = f) (liftScreen x) fun _ t => t.flags = f := by
  intro s a t hs hrun
  rw [liftScreen] at hrun
  split at hrun
  · cases hrun
    exact hs
  · cases hrun

theorem liftIoqueue_flags (x : IoqM Unit) :
    Triple (fun s => s.flags = f) (liftIoqueue x) fun _ t => t.flags = f := by
  intro s a t hs hrun
  rw [liftIoqueue] at hrun
  split at hrun
  · cases hrun
    exact hs
  · cases hrun

theorem echo_flags (ch : BitVec 8) :
    Triple (fun s => s.flags = f) (echo ch saved) fun _ t => t.flags = f := by
  apply triple_ite
  · apply triple_get_bind
    intro s hs
    apply triple_ensure_bind
    intro _
    apply triple_ite
    · intro u a t hu hrun
      subst hu
      exact ((liftScreen_flags _).bind fun _ => liftIoqueue_flags _) u a t hs hrun
    · apply triple_pure
      rintro u rfl
      exact hs
  · exact triple_pure fun _ hs => hs

theorem keymapAt_flags (index : ℕ) :
    Triple (fun s => s.flags = f) (keymapAt index) fun _ t => t.flags = f := by
  rw [keymapAt]
  split
  · exact triple_pure fun _ hs => hs
  · exact triple_throw

theorem makeCode_flags :
    Triple (fun s => s.flags = f) (makeCode scancode last saved) fun _ t => t.flags = f :=
  (keymapAt_flags _).bind fun _ => echo_flags _

theorem keyCode_flags : Triple (fun s => s.flags = f) (keyCode scancode last saved) fun _ t =>
    t.flags = f ∨ t.flags = breakCode (scancode &&& 0xff7f) f := by
  apply triple_ite
  · apply triple_modify
    intro s hs
    exact Or.inr (congrArg (breakCode (scancode &&& 0xff7f)) hs)
  · apply triple_ite
    · intro s a t hs hrun
      exact Or.inl (makeCode_flags s a t hs hrun)
    · intro s a t hs hrun
      exact Or.inl (liftScreen_flags _ s a t hs hrun)

theorem breakCode_clear (makeCode : BitVec 16) :
    breakCode makeCode ⟨false, false, false, ext⟩ = ⟨false, false, false, ext⟩ := by
  rw [breakCode]
  split_ifs <;> rfl

theorem handler_flags (hs : s.flags = ⟨false, false, false, ext⟩)
    (hrun : intrKeyboardHandler byte saved s = .ok ((), t)) :
    t.flags = ⟨false, false, false, byte == 0xe0⟩ := by
  by_cases h : byte = 0xe0
  · rw [handler_ext h] at hrun
    cases hrun
    rw [beq_iff_eq.mpr h, hs]
  · rw [handler_key h] at hrun
    rw [beq_eq_false_iff_ne.mpr h]
    rcases keyCode_flags _ _ _ rfl hrun with ht | ht
    · rw [ht, hs]
    · rw [ht, hs, breakCode_clear]

theorem run_flags (h : KbdRun bytes s) : s.flags = ⟨false, false, false, extAfter false bytes⟩ := by
  induction h with
  | start hs => exact hs
  | other _ ht ih => exact ht.trans ih
  | byte saved _ hrun ih => rw [extAfter_append, handler_flags ih hrun]

theorem status_run (h : KbdRun bytes s) (m : Modifier) : s.flags.status m = false := by
  rw [run_flags h]
  cases m <;> rfl

/-! ## Which modifiers are held -/

theorem not_held (h : NoModifierMake bytes) (m : Modifier) : ¬ Held m bytes := by
  intro hm
  have hmem := List.mem_of_getLast? hm
  obtain ⟨code, hcode, he⟩ := List.mem_filterMap.mp (List.mem_filter.mp hmem).1
  exact h code hcode m he

theorem NoModifierMake.mono (h : NoModifierMake bytes) (hp : before <+: bytes) :
    NoModifierMake before :=
  fun code hcode m => h code ((codes_mono hp).subset hcode) m

theorem held_of_make (h : ¬ NoModifierMake bytes) :
    ∃ before m, before <+: bytes ∧ Held m before := by
  induction bytes using List.reverseRecOn with
  | nil => exact (h fun code hcode => by cases hcode).elim
  | append_singleton bytes b ih =>
    by_cases hold : NoModifierMake bytes
    · simp only [NoModifierMake, not_forall, not_not] at h
      obtain ⟨code, hcode, m, he⟩ := h
      have hcodes := codes_append false bytes [b]
      rw [hcodes] at hcode
      rcases List.mem_append.mp hcode with hcode | hcode
      · exact (hold code hcode m he).elim
      · refine ⟨bytes ++ [b], m, List.prefix_rfl, ?_⟩
        have hone : codes (extAfter false bytes) [b] = [code] := by
          rw [codes] at hcode ⊢
          split at hcode
          case isTrue => cases hcode
          case isFalse hb =>
            rw [if_neg hb]
            simp only [codes, List.mem_singleton] at hcode ⊢
            rw [hcode]
        rw [Held, hcodes, hone, List.filterMap_append, List.filter_append]
        simp [he]
    · obtain ⟨before, m, hp, hm⟩ := ih hold
      exact ⟨before, m, hp.trans (List.prefix_append bytes [b]), hm⟩

/-! ## The keymap -/

theorem low_byte (h : scancode < 0x3b) : (scancode &&& 0x00ff).toNat = scancode.toNat := by
  have hlt : scancode.toNat < 0x3b := h
  rw [BitVec.toNat_and]
  apply (Nat.and_two_pow_sub_one_eq_mod scancode.toNat 8).trans
  exact Nat.mod_eq_of_lt (by omega)

theorem makeCode_eq (last : KbdFlags) (saved : SavedStack) (h : scancode < 0x3b) :
    ∃ entry, keymap[scancode.toNat]? = some entry ∧ makeCode scancode last saved =
      echo (if shiftOf scancode last then entry.2 else entry.1) saved := by
  have hlt : scancode.toNat < keymap.length := h
  refine ⟨keymap[scancode.toNat], List.getElem?_eq_getElem hlt, ?_⟩
  rw [makeCode, keymapAt, low_byte h, List.getElem?_eq_getElem hlt]
  rfl

theorem make_guard (h : (0x00 < scancode ∧ scancode < 0x3b) ∨
    (scancode = altRMake ∧ scancode = ctrlLMake)) : scancode < 0x3b := by
  rcases h with h | ⟨h, h'⟩
  · exact h.2
  · rw [h] at h'
    exact absurd h' (by decide)

theorem liftScreen_raises (x : ScreenM Unit) : Raises (· ≠ .keymapIndex) (liftScreen x) := by
  intro s e h
  rw [liftScreen] at h
  split at h
  · cases h
  · cases h
    intro he
    cases he

theorem liftIoqueue_raises (x : IoqM Unit) : Raises (· ≠ .keymapIndex) (liftIoqueue x) := by
  intro s e h
  rw [liftIoqueue] at h
  split at h
  · cases h
  · cases h
    intro he
    cases he

theorem echo_raises (ch : BitVec 8) : Raises (· ≠ .keymapIndex) (echo ch saved) := by
  rw [echo]
  split
  · refine Raises.bind raises_get fun s => Raises.bind (raises_ensure (by decide)) fun _ => ?_
    split
    · exact (liftScreen_raises _).bind fun _ => liftIoqueue_raises _
    · exact raises_pure ()
  · exact raises_pure ()

theorem keyCode_raises : Raises (· ≠ .keymapIndex) (keyCode scancode last saved) := by
  rw [keyCode]
  split
  · intro s e h
    cases h
  · split
    case isTrue h =>
      obtain ⟨entry, -, heq⟩ := makeCode_eq last saved (make_guard h)
      rw [heq]
      exact echo_raises _
    case isFalse => exact liftScreen_raises _

theorem handler_index (byte : BitVec 8) (saved : SavedStack) (s : KbdState) :
    intrKeyboardHandler byte saved s ≠ .error .keymapIndex := by
  by_cases h : byte = 0xe0
  · rw [handler_ext h]
    intro he
    cases he
  · rw [handler_key h]
    exact fun he => keyCode_raises _ _ he rfl

/-! ## Characters -/

theorem liftScreen_ok {x : ScreenM Unit} {u : Screen} (h : x s.screen = .ok ((), u)) :
    liftScreen x s = .ok ((), { s with screen := u }) := by
  simp only [liftScreen, h]

theorem liftIoqueue_ok {x : IoqM Unit} {q : IoqState} (h : x s.kdbBuf = .ok ((), q)) :
    liftIoqueue x s = .ok ((), { s with kdbBuf := q }) := by
  simp only [liftIoqueue, h]

theorem ioqEnter_queue {q r : IoqState} (call : IoqCall) (hs : CanServe q.ioq call)
    (hrun : ioqEnter call saved q = .ok ((), r)) : r.ioq = (transfer call q).ioq := by
  have hr := ioqEnter_ok hrun
  rw [if_pos hs] at hr
  cases ho : q.ioq.other call with
  | none =>
    rw [ho] at hr
    cases hr
    rfl
  | some waiter =>
    rw [ho] at hr
    obtain ⟨-, hr⟩ := ensure_bind_ok_iff.mp hr
    obtain ⟨-, hr⟩ := ensure_bind_ok_iff.mp hr
    cases hr
    rfl

/-- Nobody waits in the queue, interrupts are off and the cursor stands where it should. -/
structure Ready (s : KbdState) : Prop where
  intr : s.kdbBuf.threads.intr = false
  idle : Idle s.kdbBuf.ioq
  cursor : s.screen.cursor.toNat < 2000

theorem echo_returns (h : Ready s) {ch : BitVec 8}
    (hb : ch = 0x08#8 → s.screen.cursor.toNat ≠ 0) : ∃ t, echo ch saved s = .ok ((), t) := by
  rw [echo]
  split_ifs with hch
  · rw [get_bind]
    simp only [ensure_bind_of_true h.intr]
    split_ifs with hfull
    · obtain ⟨u, hu, -⟩ := putChar_ok h.cursor hb
      rw [bind_of_ok (liftScreen_ok hu)]
      exact ⟨_, liftIoqueue_ok (ioqEnter_serves (.putchar ch) h.idle h.intr hfull)⟩
    · exact ⟨s, rfl⟩
  · exact ⟨s, rfl⟩

theorem keyCode_returns (h : Ready s) (hc : s.screen.cursor.toNat ≠ 0) :
    ∃ t, keyCode scancode last saved s = .ok ((), t) := by
  rw [keyCode]
  split_ifs with hbreak hmake
  · exact ⟨_, rfl⟩
  · obtain ⟨entry, -, heq⟩ := makeCode_eq last saved (make_guard hmake)
    rw [heq]
    exact echo_returns h fun _ => hc
  · obtain ⟨u, hu⟩ := putStr_ok unknowChar h.cursor (by decide)
    exact ⟨_, liftScreen_ok hu⟩

theorem handler_returns (byte : BitVec 8) (saved : SavedStack) (h : Ready s)
    (hc : s.screen.cursor.toNat ≠ 0) : ∃ t, intrKeyboardHandler byte saved s = .ok ((), t) := by
  by_cases hb : byte = 0xe0
  · exact ⟨_, handler_ext hb⟩
  · rw [handler_key hb]
    exact keyCode_returns ⟨h.intr, h.idle, h.cursor⟩ hc

theorem run_exists (bytes : List (BitVec 8)) : ∃ s, KbdRun bytes s := by
  induction bytes using List.reverseRecOn with
  | nil => exact ⟨⟨⟨false, false, false, false⟩, stateWith (ioqInit KernelThreadRuns.bootState).ioq,
      ⟨fun _ => 0, 0, []⟩⟩, .start rfl⟩
  | append_singleton bytes b ih =>
    obtain ⟨s, hs⟩ := ih
    let t : KbdState := ⟨s.flags, stateWith (ioqueueInit (ioqInit KernelThreadRuns.bootState).ioq),
      ⟨fun _ => 0, 80, []⟩⟩
    have hc : t.screen.cursor.toNat = 80 := rfl
    have ht : Ready t := ⟨rfl, idle_init _, by omega⟩
    obtain ⟨u, hu⟩ := handler_returns b ⟨0, 0⟩ ht (by omega)
    exact ⟨u, .byte ⟨0, 0⟩ (.other (t := t) hs rfl) hu⟩

/-! ## Digits and punctuation -/

/-- The characters of these keys are no NUL and no backspace. -/
theorem shiftTest_chars (h : 0 < code) (ht : ShiftTest code) {entry : BitVec 8 × BitVec 8}
    (he : keymap[code.toNat]? = some entry) : entry.1 ≠ 0 ∧ entry.1 ≠ 0x08#8 := by
  have hall : ∀ n < 59, 0 < n → ShiftTest (BitVec.ofNat 16 n) →
      (keymap[n]?.all fun e => e.1 != 0 && e.1 != 0x08#8) = true := by decide
  have hlt : code.toNat < 59 := (List.getElem?_eq_some_iff.mp he).1
  have hcode : BitVec.ofNat 16 code.toNat = code := BitVec.ofNat_toNat 16 code
  have hchars := hall code.toNat hlt h (hcode.symm ▸ ht)
  rw [he] at hchars
  simpa using hchars

theorem completes_plain (h : Completes before byte code) (ht : ShiftTest code) :
    byte ≠ 0xe0 ∧ extAfter false before = false ∧ byte.setWidth 16 = code := by
  have hlt : code < 0x3b := by
    simp only [ShiftTest] at ht
    bv_omega
  rw [Completes, codes_append, List.append_cancel_left_eq, codes] at h
  split at h
  case isTrue => cases h
  case isFalse hne =>
    have hcode : (if extAfter false before then 0xe0#8 else 0x00#8) ++ byte = code :=
      (List.cons.inj h).1
    have hbyte := BitVec.toNat_append (if extAfter false before then 0xe0#8 else 0x00#8) byte
    rw [hcode] at hbyte
    cases hext : extAfter false before with
    | false =>
      refine ⟨hne, rfl, BitVec.eq_of_toNat_eq ?_⟩
      have hlt := byte.isLt
      simp only [hbyte, hext, BitVec.toNat_setWidth]
      simp
      omega
    | true =>
      rw [hext] at hbyte
      have hle : 0xe000 ≤ code.toNat := by
        rw [hbyte]
        exact Nat.left_le_or
      have : code.toNat < 0x3b := hlt
      omega

theorem handler_shiftTest (saved : SavedStack) (hr : KbdRun before s)
    (h : Completes before byte code) (h₀ : 0 < code) (ht : ShiftTest code) :
    ∃ entry f, keymap[code.toNat]? = some entry ∧
      intrKeyboardHandler byte saved s = echo entry.1 saved { s with flags := f } := by
  obtain ⟨hne, hext, hcode⟩ := completes_plain h ht
  have hlt : code < 0x3b := by
    simp only [ShiftTest] at ht
    bv_omega
  have hmake : ¬ code &&& 0x0080 ≠ 0 := by
    have hall : ∀ n < 59, BitVec.ofNat 16 n &&& 0x0080 = 0 := by decide
    have := hall code.toNat hlt
    rw [BitVec.ofNat_toNat, BitVec.setWidth_eq] at this
    exact not_not.mpr this
  have hflags := run_flags hr
  rw [hext] at hflags
  have hshift : shiftOf code s.flags = false := by
    rw [shiftOf, if_pos ht, hflags]
  obtain ⟨entry, he, heq⟩ := makeCode_eq s.flags saved hlt
  refine ⟨entry, { s.flags with extScancode := false }, he, ?_⟩
  rw [handler_key hne, hcode, if_neg (by rw [hflags]; decide), keyCode, if_neg hmake,
    if_pos (Or.inl ⟨h₀, hlt⟩), heq, hshift]
  rfl

theorem echo_puts {ch : BitVec 8} (hch : ch ≠ 0)
    (hf : ioqueueIsFull s.kdbBuf.ioq = false) (hrun : echo ch saved s = .ok ((), t)) :
    t.kdbBuf.ioq = appended s.kdbBuf.ioq ch := by
  rw [echo, if_pos hch, get_bind] at hrun
  obtain ⟨-, hrun⟩ := ensure_bind_ok_iff.mp hrun
  rw [if_pos hf] at hrun
  obtain ⟨_, u, hscreen, hqueue⟩ := bind_ok_iff.mp hrun
  have hsame : u.kdbBuf = s.kdbBuf := by
    rw [liftScreen] at hscreen
    split at hscreen
    · cases hscreen
      rfl
    · cases hscreen
  rw [liftIoqueue, hsame] at hqueue
  split at hqueue
  case h_1 q hq =>
    cases hqueue
    exact ioqEnter_queue (.putchar ch) hf hq
  case h_2 => cases hqueue

theorem types_plain {shift : Prop} [Decidable shift] (hs : ¬ shift) (hr : KbdRun before s)
    (hi : s.kdbBuf.threads.intr = false) (hf : ioqueueIsFull s.kdbBuf.ioq = false)
    (h : Completes before byte code) (h₀ : 0 < code) (ht : ShiftTest code) :
    Types shift code s (intrKeyboardHandler byte saved) := by
  obtain ⟨entry, f, he, heq⟩ := handler_shiftTest saved hr h h₀ ht
  obtain ⟨hzero, hback⟩ := shiftTest_chars h₀ ht he
  constructor
  · intro t hrun
    rw [heq] at hrun
    refine ⟨entry, he, ?_⟩
    rw [if_neg hs]
    exact echo_puts (s := { s with flags := f }) hzero hf hrun
  · intro hc hidle
    rw [heq]
    exact echo_returns (s := { s with flags := f }) ⟨hi, hidle, hc⟩ fun hb => (hback hb).elim

/-- The keyboard does what it should on a sequence of bytes, whatever runs in between, exactly if
no key of a modifier goes down in it. -/
theorem keyboard_ok_iff (bytes : List (BitVec 8)) : KeyboardOk bytes ↔ NoModifierMake bytes := by
  constructor
  · intro h
    by_contra hmake
    obtain ⟨before, m, hp, hheld⟩ := held_of_make hmake
    obtain ⟨s, hs⟩ := run_exists before
    have hset := (h.flags before s hp hs m).mpr hheld
    rw [status_run hs m] at hset
    cases hset
  · intro h
    refine ⟨?_, ?_, ?_⟩
    · intro before s hp hs m
      rw [status_run hs m]
      constructor
      · intro hf
        cases hf
      · intro hm
        exact (not_held (h.mono hp) m hm).elim
    · intro before byte code s saved hp hs hi hf hc h₀ ht
      have hbefore : before <+: bytes := (List.prefix_append before [byte]).trans hp
      exact types_plain (not_held (h.mono hbefore) .shift) hs hi hf hc h₀ ht
    · intro before byte s saved _ _
      exact handler_index byte saved s

/-- Left shift goes down. -/
theorem shift_not_recorded : ¬ KeyboardOk [0x2a] := by
  intro h
  obtain ⟨s, hs⟩ := run_exists [0x2a]
  have hset := (h.flags [0x2a] s List.prefix_rfl hs .shift).mpr (by decide)
  rw [status_run hs .shift] at hset
  cases hset

end DeviceKeyboard
