import Leeos.KernelLockCallers
import Leeos.KernelPutInt
import Leeos.KernelScreen

/-!
# The console (`device/console.c` over `putStr`, `putInt` and `putChar`)

`putChar` reads the cursor through an index register and a data register, one byte at a time, and
writes it back the same way; `putInt` keeps its digits in one buffer for all callers. A switch may
come between any two of these accesses. The console lock keeps them apart: what is on the screen
is what one thread would have printed, text after text.
-/
namespace DeviceConsole

open ExecRules KernelLockCallers KernelScreen
open KernelLocks (LockState LockEvent LockAssertion LockInit freeLock)
open LibStdio (numeral)
open KernelBitmap (Bytes)
open LibStdint (charZero)
open KernelPutInt (hexChar skipPrefix0 putEachNum based4bits putInt putInt_eq)

/-! ## `putChar` at its ports -/

/-- The screen with the index register behind port 0x3d4. -/
structure Video where
  screen : Screen
  index : BitVec 8

abbrev VideoM (α : Type) := Exec ScreenFault Video α

def high (bx : BitVec 16) : BitVec 8 := (bx >>> 8).setWidth 8
def low (bx : BitVec 16) : BitVec 8 := bx.setWidth 8

def outIndex (al : BitVec 8) : VideoM Unit := modify fun v => { v with index := al }

/-- `in al, 0x3d5`; the other registers of the controller are not read. -/
def inData : VideoM (BitVec 8) := do
  let v ← get
  pure (if v.index = 0x0e#8 then high v.screen.cursor
    else if v.index = 0x0f#8 then low v.screen.cursor else 0#8)

def outData (al : BitVec 8) : VideoM Unit := modify fun v =>
  { v with screen.cursor :=
      if v.index = 0x0e#8 then al ++ low v.screen.cursor
      else if v.index = 0x0f#8 then high v.screen.cursor ++ al else v.screen.cursor }

/-- What happens to the text buffer. -/
def onScreen {α : Type} (x : ScreenM α) : VideoM α := fun v =>
  match x v.screen with
  | .ok (a, s) => .ok (a, { v with screen := s })
  | .error e => .error e

/-- The access that `putChar` makes next, with the registers that it has by then. -/
inductive CharPc where
  | askHigh
  | inHigh
  | askLow (ah : BitVec 8)
  | inLow (ah : BitVec 8)
  | print (bx : BitVec 16)
  | selectHigh (bx : BitVec 16)
  | outHigh (bx : BitVec 16)
  | selectLow (bx : BitVec 16)
  | outLow (bx : BitVec 16)
  deriving DecidableEq, Repr

/-- Nothing is left when `putChar` returns. -/
def charStep (cl : BitVec 8) : CharPc → VideoM (Option CharPc)
  | .askHigh => do
    outIndex 0x0e#8
    pure (some .inHigh)
  | .inHigh => do
    let ah ← inData
    pure (some (.askLow ah))
  | .askLow ah => do
    outIndex 0x0f#8
    pure (some (.inLow ah))
  | .inLow ah => do
    let al ← inData
    pure (some (.print (ah ++ al)))
  | .print bx => do
    let bx ← onScreen (printAt bx cl)
    pure (some (.selectHigh bx))
  | .selectHigh bx => do
    outIndex 0x0e#8
    pure (some (.outHigh bx))
  | .outHigh bx => do
    outData (high bx)
    pure (some (.selectLow bx))
  | .selectLow bx => do
    outIndex 0x0f#8
    pure (some (.outLow bx))
  | .outLow bx => do
    outData (low bx)
    pure none

/-- Undisturbed, the accesses of one `putChar` on the screen `s`; `v` is what they have left. -/
def CharInv (cl : BitVec 8) (s : Screen) (v : Video) : CharPc → Prop
  | .askHigh => v.screen = s
  | .inHigh => v.screen = s ∧ v.index = 0x0e#8
  | .askLow ah => v.screen = s ∧ ah = high s.cursor
  | .inLow ah => v.screen = s ∧ ah = high s.cursor ∧ v.index = 0x0f#8
  | .print bx => v.screen = s ∧ bx = s.cursor
  | .selectHigh bx => putChar cl s = .ok ((), { v.screen with cursor := bx })
  | .outHigh bx => putChar cl s = .ok ((), { v.screen with cursor := bx }) ∧ v.index = 0x0e#8
  | .selectLow bx => putChar cl s = .ok ((), { v.screen with cursor := bx }) ∧
      high v.screen.cursor = high bx
  | .outLow bx => putChar cl s = .ok ((), { v.screen with cursor := bx }) ∧
      high v.screen.cursor = high bx ∧ v.index = 0x0f#8

theorem high_append_low (bx : BitVec 16) : high bx ++ low bx = bx := by
  apply BitVec.eq_of_getLsbD_eq
  intro i hi
  rw [BitVec.getLsbD_append]
  simp only [high, low, BitVec.getLsbD_setWidth, BitVec.getLsbD_ushiftRight]
  split
  · simp [*]
  · have hlow : 8 + (i - 8) = i := by omega
    have hlt : i - 8 < 8 := by omega
    simp [hlow, hlt]

theorem high_append (ah al : BitVec 8) : high (ah ++ al) = ah := by
  apply BitVec.eq_of_getLsbD_eq
  intro i hi
  simp only [high, BitVec.getLsbD_setWidth, BitVec.getLsbD_ushiftRight, BitVec.getLsbD_append]
  simp [hi]

theorem charStep_inv {cl : BitVec 8} {s : Screen} {v v' : Video} {pc : CharPc}
    {next : Option CharPc} (h : CharInv cl s v pc) (hrun : charStep cl pc v = .ok (next, v')) :
    match next with
    | some pc' => CharInv cl s v' pc'
    | none => putChar cl s = .ok ((), v'.screen) := by
  cases pc with
  | askHigh =>
    cases hrun
    exact ⟨h, rfl⟩
  | inHigh =>
    cases hrun
    obtain ⟨hs, hi⟩ := h
    exact ⟨hs, by rw [if_pos hi, hs]⟩
  | askLow ah =>
    cases hrun
    exact ⟨h.1, h.2, rfl⟩
  | inLow ah =>
    cases hrun
    obtain ⟨hs, hah, hi⟩ := h
    refine ⟨hs, ?_⟩
    rw [hi, if_neg (by decide), if_pos rfl, hs, hah]
    exact high_append_low s.cursor
  | print bx =>
    obtain ⟨hs, rfl⟩ := h
    obtain ⟨bx, v₁, hprint, hret⟩ := bind_ok_iff.mp hrun
    cases hret
    rw [onScreen, hs] at hprint
    cases hp : printAt s.cursor cl s with
    | error e =>
      rw [hp] at hprint
      cases hprint
    | ok r =>
      obtain ⟨bx', s'⟩ := r
      rw [hp] at hprint
      cases hprint
      change putChar cl s = _
      rw [putChar, get_bind, bind_of_ok hp]
      rfl
  | selectHigh bx =>
    cases hrun
    exact ⟨h, rfl⟩
  | outHigh bx =>
    cases hrun
    obtain ⟨hput, hi⟩ := h
    refine ⟨hput, ?_⟩
    simp only [hi, if_true]
    exact high_append ..
  | selectLow bx =>
    cases hrun
    exact ⟨h.1, h.2, rfl⟩
  | outLow bx =>
    cases hrun
    obtain ⟨hput, hhigh, hi⟩ := h
    rw [hput]
    simp only [hi, hhigh, high_append_low]
    rfl

/-! ## `putStr` and `putInt` between two characters -/

/-- What is printed under one acquisition of the lock: `console_put_str` and `console_put_int`. -/
inductive Call where
  | str (text : List (BitVec 8))
  | int (number : BitVec 32)
  deriving DecidableEq, Repr

def Call.text : Call → List (BitVec 8)
  | .str text => text
  | .int number => numeral 16 number.toNat

/-- Where `putStr` or `putInt` goes on. -/
inductive Rest where
  /-- `.goon`, with the bytes before the terminator -/
  | goon (text : List (BitVec 8))
  /-- `.16based_4bits` -/
  | based4bits (ecx : ℕ) (edi eax : BitVec 32)
  /-- `.skip_prefix_0` -/
  | skipPrefix0 (edi : BitVec 32)
  /-- `.put_each_num` -/
  | putEachNum (edi : BitVec 32) (cl : BitVec 8)
  /-- behind its call of `putChar` -/
  | sent (edi : BitVec 32)
  deriving DecidableEq, Repr

def Call.start : Call → Rest
  | .str text => .goon text
  | .int number => .based4bits 8 7#32 number

inductive Outcome where
  | goOn (r : Rest)
  | send (cl : BitVec 8) (r : Rest)
  | finish
  deriving DecidableEq, Repr

/-- One round of the loop at which it stands; `buf` is `put_int_buffer`. -/
def restStep (buf : Bytes) : Rest → Bytes × Outcome
  | .goon [] => (buf, .finish)
  | .goon (cl :: text) => (buf, .send cl (.goon text))
  | .based4bits 0 edi _ => (buf, .goOn (.skipPrefix0 (edi + 1#32)))
  | .based4bits (ecx + 1) edi eax => (Function.update buf edi.toNat (hexChar eax),
      .goOn (.based4bits ecx (edi - 1#32) (eax >>> 4)))
  | .skipPrefix0 edi =>
    if edi = 8#32 then (buf, .goOn (.putEachNum edi charZero))
    else if buf edi.toNat = charZero then (buf, .goOn (.skipPrefix0 (edi + 1#32)))
    else (buf, .goOn (.putEachNum (edi + 1#32 - 1#32) (buf edi.toNat)))
  | .putEachNum edi cl => (buf, .send cl (.sent edi))
  | .sent edi =>
    let edi := edi + 1#32
    let cl := buf edi.toNat
    if edi.slt 8#32 then (buf, .goOn (.putEachNum edi cl)) else (buf, .finish)

/-- What would still be printed if nobody else wrote the buffer. -/
def Rest.remaining (buf : Bytes) : Rest → List (BitVec 8)
  | .goon text => text
  | .based4bits ecx edi eax =>
    let filled := KernelPutInt.based4bits ecx edi eax buf
    let start := KernelPutInt.skipPrefix0 filled.2 (filled.1 + 1#32)
    KernelPutInt.putEachNum filled.2 start.1 start.2
  | .skipPrefix0 edi =>
    let start := KernelPutInt.skipPrefix0 buf edi
    KernelPutInt.putEachNum buf start.1 start.2
  | .putEachNum edi cl => KernelPutInt.putEachNum buf edi cl
  | .sent edi =>
    if (edi + 1#32).slt 8#32 then
      KernelPutInt.putEachNum buf (edi + 1#32) (buf (edi + 1#32).toNat)
    else []

variable {buf buf' : Bytes} {r r' : Rest} {cl : BitVec 8}

/-- Whatever an earlier call has left in the buffer. -/
theorem remaining_start (buf : Bytes) (c : Call) : c.start.remaining buf = c.text := by
  cases c with
  | str text => rfl
  | int number => exact putInt_eq number buf

theorem restStep_remaining (buf : Bytes) (r : Rest) :
    match restStep buf r with
    | (buf', .goOn r') => r'.remaining buf' = r.remaining buf
    | (buf', .send cl r') => buf' = buf ∧ r.remaining buf = cl :: r'.remaining buf
    | (_, .finish) => r.remaining buf = [] := by
  cases r with
  | goon text =>
    cases text with
    | nil => rfl
    | cons cl text => exact ⟨rfl, rfl⟩
  | based4bits ecx edi eax =>
    cases ecx with
    | zero => rfl
    | succ ecx => rfl
  | skipPrefix0 edi =>
    simp only [restStep]
    by_cases hend : edi = 8#32
    · simp only [if_pos hend, Rest.remaining]
      rw [KernelPutInt.skipPrefix0, if_pos hend]
    · by_cases hzero : buf edi.toNat = charZero
      · simp only [if_neg hend, if_pos hzero, Rest.remaining]
        rw [KernelPutInt.skipPrefix0.eq_1 buf edi, if_neg hend, if_pos hzero]
      · simp only [if_neg hend, if_neg hzero, Rest.remaining]
        rw [KernelPutInt.skipPrefix0, if_neg hend, if_neg hzero]
  | putEachNum edi cl =>
    refine ⟨rfl, ?_⟩
    simp only [Rest.remaining]
    rw [KernelPutInt.putEachNum]
    split <;> rfl
  | sent edi =>
    simp only [restStep]
    by_cases hlt : (edi + 1#32).slt 8#32 = true
    · simp only [if_pos hlt, Rest.remaining]
    · simp only [if_neg hlt, Rest.remaining]

/-! ## Callers of the console -/

/-- Where a thread is in `console_put_str` or `console_put_int`. -/
inductive Stage where
  | idle
  | acquiring (c : Call)
  | printing (c : Call) (r : Rest)
  /-- in `putChar` -/
  | sending (c : Call) (cl : BitVec 8) (pc : CharPc) (r : Rest)
  | releasing
  deriving DecidableEq, Repr

/-- `issued` are the calls of each thread, and `finished` the calls that have printed all of their
text, the earliest first. -/
structure Console where
  lock : LockState
  video : Video
  buf : Bytes
  stage : ℕ → Stage
  issued : ℕ → List Call
  finished : List (ℕ × Call)

inductive ConsoleHalt where
  | lock (a : LockAssertion)
  | screen (f : ScreenFault)
  deriving DecidableEq, Repr

abbrev ConsoleM := Exec ConsoleHalt Console Unit

def Console.goto (s : Console) (t : ℕ) (st : Stage) : Console :=
  { s with stage := Function.update s.stage t st }

def lockStatement (t : ℕ) (e : LockEvent) (after : LockState → Stage) : ConsoleM :=
  onLock Console.lock (fun s l => { s.goto t (after l) with lock := l }) .lock e

def putCharStatement (t : ℕ) (c : Call) (cl : BitVec 8) (pc : CharPc) (r : Rest) : ConsoleM :=
  fun s =>
    match charStep cl pc s.video with
    | .ok (some pc, v) => .ok ((), { s.goto t (.sending c cl pc r) with video := v })
    | .ok (none, v) => .ok ((), { s.goto t (.printing c r) with video := v })
    | .error f => .error (.screen f)

/-- The statement at which thread `t` stands. -/
def execute (t : ℕ) : ConsoleM := do
  let s ← get
  match s.stage t with
  | .idle => pure ()
  | .acquiring c =>
    lockStatement t (.execute t) fun l => if Returned l t then .printing c c.start else .acquiring c
  | .printing c r =>
    match restStep s.buf r with
    | (buf, .goOn r) => set { s.goto t (.printing c r) with buf := buf }
    | (buf, .send cl r) => set { s.goto t (.sending c cl .askHigh r) with buf := buf }
    | (_, .finish) => do
      set { s with finished := s.finished ++ [(t, c)] }
      lockStatement t (.release t) fun _ => .releasing
  | .sending c cl pc r => putCharStatement t c cl pc r
  | .releasing => lockStatement t (.execute t) fun l => if Returned l t then .idle else .releasing

/-- The call of a console function, up to the first statement of `lock_acquire`. -/
def call (t : ℕ) (c : Call) : ConsoleM := do
  modify fun s => { s with issued := Function.update s.issued t (s.issued t ++ [c]) }
  lockStatement t (.acquire t) fun _ => .acquiring c

inductive ConsoleEvent where
  | call (t : ℕ) (c : Call)
  | execute (t : ℕ)
  deriving DecidableEq, Repr

def happens : ConsoleEvent → ConsoleM
  | .call t c => call t c
  | .execute t => execute t

/-- A thread waits in `sem_down` for a unit. -/
def Enabled (s : Console) : ConsoleEvent → Prop
  | .call t _ => s.stage t = .idle
  | .execute t => s.stage t ≠ .idle ∧ (s.lock.pc t = .semDown → s.lock.value ≠ 0)

instance (s : Console) (e : ConsoleEvent) : Decidable (Enabled s e) := by
  cases e <;> simp only [Enabled] <;> infer_instance

def ConsoleStep (s s' : Console) : Prop := ∃ e, Enabled s e ∧ happens e s = .ok ((), s')

structure ConsoleInit (screen : Screen) (s : Console) : Prop where
  lock : LockInit s.lock
  stage : ∀ t, s.stage t = .idle
  issued : ∀ t, s.issued t = []
  finished : s.finished = []
  screen : s.video.screen = screen

/-! ## The invariant -/

def Stage.place : Stage → LockPlace
  | .idle => .outside
  | .acquiring _ => .acquiring
  | .printing _ _ | .sending _ _ _ _ => .inside
  | .releasing => .releasing

/-- The call that has not printed its text yet. -/
def Stage.pending : Stage → List Call
  | .acquiring c | .printing c _ | .sending c _ _ _ => [c]
  | .idle | .releasing => []

def texts (calls : List (ℕ × Call)) : List (BitVec 8) := calls.flatMap fun c => c.2.text

def callsOf (t : ℕ) (calls : List (ℕ × Call)) : List Call :=
  (calls.filter fun c => c.1 = t).map Prod.snd

/-- The thread inside the lock has printed `sent`, which has left the screen `screen`. -/
def Progress (s : Console) (sent : List (BitVec 8)) (screen : Screen) : Stage → Prop
  | .printing c r => c.text = sent ++ r.remaining s.buf ∧ s.video.screen = screen
  | .sending c cl pc r => c.text = sent ++ cl :: r.remaining s.buf ∧ CharInv cl screen s.video pc
  | _ => False

structure Printed (screen : Screen) (s : Console) (sent : List (BitVec 8)) (now : Screen) :
    Prop where
  run : putStr (texts s.finished ++ sent) screen = .ok ((), now)
  progress : ∀ t, (s.stage t).place = .inside → Progress s sent now (s.stage t)
  rest : (∀ t, (s.stage t).place ≠ .inside) → sent = [] ∧ s.video.screen = now

structure ConsoleInv (screen : Screen) (s : Console) : Prop where
  locked : Callers s.lock fun t => (s.stage t).place
  order : ∀ t, s.issued t = callsOf t s.finished ++ (s.stage t).pending
  printed : ∃ sent now, Printed screen s sent now

variable {s s' : Console} {t u : ℕ} {screen now : Screen} {sent : List (BitVec 8)} {c : Call}

theorem putStr_append (a b : List (BitVec 8)) (s : Screen) :
    putStr (a ++ b) s = (putStr a >>= fun _ => putStr b) s := by
  induction a generalizing s with
  | nil => rfl
  | cons cl a ih =>
    rw [List.cons_append, putStr, putStr]
    cases h : putChar cl s with
    | error e => rw [bind_of_error h, bind_of_error (bind_of_error h)]
    | ok r =>
      obtain ⟨⟨⟩, s'⟩ := r
      rw [bind_of_ok h, ih]
      cases h' : putStr a s' with
      | error e => rw [bind_of_error h', bind_of_error ((bind_of_ok h).trans h')]
      | ok r' => rw [bind_of_ok h', bind_of_ok ((bind_of_ok h).trans h')]

theorem putStr_snoc {a : List (BitVec 8)} {s s' s'' : Screen} (h : putStr a s = .ok ((), s'))
    (h' : putChar cl s' = .ok ((), s'')) : putStr (a ++ [cl]) s = .ok ((), s'') := by
  rw [putStr_append, bind_of_ok h, putStr, bind_of_ok h']
  rfl

theorem consoleInv_init (h : ConsoleInit screen s) : ConsoleInv screen s where
  locked := Callers.start h.lock fun t => by rw [h.stage t]; rfl
  order := fun t => by rw [h.issued t, h.finished, h.stage t]; rfl
  printed := by
    refine ⟨[], screen, ?_, ?_, fun _ => ⟨rfl, h.screen⟩⟩
    · rw [h.finished]
      rfl
    · intro t ht
      rw [h.stage t] at ht
      cases ht

theorem order_goto {st : Stage} (h : ∀ u, s.issued u = callsOf u s.finished ++ (s.stage u).pending)
    (hp : st.pending = (s.stage t).pending) (u : ℕ) :
    s.issued u = callsOf u s.finished ++ ((s.goto t st).stage u).pending := by
  by_cases hu : u = t
  · subst hu
    simp [Console.goto, hp, h]
  · simp [Console.goto, hu, h]

theorem printed_inside (hrun : putStr (texts s.finished ++ sent) screen = .ok ((), now))
    (hp : Progress s sent now (s.stage t)) (hin : (s.stage t).place = .inside)
    (halone : ∀ u, u ≠ t → (s.stage u).place ≠ .inside) : Printed screen s sent now where
  run := hrun
  progress := by
    intro u hu
    by_cases hut : u = t
    · subst hut
      exact hp
    · exact absurd hu (halone u hut)
  rest := fun hnone => absurd hin (hnone t)

theorem alone (h : Callers s.lock fun u => (s.stage u).place)
    (ht : (s.stage t).place = .inside) (hu : u ≠ t) : (s.stage u).place ≠ .inside :=
  fun hin => hu (h.unique (Or.inl hin) (Or.inl ht))

theorem stage_goto_ne (s : Console) (st : Stage) (hu : u ≠ t) : (s.goto t st).stage u = s.stage u :=
  Function.update_of_ne hu ..

theorem printed_outside {l : LockState} {st : Stage} (h : Printed screen s sent now)
    (ht : (s.stage t).place ≠ .inside) (hst : st.place ≠ .inside) :
    Printed screen { s.goto t st with lock := l } sent now where
  run := h.run
  progress := by
    intro u hu
    by_cases hut : u = t
    · subst hut
      simp only [Console.goto, Function.update_self] at hu
      exact absurd hu hst
    · simp only [stage_goto_ne s st hut] at hu ⊢
      exact h.progress u hu
  rest := by
    intro hnone
    refine h.rest fun u => ?_
    by_cases hut : u = t
    · subst hut
      exact ht
    · have hu := hnone u
      simpa only [stage_goto_ne s st hut] using hu

theorem call_inv (h : ConsoleInv screen s) (ht : s.stage t = .idle)
    (hrun : call t c s = .ok ((), s')) : ConsoleInv screen s' := by
  rw [call, modify_bind] at hrun
  obtain ⟨l, hl, rfl⟩ := onLock_ok hrun
  have hout : (s.stage t).place = .outside := by rw [ht]; rfl
  obtain ⟨sent, now, hprinted⟩ := h.printed
  constructor
  case locked => exact (Callers.of_next (h.locked.acquire hout) hl).enter
  case order =>
    intro u
    by_cases hu : u = t
    · subst hu
      have hold := h.order u
      rw [ht] at hold
      simp [Console.goto, hold, Stage.pending]
    · simpa [Console.goto, hu] using h.order u
  case printed =>
    exact ⟨sent, now, printed_outside ⟨hprinted.run, hprinted.progress, hprinted.rest⟩
      (by rw [hout]; decide) (by simp [Stage.place])⟩

theorem acquiring_inv (h : ConsoleInv screen s) (ht : s.stage t = .acquiring c)
    (hwait : s.lock.pc t = .semDown → s.lock.value ≠ 0)
    (hrun : lockStatement t (.execute t)
      (fun l => if Returned l t then .printing c c.start else .acquiring c) s = .ok ((), s')) :
    ConsoleInv screen s' := by
  obtain ⟨l, hl, rfl⟩ := onLock_ok hrun
  have hplace : (s.stage t).place = .acquiring := by rw [ht]; rfl
  have hcallers := Callers.of_next (h.locked.execute_acquiring hplace hwait) hl
  obtain ⟨sent, now, hprinted⟩ := h.printed
  by_cases hret : Returned l t
  · simp only [if_pos hret] at hcallers ⊢
    have hlocked : Callers l fun u => ((s.goto t (.printing c c.start)).stage u).place :=
      hcallers.enter
    -- nobody was inside before: the lock has just been given to this thread
    have hnone : ∀ u, (s.stage u).place ≠ .inside := by
      intro u
      by_cases hu : u = t
      · subst hu
        rw [hplace]
        decide
      · have := alone (s := { s.goto t (.printing c c.start) with lock := l }) hlocked
          (by simp [Console.goto, Stage.place]) hu
        simpa [stage_goto_ne s _ hu] using this
    obtain ⟨rfl, hscreen⟩ := hprinted.rest hnone
    refine ⟨hlocked, order_goto h.order (by rw [ht]; rfl), [], now, ?_⟩
    refine printed_inside (s := { s.goto t (.printing c c.start) with lock := l }) (t := t)
      hprinted.run ?_ ?_ ?_
    · simp only [Console.goto, Function.update_self]
      exact ⟨(remaining_start s.buf c).symm, hscreen⟩
    · simp [Console.goto, Stage.place]
    · intro u hu
      simpa [stage_goto_ne s _ hu] using hnone u
  · simp only [if_neg hret] at hcallers ⊢
    exact ⟨hcallers.enter, order_goto h.order (by rw [ht]), sent, now,
      printed_outside hprinted (by rw [hplace]; decide) (by simp [Stage.place])⟩

theorem releasing_inv (h : ConsoleInv screen s) (ht : s.stage t = .releasing)
    (hrun : lockStatement t (.execute t)
      (fun l => if Returned l t then .idle else .releasing) s = .ok ((), s')) :
    ConsoleInv screen s' := by
  obtain ⟨l, hl, rfl⟩ := onLock_ok hrun
  have hplace : (s.stage t).place = .releasing := by rw [ht]; rfl
  have hcallers := Callers.of_next (h.locked.execute_releasing hplace) hl
  obtain ⟨sent, now, hprinted⟩ := h.printed
  by_cases hret : Returned l t
  · simp only [if_pos hret] at hcallers ⊢
    exact ⟨hcallers.enter, order_goto h.order (by rw [ht]; rfl), sent, now,
      printed_outside hprinted (by rw [hplace]; decide) (by simp [Stage.place])⟩
  · simp only [if_neg hret] at hcallers ⊢
    exact ⟨hcallers.enter, order_goto h.order (by rw [ht]), sent, now,
      printed_outside hprinted (by rw [hplace]; decide) (by simp [Stage.place])⟩

theorem inside_inv {st : Stage} (v : Video) (buf : Bytes) (h : ConsoleInv screen s)
    (ht : (s.stage t).place = .inside) (hst : st.place = .inside)
    (hpending : st.pending = (s.stage t).pending)
    (hrun : putStr (texts s.finished ++ sent) screen = .ok ((), now))
    (hp : Progress { s.goto t st with video := v, buf := buf } sent now st) :
    ConsoleInv screen { s.goto t st with video := v, buf := buf } where
  locked := h.locked.goOn (hst.trans ht.symm)
  order := order_goto h.order hpending
  printed := by
    refine ⟨sent, now, printed_inside (t := t) hrun ?_ ?_ ?_⟩
    · simpa only [Console.goto, Function.update_self] using hp
    · simpa only [Console.goto, Function.update_self] using hst
    · intro u hu
      simpa only [stage_goto_ne s st hu] using alone h.locked ht hu

theorem finish_inv (h : ConsoleInv screen s) (ht : s.stage t = .printing c r)
    (hr : r.remaining s.buf = [])
    (hrun : lockStatement t (.release t) (fun _ => .releasing)
      { s with finished := s.finished ++ [(t, c)] } = .ok ((), s')) : ConsoleInv screen s' := by
  obtain ⟨l, hl, rfl⟩ := onLock_ok hrun
  have hplace : (s.stage t).place = .inside := by rw [ht]; rfl
  obtain ⟨sent, now, hprinted⟩ := h.printed
  have hp := hprinted.progress t hplace
  rw [ht] at hp
  obtain ⟨htext, hscreen⟩ := hp
  rw [hr, List.append_nil] at htext
  have htexts : texts (s.finished ++ [(t, c)]) ++ [] = texts s.finished ++ sent := by
    simp [texts, htext]
  constructor
  case locked => exact (Callers.of_next (h.locked.release hplace) hl).enter
  case order =>
    intro u
    by_cases hu : u = t
    · subst hu
      have hold := h.order u
      rw [ht] at hold
      simp [Console.goto, hold, Stage.pending, callsOf]
    · have hold := h.order u
      simpa [Console.goto, hu, Stage.pending, callsOf, Ne.symm hu] using hold
  case printed =>
    refine ⟨[], now, ?_, ?_, fun _ => ⟨rfl, hscreen⟩⟩
    · exact (congrArg (fun text => putStr text screen) htexts).trans hprinted.run
    · intro u hu
      by_cases hut : u = t
      · subst hut
        simp [Console.goto, Stage.place] at hu
      · exact absurd (by simpa [Console.goto, hut] using hu) (alone h.locked hplace hut)

theorem printing_inv (h : ConsoleInv screen s) (ht : s.stage t = .printing c r)
    (hrun : execute t s = .ok ((), s')) : ConsoleInv screen s' := by
  have hplace : (s.stage t).place = .inside := by rw [ht]; rfl
  obtain ⟨sent, now, hprinted⟩ := h.printed
  have hp := hprinted.progress t hplace
  rw [ht] at hp
  obtain ⟨htext, hscreen⟩ := hp
  have hrest := restStep_remaining s.buf r
  rw [execute, get_bind] at hrun
  simp only [ht] at hrun
  cases hstep : restStep s.buf r with
  | mk buf outcome =>
    rw [hstep] at hrest
    simp only [hstep] at hrun
    cases outcome with
    | goOn r' =>
      cases hrun
      refine inside_inv s.video _ h hplace rfl (by rw [ht]; rfl) hprinted.run ⟨?_, hscreen⟩
      rw [htext]
      exact congrArg (sent ++ ·) hrest.symm
    | send cl r' =>
      cases hrun
      obtain ⟨rfl, hcons⟩ := hrest
      refine inside_inv s.video _ h hplace rfl (by rw [ht]; rfl) hprinted.run ⟨?_, hscreen⟩
      rw [htext, hcons]
    | finish => exact finish_inv h ht hrest hrun

theorem sending_inv {pc : CharPc} (h : ConsoleInv screen s) (ht : s.stage t = .sending c cl pc r)
    (hrun : putCharStatement t c cl pc r s = .ok ((), s')) : ConsoleInv screen s' := by
  have hplace : (s.stage t).place = .inside := by rw [ht]; rfl
  obtain ⟨sent, now, hprinted⟩ := h.printed
  have hp := hprinted.progress t hplace
  rw [ht] at hp
  obtain ⟨htext, hchar⟩ := hp
  rw [putCharStatement] at hrun
  cases hstep : charStep cl pc s.video with
  | error f =>
    simp only [hstep] at hrun
    cases hrun
  | ok result =>
    obtain ⟨next, v⟩ := result
    have hnext := charStep_inv hchar hstep
    cases next with
    | some pc' =>
      simp only [hstep] at hrun
      cases hrun
      exact inside_inv _ s.buf h hplace rfl (by rw [ht]; rfl) hprinted.run ⟨htext, hnext⟩
    | none =>
      simp only [hstep] at hrun
      cases hrun
      have hsent : putStr (texts s.finished ++ (sent ++ [cl])) screen = .ok ((), v.screen) := by
        rw [← List.append_assoc]
        exact putStr_snoc hprinted.run hnext
      refine inside_inv _ s.buf h hplace rfl (by rw [ht]; rfl) hsent ⟨?_, rfl⟩
      rw [htext, List.append_assoc, List.singleton_append]

theorem consoleStep_inv (h : ConsoleInv screen s) (hstep : ConsoleStep s s') :
    ConsoleInv screen s' := by
  obtain ⟨e, he, hrun⟩ := hstep
  cases e with
  | call t c => exact call_inv h he hrun
  | execute t =>
    obtain ⟨hne, hwait⟩ := he
    change execute t s = .ok ((), s') at hrun
    cases ht : s.stage t with
    | idle => exact absurd ht hne
    | acquiring c =>
      rw [execute, get_bind] at hrun
      simp only [ht] at hrun
      exact acquiring_inv h ht hwait hrun
    | printing c r => exact printing_inv h ht hrun
    | sending c cl pc r =>
      rw [execute, get_bind] at hrun
      simp only [ht] at hrun
      exact sending_inv h ht hrun
    | releasing =>
      rw [execute, get_bind] at hrun
      simp only [ht] at hrun
      exact releasing_inv h ht hrun

theorem reachable_inv (h : Reachable (ConsoleInit screen) ConsoleStep s) : ConsoleInv screen s :=
  reachable_invariant (ConsoleInv screen) h (fun _ => consoleInv_init) fun _ _ => consoleStep_inv

/-! ## One text after the other -/

/-- No thread stands between the accesses of a `putChar`. -/
def BetweenChars (s : Console) : Prop := ∀ t c cl pc r, s.stage t ≠ .sending c cl pc r

/-- However the calls of any number of threads are interleaved, the screen is what one thread would
have printed: the texts of the calls that have finished, each whole and in an order that is the
order of every thread's own calls, and then a part of the text that is being printed. -/
theorem console_sequential (h : Reachable (ConsoleInit screen) ConsoleStep s) :
    (∀ t, s.issued t = callsOf t s.finished ++ (s.stage t).pending) ∧
      ∃ sent now, putStr (texts s.finished ++ sent) screen = .ok ((), now) ∧
        (BetweenChars s → s.video.screen = now) ∧
        (sent = [] ∨ ∃ t c, (s.stage t).pending = [c] ∧ sent <+: c.text) := by
  have hinv := reachable_inv h
  obtain ⟨sent, now, hprinted⟩ := hinv.printed
  refine ⟨hinv.order, sent, now, hprinted.run, ?_⟩
  by_cases hin : ∃ t, (s.stage t).place = .inside
  · obtain ⟨t, ht⟩ := hin
    have hp := hprinted.progress t ht
    cases hst : s.stage t with
    | printing c r =>
      rw [hst] at hp
      exact ⟨fun _ => hp.2, Or.inr ⟨t, c, by rw [hst]; rfl, hp.1 ▸ List.prefix_append ..⟩⟩
    | sending c cl pc r =>
      rw [hst] at hp
      exact ⟨fun hb => absurd hst (hb t c cl pc r),
        Or.inr ⟨t, c, by rw [hst]; rfl, hp.1 ▸ List.prefix_append ..⟩⟩
    | idle => rw [hst] at hp; exact hp.elim
    | acquiring c => rw [hst] at hp; exact hp.elim
    | releasing => rw [hst] at hp; exact hp.elim
  · obtain ⟨hnil, hscreen⟩ := hprinted.rest (not_exists.mp hin)
    exact ⟨fun _ => hscreen, Or.inl hnil⟩

def bootConsole (screen : Screen) : Console where
  lock := freeLock
  video := ⟨screen, 0#8⟩
  buf := fun _ => 0#8
  stage := fun _ => .idle
  issued := fun _ => []
  finished := []

theorem bootConsole_init (screen : Screen) : ConsoleInit screen (bootConsole screen) where
  lock := KernelLocks.lockInit_freeLock
  stage := fun _ => rfl
  issued := fun _ => rfl
  finished := rfl
  screen := rfl

/-- Thread 1 gets the lock and prints while thread 2 waits for it. -/
theorem console_sequential_two : ∃ s : Console,
    s.finished = [(1, .int 0x1f0#32), (2, .str [0x61#8])] ∧ s.stage 1 = .idle ∧ s.stage 2 = .idle ∧
    s.video.screen.cursor = 4#16 ∧
    (∀ t, s.issued t = callsOf t s.finished ++ (s.stage t).pending) ∧
      ∃ sent now, putStr (texts s.finished ++ sent) ⟨fun _ => 0#8, 0#16, []⟩ = .ok ((), now) ∧
        (BetweenChars s → s.video.screen = now) ∧
        (sent = [] ∨ ∃ t c, (s.stage t).pending = [c] ∧ sent <+: c.text) := by
  have hrun : (runs happens (fun x e => decide (Enabled x e))
      ([.call 1 (.int 0x1f0#32), .call 2 (.str [0x61#8])] ++ List.replicate 5 (.execute 1) ++
        [.execute 2] ++ List.replicate 54 (.execute 1) ++ List.replicate 21 (.execute 2))
      (bootConsole ⟨fun _ => 0#8, 0#16, []⟩)).map (fun x => decide (
        x.finished = [(1, .int 0x1f0#32), (2, .str [0x61#8])] ∧ x.stage 1 = .idle ∧
        x.stage 2 = .idle ∧ x.video.screen.cursor = 4#16)) = some true := by decide +kernel
  obtain ⟨x, hx, hstate⟩ := Option.map_eq_some_iff.mp hrun
  obtain ⟨hfinished, hone, htwo, hcursor⟩ := of_decide_eq_true hstate
  have hreach : Relation.ReflTransGen ConsoleStep _ x :=
    runs_reaches (fun s t e hf hc => ⟨e, of_decide_eq_true hf, hc⟩) hx
  exact ⟨x, hfinished, hone, htwo, hcursor, console_sequential ⟨_, bootConsole_init _, hreach⟩⟩

end DeviceConsole
