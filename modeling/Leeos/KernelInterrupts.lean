import Leeos.DeviceIde
import Leeos.InterruptControllers

/-!
# Interrupts of the devices (`pic_init` in `kernel/interrupt.c`, the entries of `kernel/kernel.asm`)

An entry is taken with interrupts off and writes the end of the interrupt to both controllers before
its handler is called. At any time a line may rise or fall, also while the processor acknowledges an
interrupt, and whatever the kernel and the programs do to the interrupt flag is open. All handlers
are registered; `general_exception_handler` returns at once for the vectors 0x27 and 0x2f, and stops
for ever at an exception, which ends the run. No program writes to the ports of the controllers.
-/
namespace KernelInterrupts

open ExecRules InterruptControllers

/-- The second controller is at line 2 of the first. -/
def wire : ℕ := 2

def picMEven : ℕ := 0x20
def picMOdd : ℕ := 0x21
def picSEven : ℕ := 0xa0
def picSOdd : ℕ := 0xa1

def outByte (pr : Pair) (port : ℕ) (data : BitVec 8) : Pair :=
  if port = picMEven then { pr with master := pr.master.writeEven data }
  else if port = picMOdd then { pr with master := pr.master.writeOdd data }
  else if port = picSEven then { pr with slave := pr.slave.writeEven data }
  else if port = picSOdd then { pr with slave := pr.slave.writeOdd data }
  else pr

def picInit (pr : Pair) : Pair :=
  [(picMEven, 0x11#8), (picMOdd, 0x20#8), (picMOdd, 0x04#8), (picMOdd, 0x01#8),
    (picSEven, 0x11#8), (picSOdd, 0x28#8), (picSOdd, 0x02#8), (picSOdd, 0x01#8),
    (picMOdd, 0xf8#8), (picSOdd, 0xbf#8)].foldl (fun pr w => outByte pr w.1 w.2) pr

/-- The processor has seen the request, or the first controller has settled on a line. -/
inductive Cycle where
  | seen
  | settled (line : Option ℕ)
  deriving DecidableEq, Repr

structure Entry where
  vec : ℕ
  toSlave : Bool
  deriving DecidableEq, Repr

/-- `expecting` and `done` are `expection_interrupt` and the value of `disk_done_sem` of a channel.
All that was delivered, asked for and withdrawn is kept in the last three. -/
structure Machine where
  pics : Pair
  intrFlag : Bool
  cycle : Option Cycle
  entry : Option Entry
  expecting : ℕ → Bool
  done : ℕ → ℕ
  delivered : List ℕ
  requests : ℕ → ℕ
  withdrawn : ℕ → ℕ

def intrHdHandler (irqNo : ℕ) (s : Machine) : Machine :=
  let index := irqNo - 0x2e
  if s.expecting index then
    { s with
      expecting := Function.update s.expecting index false
      done := Function.update s.done index (s.done index + 1) }
  else s

/-- The handler of a vector; those of the timer and the keyboard concern no channel. -/
def handle (vec : ℕ) (s : Machine) : Machine :=
  if vec = 0x2e ∨ vec = 0x2f then intrHdHandler vec s else s

inductive Event where
  /-- A line changes. -/
  | rise (line : ℕ)
  | fall (line : ℕ)
  /-- The processor turns to the interrupt, and acknowledges it in two cycles. -/
  | see
  | settle
  | supply
  /-- The next `out` of the entry, and behind the second one the handler. -/
  | out
  /-- `sti`, `cli`, `iret`, `popf` or a system call -/
  | setFlag (flag : Bool)
  /-- `cmd_out` -/
  | cmdOut (channel : ℕ)
  /-- `sem_down` of `disk_done_sem` goes through. -/
  | semDown (channel : ℕ)

/-- No interrupt is being acknowledged, and no entry is running. -/
def Free (s : Machine) : Prop := s.cycle = none ∧ s.entry = none

def Enabled (s : Machine) : Event → Prop
  | .rise line => line < 16 ∧ line ≠ wire ∧ s.pics.high line = false
  | .fall line => line < 16 ∧ line ≠ wire ∧ s.pics.high line = true
  | .see => s.intrFlag = true ∧ Free s ∧ (s.pics.request wire).isSome = true
  | .settle => s.cycle = some .seen
  | .supply => ∃ line, s.cycle = some (.settled line)
  | .out => s.entry.isSome = true
  | .setFlag _ => Free s
  | .cmdOut channel => Free s ∧ channel < 2
  | .semDown channel => Free s ∧ 0 < s.done channel

def fallNext (s : Machine) (line : ℕ) : Machine :=
  { s with
    pics := s.pics.fall line
    withdrawn := Function.update s.withdrawn line
      (s.withdrawn line + (s.pics.asks line).toNat) }

def takeInterrupt (s : Machine) (vec : ℕ) (pics : Pair) : Machine :=
  { s with
    pics := pics
    intrFlag := false
    cycle := none
    entry := some ⟨vec, false⟩
    delivered := s.delivered ++ [vec] }

def outNext (s : Machine) (e : Entry) : Machine :=
  if e.toSlave then
    handle e.vec { s with
      pics := outByte s.pics picSEven 0x20#8
      entry := none }
  else
    { s with
      pics := outByte s.pics picMEven 0x20#8
      entry := some { e with toSlave := true } }

def next (s : Machine) : Event → Machine
  | .rise line =>
    { s with
      pics := s.pics.rise line
      requests := Function.update s.requests line (s.requests line + 1) }
  | .fall line => fallNext s line
  | .see => { s with cycle := some .seen }
  | .settle =>
    { s with
      pics := (s.pics.settle wire).2
      cycle := some (.settled (s.pics.settle wire).1) }
  | .supply =>
    match s.cycle with
    | some (.settled line) =>
      takeInterrupt s (s.pics.supply wire line).1 (s.pics.supply wire line).2
    | _ => s
  | .out =>
    match s.entry with
    | none => s
    | some e => outNext s e
  | .setFlag flag => { s with intrFlag := flag }
  | .cmdOut channel => { s with expecting := Function.update s.expecting channel true }
  | .semDown channel => { s with done := Function.update s.done channel (s.done channel - 1) }

def Step (s t : Machine) : Prop := ∃ e, Enabled s e ∧ t = next s e

/-- A step in which no line changes and no thread does anything but to turn interrupts on. -/
def Served (s t : Machine) : Prop :=
  ∃ e, e ∈ [Event.see, .settle, .supply, .out, .setFlag true] ∧ Enabled s e ∧ t = next s e

/-- What `pic_init` leaves, whatever the firmware had left. -/
def Start (s : Machine) : Prop :=
  ∃ pr, s = ⟨picInit pr, false, none, none, fun _ => false, fun _ => 0, [], fun _ => 0, fun _ => 0⟩

/-- The timer, the keyboard and the first channel of the disks. -/
def OpenLine (line : ℕ) : Prop := line = 0 ∨ line = 1 ∨ line = 14

instance (line : ℕ) : Decidable (OpenLine line) := inferInstanceAs (Decidable (_ ∨ _))

/-- The first controller has settled on the line, which asks no longer. -/
def held (c : Option Cycle) (line : ℕ) : Bool := c == some (.settled (some line))

/-! ## The controllers -/

/-- A chip that has been initialised, and its mask set. -/
structure Programmed (p : Pic) (base : ℕ) (cascade imr : BitVec 8) : Prop where
  base : p.base = base
  cascade : p.cascade = cascade
  imr : p.imr = imr
  stage : p.stage = .ready
  manual : p.autoEoi = false

structure Ready (pr : Pair) : Prop where
  master : Programmed pr.master 0x20 0x04#8 0xf8#8
  slave : Programmed pr.slave 0x28 0x02#8 0xbf#8

variable {pr : Pair} {p : Pic} {base n line other v : ℕ} {cascade imr : BitVec 8}
  {s t : Machine} {e : Event} {c : Option Cycle}

theorem OpenLine.ne_wire (h : OpenLine line) : line ≠ wire := by
  rw [OpenLine] at h
  rw [wire]
  omega

theorem Programmed.accept (h : Programmed p base cascade imr) (n : ℕ) :
    Programmed (p.accept n) base cascade imr := ⟨h.base, h.cascade, h.imr, h.stage, h.manual⟩

theorem Programmed.rise (h : Programmed p base cascade imr) (n : ℕ) :
    Programmed (p.rise n) base cascade imr := ⟨h.base, h.cascade, h.imr, h.stage, h.manual⟩

theorem Programmed.fall (h : Programmed p base cascade imr) (n : ℕ) :
    Programmed (p.fall n) base cascade imr := ⟨h.base, h.cascade, h.imr, h.stage, h.manual⟩

theorem Programmed.endFirst (h : Programmed p base cascade imr) :
    Programmed p.endFirst base cascade imr := by
  rw [Pic.endFirst_eq]
  exact ⟨h.base, h.cascade, h.imr, h.stage, h.manual⟩

theorem Ready.rise (h : Ready pr) (line : ℕ) : Ready (pr.rise line) := by
  rw [Pair.rise]
  split
  · exact ⟨h.master.rise line, h.slave⟩
  · exact ⟨h.master, h.slave.rise (line - 8)⟩

theorem Ready.fall (h : Ready pr) (line : ℕ) : Ready (pr.fall line) := by
  rw [Pair.fall]
  split
  · exact ⟨h.master.fall line, h.slave⟩
  · exact ⟨h.master, h.slave.fall (line - 8)⟩

theorem picInit_ready (pr : Pair) : Ready (picInit pr) := by
  constructor
  case master => exact ⟨rfl, rfl, rfl, rfl, rfl⟩
  case slave => exact ⟨rfl, rfl, rfl, rfl, rfl⟩

theorem picInit_idle (pr : Pair) : (picInit pr).master.Idle ∧ (picInit pr).slave.Idle :=
  ⟨fun _ _ => rfl, fun _ _ => rfl⟩

theorem picInit_asks (pr : Pair) (line : ℕ) : (picInit pr).asks line = false := by
  rw [Pair.asks]
  split
  · rfl
  · rfl

theorem out_master (pr : Pair) :
    outByte pr picMEven 0x20#8 = { pr with master := pr.master.endFirst } := rfl

theorem out_slave (pr : Pair) :
    outByte pr picSEven 0x20#8 = { pr with slave := pr.slave.endFirst } := rfl

theorem asks_out (pr : Pair) (line : ℕ) :
    (outByte pr picMEven 0x20#8).asks line = pr.asks line ∧
      (outByte pr picSEven 0x20#8).asks line = pr.asks line := by
  simp only [Pair.asks, out_master, out_slave]
  rw [Pic.endFirst_eq pr.master, Pic.endFirst_eq pr.slave]
  exact ⟨rfl, rfl⟩

theorem high_out (pr : Pair) (line : ℕ) :
    (outByte pr picMEven 0x20#8).high line = pr.high line ∧
      (outByte pr picSEven 0x20#8).high line = pr.high line := by
  simp only [Pair.high, out_master, out_slave]
  rw [Pic.endFirst_eq pr.master, Pic.endFirst_eq pr.slave]
  exact ⟨rfl, rfl⟩

/-- The open line in front of the others that ask, as the first controller sees it. -/
def firstOpen (pr : Pair) : Option ℕ :=
  if pr.asks 0 then some 0 else if pr.asks 1 then some 1 else if pr.asks 14 then some wire else none

/-- The mask of the second controller leaves one line open. -/
theorem slave_request (h : Ready pr) (hs : pr.slave.Idle) :
    pr.slave.request = if pr.asks 14 then some 6 else none := by
  have hmask : ∀ k < 8, (0xbf#8).getLsbD k = false → k = 6 := by decide
  have hpending : ∀ k < 8, pr.slave.pending k = true → k = 6 ∧ pr.asks 14 = true := by
    intro k hk hp
    rw [Pic.pending, h.slave.imr, Bool.and_eq_true, Bool.not_eq_true'] at hp
    obtain rfl := hmask k hk hp.2
    exact ⟨rfl, hp.1⟩
  rw [Pic.request_of_idle hs]
  split
  case isTrue hasks =>
    refine first_some_iff.mpr ⟨by decide, ?_, fun k hk => Bool.eq_false_iff.mpr fun hp => ?_⟩
    · rw [Pic.pending, h.slave.imr]
      exact (congrArg (· && true) hasks :)
    · have := (hpending k (by omega) hp).1
      omega
  case isFalse hasks =>
    exact first_none_iff.mpr fun k hk => Bool.eq_false_iff.mpr fun hp => hasks (hpending k hk hp).2

theorem request_eq (h : Ready pr) (hm : pr.master.Idle) (hs : pr.slave.Idle) :
    pr.request wire = firstOpen pr := by
  have hslave : pr.slave.request.isSome = pr.asks 14 := by
    rw [slave_request h hs]
    cases pr.asks 14 <;> rfl
  have hmask : ∀ k < 8, 3 ≤ k → (0xf8#8).getLsbD k = true := by decide
  have hlow : ∀ k, (pr.lines wire).pending k = ((if k = 2 then pr.asks 14 else pr.master.irr k) &&
      !(0xf8#8).getLsbD k) := by
    intro k
    rw [Pair.lines_pending, hslave, h.master.imr]
    rfl
  have h0 : (pr.lines wire).pending 0 = pr.asks 0 := (hlow 0).trans (Bool.and_true _)
  have h1 : (pr.lines wire).pending 1 = pr.asks 1 := (hlow 1).trans (Bool.and_true _)
  have h2 : (pr.lines wire).pending 2 = pr.asks 14 := (hlow 2).trans (Bool.and_true _)
  rw [Pair.request_of_idle hm, firstOpen]
  by_cases ha : pr.asks 0 = true
  · rw [if_pos ha]
    exact first_some_iff.mpr ⟨by decide, h0.trans ha, fun k hk => by omega⟩
  rw [if_neg ha]
  by_cases hb : pr.asks 1 = true
  · rw [if_pos hb]
    refine first_some_iff.mpr ⟨by decide, h1.trans hb, fun k hk => ?_⟩
    obtain rfl : k = 0 := by omega
    exact h0.trans (Bool.eq_false_iff.mpr ha)
  rw [if_neg hb]
  by_cases hc : pr.asks 14 = true
  · rw [if_pos hc]
    refine first_some_iff.mpr ⟨by decide, h2.trans hc, fun k hk => ?_⟩
    obtain rfl | rfl : k = 0 ∨ k = 1 := by rw [wire] at hk; omega
    · exact h0.trans (Bool.eq_false_iff.mpr ha)
    · exact h1.trans (Bool.eq_false_iff.mpr hb)
  rw [if_neg hc]
  refine first_none_iff.mpr fun k hk => ?_
  by_cases hk3 : 3 ≤ k
  · rw [hlow, hmask k hk hk3, Bool.not_true, Bool.and_false]
  · obtain rfl | rfl | rfl : k = 0 ∨ k = 1 ∨ k = 2 := by omega
    · exact h0.trans (Bool.eq_false_iff.mpr ha)
    · exact h1.trans (Bool.eq_false_iff.mpr hb)
    · exact h2.trans (Bool.eq_false_iff.mpr hc)

theorem firstOpen_none_iff : firstOpen pr = none ↔ ∀ line, OpenLine line → pr.asks line = false := by
  simp only [firstOpen, OpenLine]
  constructor
  · intro h line hline
    split at h
    · cases h
    · split at h
      · cases h
      · split at h
        · cases h
        · rcases hline with rfl | rfl | rfl <;> exact Bool.eq_false_iff.mpr (by assumption)
  · intro h
    simp [h 0 (Or.inl rfl), h 1 (Or.inr (Or.inl rfl)), h 14 (Or.inr (Or.inr rfl))]

/-- The line of the sixteen behind a line of the first controller. -/
def behind (n : ℕ) : ℕ := if n = wire then 14 else n

theorem firstOpen_some (h : firstOpen pr = some n) : OpenLine (behind n) ∧
    pr.asks (behind n) = true ∧ n ≤ wire ∧
      ∀ other, OpenLine other → pr.asks other = true → behind n ≤ other := by
  simp only [firstOpen] at h
  split at h
  case isTrue ha =>
    obtain rfl := Option.some.inj h
    exact ⟨Or.inl rfl, ha, by decide, fun _ _ _ => Nat.zero_le _⟩
  case isFalse ha =>
    have hzero : ∀ other, pr.asks other = true → other ≠ 0 := fun other ho he => ha (he ▸ ho)
    split at h
    case isTrue hb =>
      obtain rfl := Option.some.inj h
      refine ⟨Or.inr (Or.inl rfl), hb, by decide, fun other _ ho => ?_⟩
      exact Nat.one_le_iff_ne_zero.mpr (hzero other ho)
    case isFalse hb =>
      split at h
      case isTrue hc =>
        obtain rfl := Option.some.inj h
        refine ⟨Or.inr (Or.inr rfl), hc, Nat.le_refl _, fun other hopen ho => ?_⟩
        have hone : other ≠ 1 := fun he => hb (he ▸ ho)
        have := hzero other ho
        rw [OpenLine] at hopen
        simp only [behind, if_pos]
        omega
      case isFalse => cases h

/-! ## The acknowledgement -/

/-- What is in service: nothing but the interrupt whose entry has not written its end. -/
def Service (pr : Pair) : Option Cycle → Option Entry → Prop
  | none, none => pr.master.Idle ∧ pr.slave.Idle
  | none, some ⟨_, false⟩ => pr.master.endFirst.Idle ∧ pr.slave.endFirst.Idle
  | none, some ⟨_, true⟩ => pr.master.Idle ∧ pr.slave.endFirst.Idle
  | some .seen, _ => pr.master.Idle ∧ pr.slave.Idle
  | some (.settled none), _ => pr.master.Idle ∧ pr.slave.Idle
  | some (.settled (some n)), _ => n ≤ wire ∧ pr.master.endFirst.Idle ∧ pr.slave.Idle

/-- The vector of the line that the first controller has settled on, if any. -/
def vectorOf (pr : Pair) : Option ℕ → ℕ
  | none => 0x27
  | some n => if n = wire then if pr.asks 14 then 0x2e else 0x2f else 0x20 + n

theorem service_congr {pr' : Pair} {o : Option Entry} (hm : pr'.master.isr = pr.master.isr)
    (hs : pr'.slave.isr = pr.slave.isr) : Service pr' c o ↔ Service pr c o := by
  rcases c with _ | _ | _ | n <;> rcases o with _ | ⟨vec, _ | _⟩ <;>
    simp only [Service, Pic.idle_congr hm, Pic.idle_congr hs, Pic.endFirst_idle_congr hm,
      Pic.endFirst_idle_congr hs]

theorem settle_spec (h : Ready pr) (hm : pr.master.Idle) (hs : pr.slave.Idle) :
    (pr.settle wire).1 = firstOpen pr ∧ Ready (pr.settle wire).2 ∧
      Service (pr.settle wire).2 (some (.settled (firstOpen pr))) none ∧
      ∀ other, OpenLine other → (pr.settle wire).2.asks other =
        if firstOpen pr = some other then false else pr.asks other := by
  rw [Pair.settle, request_eq h hm hs]
  cases hf : firstOpen pr with
  | none => exact ⟨rfl, h, ⟨hm, hs⟩, fun other _ => (if_neg (Option.some_ne_none other).symm).symm⟩
  | some n =>
    obtain ⟨-, -, hn, -⟩ := firstOpen_some hf
    refine ⟨rfl, ⟨h.master.accept n, h.slave⟩, ⟨hn, ?_, hs⟩, fun other hopen => ?_⟩
    · exact Pic.endFirst_accept hm (by rw [wire] at hn; omega)
    · have hne := hopen.ne_wire
      simp only [Pair.asks, Pic.accept, Function.update_apply, Option.some.injEq]
      rw [wire] at hn hne
      rw [OpenLine] at hopen
      grind

theorem supply_spec {line : Option ℕ} (h : Ready pr)
    (hservice : Service pr (some (.settled line)) none) :
    (pr.supply wire line).1 = vectorOf pr line ∧ Ready (pr.supply wire line).2 ∧
      Service (pr.supply wire line).2 none (some ⟨v, false⟩) ∧
      ∀ other, OpenLine other → (pr.supply wire line).2.asks other =
        if line = some wire ∧ other = 14 then false else pr.asks other := by
  cases line with
  | none =>
    obtain ⟨hm, hs⟩ := hservice
    refine ⟨congrArg (· + 7) h.master.base, h, ?_, fun other _ => by rw [if_neg nofun]; rfl⟩
    rw [Pair.supply, Service, Pic.endFirst_of_idle hm, Pic.endFirst_of_idle hs]
    exact ⟨hm, hs⟩
  | some n =>
    obtain ⟨hn, hm, hs⟩ := hservice
    have hcascade : (0x04#8).getLsbD n = decide (n = wire) := by
      have hall : ∀ k ≤ wire, (0x04#8).getLsbD k = decide (k = wire) := by decide
      exact hall n hn
    rw [Pair.supply, vectorOf, h.master.cascade, hcascade, slave_request h hs, h.slave.base]
    by_cases hw : n = wire
    · subst hw
      rw [if_pos ⟨rfl, by simp⟩, if_pos rfl]
      cases hasks : pr.asks 14 with
      | true =>
        refine ⟨rfl, ⟨h.master, h.slave.accept 6⟩, ⟨hm, Pic.endFirst_accept hs (by decide)⟩,
          fun other hopen => ?_⟩
        simp only [if_true, Pair.asks, Pic.accept, Function.update_apply, true_and]
        rw [OpenLine] at hopen
        grind
      | false =>
        refine ⟨rfl, h, ⟨hm, ?_⟩, fun other hopen => ?_⟩
        · change pr.slave.endFirst.Idle
          rwa [Pic.endFirst_of_idle hs]
        · change pr.asks other = _
          split
          case isTrue ho => exact ho.2 ▸ hasks
          case isFalse => rfl
    · rw [if_neg fun hb => hw hb.1, if_neg hw, h.master.base]
      refine ⟨rfl, h, ⟨hm, ?_⟩, fun other _ => ?_⟩
      · rwa [Pic.endFirst_of_idle hs]
      · rw [if_neg fun ho => hw (Option.some.inj ho.1)]

/-! ## The invariant -/

/-- The processor is acknowledging while no open line asks any more. -/
def Missed (pr : Pair) (c : Option Cycle) : Prop :=
  (c = some .seen ∧ firstOpen pr = none) ∨ c = some (.settled none)

/-- The first controller waits for the vector of the second, whose line asks no longer. -/
def MissedSlave (pr : Pair) (c : Option Cycle) : Prop :=
  c = some (.settled (some wire)) ∧ pr.asks 14 = false

def KnownVector (v : ℕ) : Prop := v = 0x20 ∨ v = 0x21 ∨ v = 0x2e ∨ v = 0x27 ∨ v = 0x2f

def withdrawals (w : ℕ → ℕ) : ℕ := w 0 + w 1 + w 14

/-- No more than the bound, and less while one is owed. -/
def Within (count bound : ℕ) (owed : Prop) : Prop := count ≤ bound ∧ (owed → count < bound)

def SecondEntry (o : Option Entry) : Prop := ∃ e, o = some e ∧ e.vec = 0x2f

structure InterruptInv (s : Machine) : Prop where
  ready : Ready s.pics
  service : Service s.pics s.cycle s.entry
  masked : s.entry ≠ none → s.intrFlag = false
  waiting : s.cycle ≠ none → s.entry = none
  edges : ∀ line, OpenLine line → s.pics.asks line = true → s.pics.high line = true
  vectors : ∀ v ∈ s.delivered, KnownVector v
  counted : ∀ line, OpenLine line → s.requests line = s.delivered.count (0x20 + line) +
    s.withdrawn line + (s.pics.asks line).toNat + (held s.cycle line).toNat
  missed : Within (s.delivered.count 0x27) (withdrawals s.withdrawn) (Missed s.pics s.cycle)
  missedSlave : Within (s.delivered.count 0x2f) (s.withdrawn 14) (MissedSlave s.pics s.cycle)
  second : Within (s.done 1) (s.delivered.count 0x2f) (SecondEntry s.entry)

theorem Within.mono {a b b' : ℕ} {P Q : Prop} (h : Within a b P) (hb : b ≤ b')
    (howed : Q → P ∨ b < b') : Within a b' Q := by
  refine ⟨Nat.le_trans h.1 hb, fun hq => ?_⟩
  rcases howed hq with hp | hlt
  · exact Nat.lt_of_lt_of_le (h.2 hp) hb
  · exact Nat.lt_of_le_of_lt h.1 hlt

theorem Within.paid {a b : ℕ} {P Q : Prop} (h : Within a b P) (hp : P) (hq : ¬ Q) :
    Within (a + 1) b Q := ⟨h.2 hp, fun q => absurd q hq⟩

theorem Within.same {a b : ℕ} {P Q : Prop} (h : Within a b P) (hq : Q → P) : Within a b Q :=
  h.mono (Nat.le_refl _) fun q => Or.inl (hq q)

/-- The vector is delivered exactly where one is owed. -/
theorem Within.delivered {l : List ℕ} {u b : ℕ} {P Q : Prop} (h : Within (l.count v) b P)
    (howed : u = v ↔ P) (hq : ¬ Q) : Within ((l ++ [u]).count v) b Q := by
  rw [List.count_append]
  by_cases hu : u = v
  · rw [hu, List.count_singleton_self]
    exact h.paid (howed.mp hu) hq
  · rw [List.count_singleton, if_neg (by simpa using hu)]
    exact h.same fun q => absurd q hq

theorem withdrawals_le (w : ℕ → ℕ) (line x : ℕ) :
    withdrawals w ≤ withdrawals (Function.update w line (w line + x)) := by
  simp only [withdrawals, Function.update_apply]
  grind

theorem withdrawals_update (w : ℕ → ℕ) (x : ℕ) (hopen : OpenLine line) :
    withdrawals (Function.update w line (w line + x)) = withdrawals w + x := by
  rw [OpenLine] at hopen
  simp only [withdrawals, Function.update_apply]
  grind

theorem held_eq_true : held c line = true ↔ c = some (.settled (some line)) := by
  rw [held, beq_iff_eq]

theorem start_inv (h : Start s) : InterruptInv s := by
  obtain ⟨pr, rfl⟩ := h
  constructor
  case ready => exact picInit_ready pr
  case service => exact picInit_idle pr
  case masked => exact fun _ => rfl
  case waiting => exact fun _ => rfl
  case edges => exact fun line _ ha => nomatch (picInit_asks pr line).symm.trans ha
  case vectors => exact fun v hv => absurd hv List.not_mem_nil
  case counted =>
    intro line _
    rw [picInit_asks]
    rfl
  case missed => exact ⟨Nat.le_refl _, fun hm => by rcases hm with ⟨hc, -⟩ | hc <;> cases hc⟩
  case missedSlave => exact ⟨Nat.le_refl _, fun hm => nomatch hm.1⟩
  case second => exact ⟨Nat.le_refl _, fun ⟨e, he, _⟩ => nomatch he⟩

/-! ## One step -/

theorem firstOpen_rise (line : ℕ) (h : firstOpen (pr.rise line) = none) : firstOpen pr = none := by
  rw [firstOpen_none_iff] at h ⊢
  intro other hopen
  have ho := h other hopen
  rw [Pair.asks_rise] at ho
  split at ho
  · cases ho
  · exact ho

theorem firstOpen_fall (line : ℕ) (h : firstOpen (pr.fall line) = none) :
    firstOpen pr = none ∨ (OpenLine line ∧ pr.asks line = true) := by
  by_cases hfall : OpenLine line ∧ pr.asks line = true
  · exact Or.inr hfall
  · left
    rw [firstOpen_none_iff] at h ⊢
    intro other hopen
    have ho := h other hopen
    rw [Pair.asks_fall] at ho
    split at ho
    case isTrue heq =>
      subst heq
      exact Bool.eq_false_iff.mpr fun ha => hfall ⟨hopen, ha⟩
    case isFalse => exact ho

theorem rise_inv (h : InterruptInv s) (he : Enabled s (.rise line)) :
    InterruptInv (next s (.rise line)) := by
  constructor
  case ready => exact h.ready.rise line
  case service =>
    exact (service_congr (s.pics.rise_isr line).1 (s.pics.rise_isr line).2).mpr h.service
  case masked => exact h.masked
  case waiting => exact h.waiting
  case edges =>
    intro other hopen ha
    simp only [next, Pair.asks_rise, Pair.high_rise] at ha ⊢
    split at ha
    · rw [if_pos (by assumption)]
    · rw [if_neg (by assumption)]
      exact h.edges other hopen ha
  case vectors => exact h.vectors
  case counted =>
    intro other hopen
    have hcount := h.counted other hopen
    simp only [next, Pair.asks_rise, Function.update_apply]
    split
    case isTrue heq =>
      -- the line was low, and asked no longer
      subst heq
      have hasks : s.pics.asks other = false := by
        refine Bool.eq_false_iff.mpr fun ha => ?_
        cases (h.edges other hopen ha).symm.trans he.2.2
      rw [hasks, Bool.toNat_false] at hcount
      rw [Bool.toNat_true]
      omega
    case isFalse => exact hcount
  case missed =>
    exact h.missed.same fun hm => hm.imp (And.imp_right (firstOpen_rise line)) id
  case missedSlave =>
    refine h.missedSlave.same fun hm => ⟨hm.1, ?_⟩
    have hasks := hm.2
    simp only [next, Pair.asks_rise] at hasks
    split at hasks
    · cases hasks
    · exact hasks
  case second => exact h.second

theorem fall_inv (h : InterruptInv s) : InterruptInv (fallNext s line) := by
  constructor
  case ready => exact h.ready.fall line
  case service =>
    exact (service_congr (s.pics.fall_isr line).1 (s.pics.fall_isr line).2).mpr h.service
  case masked => exact h.masked
  case waiting => exact h.waiting
  case edges =>
    intro other hopen ha
    simp only [fallNext, Pair.asks_fall, Pair.high_fall] at ha ⊢
    split at ha
    · cases ha
    · rw [if_neg (by assumption)]
      exact h.edges other hopen ha
  case vectors => exact h.vectors
  case counted =>
    intro other hopen
    have hcount := h.counted other hopen
    simp only [fallNext, Pair.asks_fall, Function.update_apply]
    split
    case isTrue heq =>
      subst heq
      rw [Bool.toNat_false]
      omega
    case isFalse => exact hcount
  case missed =>
    refine h.missed.mono (withdrawals_le _ _ _) fun hm => ?_
    rcases hm with ⟨hc, hf⟩ | hc
    · rcases firstOpen_fall line hf with hf | ⟨hopen, ha⟩
      · exact Or.inl (Or.inl ⟨hc, hf⟩)
      · right
        simp only [fallNext, withdrawals_update _ _ hopen, ha, Bool.toNat_true]
        exact Nat.lt_succ_self _
    · exact Or.inl (Or.inr hc)
  case missedSlave =>
    refine h.missedSlave.mono ?_ fun hm => ?_
    · simp only [fallNext, Function.update_apply]
      grind
    · obtain ⟨hc, ha⟩ := hm
      simp only [fallNext, Pair.asks_fall] at ha
      by_cases heq : 14 = line
      · subst heq
        cases hasks : s.pics.asks 14 with
        | true =>
          right
          simp only [fallNext, hasks, Function.update_self, Bool.toNat_true]
          exact Nat.lt_succ_self _
        | false => exact Or.inl ⟨hc, hasks⟩
      · rw [if_neg heq] at ha
        exact Or.inl ⟨hc, ha⟩
  case second => exact h.second

theorem see_inv (h : InterruptInv s) (he : Enabled s .see) : InterruptInv (next s .see) := by
  obtain ⟨-, ⟨hcycle, hentry⟩, hrequest⟩ := he
  have hservice := h.service
  rw [hcycle, hentry] at hservice
  constructor
  case ready => exact h.ready
  case service => exact hservice
  case masked => exact h.masked
  case waiting => exact fun _ => hentry
  case edges => exact h.edges
  case vectors => exact h.vectors
  case counted =>
    have hcount := h.counted
    rw [hcycle] at hcount
    exact hcount
  case missed =>
    refine h.missed.same fun hm => ?_
    rcases hm with ⟨-, hf⟩ | hc
    · rw [request_eq h.ready hservice.1 hservice.2] at hrequest
      exact absurd hf (Option.isSome_iff_ne_none.mp hrequest)
    · cases hc
  case missedSlave => exact h.missedSlave.same fun hm => nomatch hm.1
  case second => exact h.second

theorem settle_inv (h : InterruptInv s) (he : Enabled s .settle) :
    InterruptInv (next s .settle) := by
  have hcycle : s.cycle = some .seen := he
  have hservice := h.service
  rw [hcycle] at hservice
  obtain ⟨hfst, hready, hserv, hasks⟩ := settle_spec h.ready hservice.1 hservice.2
  constructor
  case ready => exact hready
  case service =>
    simp only [next, hfst]
    cases hf : firstOpen s.pics with
    | none =>
      rw [hf] at hserv
      exact hserv
    | some n =>
      rw [hf] at hserv
      exact hserv
  case masked => exact h.masked
  case waiting => exact fun _ => h.waiting (by rw [hcycle]; exact Option.some_ne_none _)
  case edges =>
    intro line hopen ha
    simp only [next, hasks line hopen, Pair.settle_high] at ha ⊢
    split at ha
    · cases ha
    · exact h.edges line hopen ha
  case vectors => exact h.vectors
  case counted =>
    intro line hopen
    have hcount := h.counted line hopen
    rw [hcycle] at hcount
    simp only [next, hasks line hopen, hfst]
    by_cases heq : firstOpen s.pics = some line
    · have hline := (firstOpen_some heq).2.1
      rw [behind, if_neg hopen.ne_wire] at hline
      rw [if_pos heq, held_eq_true.mpr (by rw [heq])]
      rw [hline] at hcount
      exact hcount
    · have hheld : held (some (.settled (firstOpen s.pics))) line = false :=
        Bool.eq_false_iff.mpr fun hh =>
          heq (Cycle.settled.inj (Option.some.inj (held_eq_true.mp hh)))
      rw [if_neg heq, hheld]
      exact hcount
  case missed =>
    refine h.missed.same fun hm => ?_
    rcases hm with ⟨hc, -⟩ | hc
    · cases hc
    · exact Or.inl ⟨hcycle, hfst.symm.trans (Cycle.settled.inj (Option.some.inj hc))⟩
  case missedSlave =>
    refine h.missedSlave.same fun hm => ?_
    obtain ⟨hc, ha⟩ := hm
    have hf := hfst.symm.trans (Cycle.settled.inj (Option.some.inj hc))
    have hline := (firstOpen_some hf).2.1
    have hopen : OpenLine 14 := Or.inr (Or.inr rfl)
    simp only [next, hasks 14 hopen, hf] at ha
    cases hline.symm.trans ha
  case second => exact h.second

theorem vectorOf_known {line : Option ℕ}
    (hservice : Service pr (some (.settled line)) none) : KnownVector (vectorOf pr line) := by
  rw [KnownVector]
  cases line with
  | none => exact Or.inr (Or.inr (Or.inr (Or.inl rfl)))
  | some n =>
    have hn : n ≤ 2 := hservice.1
    rw [vectorOf, wire]
    split
    · split
      · exact Or.inr (Or.inr (Or.inl rfl))
      · exact Or.inr (Or.inr (Or.inr (Or.inr rfl)))
    · omega

theorem vectorOf_first {o : Option ℕ} (hservice : Service pr (some (.settled o)) none) :
    vectorOf pr o = 0x27 ↔ Missed pr (some (.settled o)) := by
  cases o with
  | none => exact ⟨fun _ => Or.inr rfl, fun _ => rfl⟩
  | some n =>
    have hn : n ≤ 2 := hservice.1
    constructor
    · intro hv
      rw [vectorOf] at hv
      grind
    · rintro (⟨hc, -⟩ | hc) <;> cases hc

theorem vectorOf_second {o : Option ℕ} (hservice : Service pr (some (.settled o)) none) :
    vectorOf pr o = 0x2f ↔ MissedSlave pr (some (.settled o)) := by
  cases o with
  | none => exact ⟨nofun, fun hm => nomatch hm.1⟩
  | some n =>
    have hn : n ≤ 2 := hservice.1
    constructor
    · intro hv
      rw [vectorOf] at hv
      split at hv
      case isTrue hw =>
        split at hv
        case isTrue => cases hv
        case isFalse ha => exact ⟨by rw [hw], Bool.eq_false_iff.mpr ha⟩
      case isFalse => omega
    · rintro ⟨hc, ha⟩
      cases hc
      rw [vectorOf, if_pos rfl, ha]
      rfl

theorem vectorOf_count {o : Option ℕ} (hservice : Service pr (some (.settled o)) none)
    (hopen : OpenLine line) : (pr.asks line).toNat + (held (some (.settled o)) line).toNat =
      [vectorOf pr o].count (0x20 + line) +
        (if o = some wire ∧ line = 14 then false else pr.asks line).toNat := by
  cases o with
  | none =>
    have hne : 0x27 ≠ 0x20 + line := by rw [OpenLine] at hopen; omega
    rw [if_neg nofun, vectorOf, List.count_singleton, if_neg (by simpa using hne)]
    exact Nat.add_comm _ _
  | some n =>
    have hn : n ≤ 2 := hservice.1
    have hheld : held (some (.settled (some n))) line = decide (n = line) := by
      rw [Bool.eq_iff_iff, held_eq_true, decide_eq_true_iff]
      simp
    rw [hheld, vectorOf, List.count_singleton]
    rw [OpenLine] at hopen
    rcases hopen with rfl | rfl | rfl
    · grind [wire]
    · grind [wire]
    · cases pr.asks 14 <;> grind [wire]

theorem supply_inv {o : Option ℕ} (h : InterruptInv s) (hcycle : s.cycle = some (.settled o)) :
    InterruptInv (takeInterrupt s (s.pics.supply wire o).1 (s.pics.supply wire o).2) := by
  have hservice := h.service
  rw [hcycle, h.waiting (by rw [hcycle]; exact Option.some_ne_none _)] at hservice
  obtain ⟨hvec, hready, hserv, hasks⟩ :=
    supply_spec (v := (s.pics.supply wire o).1) h.ready hservice
  constructor
  case ready => exact hready
  case service => exact hserv
  case masked => exact fun _ => rfl
  case waiting => exact fun hne => absurd rfl hne
  case edges =>
    intro line hopen ha
    simp only [takeInterrupt, hasks line hopen, Pair.supply_high] at ha ⊢
    split at ha
    · cases ha
    · exact h.edges line hopen ha
  case vectors =>
    intro v hv
    rcases List.mem_append.mp hv with hv | hv
    · exact h.vectors v hv
    · rw [List.mem_singleton.mp hv, hvec]
      exact vectorOf_known hservice
  case counted =>
    intro line hopen
    have hold := h.counted line hopen
    have hpaid := vectorOf_count hservice hopen
    rw [hcycle] at hold
    simp only [takeInterrupt, hasks line hopen, hvec, List.count_append]
    have hnone : held none line = false := rfl
    rw [hnone, Bool.toNat_false]
    omega
  case missed =>
    simp only [takeInterrupt, hvec]
    refine Within.delivered ?_ (vectorOf_first hservice) ?_
    · rw [← hcycle]
      exact h.missed
    · rintro (⟨hc, -⟩ | hc) <;> cases hc
  case missedSlave =>
    simp only [takeInterrupt, hvec]
    refine Within.delivered ?_ (vectorOf_second hservice) fun hm => nomatch hm.1
    rw [← hcycle]
    exact h.missedSlave
  case second =>
    simp only [takeInterrupt, hvec, List.count_append]
    refine h.second.mono (Nat.le_add_right _ _) fun ⟨e, he, hv⟩ => ?_
    right
    cases he
    simp only at hv
    rw [hv]
    exact Nat.lt_succ_self _

theorem intrHdHandler_channel {irqNo : ℕ} {ch ch' : DeviceIde.IdeState}
    (hexpects : ch.expectionInterrupt = s.expecting (irqNo - 0x2e))
    (hdone : ch.doneValue = s.done (irqNo - 0x2e))
    (hrun : DeviceIde.intrHdHandler ch = .ok ((), ch')) :
    (intrHdHandler irqNo s).expecting (irqNo - 0x2e) = ch'.expectionInterrupt ∧
      (intrHdHandler irqNo s).done (irqNo - 0x2e) = ch'.doneValue := by
  obtain ⟨hexpects', hdone'⟩ := DeviceIde.handler_channel hrun
  rw [hexpects', hdone', hexpects, hdone, intrHdHandler]
  by_cases he : s.expecting (irqNo - 0x2e) = true
  · simp only [if_pos he, Function.update_self, true_and]
  · simp only [if_neg he, and_true]
    exact Bool.eq_false_iff.mpr he

theorem handle_eq (v : ℕ) (s : Machine) : ∃ ex dn, handle v s = { s with
    expecting := ex
    done := dn } ∧ dn 1 ≤ s.done 1 + 1 ∧ (v ≠ 0x2f → dn 1 = s.done 1) := by
  rw [handle]
  split
  case isTrue hv =>
    rw [intrHdHandler]
    split
    · refine ⟨_, _, rfl, ?_, fun hne => ?_⟩
      · simp only [Function.update_apply]
        grind
      · simp only [Function.update_apply]
        grind
    · exact ⟨_, _, rfl, Nat.le_add_right _ _, fun _ => rfl⟩
  case isFalse => exact ⟨_, _, rfl, Nat.le_add_right _ _, fun _ => rfl⟩

theorem out_inv {x : Entry} (h : InterruptInv s) (hentry : s.entry = some x) :
    InterruptInv (outNext s x) := by
  have hcycle : s.cycle = none := by
    by_contra hne
    cases hentry.symm.trans (h.waiting hne)
  have hfree : ¬ (s.cycle = some .seen ∨ s.cycle = some (.settled none)) := by
    rw [hcycle]
    exact fun hc => hc.elim nofun nofun
  have hservice := h.service
  rw [hentry, hcycle] at hservice
  obtain ⟨vec, toSlave⟩ := x
  cases toSlave with
  | false =>
    constructor
    case ready => exact ⟨h.ready.master.endFirst, h.ready.slave⟩
    case service =>
      simp only [outNext, hcycle]
      exact hservice
    case masked => exact fun _ => h.masked (by rw [hentry]; exact Option.some_ne_none _)
    case waiting => exact fun hne => absurd hcycle hne
    case edges =>
      intro line hopen ha
      have hhigh : (outByte s.pics picMEven 0x20#8).high line = s.pics.high line :=
        (high_out s.pics line).1
      exact hhigh.trans (h.edges line hopen ((asks_out s.pics line).1.symm.trans ha))
    case vectors => exact h.vectors
    case counted =>
      intro line hopen
      change _ = _ + ((outByte s.pics picMEven 0x20#8).asks line).toNat + _
      rw [(asks_out s.pics line).1]
      exact h.counted line hopen
    case missed => exact h.missed.same fun hm => absurd (hm.imp And.left id) hfree
    case missedSlave => exact h.missedSlave.same fun hm => nomatch hcycle.symm.trans hm.1
    case second =>
      refine h.second.same fun ⟨e, he, hv⟩ => ⟨⟨vec, false⟩, hentry, ?_⟩
      cases he
      exact hv
  | true =>
    obtain ⟨ex, dn, hout, hle, hdn⟩ := handle_eq vec { s with
      pics := outByte s.pics picSEven 0x20#8
      entry := none }
    rw [outNext, if_pos rfl, hout]
    constructor
    case ready => exact ⟨h.ready.master, h.ready.slave.endFirst⟩
    case service =>
      simp only [hcycle]
      exact hservice
    case masked => exact fun hne => absurd rfl hne
    case waiting => exact fun _ => rfl
    case edges =>
      intro line hopen ha
      have hhigh : (outByte s.pics picSEven 0x20#8).high line = s.pics.high line :=
        (high_out s.pics line).2
      exact hhigh.trans (h.edges line hopen ((asks_out s.pics line).2.symm.trans ha))
    case vectors => exact h.vectors
    case counted =>
      intro line hopen
      rw [(asks_out s.pics line).2]
      exact h.counted line hopen
    case missed => exact h.missed.same fun hm => absurd (hm.imp And.left id) hfree
    case missedSlave => exact h.missedSlave.same fun hm => nomatch hcycle.symm.trans hm.1
    case second =>
      refine ⟨?_, fun ⟨e, he, _⟩ => nomatch he⟩
      by_cases hv : vec = 0x2f
      · exact Nat.le_trans hle (h.second.2 ⟨_, hentry, hv⟩)
      · exact Nat.le_trans (Nat.le_of_eq (hdn hv)) h.second.1

theorem step_inv (h : InterruptInv s) (hstep : Step s t) : InterruptInv t := by
  obtain ⟨e, he, rfl⟩ := hstep
  cases e with
  | rise line => exact rise_inv h he
  | fall line => exact fall_inv h
  | see => exact see_inv h he
  | settle => exact settle_inv h he
  | supply =>
    obtain ⟨o, hcycle⟩ := he
    simp only [next, hcycle]
    exact supply_inv h hcycle
  | out =>
    obtain ⟨x, hentry⟩ := Option.isSome_iff_exists.mp he
    simp only [next, hentry]
    exact out_inv h hentry
  | setFlag flag => exact { h with masked := fun hne => absurd he.2 hne }
  | cmdOut channel => exact { h with }
  | semDown channel =>
    refine { h with second := ?_ }
    refine ⟨Nat.le_trans ?_ h.second.1, fun ⟨e, he', _⟩ => nomatch he.1.2.symm.trans he'⟩
    simp only [next, Function.update_apply]
    split
    case isTrue heq =>
      subst heq
      exact Nat.sub_le _ _
    case isFalse => exact Nat.le_refl _

theorem reachable_inv (h : Reachable Start Step s) : InterruptInv s :=
  reachable_invariant InterruptInv h (fun _ => start_inv) fun _ _ => step_inv

/-! ## What is delivered -/

def Rises (s t : Machine) : Prop := ∃ line, Enabled s (.rise line) ∧ t = next s (.rise line)

theorem reachable_run {r : Machine → Machine → Prop} (h : Reachable Start Step s)
    (hrun : Relation.ReflTransGen r s t) (hr : ∀ a b, r a b → Step a b) :
    Reachable Start Step t := by
  induction hrun with
  | refl => exact h
  | tail _ hlast ih => exact ih.tail (hr _ _ hlast)

theorem Rises.step (h : Rises s t) : Step s t := ⟨_, h.choose_spec⟩

theorem rises_keeps (h : Relation.ReflTransGen Rises s t) :
    t.cycle = s.cycle ∧ t.entry = s.entry ∧ t.delivered = s.delivered ∧
      ∀ line, s.pics.high line = true →
        t.pics.high line = true ∧ t.pics.asks line = s.pics.asks line := by
  induction h with
  | refl => exact ⟨rfl, rfl, rfl, fun _ hhigh => ⟨hhigh, rfl⟩⟩
  | tail _ hlast ih =>
    obtain ⟨hcycle, hentry, hdelivered, hlines⟩ := ih
    obtain ⟨other, hother, rfl⟩ := hlast
    refine ⟨hcycle, hentry, hdelivered, fun line hhigh => ?_⟩
    obtain ⟨hhigh', hasks⟩ := hlines line hhigh
    have hne : line ≠ other := fun heq => by cases (heq ▸ hhigh').symm.trans hother.2.2
    simp only [next, Pair.high_rise, Pair.asks_rise, if_neg hne]
    exact ⟨hhigh', hasks⟩

theorem idle_of_free (hinv : InterruptInv s) (hfree : Free s) :
    s.pics.master.Idle ∧ s.pics.slave.Idle := by
  have hservice := hinv.service
  rwa [hfree.1, hfree.2] at hservice

theorem see_enabled_iff (hinv : InterruptInv s) (hfree : Free s) (hflag : s.intrFlag = true) :
    Enabled s .see ↔ firstOpen s.pics ≠ none := by
  have hidle := idle_of_free hinv hfree
  rw [← request_eq hinv.ready hidle.1 hidle.2, ← Option.isSome_iff_ne_none]
  exact ⟨fun he => he.2.2, fun hr => ⟨hflag, hfree, hr⟩⟩

theorem firstOpen_ne_none_iff :
    firstOpen pr ≠ none ↔ ∃ line, OpenLine line ∧ pr.asks line = true := by
  rw [ne_eq, firstOpen_none_iff]
  push Not
  simp only [ne_eq, Bool.not_eq_false]

theorem supply_takes (hinv : InterruptInv s) (hcycle : s.cycle = some (.settled (some n)))
    (hopen : OpenLine (behind n)) (hstands : s.pics.asks (behind n) = decide (n = wire)) :
    (next s .supply).entry = some ⟨0x20 + behind n, false⟩ ∧
      (next s .supply).delivered = s.delivered ++ [0x20 + behind n] ∧
      (next s .supply).pics.asks (behind n) = false := by
  have hservice := hinv.service
  rw [hcycle, hinv.waiting (by rw [hcycle]; exact Option.some_ne_none _)] at hservice
  obtain ⟨hvec, -, -, hasks⟩ := supply_spec (v := 0) hinv.ready hservice
  have hvector : vectorOf s.pics (some n) = 0x20 + behind n := by
    rw [vectorOf]
    by_cases hw : n = wire
    · rw [behind, if_pos hw, decide_eq_true hw] at hstands
      rw [behind, if_pos hw, if_pos hw, if_pos hstands]
    · rw [behind, if_neg hw, if_neg hw]
  simp only [next, hcycle, takeInterrupt]
  refine ⟨?_, ?_, ?_⟩
  · rw [hvec, hvector]
  · rw [hvec, hvector]
  · rw [hasks _ hopen]
    by_cases hw : n = wire
    · rw [if_pos ⟨congrArg some hw, if_pos hw⟩]
    · rw [if_neg fun hc => hw (Option.some.inj hc.1), hstands, decide_eq_false hw]

/-- With interrupts on nothing is in service in either controller, and the processor turns to an
interrupt as soon as an open line asks. Where no line falls before it has acknowledged, it is given
the vector of the first open line that asks, and takes the request of this line. -/
theorem requests_delivered (h : Reachable Start Step s) (hflag : s.intrFlag = true)
    (hcycle : s.cycle = none) :
    (s.pics.master.Idle ∧ s.pics.slave.Idle) ∧
    (Enabled s .see ↔ ∃ line, OpenLine line ∧ s.pics.asks line = true) ∧
    ∀ a b, Enabled s .see → Relation.ReflTransGen Rises (next s .see) a →
      Relation.ReflTransGen Rises (next a .settle) b →
        ∃ line, OpenLine line ∧ a.pics.asks line = true ∧
          (∀ other, OpenLine other → a.pics.asks other = true → line ≤ other) ∧
          (next b .supply).entry = some ⟨0x20 + line, false⟩ ∧
          (next b .supply).delivered = s.delivered ++ [0x20 + line] ∧
          (next b .supply).pics.asks line = false := by
  have hinv := reachable_inv h
  have hentry : s.entry = none := by
    by_contra hne
    cases (hinv.masked hne).symm.trans hflag
  have hsee := see_enabled_iff hinv ⟨hcycle, hentry⟩ hflag
  refine ⟨idle_of_free hinv ⟨hcycle, hentry⟩, hsee.trans firstOpen_ne_none_iff, ?_⟩
  intro a b he ha hb
  have hreach : Reachable Start Step a :=
    reachable_run (h.tail ⟨_, he, rfl⟩) ha fun _ _ => Rises.step
  obtain ⟨hcyclea, -, hdelivereda, hlinesa⟩ := rises_keeps ha
  have hseen : a.cycle = some .seen := hcyclea
  have hinva := reachable_inv hreach
  have hidle := hinva.service
  rw [hseen] at hidle
  obtain ⟨n, hn⟩ : ∃ n, firstOpen a.pics = some n := by
    obtain ⟨line, hopen, hasks⟩ := firstOpen_ne_none_iff.mp (hsee.mp he)
    have hkept := (hlinesa line (hinv.edges line hopen hasks)).2.trans hasks
    exact Option.ne_none_iff_exists'.mp (firstOpen_ne_none_iff.mpr ⟨line, hopen, hkept⟩)
  obtain ⟨hfst, -, -, hsettled⟩ := settle_spec hinva.ready hidle.1 hidle.2
  obtain ⟨hopen, hasks, -, hfront⟩ := firstOpen_some hn
  have hreachb : Reachable Start Step b :=
    reachable_run (hreach.tail ⟨.settle, hseen, rfl⟩) hb fun _ _ => Rises.step
  obtain ⟨hcycleb, -, hdeliveredb, hlinesb⟩ := rises_keeps hb
  have hcycleb' : b.cycle = some (.settled (some n)) := by
    rw [hcycleb, ← hn, ← hfst]
    rfl
  -- the line is high from the first cycle on
  have hhigh : (next a .settle).pics.high (behind n) = true :=
    (Pair.settle_high wire a.pics (behind n)).trans (hinva.edges _ hopen hasks)
  have hstands : b.pics.asks (behind n) = decide (n = wire) := by
    refine (hlinesb _ hhigh).2.trans ((hsettled _ hopen).trans ?_)
    rw [hn, hasks, behind]
    by_cases hw : n = wire
    · rw [if_pos hw, if_neg (by rw [hw]; decide), decide_eq_true hw]
    · rw [if_neg hw, if_pos rfl, decide_eq_false hw]
  obtain ⟨hentryb, hdelivered, htaken⟩ :=
    supply_takes (reachable_inv hreachb) hcycleb' hopen hstands
  refine ⟨behind n, hopen, hasks, hfront, hentryb, ?_, htaken⟩
  rw [hdelivered, hdeliveredb]
  exact congrArg (· ++ _) hdelivereda

/-! ## What is answered -/

/-- A run of served steps asks for nothing. -/
structure Settling (s t : Machine) : Prop where
  run : Relation.ReflTransGen Served s t
  requests : t.requests = s.requests
  withdrawn : t.withdrawn = s.withdrawn
  fewer : ∀ line, OpenLine line → t.pics.asks line = true → s.pics.asks line = true

theorem Served.step (h : Served s t) : Step s t := by
  obtain ⟨e, -, he, rfl⟩ := h
  exact ⟨e, he, rfl⟩

theorem Settling.refl (s : Machine) : Settling s s := ⟨.refl, rfl, rfl, fun _ _ ha => ha⟩

theorem Settling.trans {u : Machine} (h : Settling s t) (h' : Settling t u) : Settling s u :=
  ⟨h.run.trans h'.run, h'.requests.trans h.requests, h'.withdrawn.trans h.withdrawn,
    fun line hopen ha => h.fewer line hopen (h'.fewer line hopen ha)⟩

theorem Settling.reachable (h : Settling s t) (hs : Reachable Start Step s) :
    Reachable Start Step t := reachable_run hs h.run fun _ _ => Served.step

theorem out_settling {x : Entry} (hentry : s.entry = some x) : Settling s (next s .out) ∧
    (next s .out).cycle = s.cycle ∧
      (next s .out).entry = if x.toSlave then none else some { x with toSlave := true } := by
  have hserved : Served s (next s .out) :=
    ⟨.out, by simp, by rw [Enabled, hentry]; rfl, rfl⟩
  obtain ⟨vec, toSlave⟩ := x
  cases toSlave with
  | false =>
    have hout : next s .out = { s with
        pics := outByte s.pics picMEven 0x20#8
        entry := some ⟨vec, true⟩ } := by simp [next, hentry, outNext]
    rw [hout] at hserved ⊢
    exact ⟨⟨.single hserved, rfl, rfl, fun line _ ha => (asks_out s.pics line).1.symm.trans ha⟩,
      rfl, rfl⟩
  | true =>
    obtain ⟨ex, dn, hhandle, -, -⟩ := handle_eq vec { s with
      pics := outByte s.pics picSEven 0x20#8
      entry := none }
    have hout : next s .out = { s with
        pics := outByte s.pics picSEven 0x20#8
        entry := none
        expecting := ex
        done := dn } := by simp [next, hentry, outNext, hhandle]
    rw [hout] at hserved ⊢
    exact ⟨⟨.single hserved, rfl, rfl, fun line _ ha => (asks_out s.pics line).2.symm.trans ha⟩,
      rfl, rfl⟩

theorem entry_ends (hcycle : s.cycle = none) : ∃ t, Settling s t ∧ Free t := by
  have hslave : ∀ {u : Machine} {vec : ℕ}, u.cycle = none → u.entry = some ⟨vec, true⟩ →
      ∃ t, Settling u t ∧ Free t := by
    intro u vec hc he
    obtain ⟨hsettling, hcycle', hentry'⟩ := out_settling he
    exact ⟨_, hsettling, hcycle'.trans hc, hentry'⟩
  cases hentry : s.entry with
  | none => exact ⟨s, .refl s, hcycle, hentry⟩
  | some x =>
    obtain ⟨vec, _ | _⟩ := x
    · obtain ⟨hsettling, hcycle', hentry'⟩ := out_settling hentry
      obtain ⟨t, hrest, hfree⟩ := hslave (hcycle'.trans hcycle) hentry'
      exact ⟨t, hsettling.trans hrest, hfree⟩
    · exact hslave hcycle hentry

theorem settled_ends {o : Option ℕ} (hinv : InterruptInv s)
    (hcycle : s.cycle = some (.settled o)) :
    ∃ t, Settling s t ∧ Free t ∧ (o = some wire → t.pics.asks 14 = false) := by
  have hservice := hinv.service
  rw [hcycle, hinv.waiting (by rw [hcycle]; exact Option.some_ne_none _)] at hservice
  obtain ⟨-, -, -, hasks⟩ := supply_spec (v := 0) hinv.ready hservice
  have hnext : next s .supply =
      takeInterrupt s (s.pics.supply wire o).1 (s.pics.supply wire o).2 := by
    simp only [next, hcycle]
  have hserved : Served s (next s .supply) := ⟨.supply, by simp, ⟨o, hcycle⟩, rfl⟩
  have hsettling : Settling s (next s .supply) := by
    refine ⟨.single hserved, ?_, ?_, fun line hopen ha => ?_⟩
    · rw [hnext]
      rfl
    · rw [hnext]
      rfl
    · rw [hnext] at ha
      rw [takeInterrupt, hasks line hopen] at ha
      split at ha
      · cases ha
      · exact ha
  obtain ⟨t, hrest, hfree⟩ := entry_ends (s := next s .supply) (by rw [hnext]; rfl)
  have hopen : OpenLine 14 := Or.inr (Or.inr rfl)
  refine ⟨t, hsettling.trans hrest, hfree, fun hw => Bool.eq_false_iff.mpr fun ha => ?_⟩
  have hleft := hrest.fewer 14 hopen ha
  rw [hnext, takeInterrupt, hasks 14 hopen, if_pos ⟨hw, rfl⟩] at hleft
  cases hleft

theorem seen_ends (h : Reachable Start Step s) (hcycle : s.cycle = some .seen) :
    ∃ t, Settling s t ∧ Free t ∧
      ∀ n, firstOpen s.pics = some n → t.pics.asks (behind n) = false := by
  have hinv := reachable_inv h
  have hidle := hinv.service
  rw [hcycle] at hidle
  obtain ⟨hfst, -, -, hasks⟩ := settle_spec hinv.ready hidle.1 hidle.2
  have hserved : Served s (next s .settle) := ⟨.settle, by simp, hcycle, rfl⟩
  have hsettling : Settling s (next s .settle) := by
    refine ⟨.single hserved, rfl, rfl, fun line hopen ha => ?_⟩
    simp only [next, hasks line hopen] at ha
    split at ha
    · cases ha
    · exact ha
  obtain ⟨t, hrest, hfree, hwire⟩ := settled_ends (s := next s .settle)
    (reachable_inv (h.tail hserved.step)) (congrArg (fun o => some (Cycle.settled o)) hfst)
  refine ⟨t, hsettling.trans hrest, hfree, fun n hn => ?_⟩
  by_cases hw : n = wire
  · rw [behind, if_pos hw]
    exact hwire (by rw [hn, hw])
  · obtain ⟨hopen, -⟩ := firstOpen_some hn
    rw [behind, if_neg hw] at hopen ⊢
    refine Bool.eq_false_iff.mpr fun ha => ?_
    have hleft := hrest.fewer n hopen ha
    simp only [next, hasks n hopen, hn, if_pos] at hleft
    cases hleft

theorem run_ends (h : Reachable Start Step s) : ∃ t, Settling s t ∧ Free t := by
  cases hcycle : s.cycle with
  | none => exact entry_ends hcycle
  | some c =>
    cases c with
    | seen =>
      obtain ⟨t, hsettling, hfree, -⟩ := seen_ends h hcycle
      exact ⟨t, hsettling, hfree⟩
    | settled o =>
      obtain ⟨t, hsettling, hfree, -⟩ := settled_ends (reachable_inv h) hcycle
      exact ⟨t, hsettling, hfree⟩

/-- The number of open lines that ask. -/
def asking (pr : Pair) : ℕ := (pr.asks 0).toNat + (pr.asks 1).toNat + (pr.asks 14).toNat

theorem Settling.asking_lt (h : Settling s t) (hopen : OpenLine line)
    (hs : s.pics.asks line = true) (ht : t.pics.asks line = false) :
    asking t.pics < asking s.pics := by
  have hle : ∀ other, OpenLine other → (t.pics.asks other).toNat ≤ (s.pics.asks other).toNat :=
    fun other ho => Bool.toNat_le_toNat (h.fewer other ho)
  have h0 := hle 0 (Or.inl rfl)
  have h1 := hle 1 (Or.inr (Or.inl rfl))
  have h14 := hle 14 (Or.inr (Or.inr rfl))
  simp only [asking]
  rw [OpenLine] at hopen
  rcases hopen with rfl | rfl | rfl <;> rw [hs, ht] <;> simp <;> omega

theorem all_served (h : Reachable Start Step s) (hfree : Free s) :
    ∃ t, Settling s t ∧ Free t ∧ ∀ line, OpenLine line → t.pics.asks line = false := by
  induction hk : asking s.pics using Nat.strong_induction_on generalizing s with
  | _ k ih =>
    subst hk
    cases hf : firstOpen s.pics with
    | none => exact ⟨s, .refl s, hfree, firstOpen_none_iff.mp hf⟩
    | some n =>
      have hon : Served s (next s (.setFlag true)) := ⟨.setFlag true, by simp, hfree, rfl⟩
      have hreach := h.tail hon.step
      have henabled : Enabled (next s (.setFlag true)) .see :=
        (see_enabled_iff (reachable_inv hreach) hfree rfl).mpr (by
          change firstOpen s.pics ≠ none
          rw [hf]
          exact Option.some_ne_none _)
      have hsee : Served (next s (.setFlag true)) (next (next s (.setFlag true)) .see) :=
        ⟨.see, by simp, henabled, rfl⟩
      have hbegin : Settling s (next (next s (.setFlag true)) .see) :=
        ⟨(Relation.ReflTransGen.single hon).tail hsee, rfl, rfl, fun _ _ ha => ha⟩
      obtain ⟨t, hturn, hfree', htaken⟩ := seen_ends (hreach.tail hsee.step) rfl
      have hsettling := hbegin.trans hturn
      obtain ⟨hopen, hasks, -⟩ := firstOpen_some hf
      obtain ⟨u, hrest, hdone⟩ := ih _ (hsettling.asking_lt hopen hasks (htaken n hf))
        (hsettling.reachable h) hfree' rfl
      exact ⟨u, hsettling.trans hrest, hdone⟩

/-- Each request of an open line was delivered or withdrawn, or it waits. Where no line changes any
more the requests that wait are all delivered: each entry ends its interrupt in both controllers. -/
theorem requests_answered (h : Reachable Start Step s) :
    (∀ line, OpenLine line → s.requests line = s.delivered.count (0x20 + line) +
      s.withdrawn line + (s.pics.asks line).toNat + (held s.cycle line).toNat) ∧
    ∃ t, Relation.ReflTransGen Served s t ∧ Free t ∧ ∀ line, OpenLine line →
      t.pics.asks line = false ∧ t.delivered.count (0x20 + line) = s.delivered.count (0x20 + line) +
        (s.pics.asks line).toNat + (held s.cycle line).toNat := by
  refine ⟨(reachable_inv h).counted, ?_⟩
  obtain ⟨t, hfirst, hfree⟩ := run_ends h
  have ht := hfirst.reachable h
  obtain ⟨u, hrest, hfree', hquiet⟩ := all_served ht hfree
  have hall := hfirst.trans hrest
  refine ⟨u, hall.run, hfree', fun line hopen => ⟨hquiet line hopen, ?_⟩⟩
  have hbefore := (reachable_inv h).counted line hopen
  have hafter := (reachable_inv (hall.reachable h)).counted line hopen
  have hheld : held none line = false := rfl
  rw [hall.requests, hall.withdrawn, hquiet line hopen, hfree'.1, hheld] at hafter
  simp only [Bool.toNat_false] at hafter
  omega

/-- The line of the second channel of disks is masked. Its vector comes only where a request of the
first channel is withdrawn; where none is, a thread that waits for a command of the second channel
waits for ever. -/
theorem second_channel_waits (h : Reachable Start Step s) :
    (∀ v ∈ s.delivered, v = 0x20 ∨ v = 0x21 ∨ v = 0x2e ∨ v = 0x27 ∨ v = 0x2f) ∧
    s.delivered.count 0x27 ≤ s.withdrawn 0 + s.withdrawn 1 + s.withdrawn 14 ∧
    s.delivered.count 0x2f ≤ s.withdrawn 14 ∧
    (s.withdrawn 14 = 0 → ¬ Enabled s (.semDown 1)) := by
  have hinv := reachable_inv h
  refine ⟨hinv.vectors, hinv.missed.1, hinv.missedSlave.1, fun hw he => ?_⟩
  have hsecond := Nat.le_trans hinv.second.1 hinv.missedSlave.1
  rw [hw] at hsecond
  exact absurd he.2 (Nat.not_lt.mpr hsecond)

/-! ## A run -/

def blankPic : Pic := ⟨0, 0#8, 0#8, fun _ => false, fun _ => false, fun _ => false, .ready, false⟩

def started : Machine := ⟨picInit ⟨blankPic, blankPic⟩, false, none, none, fun _ => false,
  fun _ => 0, [], fun _ => 0, fun _ => 0⟩

/-- A disk and the keyboard ask, and then interrupts are turned on. -/
def bothAsk : Machine := next (next (next started (.rise 14)) (.rise 1)) (.setFlag true)

/-- The timer asks before the first controller has settled on a line. -/
def timerAsks : Machine := next (next bothAsk .see) (.rise 0)

theorem started_reachable : Reachable Start Step started := .refl ⟨_, rfl⟩

theorem bothAsk_reachable : Reachable Start Step bothAsk := by
  have hdisk : Step started (next started (.rise 14)) :=
    ⟨.rise 14, ⟨by decide, by decide, rfl⟩, rfl⟩
  have hkey : Step (next started (.rise 14)) (next (next started (.rise 14)) (.rise 1)) :=
    ⟨.rise 1, ⟨by decide, by decide, rfl⟩, rfl⟩
  exact ((started_reachable.tail hdisk).tail hkey).tail ⟨.setFlag true, ⟨rfl, rfl⟩, rfl⟩

theorem requests_delivered_sample : Enabled bothAsk .see ∧
    (next (next timerAsks .settle) .supply).entry = some ⟨0x20, false⟩ := by
  obtain ⟨-, hsee, hvector⟩ := requests_delivered bothAsk_reachable rfl rfl
  have henabled : Enabled bothAsk .see := hsee.mpr ⟨1, by decide, by decide⟩
  have hrise : Rises (next bothAsk .see) timerAsks := ⟨0, ⟨by decide, by decide, rfl⟩, rfl⟩
  obtain ⟨line, -, -, hfront, hentry, -⟩ :=
    hvector timerAsks (next timerAsks .settle) henabled (.single hrise) .refl
  obtain rfl : line = 0 := Nat.le_zero.mp (hfront 0 (by decide) (by decide))
  exact ⟨henabled, hentry⟩

theorem requests_answered_sample : ∃ t, Relation.ReflTransGen Served bothAsk t ∧
    t.delivered.count 0x21 = 1 ∧ t.delivered.count 0x2e = 1 := by
  obtain ⟨-, t, hrun, -, hserved⟩ := requests_answered bothAsk_reachable
  exact ⟨t, hrun, (hserved 1 (by decide)).2.trans (by decide),
    (hserved 14 (by decide)).2.trans (by decide)⟩

/-- A thread has given a command to the second channel, whose disk then asks for an interrupt. -/
def secondAsks : Machine := next (next started (.cmdOut 1)) (.rise 15)

theorem second_channel_waits_sample : secondAsks.expecting 1 = true ∧
    secondAsks.pics.asks 15 = true ∧ ¬ Enabled secondAsks (.semDown 1) := by
  have hcommand : Step started (next started (.cmdOut 1)) :=
    ⟨.cmdOut 1, ⟨⟨rfl, rfl⟩, by decide⟩, rfl⟩
  have hrise : Step (next started (.cmdOut 1)) secondAsks :=
    ⟨.rise 15, ⟨by decide, by decide, rfl⟩, rfl⟩
  exact ⟨rfl, rfl, (second_channel_waits ((started_reachable.tail hcommand).tail hrise)).2.2.2 rfl⟩

end KernelInterrupts
