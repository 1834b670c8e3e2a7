import Leeos.DeviceIde

/-!
# Sectors through the ports (`ide_read` and `ide_write` in `device/ide.c`)

A request is cut into chunks of up to 256 sectors. The number goes through parameters of 8 bits,
where 256 becomes 0: into the count register, where the device takes 0 for 256, and into the number
of bytes. The device is a parameter: `PioProtocol` says what the calls rely on. It decodes LBA28 and
moves each sector as a block of its own with an interrupt of its own, but the calls look at the
status once for a command, so its blocks have to follow each other without a pause. One thread makes
the calls; the channel's lock is left to `DeviceIde`.
-/
namespace DeviceIdeTransfers

open ExecRules KernelBitmap LibStdint
open FsDisk (copyBytes copyBytes_inside copyBytes_outside maxLba)

/-! ## The device -/

structure Command where
  write : Bool
  drive : Bool
  lba : ℕ
  count : ℕ
  deriving DecidableEq, Repr

inductive Reg where
  | sectorCount
  | lbaL
  | lbaM
  | lbaH
  | dev
  | cmd
  deriving DecidableEq, Repr

structure Regs where
  sectorCount : BitVec 8
  lbaL : BitVec 8
  lbaM : BitVec 8
  lbaH : BitVec 8
  dev : BitVec 8

def Regs.put (r : Regs) (reg : Reg) (data : BitVec 8) : Regs :=
  match reg with
  | .sectorCount => { r with sectorCount := data }
  | .lbaL => { r with lbaL := data }
  | .lbaM => { r with lbaM := data }
  | .lbaH => { r with lbaH := data }
  | .dev => { r with dev := data }
  | .cmd => r

def Regs.lbaMode (r : Regs) : Bool := r.dev.getLsbD 6

/-- What the registers say to a device that decodes LBA28. -/
def Regs.command (r : Regs) (write : Bool) : Command where
  write := write
  drive := r.dev.getLsbD 4
  lba := r.lbaL.toNat + 2 ^ 8 * r.lbaM.toNat + 2 ^ 16 * r.lbaH.toNat + 2 ^ 24 * (r.dev.toNat % 16)
  count := if r.sectorCount = 0 then 256 else r.sectorCount.toNat

/-- Where a command is. `left` counts the sectors from `lba` on that are still to come; of the block
of the first one `word` words have been read, or `block` has been written. -/
inductive Phase where
  | idle
  | fetching (drive : Bool) (lba left : ℕ)
  | dataIn (drive : Bool) (lba left word : ℕ)
  | dataOut (drive : Bool) (lba left : ℕ) (block : List (BitVec 8 × BitVec 8))

def Phase.Data : Phase → Prop
  | .dataIn _ _ _ _ | .dataOut _ _ _ _ => True
  | _ => False

/-- What is known of a device from outside. -/
structure View where
  regs : Regs
  disks : Bool → Bytes
  log : List Command
  phase : Phase

/-- The answers of a device to the accesses to its ports; a flag says that it asks for an interrupt.
`await` is what becomes of it until it asks for one by itself. -/
structure AtaDevice (σ : Type) where
  outByte : Reg → BitVec 8 → σ → Bool × σ
  inStatus : σ → BitVec 8 × σ
  inWord : σ → (BitVec 8 × BitVec 8) × Bool × σ
  outWord : BitVec 8 → BitVec 8 → σ → Bool × σ
  await : σ → Option σ

/-- A word of a block has been read: there is an interrupt for each further block. -/
def nextIn (drive : Bool) (lba left word : ℕ) : Phase × Bool :=
  if word + 1 < 256 then (.dataIn drive lba left (word + 1), false)
  else if left = 1 then (.idle, false)
  else (.dataIn drive (lba + 1) (left - 1) 0, true)

def storeWords (disk : Bytes) (pos : ℕ) : List (BitVec 8 × BitVec 8) → Bytes
  | [] => disk
  | w :: ws => storeWords (Function.update (Function.update disk pos w.1) (pos + 1) w.2) (pos + 2) ws

/-- The block has been extended by a word: a full one goes to the disk, and there is an interrupt for
each block. -/
def nextOut (v : View) (drive : Bool) (lba left : ℕ) (block : List (BitVec 8 × BitVec 8)) :
    View × Bool :=
  if block.length < 256 then ({ v with phase := .dataOut drive lba left block }, false)
  else ({ v with
    disks := Function.update v.disks drive (storeWords (v.disks drive) (512 * lba) block)
    phase := if left = 1 then .idle else .dataOut drive (lba + 1) (left - 1) [] }, true)

/-- How often `busy_wait` reads the status: `time_limit -= 10 >= 0` takes 1 off. -/
def pollRounds : ℕ := 30 * 1000 - 1

/-- What `ide_read` and `ide_write` rely on. `busy` bounds the reads of the status register before
the device is ready. -/
structure PioProtocol {σ : Type} (device : AtaDevice σ) (view : σ → View) (busy : σ → ℕ) :
    Prop where
  register : ∀ a reg data, (view a).phase = .idle → reg ≠ .cmd →
    (device.outByte reg data a).1 = false ∧
      view (device.outByte reg data a).2 = { view a with regs := (view a).regs.put reg data }
  /-- READ SECTORS fetches the first block, which may be there at once. -/
  readSectors : ∀ a c, (view a).phase = .idle → (view a).regs.lbaMode = true →
    (view a).regs.command false = c → ∃ raised b, device.outByte .cmd 0x20 a = (raised, b) ∧
      view b = { view a with
        log := (view a).log ++ [c]
        phase := if raised then .dataIn c.drive c.lba c.count 0
          else .fetching c.drive c.lba c.count } ∧
      (raised = true → busy b < pollRounds)
  fetched : ∀ a drive lba left, (view a).phase = .fetching drive lba left →
    ∃ b, device.await a = some b ∧ busy b < pollRounds ∧
      view b = { view a with phase := .dataIn drive lba left 0 }
  writeSectors : ∀ a c, (view a).phase = .idle → (view a).regs.lbaMode = true →
    (view a).regs.command true = c → ∃ b, device.outByte .cmd 0x30 a = (false, b) ∧
      busy b < pollRounds ∧ view b = { view a with
        log := (view a).log ++ [c]
        phase := .dataOut c.drive c.lba c.count [] }
  status_view : ∀ a, view (device.inStatus a).2 = view a
  status_busy : ∀ a, 0 < busy a → (device.inStatus a).1 &&& 0x80 ≠ 0 ∧
    busy (device.inStatus a).2 < busy a
  status_ready : ∀ a, busy a = 0 → (view a).phase.Data → (device.inStatus a).1 &&& 0x80 = 0 ∧
    (device.inStatus a).1 &&& 0x8 ≠ 0 ∧ busy (device.inStatus a).2 = 0
  /-- A word is read, and the next one can be. -/
  inWord : ∀ a drive lba left word, (view a).phase = .dataIn drive lba left word → busy a = 0 →
    (device.inWord a).1 = ((view a).disks drive (512 * lba + 2 * word),
      (view a).disks drive (512 * lba + 2 * word + 1)) ∧
    (device.inWord a).2.1 = (nextIn drive lba left word).2 ∧
    view (device.inWord a).2.2 = { view a with phase := (nextIn drive lba left word).1 } ∧
    ((nextIn drive lba left word).1.Data → busy (device.inWord a).2.2 = 0)
  /-- A word is written, and the next one can be. -/
  outWord : ∀ a drive lba left block lo hi, (view a).phase = .dataOut drive lba left block →
    busy a = 0 →
    (device.outWord lo hi a).1 = (nextOut (view a) drive lba left (block ++ [(lo, hi)])).2 ∧
    view (device.outWord lo hi a).2 = (nextOut (view a) drive lba left (block ++ [(lo, hi)])).1 ∧
    ((nextOut (view a) drive lba left (block ++ [(lo, hi)])).1.phase.Data →
      busy (device.outWord lo hi a).2 = 0)

/-! ## The driver -/

/-- `diskDone` is the value of `disk_done_sem`. -/
structure IdeState (σ : Type) where
  dev : σ
  mem : Bytes
  expectionInterrupt : Bool
  diskDone : ℕ

inductive IdeHalt where
  | maxLba
  | secCnt
  /-- `ASSERT(channel != 0)` -/
  | channel
  /-- The report that the disk has failed. -/
  | failed
  /-- `sem_down` does not come back. -/
  | blocked
  deriving DecidableEq, Repr

abbrev IdeM (σ : Type) := Exec IdeHalt (IdeState σ)

structure Disk where
  myChannel : ℕ
  devNo : ℕ

def Disk.drive (hd : Disk) : Bool := hd.devNo = 1

section Driver

variable {σ : Type} (device : AtaDevice σ) (hd : Disk)

def intrHdHandler (s : IdeState σ) : IdeState σ :=
  if s.expectionInterrupt then
    { s with
      expectionInterrupt := false
      diskDone := s.diskDone + 1
      dev := (device.inStatus s.dev).2 }
  else s

/-- An interrupt that the device asks for is taken before the next access. -/
def served (raised : Bool) (s : IdeState σ) : IdeState σ :=
  if raised then intrHdHandler device s else s

def outByte (reg : Reg) (data : BitVec 8) : IdeM σ Unit :=
  modify fun s => served device (device.outByte reg data s.dev).1
    { s with dev := (device.outByte reg data s.dev).2 }

def inStatus : IdeM σ (BitVec 8) := do
  let s ← get
  set { s with dev := (device.inStatus s.dev).2 }
  pure (device.inStatus s.dev).1

def inMultibyte : ℕ → ℕ → IdeM σ Unit
  | _, 0 => pure ()
  | addr, count + 1 => do
    modify fun s =>
      let (word, raised, dev) := device.inWord s.dev
      served device raised { s with
        mem := Function.update (Function.update s.mem addr word.1) (addr + 1) word.2
        dev := dev }
    inMultibyte (addr + 2) count

def outMultibyte : ℕ → ℕ → IdeM σ Unit
  | _, 0 => pure ()
  | addr, count + 1 => do
    modify fun s => served device (device.outWord (s.mem addr) (s.mem (addr + 1)) s.dev).1
      { s with dev := (device.outWord (s.mem addr) (s.mem (addr + 1)) s.dev).2 }
    outMultibyte (addr + 2) count

def bitDevDev : BitVec 8 := if hd.devNo = 1 then 0x10 else 0

def selectDisk : IdeM σ Unit := outByte device .dev (0x40 ||| 0xa0 ||| bitDevDev hd)

def selectSector (lba : ℕ) (secCnt : BitVec 8) : IdeM σ Unit := do
  ensure .maxLba (lba ≤ maxLba)
  outByte device .sectorCount secCnt
  outByte device .lbaL (BitVec.ofNat 8 lba)
  outByte device .lbaM (BitVec.ofNat 8 (lba / 2 ^ 8))
  outByte device .lbaH (BitVec.ofNat 8 (lba / 2 ^ 16))
  outByte device .dev (0xa0 ||| 0x40 ||| bitDevDev hd ||| BitVec.ofNat 8 (lba / 2 ^ 24))

def cmdOut (cmd : BitVec 8) : IdeM σ Unit := do
  ensure .channel (hd.myChannel ≠ 0)
  modify fun s => { s with expectionInterrupt := true }
  outByte device .cmd cmd

def bytesCnt (secCnt : BitVec 8) : ℕ := if secCnt = 0 then 256 * 512 else secCnt.toNat * 512

def readFromSector (buf : ℕ) (secCnt : BitVec 8) : IdeM σ Unit :=
  inMultibyte device buf (bytesCnt secCnt / 2)

def writeToSector (buf : ℕ) (secCnt : BitVec 8) : IdeM σ Unit :=
  outMultibyte device buf (bytesCnt secCnt / 2)

/-- The rest of the loop with this many rounds left. -/
def pollStatus : ℕ → IdeM σ Bool
  | 0 => pure false
  | rounds + 1 => do
    let status ← inStatus device
    if status &&& 0x80 = 0 then
      let status ← inStatus device
      pure (status &&& 0x8 ≠ 0)
    else pollStatus rounds

def busyWait : IdeM σ Bool := pollStatus device pollRounds

/-- A thread that finds the semaphore at 0 sleeps until the handler wakes it. -/
def semDown : IdeM σ Unit := do
  let s ← get
  if 0 < s.diskDone then set { s with diskDone := s.diskDone - 1 }
  else
    match device.await s.dev with
    | none => throw .blocked
    | some dev =>
      let t := intrHdHandler device { s with dev := dev }
      ensure .blocked (0 < t.diskDone)
      set { t with diskDone := t.diskDone - 1 }

def secOp (secCnt secDone : ℕ) : ℕ := if secCnt - secDone ≥ 256 then 256 else secCnt - secDone

def sectorLoop (body : ℕ → ℕ → IdeM σ Unit) (secCnt secDone : ℕ) : IdeM σ Unit :=
  if secDone < secCnt then do
    body secDone (secOp secCnt secDone)
    sectorLoop body secCnt (secDone + secOp secCnt secDone)
  else pure ()
termination_by secCnt - secDone
decreasing_by
  rw [secOp]
  split <;> omega

def readChunk (lba buf secDone secOp : ℕ) : IdeM σ Unit := do
  selectSector device hd (u32 (lba + secDone)) (BitVec.ofNat 8 secOp)
  cmdOut device hd 0x20
  semDown device
  ensure .failed ((← busyWait device) = true)
  readFromSector device (u32 (buf + 512 * secDone)) (BitVec.ofNat 8 secOp)

def writeChunk (lba buf secDone secOp : ℕ) : IdeM σ Unit := do
  selectSector device hd (u32 (lba + secDone)) (BitVec.ofNat 8 secOp)
  cmdOut device hd 0x30
  ensure .failed ((← busyWait device) = true)
  writeToSector device (u32 (buf + 512 * secDone)) (BitVec.ofNat 8 secOp)
  semDown device

/-- The call up to its loop. -/
def ideTransfer (lba secCnt : ℕ) (body : ℕ → ℕ → IdeM σ Unit) : IdeM σ Unit := do
  ensure .maxLba (lba ≤ maxLba)
  ensure .secCnt (secCnt > 0)
  selectDisk device hd
  sectorLoop body secCnt 0

def ideRead (lba buf secCnt : ℕ) : IdeM σ Unit :=
  ideTransfer device hd lba secCnt (readChunk device hd lba buf)

def ideWrite (lba buf secCnt : ℕ) : IdeM σ Unit :=
  ideTransfer device hd lba secCnt (writeChunk device hd lba buf)

end Driver

/-! ## What a request is for -/

def Command.sectors (c : Command) : List ℕ := (List.range c.count).map (c.lba + ·)

/-- The commands are for the sectors from `lba` on, each once and in order. -/
structure Covers (write dr : Bool) (lba n : ℕ) (cmds : List Command) : Prop where
  kind : ∀ c ∈ cmds, c.write = write ∧ c.drive = dr
  sectors : cmds.flatMap Command.sectors = (List.range n).map (lba + ·)

section Requests

variable {σ : Type} (view : σ → View) (hd : Disk)

/-- No command is executed, and nobody waits for an interrupt. -/
structure Quiet (s : IdeState σ) : Prop where
  idle : (view s.dev).phase = .idle
  expects : s.expectionInterrupt = false
  done : s.diskDone = 0

structure ReadInto (lba buf n : ℕ) (s t : IdeState σ) : Prop where
  mem : t.mem = FsDisk.ideRead ((view s.dev).disks hd.drive) lba s.mem buf n
  disks : (view t.dev).disks = (view s.dev).disks
  log : ∃ cmds, (view t.dev).log = (view s.dev).log ++ cmds ∧ Covers false hd.drive lba n cmds

structure WrittenFrom (lba buf n : ℕ) (s t : IdeState σ) : Prop where
  mem : t.mem = s.mem
  disks : (view t.dev).disks = Function.update (view s.dev).disks hd.drive
    (FsDisk.ideWrite ((view s.dev).disks hd.drive) lba s.mem buf n)
  log : ∃ cmds, (view t.dev).log = (view s.dev).log ++ cmds ∧ Covers true hd.drive lba n cmds

end Requests

variable {σ : Type} {device : AtaDevice σ} {view : σ → View} {busy : σ → ℕ} {hd : Disk}
  {s t : IdeState σ} {lba buf secCnt d n j k : ℕ} {write dr : Bool} {src dst m : Bytes} {a b : ℕ}

/-! ## Bytes -/

theorem copyBytes_word : Function.update (Function.update dst b (src a)) (b + 1) (src (a + 1)) =
    copyBytes src a dst b 2 := by
  funext i
  by_cases h₁ : i = b + 1
  · rw [h₁, Function.update_self, copyBytes_inside (by omega) (by omega), Nat.add_sub_cancel_left]
  · rw [Function.update_of_ne h₁]
    by_cases h₀ : i = b
    · rw [h₀, Function.update_self, copyBytes_inside le_rfl (by omega), Nat.sub_self, Nat.add_zero]
    · rw [Function.update_of_ne h₀, copyBytes_outside (by omega)]

theorem copyBytes_zero : copyBytes src a dst b 0 = dst := by
  funext i
  exact copyBytes_outside (by omega)

theorem copyBytes_append : copyBytes src (a + n) (copyBytes src a dst b n) (b + n) k =
    copyBytes src a dst b (n + k) := by
  funext i
  by_cases hin : b + n ≤ i ∧ i < b + n + k
  · rw [copyBytes_inside hin.1 hin.2, copyBytes_inside (by omega) (by omega)]
    exact congrArg src (by omega)
  · rw [copyBytes_outside (by omega)]
    by_cases hfirst : b ≤ i ∧ i < b + n
    · rw [copyBytes_inside hfirst.1 hfirst.2, copyBytes_inside (by omega) (by omega)]
    · rw [copyBytes_outside (by omega), copyBytes_outside (by omega)]

/-! ## A command -/

def addressed (hd : Disk) (lba n : ℕ) : Regs where
  sectorCount := BitVec.ofNat 8 n
  lbaL := BitVec.ofNat 8 lba
  lbaM := BitVec.ofNat 8 (lba / 2 ^ 8)
  lbaH := BitVec.ofNat 8 (lba / 2 ^ 16)
  dev := 0xa0 ||| 0x40 ||| bitDevDev hd ||| BitVec.ofNat 8 (lba / 2 ^ 24)

/-- The device register of an address below 2^24. -/
theorem dev_decode (hlba : lba < 2 ^ 24) :
    (0xa0 ||| 0x40 ||| bitDevDev hd ||| BitVec.ofNat 8 (lba / 2 ^ 24)).getLsbD 6 = true ∧
    (0xa0 ||| 0x40 ||| bitDevDev hd ||| BitVec.ofNat 8 (lba / 2 ^ 24)).getLsbD 4 = hd.drive ∧
    (0xa0 ||| 0x40 ||| bitDevDev hd ||| BitVec.ofNat 8 (lba / 2 ^ 24)).toNat % 16 = 0 := by
  rw [Nat.div_eq_of_lt hlba, bitDevDev, Disk.drive]
  by_cases h : hd.devNo = 1
  · rw [if_pos h, decide_eq_true h]
    decide
  · rw [if_neg h, decide_eq_false h]
    decide

/-- In 8 bits 256 becomes 0. -/
theorem ofNat_eq_zero_iff (hn : 0 < n) (hn' : n ≤ 256) : BitVec.ofNat 8 n = 0 ↔ n = 256 := by
  constructor
  · intro h
    have hnat : (BitVec.ofNat 8 n).toNat = 0 := by
      rw [h]
      rfl
    rw [BitVec.toNat_ofNat] at hnat
    omega
  · rintro rfl
    rfl

theorem toNat_ofNat_lt (hn' : n ≤ 256) (h : n ≠ 256) : (BitVec.ofNat 8 n).toNat = n := by
  rw [BitVec.toNat_ofNat]
  omega

theorem addressed_command (hlba : lba < 2 ^ 24) (hn : 0 < n) (hn' : n ≤ 256) :
    (addressed hd lba n).command write = ⟨write, hd.drive, lba, n⟩ := by
  obtain ⟨-, hdrive, hhigh⟩ := @dev_decode hd lba hlba
  have haddr : (BitVec.ofNat 8 lba).toNat + 2 ^ 8 * (BitVec.ofNat 8 (lba / 2 ^ 8)).toNat +
      2 ^ 16 * (BitVec.ofNat 8 (lba / 2 ^ 16)).toNat + 2 ^ 24 * 0 = lba := by
    simp only [BitVec.toNat_ofNat]
    omega
  have hcount : (if BitVec.ofNat 8 n = 0 then 256 else (BitVec.ofNat 8 n).toNat) = n := by
    by_cases h : n = 256
    · rw [if_pos ((ofNat_eq_zero_iff hn hn').mpr h), h]
    · rw [if_neg (mt (ofNat_eq_zero_iff hn hn').mp h), toNat_ofNat_lt hn' h]
  simp only [Regs.command, addressed, hdrive, hhigh, haddr]
  exact congrArg (Command.mk write hd.drive lba) hcount

theorem bytesCnt_eq (hn : 0 < n) (hn' : n ≤ 256) : bytesCnt (BitVec.ofNat 8 n) = 512 * n := by
  rw [bytesCnt]
  by_cases h : n = 256
  · rw [if_pos ((ofNat_eq_zero_iff hn hn').mpr h), h]
  · rw [if_neg (mt (ofNat_eq_zero_iff hn hn').mp h), toNat_ofNat_lt hn' h, Nat.mul_comm]

theorem half_bytesCnt (hn : 0 < n) (hn' : n ≤ 256) :
    bytesCnt (BitVec.ofNat 8 n) / 2 = 256 * n := by
  rw [bytesCnt_eq hn hn']
  omega

theorem intrHdHandler_channel {c c' : DeviceIde.IdeState}
    (hexpects : c.expectionInterrupt = s.expectionInterrupt) (hdone : c.doneValue = s.diskDone)
    (hrun : DeviceIde.intrHdHandler c = .ok ((), c')) :
    (intrHdHandler device s).expectionInterrupt = c'.expectionInterrupt ∧
      (intrHdHandler device s).diskDone = c'.doneValue := by
  obtain ⟨hexpects', hdone'⟩ := DeviceIde.handler_channel hrun
  rw [hexpects', hdone', hexpects, hdone, intrHdHandler]
  by_cases he : s.expectionInterrupt = true
  · simp only [if_pos he, true_and]
  · simp only [if_neg he, and_true]
    exact Bool.eq_false_iff.mpr he

theorem served_quiet (raised : Bool) (h : s.expectionInterrupt = false) :
    served device raised s = s := by
  rw [served, intrHdHandler, h, if_neg Bool.false_ne_true, ite_self]

theorem Quiet.congr {dev : σ} (h : Quiet view s) (hphase : (view dev).phase = .idle) :
    Quiet view { s with dev := dev } := ⟨hphase, h.expects, h.done⟩

theorem outByte_run (reg : Reg) (data : BitVec 8) (h : PioProtocol device view busy)
    (hq : Quiet view s) (hreg : reg ≠ .cmd) :
    ∃ dev, outByte device reg data s = .ok ((), { s with dev := dev }) ∧
      view dev = { view s.dev with regs := (view s.dev).regs.put reg data } ∧
      Quiet view { s with dev := dev } := by
  obtain ⟨-, hview⟩ := h.register s.dev reg data hq.idle hreg
  refine ⟨(device.outByte reg data s.dev).2, ?_, hview, hq.congr ?_⟩
  · rw [outByte, modify_apply, served_quiet]
    exact hq.expects
  · rw [hview]
    exact hq.idle

theorem selectSector_run (hd : Disk) (n : ℕ) (h : PioProtocol device view busy)
    (hq : Quiet view s) (hlba : lba ≤ maxLba) : ∃ dev, selectSector device hd lba (BitVec.ofNat 8 n) s =
      .ok ((), { s with dev := dev }) ∧
      view dev = { view s.dev with regs := addressed hd lba n } ∧
      Quiet view { s with dev := dev } := by
  obtain ⟨d₁, h₁, v₁, q₁⟩ := outByte_run .sectorCount (BitVec.ofNat 8 n) h hq
    (by decide)
  obtain ⟨d₂, h₂, v₂, q₂⟩ := outByte_run .lbaL (BitVec.ofNat 8 lba) h q₁
    (by decide)
  obtain ⟨d₃, h₃, v₃, q₃⟩ := outByte_run .lbaM (BitVec.ofNat 8 (lba / 2 ^ 8)) h q₂
    (by decide)
  obtain ⟨d₄, h₄, v₄, q₄⟩ := outByte_run .lbaH (BitVec.ofNat 8 (lba / 2 ^ 16)) h
    q₃ (by decide)
  obtain ⟨d₅, h₅, v₅, q₅⟩ := outByte_run .dev
    (0xa0 ||| 0x40 ||| bitDevDev hd ||| BitVec.ofNat 8 (lba / 2 ^ 24)) h q₄ (by decide)
  refine ⟨d₅, ?_, ?_, q₅⟩
  · rw [selectSector, ensure_bind_of_true hlba, bind_of_ok h₁, bind_of_ok h₂, bind_of_ok h₃,
      bind_of_ok h₄]
    exact h₅
  · rw [v₅, v₄, v₃, v₂, v₁]
    rfl

/-! ## Waiting -/

theorem PioProtocol.status_le (h : PioProtocol device view busy) {a : σ}
    (hdata : (view a).phase.Data) : busy (device.inStatus a).2 ≤ busy a := by
  by_cases hb : busy a = 0
  · rw [(h.status_ready a hb hdata).2.2]
    exact Nat.zero_le _
  · exact (h.status_busy a (Nat.pos_of_ne_zero hb)).2.le

theorem pollStatus_ready (h : PioProtocol device view busy) (hdata : (view s.dev).phase.Data)
    (hb : busy s.dev < n) : ∃ dev, pollStatus device n s = .ok (true, { s with dev := dev }) ∧
      view dev = view s.dev ∧ busy dev = 0 := by
  induction n generalizing s with
  | zero => omega
  | succ n ih =>
    have hview := h.status_view s.dev
    rw [pollStatus, inStatus, bind_assoc, get_bind, bind_assoc, set_bind, pure_bind]
    by_cases hzero : busy s.dev = 0
    · obtain ⟨hready, -, hstill⟩ := h.status_ready s.dev hzero hdata
      obtain ⟨-, hdrq, hzero'⟩ := h.status_ready (device.inStatus s.dev).2 hstill
        (hview.symm ▸ hdata)
      refine ⟨(device.inStatus (device.inStatus s.dev).2).2, ?_, ?_, hzero'⟩
      · rw [if_pos hready, bind_assoc, get_bind, bind_assoc, set_bind, pure_bind, pure_apply,
          decide_eq_true hdrq]
      · rw [h.status_view, hview]
    · obtain ⟨hbusy, hless⟩ := h.status_busy s.dev (Nat.pos_of_ne_zero hzero)
      obtain ⟨dev, hrun, hsame, hdone⟩ := @ih { s with dev := (device.inStatus s.dev).2 }
        (hview.symm ▸ hdata) (show busy (device.inStatus s.dev).2 < n by omega)
      rw [if_neg hbusy]
      exact ⟨dev, hrun, hsame.trans hview, hdone⟩

theorem readCommand_run (h : PioProtocol device view busy) (hq : Quiet view s)
    (hch : hd.myChannel ≠ 0) (hregs : (view s.dev).regs = addressed hd lba n) (hlba : lba < 2 ^ 24)
    (hn : 0 < n) (hn' : n ≤ 256) :
    ∃ dev, (cmdOut device hd 0x20 >>= fun _ => semDown device) s =
      .ok ((), { s with dev := dev }) ∧ busy dev < pollRounds ∧ view dev = { view s.dev with
        log := (view s.dev).log ++ [⟨false, hd.drive, lba, n⟩]
        phase := .dataIn hd.drive lba n 0 } := by
  have hmode : (view s.dev).regs.lbaMode = true := hregs ▸ (dev_decode hlba).1
  obtain ⟨raised, a, hout, hview, hbusy⟩ := h.readSectors s.dev ⟨false, hd.drive, lba, n⟩ hq.idle
    hmode (hregs ▸ addressed_command hlba hn hn')
  have hcmd : (cmdOut device hd 0x20 >>= fun _ => semDown device) s =
      semDown device (served device raised { s with dev := a, expectionInterrupt := true }) := by
    rw [cmdOut, bind_assoc, ensure_bind_of_true hch, bind_assoc, modify_bind, outByte, modify_bind,
      hout]
  rw [hcmd, semDown, get_bind]
  cases raised with
  | true =>
    -- the interrupt has come before the thread waits for it
    have hdata : (view a).phase.Data := by rw [hview]; trivial
    have hserved : served device true { s with dev := a, expectionInterrupt := true } = { s with
        dev := (device.inStatus a).2
        expectionInterrupt := false
        diskDone := s.diskDone + 1 } := rfl
    refine ⟨(device.inStatus a).2, ?_, (h.status_le hdata).trans_lt (hbusy rfl), ?_⟩
    · rw [hserved, if_pos (Nat.succ_pos _), set_apply, Nat.add_sub_cancel, ← hq.expects]
    · rw [h.status_view, hview]
      rfl
  | false =>
    have hphase : (view a).phase = .fetching hd.drive lba n := by rw [hview]; rfl
    obtain ⟨b, hawait, hless, hfetched⟩ := h.fetched a hd.drive lba n hphase
    have hdata : (view b).phase.Data := by rw [hfetched]; trivial
    have hhandled : intrHdHandler device { s with dev := b, expectionInterrupt := true } = { s with
        dev := (device.inStatus b).2
        expectionInterrupt := false
        diskDone := s.diskDone + 1 } := rfl
    refine ⟨(device.inStatus b).2, ?_, (h.status_le hdata).trans_lt hless, ?_⟩
    · rw [served, if_neg Bool.false_ne_true, if_neg (by rw [hq.done]; exact lt_irrefl 0), hawait]
      dsimp only
      rw [hhandled, ensure_bind_of_true (Nat.succ_pos _), set_apply, Nat.add_sub_cancel,
        ← hq.expects]
    · rw [h.status_view, hfetched, hview]

theorem writeCommand_run (h : PioProtocol device view busy) (hq : Quiet view s)
    (hch : hd.myChannel ≠ 0) (hregs : (view s.dev).regs = addressed hd lba n) (hlba : lba < 2 ^ 24)
    (hn : 0 < n) (hn' : n ≤ 256) :
    ∃ dev, cmdOut device hd 0x30 s =
      .ok ((), { s with dev := dev, expectionInterrupt := true }) ∧ busy dev < pollRounds ∧
      view dev = { view s.dev with
        log := (view s.dev).log ++ [⟨true, hd.drive, lba, n⟩]
        phase := .dataOut hd.drive lba n [] } := by
  have hmode : (view s.dev).regs.lbaMode = true := hregs ▸ (dev_decode hlba).1
  obtain ⟨a, hout, hless, hview⟩ := h.writeSectors s.dev ⟨true, hd.drive, lba, n⟩ hq.idle
    hmode (hregs ▸ addressed_command hlba hn hn')
  refine ⟨a, ?_, hless, hview⟩
  rw [cmdOut, ensure_bind_of_true hch, modify_bind, outByte, modify_apply, hout]
  rfl

/-! ## The words of a read -/

/-- Where a read of `n` sectors is after `j` words. -/
def inPhase (dr : Bool) (lba n j : ℕ) : Phase :=
  if j < 256 * n then .dataIn dr (lba + j / 256) (n - j / 256) (j % 256) else .idle

theorem nextIn_inPhase (hj : j < 256 * n) :
    (nextIn dr (lba + j / 256) (n - j / 256) (j % 256)).1 = inPhase dr lba n (j + 1) := by
  rw [nextIn, inPhase]
  by_cases hlast : j % 256 + 1 < 256
  · rw [if_pos hlast, if_pos (by omega), show (j + 1) / 256 = j / 256 by omega,
      show (j + 1) % 256 = j % 256 + 1 by omega]
  · rw [if_neg hlast]
    by_cases hone : n - j / 256 = 1
    · rw [if_pos hone, if_neg (by omega)]
    · rw [if_neg hone, if_pos (by omega), show (j + 1) / 256 = j / 256 + 1 by omega,
        show (j + 1) % 256 = 0 by omega, Nat.add_assoc, Nat.sub_sub]

theorem inPhase_data_iff : (inPhase dr lba n j).Data ↔ j < 256 * n := by
  rw [inPhase]
  split
  · next hj => exact iff_of_true trivial hj
  · next hj => exact iff_of_false id hj

/-- After `j` words of a read from `v` into `b`. -/
structure Receiving (view : σ → View) (busy : σ → ℕ) (v : View) (m : Bytes) (b : ℕ) (dr : Bool)
    (lba n j : ℕ) (t : IdeState σ) : Prop where
  mem : t.mem = copyBytes (v.disks dr) (512 * lba) m b (2 * j)
  dev : view t.dev = { v with phase := inPhase dr lba n j }
  ready : j < 256 * n → busy t.dev = 0
  expects : t.expectionInterrupt = false
  done : t.diskDone = 0

theorem inMultibyte_run (h : PioProtocol device view busy) {v : View}
    (hs : Receiving view busy v m b dr lba n j s) (hk : j + k ≤ 256 * n) :
    ∃ t, inMultibyte device (b + 2 * j) k s = .ok ((), t) ∧
      Receiving view busy v m b dr lba n (j + k) t := by
  induction k generalizing j s with
  | zero => exact ⟨s, rfl, hs⟩
  | succ k ih =>
    have hj : j < 256 * n := by omega
    have hphase : (view s.dev).phase = .dataIn dr (lba + j / 256) (n - j / 256) (j % 256) := by
      rw [hs.dev, inPhase]
      exact if_pos hj
    obtain ⟨hword, -, hdev, hready⟩ := h.inWord s.dev dr _ _ _ hphase (hs.ready hj)
    rw [nextIn_inPhase hj] at hdev hready
    have hpos : 512 * (lba + j / 256) + 2 * (j % 256) = 512 * lba + 2 * j := by omega
    have hdisks : (view s.dev).disks = v.disks := by rw [hs.dev]
    have hnext : Receiving view busy v m b dr lba n (j + 1) { s with
        mem := Function.update (Function.update s.mem (b + 2 * j) (device.inWord s.dev).1.1)
          (b + 2 * j + 1) (device.inWord s.dev).1.2
        dev := (device.inWord s.dev).2.2 } := by
      refine ⟨?_, ?_, fun hlt => hready (inPhase_data_iff.mpr hlt), hs.expects, hs.done⟩
      · rw [hword, hpos, hdisks]
        simp only [copyBytes_word]
        rw [hs.mem, copyBytes_append, Nat.mul_add]
      · rw [hdev, hs.dev]
    obtain ⟨t, hrun, ht⟩ := ih hnext (by omega)
    refine ⟨t, ?_, by rwa [Nat.add_assoc, Nat.add_comm 1] at ht⟩
    rw [inMultibyte, modify_bind]
    dsimp only
    rw [served_quiet _ (by exact hs.expects), ← hrun, Nat.mul_add, ← Nat.add_assoc]

/-! ## The words of a write -/

def wordsOf (m : Bytes) (a k : ℕ) : List (BitVec 8 × BitVec 8) :=
  (List.range k).map fun i => (m (a + 2 * i), m (a + 2 * i + 1))

theorem wordsOf_succ : wordsOf m a (k + 1) = wordsOf m a k ++ [(m (a + 2 * k), m (a + 2 * k + 1))] := by
  rw [wordsOf, List.range_succ, List.map_append]
  rfl

theorem length_wordsOf : (wordsOf m a k).length = k := by
  rw [wordsOf, List.length_map, List.length_range]

theorem wordsOf_cons : wordsOf m a (k + 1) = (m a, m (a + 1)) :: wordsOf m (a + 2) k := by
  rw [wordsOf, List.range_succ_eq_map, List.map_cons, List.map_map]
  refine congrArg₂ _ rfl (List.map_congr_left fun i _ => ?_)
  simp only [Function.comp_apply]
  rw [show a + 2 * i.succ = a + 2 + 2 * i by omega]

theorem storeWords_wordsOf (disk : Bytes) (pos : ℕ) :
    storeWords disk pos (wordsOf m a k) = copyBytes m a disk pos (2 * k) := by
  induction k generalizing disk pos a with
  | zero => exact copyBytes_zero.symm
  | succ k ih =>
    rw [wordsOf_cons, storeWords, ih]
    simp only [copyBytes_word, copyBytes_append]
    rw [show 2 + 2 * k = 2 * (k + 1) by omega]

/-- What a write of `n` sectors from `b` has come to after `j` words. -/
def outView (v : View) (m : Bytes) (b : ℕ) (dr : Bool) (lba n j : ℕ) : View :=
  { v with
    disks := Function.update v.disks dr
      (copyBytes m b (v.disks dr) (512 * lba) (512 * (j / 256)))
    phase := if j < 256 * n then .dataOut dr (lba + j / 256) (n - j / 256)
      (wordsOf m (b + 512 * (j / 256)) (j % 256)) else .idle }

theorem nextOut_outView {v : View} (hj : j < 256 * n) :
    nextOut (outView v m b dr lba n j) dr (lba + j / 256) (n - j / 256)
      (wordsOf m (b + 512 * (j / 256)) (j % 256) ++ [(m (b + 2 * j), m (b + 2 * j + 1))]) =
    (outView v m b dr lba n (j + 1), decide (j % 256 = 255)) := by
  have hword : wordsOf m (b + 512 * (j / 256)) (j % 256) ++ [(m (b + 2 * j), m (b + 2 * j + 1))] =
      wordsOf m (b + 512 * (j / 256)) (j % 256 + 1) := by
    rw [wordsOf_succ, show b + 512 * (j / 256) + 2 * (j % 256) = b + 2 * j by omega]
  rw [hword, nextOut, length_wordsOf]
  by_cases hlast : j % 256 + 1 < 256
  · rw [if_pos hlast, decide_eq_false (by omega)]
    simp only [outView]
    rw [if_pos (by omega), show (j + 1) / 256 = j / 256 by omega,
      show (j + 1) % 256 = j % 256 + 1 by omega]
  · have hfull : j % 256 + 1 = 256 := by omega
    rw [if_neg hlast, decide_eq_true (by omega), hfull, storeWords_wordsOf]
    simp only [outView, Function.update_self, Function.update_idem]
    rw [show 512 * (lba + j / 256) = 512 * lba + 512 * (j / 256) by omega, copyBytes_append,
      show (j + 1) / 256 = j / 256 + 1 by omega, show (j + 1) % 256 = 0 by omega,
      show 512 * (j / 256 + 1) = 512 * (j / 256) + 2 * 256 by omega]
    by_cases hone : n - j / 256 = 1
    · rw [if_pos hone, if_neg (by omega)]
    · rw [if_neg hone, if_pos (by omega), Nat.add_assoc, Nat.sub_sub]
      rfl

theorem outView_data_iff {v : View} : (outView v m b dr lba n j).phase.Data ↔ j < 256 * n := by
  simp only [outView]
  split
  · next hj => exact iff_of_true trivial hj
  · next hj => exact iff_of_false id hj

/-- After `j` words of a write: the first block's interrupt has woken the thread. -/
structure Sending (view : σ → View) (busy : σ → ℕ) (v : View) (m : Bytes) (b : ℕ) (dr : Bool)
    (lba n j : ℕ) (t : IdeState σ) : Prop where
  mem : t.mem = m
  dev : view t.dev = outView v m b dr lba n j
  ready : j < 256 * n → busy t.dev = 0
  expects : t.expectionInterrupt = decide (j < 256)
  done : t.diskDone = if j < 256 then 0 else 1

/-- One word: only at the end of the first block the interrupt is expected. -/
theorem Sending.next (h : PioProtocol device view busy) {v : View}
    (hs : Sending view busy v m b dr lba n j s) (hj : j < 256 * n) :
    Sending view busy v m b dr lba n (j + 1)
      (served device (device.outWord (m (b + 2 * j)) (m (b + 2 * j + 1)) s.dev).1
        { s with dev := (device.outWord (m (b + 2 * j)) (m (b + 2 * j + 1)) s.dev).2 }) := by
  have hphase : (view s.dev).phase = .dataOut dr (lba + j / 256) (n - j / 256)
      (wordsOf m (b + 512 * (j / 256)) (j % 256)) := by
    rw [hs.dev]
    exact if_pos hj
  obtain ⟨hraised, hdev, hready⟩ := h.outWord s.dev dr _ _ _ (m (b + 2 * j)) (m (b + 2 * j + 1))
    hphase (hs.ready hj)
  rw [hs.dev, nextOut_outView hj] at hraised hdev hready
  dsimp only at hraised hdev hready
  rw [outView_data_iff] at hready
  rw [hraised]
  by_cases hfirst : j = 255
  · subst hfirst
    have hexpects : s.expectionInterrupt = true := hs.expects
    have hserved : served device (decide (255 % 256 = 255)) { s with
        dev := (device.outWord (m (b + 2 * 255)) (m (b + 2 * 255 + 1)) s.dev).2 } = { s with
          dev := (device.inStatus
            (device.outWord (m (b + 2 * 255)) (m (b + 2 * 255 + 1)) s.dev).2).2
          expectionInterrupt := false
          diskDone := s.diskDone + 1 } := by
      rw [served, if_pos (by decide), intrHdHandler, if_pos hexpects]
    rw [hserved]
    refine ⟨hs.mem, (h.status_view _).trans hdev, fun hlt => ?_, rfl, by rw [hs.done]; rfl⟩
    have hdata : (outView v m b dr lba n (255 + 1)).phase.Data := outView_data_iff.mpr hlt
    exact (h.status_ready _ (hready hlt) (hdev ▸ hdata)).2.2
  · have hkeep : served device (decide (j % 256 = 255)) { s with
        dev := (device.outWord (m (b + 2 * j)) (m (b + 2 * j + 1)) s.dev).2 } = { s with
          dev := (device.outWord (m (b + 2 * j)) (m (b + 2 * j + 1)) s.dev).2 } := by
      by_cases hend : j % 256 = 255
      · exact served_quiet _ (hs.expects.trans (decide_eq_false (by omega)))
      · rw [decide_eq_false hend]
        rfl
    rw [hkeep]
    refine ⟨hs.mem, hdev, hready, hs.expects.trans (decide_eq_decide.mpr (by omega)), ?_⟩
    have hsame : (j + 1 < 256) = (j < 256) := propext (by omega)
    simp only [hs.done, hsame]

theorem outMultibyte_run (h : PioProtocol device view busy) {v : View}
    (hs : Sending view busy v m b dr lba n j s) (hk : j + k ≤ 256 * n) :
    ∃ t, outMultibyte device (b + 2 * j) k s = .ok ((), t) ∧
      Sending view busy v m b dr lba n (j + k) t := by
  induction k generalizing j s with
  | zero => exact ⟨s, rfl, hs⟩
  | succ k ih =>
    obtain ⟨t, hrun, ht⟩ := ih (hs.next h (by omega)) (by omega)
    refine ⟨t, ?_, by rwa [Nat.add_assoc, Nat.add_comm 1] at ht⟩
    rw [outMultibyte, modify_bind, ← hrun, hs.mem, Nat.mul_add, ← Nat.add_assoc]

/-! ## A chunk -/

theorem lt_of_le_maxLba (h : lba ≤ maxLba) : lba < 2 ^ 24 := by
  have hmax : maxLba = 163839 := rfl
  omega

theorem u32_of_le_maxLba (h : lba ≤ maxLba) : u32 lba = lba := by
  have hmax : maxLba = 163839 := rfl
  exact u32_of_lt (by omega)

theorem readChunk_run (h : PioProtocol device view busy) (hq : Quiet view s)
    (hch : hd.myChannel ≠ 0) (hlba : lba + d ≤ maxLba) (hbuf : buf + 512 * d < 2 ^ 32)
    (hn : 0 < n) (hn' : n ≤ 256) :
    ∃ t, readChunk device hd lba buf d n s = .ok ((), t) ∧ Quiet view t ∧
      t.mem = copyBytes ((view s.dev).disks hd.drive) (512 * (lba + d)) s.mem (buf + 512 * d)
        (512 * n) ∧
      (view t.dev).disks = (view s.dev).disks ∧
      (view t.dev).log = (view s.dev).log ++ [⟨false, hd.drive, lba + d, n⟩] := by
  obtain ⟨d₁, hselect, hregs, hq₁⟩ := selectSector_run hd n h hq hlba
  obtain ⟨d₂, hcmd, hless, hview⟩ := readCommand_run h hq₁ hch (by rw [hregs])
    (lt_of_le_maxLba hlba) hn hn'
  have hdata : (view d₂).phase.Data := by rw [hview]; trivial
  obtain ⟨d₃, hwait, hsame, hready⟩ := @pollStatus_ready σ device view busy
    { s with dev := d₂ } pollRounds h hdata hless
  have hstart : Receiving view busy (view d₂) s.mem (buf + 512 * d) hd.drive (lba + d) n 0
      { s with dev := d₃ } := by
    refine ⟨copyBytes_zero.symm, ?_, fun _ => hready, hq.expects, hq.done⟩
    rw [hsame, inPhase, if_pos (by omega), hview]
    rfl
  obtain ⟨t, hread, ht⟩ := inMultibyte_run (k := 256 * n) h hstart (by omega)
  rw [Nat.mul_zero, Nat.add_zero] at hread
  rw [Nat.zero_add] at ht
  refine ⟨t, ?_, ⟨?_, ht.expects, ht.done⟩, ?_, ?_, ?_⟩
  · rw [readChunk, u32_of_le_maxLba hlba, u32_of_lt hbuf, bind_of_ok hselect, ← bind_assoc,
      bind_of_ok hcmd, busyWait, bind_of_ok hwait, ensure_bind_of_true rfl, readFromSector,
      half_bytesCnt hn hn', hread]
  · rw [ht.dev, inPhase]
    exact if_neg (lt_irrefl _)
  · rw [ht.mem, hview, hregs, show 2 * (256 * n) = 512 * n by omega]
  · rw [ht.dev, hview, hregs]
  · rw [ht.dev, hview, hregs]

theorem writeChunk_run (h : PioProtocol device view busy) (hq : Quiet view s)
    (hch : hd.myChannel ≠ 0) (hlba : lba + d ≤ maxLba) (hbuf : buf + 512 * d < 2 ^ 32)
    (hn : 0 < n) (hn' : n ≤ 256) :
    ∃ t, writeChunk device hd lba buf d n s = .ok ((), t) ∧ Quiet view t ∧ t.mem = s.mem ∧
      (view t.dev).disks = Function.update (view s.dev).disks hd.drive (copyBytes s.mem
        (buf + 512 * d) ((view s.dev).disks hd.drive) (512 * (lba + d)) (512 * n)) ∧
      (view t.dev).log = (view s.dev).log ++ [⟨true, hd.drive, lba + d, n⟩] := by
  obtain ⟨d₁, hselect, hregs, hq₁⟩ := selectSector_run hd n h hq hlba
  obtain ⟨d₂, hcmd, hless, hview⟩ := writeCommand_run h hq₁ hch (by rw [hregs])
    (lt_of_le_maxLba hlba) hn hn'
  have hdata : (view d₂).phase.Data := by rw [hview]; trivial
  obtain ⟨d₃, hwait, hsame, hready⟩ := @pollStatus_ready σ device view busy
    { s with dev := d₂, expectionInterrupt := true } pollRounds h hdata hless
  have hstart : Sending view busy (view d₂) s.mem (buf + 512 * d) hd.drive (lba + d) n 0
      { s with dev := d₃, expectionInterrupt := true } := by
    refine ⟨rfl, ?_, fun _ => hready, rfl, hq.done⟩
    rw [hsame, outView, if_pos (by omega)]
    simp only [Nat.zero_div, Nat.mul_zero, copyBytes_zero, Function.update_eq_self]
    rw [hview]
    rfl
  obtain ⟨t, hwrite, ht⟩ := outMultibyte_run (k := 256 * n) h hstart (by omega)
  rw [Nat.mul_zero, Nat.add_zero] at hwrite
  rw [Nat.zero_add] at ht
  have hdone : t.diskDone = 1 := by rw [ht.done, if_neg (by omega)]
  have hdown : semDown device t = .ok ((), { t with diskDone := 0 }) := by
    rw [semDown, get_bind, if_pos (by omega), set_apply, hdone]
  have hout : view t.dev = outView (view d₂) s.mem (buf + 512 * d) hd.drive (lba + d) n (256 * n) :=
    ht.dev
  refine ⟨{ t with diskDone := 0 }, ?_, ⟨?_, ht.expects.trans (decide_eq_false (by omega)), rfl⟩,
    ht.mem, ?_, ?_⟩
  · rw [writeChunk, u32_of_le_maxLba hlba, u32_of_lt hbuf, bind_of_ok hselect, bind_of_ok hcmd,
      busyWait, bind_of_ok hwait, ensure_bind_of_true rfl, writeToSector, half_bytesCnt hn hn',
      bind_of_ok hwrite, hdown]
  · rw [hout, outView]
    exact if_neg (lt_irrefl _)
  · rw [hout, outView, show 256 * n / 256 = n by omega, hview, hregs]
  · rw [hout, outView, hview, hregs]

/-! ## The loop -/

theorem secOp_bounds (h : d < secCnt) :
    0 < secOp secCnt d ∧ secOp secCnt d ≤ 256 ∧ d + secOp secCnt d ≤ secCnt := by
  rw [secOp]
  split <;> omega

/-- What each chunk carries on holds after the last one. -/
theorem sectorLoop_run {body : ℕ → ℕ → IdeM σ Unit} {I : ℕ → IdeState σ → Prop}
    (hstep : ∀ d < secCnt, ∀ s, I d s →
      ∃ t, body d (secOp secCnt d) s = .ok ((), t) ∧ I (d + secOp secCnt d) t)
    (hd : d ≤ secCnt) (h : I d s) : ∃ t, sectorLoop body secCnt d s = .ok ((), t) ∧ I secCnt t := by
  induction hleft : secCnt - d using Nat.strong_induction_on generalizing d s with
  | _ left ih =>
    rw [sectorLoop]
    by_cases hlt : d < secCnt
    · obtain ⟨hpos, -, hle⟩ := secOp_bounds hlt
      obtain ⟨t, hbody, hI⟩ := hstep d hlt s h
      rw [if_pos hlt, bind_of_ok hbody]
      exact ih _ (by omega) hle hI rfl
    · rw [if_neg hlt]
      obtain rfl : d = secCnt := by omega
      exact ⟨s, rfl, h⟩

theorem covers_zero : Covers write dr lba 0 [] := ⟨nofun, rfl⟩

theorem Covers.snoc {cmds : List Command} (h : Covers write dr lba d cmds) :
    Covers write dr lba (d + n) (cmds ++ [⟨write, dr, lba + d, n⟩]) := by
  constructor
  · intro c hc
    rcases List.mem_append.mp hc with hc | hc
    · exact h.kind c hc
    · rw [List.mem_singleton.mp hc]
      exact ⟨rfl, rfl⟩
  · rw [List.flatMap_append, h.sectors, List.range_add, List.map_append, List.map_map]
    simp only [List.flatMap_cons, List.flatMap_nil, List.append_nil, Command.sectors,
      Function.comp_def, Nat.add_assoc]

theorem log_snoc {old log log' : List Command} (h : ∃ cmds, log = old ++ cmds ∧
    Covers write dr lba d cmds) (hlog : log' = log ++ [⟨write, dr, lba + d, n⟩]) :
    ∃ cmds, log' = old ++ cmds ∧ Covers write dr lba (d + n) cmds := by
  obtain ⟨cmds, ht, hc⟩ := h
  refine ⟨cmds ++ [⟨write, dr, lba + d, n⟩], ?_, hc.snoc⟩
  rw [hlog, ht, List.append_assoc]

theorem ReadInto.next {u : IdeState σ} (h : ReadInto view hd lba buf d s t)
    (hmem : u.mem = copyBytes ((view t.dev).disks hd.drive) (512 * (lba + d)) t.mem (buf + 512 * d)
      (512 * n))
    (hdisks : (view u.dev).disks = (view t.dev).disks)
    (hlog : (view u.dev).log = (view t.dev).log ++ [⟨false, hd.drive, lba + d, n⟩]) :
    ReadInto view hd lba buf (d + n) s u := by
  refine ⟨?_, hdisks.trans h.disks, log_snoc h.log hlog⟩
  rw [hmem, h.mem, h.disks, FsDisk.ideRead, Nat.mul_add, copyBytes_append, FsDisk.ideRead,
    Nat.mul_add]

theorem WrittenFrom.next {u : IdeState σ} (h : WrittenFrom view hd lba buf d s t)
    (hmem : u.mem = t.mem)
    (hdisks : (view u.dev).disks = Function.update (view t.dev).disks hd.drive (copyBytes t.mem
      (buf + 512 * d) ((view t.dev).disks hd.drive) (512 * (lba + d)) (512 * n)))
    (hlog : (view u.dev).log = (view t.dev).log ++ [⟨true, hd.drive, lba + d, n⟩]) :
    WrittenFrom view hd lba buf (d + n) s u := by
  refine ⟨hmem.trans h.mem, ?_, log_snoc h.log hlog⟩
  rw [hdisks, h.mem, h.disks, Function.update_self, Function.update_idem, FsDisk.ideWrite,
    Nat.mul_add, copyBytes_append, FsDisk.ideWrite, Nat.mul_add]

/-! ## A request -/

theorem ideTransfer_run (hd : Disk) (lba secCnt : ℕ) (body : ℕ → ℕ → IdeM σ Unit)
    (h : PioProtocol device view busy) (hq : Quiet view s) (hlba : lba ≤ maxLba) (hcnt : 0 < secCnt) :
    ∃ u, ideTransfer device hd lba secCnt body s = sectorLoop body secCnt 0 u ∧ Quiet view u ∧
      u.mem = s.mem ∧ (view u.dev).disks = (view s.dev).disks ∧
      (view u.dev).log = (view s.dev).log := by
  obtain ⟨dev, hrun, hview, hq'⟩ := outByte_run .dev
    (0x40 ||| 0xa0 ||| bitDevDev hd) h hq (by decide)
  refine ⟨{ s with dev := dev }, ?_, hq', rfl, by rw [hview], by rw [hview]⟩
  rw [ideTransfer, ensure_bind_of_true hlba, ensure_bind_of_true hcnt, selectDisk, bind_of_ok hrun]

theorem ideRead_run (h : PioProtocol device view busy) (hq : Quiet view s)
    (hch : hd.myChannel ≠ 0) (hcnt : 1 ≤ secCnt) (hlba : lba + secCnt - 1 ≤ maxLba)
    (hbuf : buf + 512 * secCnt ≤ 2 ^ 32) :
    ∃ t, ideRead device hd lba buf secCnt s = .ok ((), t) ∧ Quiet view t ∧
      ReadInto view hd lba buf secCnt s t := by
  obtain ⟨u, hrun, hqu, hmem, hdisks, hlog⟩ := ideTransfer_run hd lba secCnt
    (readChunk device hd lba buf) h hq (by omega) hcnt
  rw [ideRead, hrun]
  apply sectorLoop_run (I := fun d t => Quiet view t ∧ ReadInto view hd lba buf d s t) _
    (Nat.zero_le _)
  · refine ⟨hqu, ?_, hdisks, [], ?_, covers_zero⟩
    · rw [hmem]
      exact copyBytes_zero.symm
    · rw [hlog, List.append_nil]
  · rintro d hd' t ⟨hqt, ht⟩
    obtain ⟨hpos, hle, -⟩ := secOp_bounds hd'
    obtain ⟨u, hrun, hqu, hmem, hdisks, hlog⟩ := readChunk_run (n := secOp secCnt d) (d := d) h hqt
      hch (show lba + d ≤ maxLba by omega) (show buf + 512 * d < 2 ^ 32 by omega) hpos hle
    exact ⟨u, hrun, hqu, ht.next hmem hdisks hlog⟩

theorem ideWrite_run (h : PioProtocol device view busy) (hq : Quiet view s)
    (hch : hd.myChannel ≠ 0) (hcnt : 1 ≤ secCnt) (hlba : lba + secCnt - 1 ≤ maxLba)
    (hbuf : buf + 512 * secCnt ≤ 2 ^ 32) :
    ∃ t, ideWrite device hd lba buf secCnt s = .ok ((), t) ∧ Quiet view t ∧
      WrittenFrom view hd lba buf secCnt s t := by
  obtain ⟨u, hrun, hqu, hmem, hdisks, hlog⟩ := ideTransfer_run hd lba secCnt
    (writeChunk device hd lba buf) h hq (by omega) hcnt
  rw [ideWrite, hrun]
  apply sectorLoop_run (I := fun d t => Quiet view t ∧ WrittenFrom view hd lba buf d s t) _
    (Nat.zero_le _)
  · refine ⟨hqu, hmem, ?_, [], ?_, covers_zero⟩
    · rw [hdisks, FsDisk.ideWrite, Nat.mul_zero, copyBytes_zero, Function.update_eq_self]
    · rw [hlog, List.append_nil]
  · rintro d hd' t ⟨hqt, ht⟩
    obtain ⟨hpos, hle, -⟩ := secOp_bounds hd'
    obtain ⟨u, hrun, hqu, hmem, hdisks, hlog⟩ := writeChunk_run (n := secOp secCnt d) (d := d) h hqt
      hch (show lba + d ≤ maxLba by omega) (show buf + 512 * d < 2 ^ 32 by omega) hpos hle
    exact ⟨u, hrun, hqu, ht.next hmem hdisks hlog⟩

/-- Requests of every length and address: whole sectors go to their places, and what was written
is read again. -/
theorem ide_transfers (h : PioProtocol device view busy) (hq : Quiet view s)
    (hch : hd.myChannel ≠ 0) (hcnt : 1 ≤ secCnt) (hlba : lba + secCnt - 1 ≤ maxLba)
    (hbuf : buf + 512 * secCnt ≤ 2 ^ 32) :
    (∃ t, ideRead device hd lba buf secCnt s = .ok ((), t) ∧ Quiet view t ∧
      ReadInto view hd lba buf secCnt s t) ∧
    ∃ t, ideWrite device hd lba buf secCnt s = .ok ((), t) ∧ Quiet view t ∧
      WrittenFrom view hd lba buf secCnt s t ∧
      ∀ u buf', Quiet view u → (view u.dev).disks = (view t.dev).disks →
        buf' + 512 * secCnt ≤ 2 ^ 32 →
        ∃ v, ideRead device hd lba buf' secCnt u = .ok ((), v) ∧
          ∀ i < 512 * secCnt, v.mem (buf' + i) = s.mem (buf + i) := by
  refine ⟨ideRead_run h hq hch hcnt hlba hbuf, ?_⟩
  obtain ⟨t, hwrite, hqt, ht⟩ := ideWrite_run h hq hch hcnt hlba hbuf
  refine ⟨t, hwrite, hqt, ht, fun u buf' hqu hdisks hbuf' => ?_⟩
  obtain ⟨v, hread, -, hv⟩ := ideRead_run h hqu hch hcnt hlba hbuf'
  refine ⟨v, hread, fun i hi => ?_⟩
  have hin : FsDisk.ideRead ((view u.dev).disks hd.drive) lba u.mem buf' secCnt (buf' + i) =
      (view u.dev).disks hd.drive (512 * lba + i) := FsDisk.copyBytes_at hi
  rw [hv.mem, hin, hdisks, ht.disks, Function.update_self]
  exact FsDisk.copyBytes_at hi

/-! ## A device -/

/-- A device in software, which fetches and stores a block at once; the number is how often it still
shows itself busy. -/
abbrev Emulated := View × ℕ

def emulatedCommand (delay : ℕ) (v : View) (data : BitVec 8) : Emulated :=
  if v.regs.lbaMode then
    if data = 0x20 then
      let c := v.regs.command false
      ({ v with log := v.log ++ [c], phase := .fetching c.drive c.lba c.count }, 0)
    else if data = 0x30 then
      let c := v.regs.command true
      ({ v with log := v.log ++ [c], phase := .dataOut c.drive c.lba c.count [] }, delay)
    else (v, 0)
  else (v, 0)

def emulated (delay : ℕ) : AtaDevice Emulated where
  outByte reg data a :=
    (false, if reg = .cmd then emulatedCommand delay a.1 data
      else ({ a.1 with regs := a.1.regs.put reg data }, a.2))
  inStatus a :=
    (if 0 < a.2 then 0x80 else match a.1.phase with
      | .dataIn _ _ _ _ | .dataOut _ _ _ _ => 0x48
      | _ => 0x40, (a.1, a.2 - 1))
  inWord a :=
    match a.1.phase with
    | .dataIn drive lba left word =>
      ((a.1.disks drive (512 * lba + 2 * word), a.1.disks drive (512 * lba + 2 * word + 1)),
        (nextIn drive lba left word).2, ({ a.1 with phase := (nextIn drive lba left word).1 }, 0))
    | _ => ((0, 0), false, a)
  outWord lo hi a :=
    match a.1.phase with
    | .dataOut drive lba left block =>
      let r := nextOut a.1 drive lba left (block ++ [(lo, hi)])
      (r.2, (r.1, 0))
    | _ => (false, a)
  await a :=
    match a.1.phase with
    | .fetching drive lba left => some ({ a.1 with phase := .dataIn drive lba left 0 }, delay)
    | _ => none

theorem emulated_protocol {delay : ℕ} (hdelay : delay < pollRounds) :
    PioProtocol (emulated delay) Prod.fst Prod.snd where
  register a reg data _ hreg := by simp [emulated, hreg]
  readSectors := by
    rintro a c - hmode rfl
    refine ⟨false, emulatedCommand delay a.1 0x20, by simp [emulated], ?_, nofun⟩
    simp [emulatedCommand, hmode]
  fetched a drive lba left hphase :=
    ⟨_, by simp only [emulated, hphase]; rfl, hdelay, rfl⟩
  writeSectors := by
    rintro a c - hmode rfl
    refine ⟨emulatedCommand delay a.1 0x30, by simp [emulated], ?_, ?_⟩
    · simpa [emulatedCommand, hmode] using hdelay
    · simp [emulatedCommand, hmode]
  status_view a := rfl
  status_busy a hb := by
    refine ⟨by simp only [emulated, if_pos hb]; decide, ?_⟩
    simp only [emulated]
    omega
  status_ready a hb hdata := by
    cases hphase : a.1.phase with
    | idle => simp [hphase, Phase.Data] at hdata
    | fetching drive lba left => simp [hphase, Phase.Data] at hdata
    | dataIn drive lba left word => simp [emulated, hphase, hb]
    | dataOut drive lba left block => simp [emulated, hphase, hb]
  inWord a drive lba left word hphase _ := by simp [emulated, hphase]
  outWord a drive lba left block lo hi hphase _ := by simp [emulated, hphase]

def sampleIde : IdeState Emulated where
  dev := (⟨⟨0, 0, 0, 0, 0⟩, fun _ _ => 0, [], .idle⟩, 0)
  mem := fun a => BitVec.ofNat 8 a
  expectionInterrupt := false
  diskDone := 0

/-- 600 sectors of the second drive are three commands. -/
theorem ide_transfers_600_sectors :
    (∃ t, ideRead (emulated 3) ⟨0xc0002000, 1⟩ 100 0x100000 600 sampleIde = .ok ((), t) ∧
      Quiet Prod.fst t ∧ ReadInto Prod.fst ⟨0xc0002000, 1⟩ 100 0x100000 600 sampleIde t) ∧
    ∃ t, ideWrite (emulated 3) ⟨0xc0002000, 1⟩ 100 0x100000 600 sampleIde = .ok ((), t) ∧
      WrittenFrom Prod.fst ⟨0xc0002000, 1⟩ 100 0x100000 600 sampleIde t := by
  obtain ⟨hread, t, hwrite, -, ht, -⟩ := @ide_transfers Emulated (emulated 3) Prod.fst Prod.snd
    ⟨0xc0002000, 1⟩ sampleIde 100 0x100000 600 (emulated_protocol (by decide)) ⟨rfl, rfl, rfl⟩
    (by decide) (by decide) (by decide) (by decide)
  exact ⟨hread, t, hwrite, ht⟩

end DeviceIdeTransfers
