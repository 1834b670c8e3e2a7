import Leeos.RingBuffers
import Leeos.DeviceIoqueue

/-!
# The I/O queue is a queue (`device/ioqueue.c`)

With no thread waiting, `ioq_putchar` on a queue that is not full and `ioq_getchar` on one that
is not empty do not sleep, and the ring of 64 slots is a queue of 63 characters.
-/
namespace DeviceIoqueueRing

open ExecRules KernelThreadRuns DeviceIoqueue RingBuffers

/-- `ioqueue_init`: what `buf` holds stays. -/
def ioqueueInit (q : Ioqueue) : Ioqueue :=
  { q with
    holder := none
    holderRepeatNum := 0
    producer := none
    consumer := none
    head := 0
    tail := 0 }

/-- A call that does not sleep, from any state of the rest of the system. -/
inductive CallStep : Ioqueue → Transfer (BitVec 8) → Ioqueue → Prop
  | putchar {s s' : IoqState} (saved : SavedStack) (byte : BitVec 8) :
      s.threads.intr = false → ioqueueIsFull s.ioq = false →
      ioqEnter (.putchar byte) saved s = .ok ((), s') → CallStep s.ioq (.put byte) s'.ioq
  | getchar {s s' : IoqState} (saved : SavedStack) :
      s.threads.intr = false → ioqueueIsEmpty s.ioq = false →
      ioqEnter .getchar saved s = .ok ((), s') →
      CallStep s.ioq (.get (s'.result s.threads.curr)) s'.ioq

/-- The characters between `tail` and `head`. -/
def pending (q : Ioqueue) : List (BitVec 8) := contents q.buf bufSize q.tail q.head

/-- The positions are in range and no thread waits. -/
structure Idle (q : Ioqueue) : Prop where
  head : q.head < bufSize
  tail : q.tail < bufSize
  producer : q.producer = none
  consumer : q.consumer = none

variable {q r : Ioqueue} {call : IoqCall} {saved : SavedStack} {s s' : IoqState}

theorem idle_init (q : Ioqueue) : Idle (ioqueueInit q) :=
  ⟨Nat.zero_lt_succ 63, Nat.zero_lt_succ 63, rfl, rfl⟩

theorem pending_init (q : Ioqueue) : pending (ioqueueInit q) = [] := by
  simp [pending, ioqueueInit, contents, distance_self]

theorem Idle.other (h : Idle q) (call : IoqCall) : q.other call = none := by
  cases call with
  | getchar => exact h.producer
  | putchar byte => exact h.consumer

theorem isFull_iff : ioqueueIsFull q = true ↔ next bufSize q.head = q.tail := beq_iff_eq

theorem isEmpty_iff : ioqueueIsEmpty q = true ↔ q.head = q.tail := beq_iff_eq

theorem ioqEnter_serves (call : IoqCall) (h : Idle s.ioq) (hi : s.threads.intr = false)
    (hc : CanServe s.ioq call) :
    ioqEnter call saved s = .ok ((), { transfer call s with
      calls := Function.update s.calls s.threads.curr none }) := by
  rw [ioqEnter, get_bind]
  apply (ensure_bind_of_true hi _ s).trans
  rw [ioqTurn, get_bind]
  apply (ensure_bind_of_true (Or.inr hi) _ s).trans
  rw [if_pos hc, h.other call]
  rfl

theorem putchar_step (h : Idle q) (hf : ioqueueIsFull q = false) (byte : BitVec 8) :
    Idle { q with buf := Function.update q.buf q.head byte, head := nextPos q.head } ∧
      pending { q with buf := Function.update q.buf q.head byte, head := nextPos q.head } =
        pending q ++ [byte] := by
  have hne : next bufSize q.head ≠ q.tail := by
    intro he
    rw [isFull_iff.mpr he] at hf
    cases hf
  exact ⟨⟨next_lt (by decide) q.head, h.tail, h.producer, h.consumer⟩,
    contents_put h.head h.tail hne byte⟩

theorem getchar_step (h : Idle q) (he : ioqueueIsEmpty q = false) :
    Idle { q with tail := nextPos q.tail } ∧
      pending q = q.buf q.tail :: pending { q with tail := nextPos q.tail } := by
  have hne : q.head ≠ q.tail := by
    intro he'
    rw [isEmpty_iff.mpr he'] at he
    cases he
  exact ⟨⟨h.head, next_lt (by decide) q.tail, h.producer, h.consumer⟩,
    contents_get h.head h.tail hne⟩

theorem pending_length (h : Idle q) : (pending q).length < bufSize := by
  rw [pending, contents_length]
  exact distance_lt h.head h.tail

theorem isFull_pending (h : Idle q) : ioqueueIsFull q = true ↔ (pending q).length = 63 := by
  rw [isFull_iff, pending, contents_length]
  exact next_eq_iff h.head h.tail

theorem isEmpty_pending (h : Idle q) : ioqueueIsEmpty q = true ↔ pending q = [] := by
  rw [isEmpty_iff, ← List.length_eq_zero_iff, pending, contents_length]
  exact (distance_eq_zero_iff h.tail).symm

theorem callStep_queue {x : Transfer (BitVec 8)} (h : Idle q) (hstep : CallStep q x r) :
    Idle r ∧ QueueStep 63 (pending q) x (pending r) := by
  cases hstep with
  | @putchar s s' saved byte hi hf hrun =>
    rw [ioqEnter_serves (.putchar byte) h hi hf] at hrun
    cases hrun
    obtain ⟨hidle, hp⟩ := putchar_step h hf byte
    refine ⟨hidle, ?_⟩
    have hlt : (pending s.ioq).length < 64 := pending_length h
    have hne := (isFull_pending h).not.mp (Bool.eq_false_iff.mp hf)
    simp only [transfer, hp]
    exact .put byte (by omega)
  | @getchar s s' saved hi he hrun =>
    rw [ioqEnter_serves .getchar h hi he] at hrun
    cases hrun
    obtain ⟨hidle, hp⟩ := getchar_step h he
    refine ⟨hidle, ?_⟩
    simp only [transfer, hp, Function.update_self]
    exact .get _

/-- A system with interrupts off whose queue is `q`. -/
def stateWith (q : Ioqueue) : IoqState := { ioqInit bootState with ioq := q }

theorem putchar_serves (h : Idle q) (hf : ioqueueIsFull q = false) (byte : BitVec 8) :
    CallStep q (.put byte)
      { q with buf := Function.update q.buf q.head byte, head := nextPos q.head } :=
  .putchar (s := stateWith q) ⟨0, 0⟩ byte rfl hf (ioqEnter_serves (.putchar byte) h rfl hf)

theorem getchar_serves (h : Idle q) (he : ioqueueIsEmpty q = false) :
    CallStep q (.get (q.buf q.tail)) { q with tail := nextPos q.tail } := by
  have hstep := CallStep.getchar (s := stateWith q) ⟨0, 0⟩ rfl he
    (ioqEnter_serves .getchar h rfl he)
  simp only [transfer, Function.update_self] at hstep
  exact hstep

/-- Over every run of such calls the characters handed out are those put in, in order, up to the
ones that are pending; and the next call that the queue can serve returns. -/
theorem ioqueue_refines_queue {ts : List (Transfer (BitVec 8))}
    (h : Run CallStep (ioqueueInit q) ts r) :
    (∃ p, puts ts = gets ts ++ p ∧ (ioqueueIsFull r = true ↔ p.length = 63) ∧
      (ioqueueIsEmpty r = true ↔ p = [])) ∧
    r.head < 64 ∧ r.tail < 64 ∧
    ∀ s call saved, s.ioq = r → s.threads.intr = false → CanServe r call →
      ∃ s', ioqEnter call saved s = .ok ((), s') := by
  have hstep : ∀ s x t, Idle s → CallStep s x t →
      Idle t ∧ QueueStep 63 (pending s) x (pending t) := fun _ _ _ => callStep_queue
  obtain ⟨hidle, hrun⟩ := run_refines hstep (idle_init q) h
  rw [pending_init] at hrun
  obtain ⟨heq, -⟩ := queue_run hrun (Nat.zero_le 63)
  refine ⟨⟨pending r, heq, isFull_pending hidle, isEmpty_pending hidle⟩, hidle.head, hidle.tail, ?_⟩
  intro s call saved hq hi hc
  subst hq
  exact ⟨_, ioqEnter_serves _ hidle hi hc⟩

/-- Two characters are put, and the first is got. -/
theorem ioqueue_refines_queue_sample : ∃ r p, Run CallStep (ioqueueInit (ioqInit bootState).ioq)
      [.put 0x61#8, .put 0x62#8, .get 0x61#8] r ∧
    [0x61#8, 0x62#8] = [0x61#8] ++ p ∧ (ioqueueIsFull r = true ↔ p.length = 63) := by
  have h₀ := idle_init (ioqInit bootState).ioq
  have h₁ := (putchar_step h₀ rfl 0x61#8).1
  have h₂ := (putchar_step h₁ rfl 0x62#8).1
  have hrun := ((Run.start.snoc (putchar_serves h₀ rfl 0x61#8)).snoc
    (putchar_serves h₁ rfl 0x62#8)).snoc (getchar_serves h₂ rfl)
  obtain ⟨⟨p, hp, hfull, -⟩, -⟩ := ioqueue_refines_queue hrun
  exact ⟨_, p, hrun, hp, hfull⟩

end DeviceIoqueueRing
