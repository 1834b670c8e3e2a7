import Leeos.KernelHeapCalls
import Mathlib.Tactic.IntervalCases

/-!
# Runs of the heap

A run is a sequence of `sys_malloc` and `sys_free` calls of one address space, with the list of
blocks that are live. Two slips limit what holds of all runs: a whole-page block is sized
without its header, and a page table that no kernel frame could be found for lands in frame 0.
-/
namespace KernelHeapRuns

open ExecRules KernelBitmap KernelPools KernelPoolInvariant KernelPoolMapping KernelPoolCalls
  KernelPoolRanges KernelHeap KernelHeapAccounts KernelHeapSteps KernelHeapCalls LibStdint

abbrev HeapRun := HeapState × List Live

inductive HeapCall where
  | sysMalloc (size : ℕ)
  | sysFree (b : Live)

inductive HeapStep : HeapCall → HeapRun → HeapRun → Prop
  | sysMalloc {s s' : HeapState} {L : List Live} {n p : ℕ} :
      n < 2 ^ 32 → KernelHeap.sysMalloc n s = .ok (p, s') → p ≠ 0 →
      HeapStep (.sysMalloc n) (s, L) (s', ⟨p, n⟩ :: L)
  | mallocFails {s s' : HeapState} {L : List Live} {n : ℕ} :
      n < 2 ^ 32 → KernelHeap.sysMalloc n s = .ok (0, s') → HeapStep (.sysMalloc n) (s, L) (s', L)
  | sysFree {s s' : HeapState} {L : List Live} {b : Live} :
      b ∈ L → KernelHeap.sysFree b.ptr s = .ok ((), s') →
      HeapStep (.sysFree b) (s, L) (s', L.erase b)

/-- Freshly initialised descriptors on a consistent address space. -/
def HeapStart (x : HeapRun) : Prop :=
  x.2 = [] ∧ ∃ m arenas descs, x.1 = freshHeap m arenas descs ∧ Start (m, [])

/-- The page tables a call needs are served by kernel frames, and its address does not wrap. -/
def TablesServed (s : HeapState) : HeapCall → Prop
  | .sysMalloc n => CallFits s n
  | .sysFree _ => True

/-- The pages of a large arena hold header and payload. -/
def WithHeader (size count : ℕ) : Prop := arenaSize + size ≤ 4096 * count

/-! ## The invariant along runs -/

theorem blockDesInit_apply (descs : ℕ → MemBlockDesc) {d : ℕ} (hd : d < 7) :
    blockDesInit descs d = ⟨blockSizeOf d, blocksOf d, []⟩ := by
  interval_cases d <;> rfl

theorem start_inv {fit : ℕ → ℕ → Prop} {x : HeapRun} (h : HeapStart x) : HeapInv fit x.1 x.2 := by
  obtain ⟨hL, m, arenas, descs, hx, -, hinv, hzero⟩ := h
  rw [hL, hx]
  have hlist : ∀ d < 7, listsOf (freshHeap m arenas descs) d = [] := by
    intro d hd
    simp only [listsOf, freshHeap, blockDesInit_apply descs hd]
  refine ⟨⟨⟨hinv, hzero, by simp [freshHeap], by simp [freshHeap]⟩, fun d hd => ?_,
    by simp [freshHeap], ?_⟩, by simp [freshHeap]⟩
  · simp only [freshHeap, blockDesInit_apply descs hd, and_self]
  · constructor
    case list_nodup => exact fun d hd => hlist d hd ▸ List.nodup_nil
    case list_blocks =>
      intro d hd e he
      rw [hlist d hd] at he
      cases he
    all_goals simp [freshHeap]

theorem divRoundUp_eq {n : ℕ} (hn : n < 2 ^ 32) (h : 0 < divRoundUp n 4096) :
    divRoundUp n 4096 = (n + 4095) / 4096 := by
  simp only [divRoundUp, u32] at *
  omega

theorem step_inv {fit : ℕ → ℕ → Prop} {c : HeapCall} {x y : HeapRun} (h : HeapInv fit x.1 x.2)
    (hm : TablesServed x.1 c)
    (hfit : ∀ n, c = .sysMalloc n → n > 1024 → fit n ((n + 4095) / 4096))
    (hs : HeapStep c x y) : HeapInv fit y.1 y.2 := by
  have hsize : ∀ n, n < 2 ^ 32 → c = .sysMalloc n → n > 1024 → 0 < divRoundUp n 4096 →
      fit n (divRoundUp n 4096) := by
    intro n hn hc hbig hpos
    rw [divRoundUp_eq hn hpos]
    exact hfit n hc hbig
  cases hs with
  | sysMalloc hn hrun hp => exact (sysMalloc_keeps h hm (hsize _ hn rfl) hrun).2 hp
  | mallocFails hn hrun => exact (sysMalloc_keeps h hm (hsize _ hn rfl) hrun).1 rfl
  | sysFree hb hrun => exact sysFree_keeps h hb hrun

/-! ## Where blocks lie -/

/-- The descriptors over a machine with eight user and seven kernel frames. -/
def sampleHeap : HeapState := freshHeap (sampleMachine 16) (fun _ => ⟨none, 0, false⟩)
  fun _ => ⟨0, 0, []⟩

theorem start_sampleHeap : HeapStart (sampleHeap, []) :=
  ⟨rfl, _, _, _, rfl, start_sampleMachine 16⟩

def ServedStep (x y : HeapRun) : Prop := ∃ c, TablesServed x.1 c ∧ HeapStep c x y

theorem served_inv {x : HeapRun} (h : Reachable HeapStart ServedStep x) :
    HeapInv (fun _ _ => True) x.1 x.2 := by
  have hstep : ∀ y z, HeapInv (fun _ _ => True) y.1 y.2 → ServedStep y z →
      HeapInv (fun _ _ => True) z.1 z.2 := by
    rintro y z hy ⟨c, hm, hs⟩
    exact step_inv hy hm (fun _ _ _ => trivial) hs
  exact reachable_invariant (fun y => HeapInv (fun _ _ => True) y.1 y.2) h
    (fun _ => start_inv) hstep

def TablesCovered (s : HeapState) : HeapCall → Prop
  | .sysMalloc n => CallTables s n
  | .sysFree _ => True

def CoveredStep (x y : HeapRun) : Prop := ∃ c, TablesCovered x.1 c ∧ HeapStep c x y

theorem step_topFree {c : HeapCall} {x y : HeapRun} (h : HeapInv (fun _ _ => True) x.1 x.2)
    (ht : TopFree x.1.mem) (hm : TablesServed x.1 c) (hs : HeapStep c x y) : TopFree y.1.mem := by
  cases hs with
  | sysMalloc _ hrun => exact sysMalloc_topFree h ht hm _ _ _ rfl hrun
  | mallocFails _ hrun => exact sysMalloc_topFree h ht hm _ _ _ rfl hrun
  | sysFree _ hrun => exact sysFree_topFree _ _ _ _ ht hrun

/-- No address wraps in the runs of a process whose virtual bitmap was empty at first. -/
theorem covered_served {x : HeapRun}
    (h : Reachable (fun y => HeapStart y ∧ TopFree y.1.mem) CoveredStep x) :
    Reachable HeapStart ServedStep x ∧ TopFree x.1.mem := by
  refine reachable_invariant (fun y => Reachable HeapStart ServedStep y ∧ TopFree y.1.mem) h
    (fun y hy => ⟨.refl hy.1, hy.2⟩) ?_
  rintro y z ⟨hreach, ht⟩ ⟨c, hm, hs⟩
  have hserved : TablesServed y.1 c := by
    cases c with
    | sysMalloc n => exact callFits_of_topFree ht hm
    | sysFree b => trivial
  exact ⟨hreach.tail ⟨c, hserved, hs⟩, step_topFree (served_inv hreach) ht hserved hs⟩

/-! ## Lists and counters -/

end KernelHeapRuns
