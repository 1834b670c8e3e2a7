import Leeos.KernelHeapRuns
import Leeos.KernelDirectoryRuns

/-!
# What belongs to others while a user process allocates

A frame is foreign to the running process when it is in use and is neither the directory of the
process, nor one of its page tables, nor below one of its pages: so are all frames of the kernel
heap and of the other processes. The first seven descriptors are those of the process; the
kernel's and those of the other processes have the numbers behind.
-/
namespace UserprogIsolation

open ExecRules KernelBitmap KernelPaging KernelPools KernelPoolSteps KernelPoolInvariant
  KernelPoolMapping KernelPoolCalls KernelPoolRelease KernelPoolRanges KernelHeap
  KernelHeapAccounts KernelHeapSteps KernelHeapCalls LibStdint
open KernelDirectoryRuns (freeLoop_cons pageTablePteRemove_cases addrVirtualToPhy_state)

variable {s s' t : MemState} {f n : ℕ}

structure Foreign (s : MemState) (f : ℕ) : Prop where
  in_use : Reserved s f ∨ Held s .user f
  not_dir : f ≠ s.pageDir
  no_table : ∀ d < 768, s.tableOf d ≠ some f
  unmapped : ∀ p, PoolFlag.user.Managed p → s.frameOf p ≠ some f

/-- A bit of neither pool bitmap nor of the process's own bitmap, to which the bit behind its end
belongs. -/
structure ForeignBit (s : MemState) (x : ℕ) : Prop where
  pools : ∀ PF, ∀ i < s.poolLen PF, x ≠ poolPos s PF i
  vaddrs : 0 < s.vaddrLen .user → ∀ j ≤ s.vaddrLen .user, x ≠ vaddrPos s .user j

/-- The frame has become one of the page tables of the process. -/
def NewTable (s s' : MemState) (f : ℕ) : Prop :=
  ∃ d < 768, s.tableOf d = none ∧ s'.tableOf d = some f

structure MemIsolated (s s' : MemState) : Prop where
  layout : s'.layout = s.layout
  curr : s'.curr = s.curr
  pageDir : s'.pageDir = s.pageDir
  tables : ∀ d t, s.tableOf d = some t → s'.tableOf d = some t
  foreign : ∀ f, Foreign s f → Foreign s' f
  contents : ∀ f, Foreign s f → s'.frames f = s.frames f
  kernel_pool : ∀ i < s.poolLen .kernel, s'.poolBit .kernel i = s.poolBit .kernel i ∨
    (s.poolBit .kernel i = false ∧ s'.poolBit .kernel i = true ∧
      NewTable s s' (s.poolStart .kernel + i))
  bits : ∀ x, ForeignBit s x → memBit s'.bytes x = memBit s.bytes x

theorem MemIsolated.refl (s : MemState) : MemIsolated s s :=
  ⟨rfl, rfl, rfl, fun _ _ h => h, fun _ h => h, fun _ _ => rfl, fun _ _ => Or.inl rfl,
    fun _ _ => rfl⟩

theorem vaddrLen_congr (hl : s'.layout = s.layout) (hc : s'.curr = s.curr) (PF : PoolFlag) :
    s'.vaddrLen PF = s.vaddrLen PF := by
  simp only [MemState.vaddrLen, MemState.vaddrs, hl, hc]

theorem vaddrPos_congr (hl : s'.layout = s.layout) (hc : s'.curr = s.curr) (PF : PoolFlag) (j : ℕ) :
    vaddrPos s' PF j = vaddrPos s PF j := by
  simp only [vaddrPos, MemState.vaddrs, hl, hc]

theorem ForeignBit.congr {x : ℕ} (h : ForeignBit s x) (hl : s'.layout = s.layout)
    (hc : s'.curr = s.curr) : ForeignBit s' x where
  pools PF i hi := by
    rw [poolPos_of_layout hl]
    exact h.pools PF i (poolLen_of_layout hl PF ▸ hi)
  vaddrs h0 j hj := by
    rw [vaddrLen_congr hl hc] at h0 hj
    rw [vaddrPos_congr hl hc]
    exact h.vaddrs h0 j hj

theorem MemIsolated.trans (h : MemIsolated s s') (h' : MemIsolated s' t) : MemIsolated s t where
  layout := h'.layout.trans h.layout
  curr := h'.curr.trans h.curr
  pageDir := h'.pageDir.trans h.pageDir
  tables d t ht := h'.tables d t (h.tables d t ht)
  foreign f hf := h'.foreign f (h.foreign f hf)
  contents f hf := (h'.contents f (h.foreign f hf)).trans (h.contents f hf)
  kernel_pool i hi := by
    have hi' : i < s'.poolLen .kernel := by rwa [poolLen_of_layout h.layout]
    have hstart := poolStart_of_layout h.layout .kernel
    rcases h.kernel_pool i hi with hb | ⟨hb, hb', d, hd, hnone, htable⟩
    · rcases h'.kernel_pool i hi' with hc | ⟨hc, hc', d, hd, hnone, htable⟩
      · exact Or.inl (hc.trans hb)
      · refine Or.inr ⟨hb.symm.trans hc, hc', d, hd, ?_, hstart ▸ htable⟩
        cases ht : s.tableOf d with
        | none => rfl
        | some t =>
          rw [h.tables d t ht] at hnone
          cases hnone
    · rcases h'.kernel_pool i hi' with hc | ⟨hc, -, -⟩
      · exact Or.inr ⟨hb, hc.trans hb', d, hd, hnone, h'.tables d _ htable⟩
      · rw [hb'] at hc
        cases hc
  bits x hx := (h'.bits x (hx.congr h.layout h.curr)).trans (h.bits x hx)

theorem MemIsolated.kernel_vaddr (h : MemIsolated s s') {i : ℕ} (h0 : 0 < s.vaddrLen .kernel)
    (hi : i ≤ s.vaddrLen .kernel) : s'.vaddrBit .kernel i = s.vaddrBit .kernel i := by
  have hbit : ForeignBit s (vaddrPos s .kernel i) := by
    constructor
    · intro PF j hj
      exact (poolPos_ne_vaddrPos hj hi h0).symm
    · intro hu j hj
      exact vaddrPos_ne (by simp) hi hj h0 hu
  rw [vaddrBit_eq, vaddrBit_eq, vaddrPos_congr h.layout h.curr]
  exact h.bits _ hbit

/-! ## Mapping user pages -/

section Heap

variable {s s' u s₀ : HeapState} {m : MemState} {a d : ℕ} {fit : ℕ → ℕ → Prop} {L : List Live}

/-- What a call of the process leaves alone: the kernel's descriptors and those of the other
processes, the headers and tables in foreign frames, the kernel's virtual bitmap and all other
memory; frames of the kernel pool become its page tables. -/
structure Isolated (s s' : HeapState) : Prop where
  mem : MemIsolated s.mem s'.mem
  kernel_vaddr : ∀ i < s.mem.vaddrLen .kernel,
    s'.mem.vaddrBit .kernel i = s.mem.vaddrBit .kernel i
  descs : ∀ d, 7 ≤ d → s'.descs d = s.descs d
  arenas : ∀ f, Foreign s.mem f → s'.arenas f = s.arenas f

theorem Isolated.refl (s : HeapState) : Isolated s s :=
  ⟨.refl _, fun _ _ => rfl, fun _ _ => rfl, fun _ _ => rfl⟩

theorem Isolated.trans (h : Isolated s s') (h' : Isolated s' u) : Isolated s u where
  mem := h.mem.trans h'.mem
  kernel_vaddr _ hi := (h.mem.trans h'.mem).kernel_vaddr (by omega) hi.le
  descs d hd := (h'.descs d hd).trans (h.descs d hd)
  arenas f hf := (h'.arenas f (h.mem.foreign f hf)).trans (h.arenas f hf)

/-- An operation on headers and lists: it keeps the memory and what belongs to others. -/
def Local {α : Type} (s₀ : HeapState) (m : MemState) (x : HeapM α) : Prop :=
  Triple (fun s => s.mem = m ∧ Isolated s₀ s) x fun _ s => s.mem = m ∧ Isolated s₀ s

theorem Local.run {α : Type} {x : HeapM α} {r : α} (h : Local s s.mem x)
    (hrun : x s = .ok (r, s')) : s'.mem = s.mem ∧ Isolated s s' :=
  h s r s' ⟨rfl, .refl s⟩ hrun

end Heap

end UserprogIsolation
