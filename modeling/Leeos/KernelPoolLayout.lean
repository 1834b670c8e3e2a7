import Leeos.KernelPools

/-!
# The memory layout for all memory sizes (`mem_pool_init`)

The page counts of the two pools are 16-bit numbers, and the three bitmaps grow towards the
page of the main thread's PCB. Both limits are reached by machines that a 32-bit size can
describe; the bitmaps are the first to run into theirs.
-/
namespace KernelPoolLayout

open KernelPools LibStdint

def mainThreadPcb : ℕ := 0xc009e000

def Spans (p : Pool) (a : ℕ) : Prop := p.phyStartAddr ≤ a ∧ a < p.phyStartAddr + p.memSize

def InFrame (p : Pool) (i a : ℕ) : Prop :=
  p.phyStartAddr + 4096 * i ≤ a ∧ a < p.phyStartAddr + 4096 * (i + 1)

/-- Byte `a` belongs to the bitmap. -/
def Covers (btmp : KernelBitmap.Bitmap) (a : ℕ) : Prop :=
  btmp.bits ≤ a ∧ a < btmp.bits + btmp.bitmapLen

def pools (l : MemLayout) : List Pool := [l.kernelPool, l.userPool]

def bitmaps (l : MemLayout) : List KernelBitmap.Bitmap :=
  [l.kernelPool.poolBitmap, l.userPool.poolBitmap, l.kernelVaddr.vaddrBitmap]

structure PoolsSound (allMem : ℕ) (l : MemLayout) : Prop where
  apart : ∀ a, ¬ (Spans l.kernelPool a ∧ Spans l.userPool a)
  inside : ∀ p ∈ pools l, ∀ a, Spans p a → 0x200000 ≤ a ∧ a < allMem
  named : ∀ p ∈ pools l, ∀ i < 8 * p.poolBitmap.bitmapLen, ∀ a, InFrame p i a → Spans p a
  managed : (allMem - 0x200000) / 4096 <
    8 * l.kernelPool.poolBitmap.bitmapLen + 8 * l.userPool.poolBitmap.bitmapLen + 16
  bitmaps_apart : (bitmaps l).Pairwise fun b b' => ∀ a, ¬ (Covers b a ∧ Covers b' a)
  bitmaps_end : ∀ b ∈ bitmaps l, kernelBitmapStart ≤ b.bits ∧
    b.bits + b.bitmapLen ≤ mainThreadPcb

structure PageCounts (allMem : ℕ) (free kernel user : ℕ) : Prop where
  free_eq : free = (allMem - 0x200000) / 4096
  kernel_eq : kernel = free / 2 % 65536
  user_eq : user = (free - kernel) % 65536
  kernel_pool : (memPoolInit allMem).kernelPool =
    ⟨⟨kernel / 8, 0xc009a000⟩, 0x200000, kernel * 4096⟩
  user_pool : (memPoolInit allMem).userPool =
    ⟨⟨user / 8, 0xc009a000 + kernel / 8⟩, 0x200000 + kernel * 4096, user * 4096⟩
  kernel_vaddr : (memPoolInit allMem).kernelVaddr.vaddrBitmap =
    ⟨kernel / 8, 0xc009a000 + kernel / 8 + user / 8⟩

variable {allMem free kernel user : ℕ}

theorem pageCounts (hmin : 0x200000 ≤ allMem) (hmax : allMem < 2 ^ 32) :
    ∃ free kernel user, PageCounts allMem free kernel user := by
  have hfree : sub32 allMem (4096 * 256 + 0x00100000) / 4096 = (allMem - 0x200000) / 4096 := by
    rw [sub32, u32]
    omega
  refine ⟨_, _, _, rfl, rfl, rfl, ?_, ?_, ?_⟩ <;>
    simp only [memPoolInit, hfree, kernelBitmapStart]

theorem PageCounts.managed_iff (h : PageCounts allMem free kernel user) :
    free < 8 * (kernel / 8) + 8 * (user / 8) + 16 ↔ free < 131071 := by
  have hk := h.kernel_eq
  have hu := h.user_eq
  omega

/-- The bitmaps end below the PCB's page up to 87391 free frames. -/
theorem PageCounts.end_iff (h : PageCounts allMem free kernel user) (hfree : free < 131071) :
    0xc009a000 + kernel / 8 + user / 8 + kernel / 8 ≤ mainThreadPcb ↔ free < 87392 := by
  have hk := h.kernel_eq
  have hu := h.user_eq
  rw [mainThreadPcb]
  omega

theorem PageCounts.sound (h : PageCounts allMem free kernel user) (hfree : free < 87392)
    (hmin : 0x200000 ≤ allMem) : PoolsSound allMem (memPoolInit allMem) := by
  have hf := h.free_eq
  have hk := h.kernel_eq
  have hu := h.user_eq
  have hend := (h.end_iff (by omega)).mpr hfree
  have hmanaged := h.managed_iff.mpr (by omega)
  constructor
  case apart =>
    rw [h.kernel_pool, h.user_pool]
    simp only [Spans]
    omega
  case inside =>
    simp only [pools, h.kernel_pool, h.user_pool, List.mem_cons, List.not_mem_nil, or_false,
      forall_eq_or_imp, forall_eq, Spans]
    refine ⟨fun a ha => ?_, fun a ha => ?_⟩ <;> omega
  case named =>
    simp only [pools, h.kernel_pool, h.user_pool, List.mem_cons, List.not_mem_nil, or_false,
      forall_eq_or_imp, forall_eq, Spans, InFrame]
    refine ⟨fun i hi a ha => ?_, fun i hi a ha => ?_⟩ <;> omega
  case managed =>
    rw [h.kernel_pool, h.user_pool, ← hf]
    exact hmanaged
  case bitmaps_apart =>
    simp only [bitmaps, h.kernel_pool, h.user_pool, h.kernel_vaddr, List.pairwise_cons,
      List.mem_cons, List.not_mem_nil, or_false, forall_eq_or_imp, forall_eq, Covers,
      IsEmpty.forall_iff, implies_true, List.Pairwise.nil, and_true]
    refine ⟨⟨fun a ha => ?_, fun a ha => ?_⟩, fun a ha => ?_⟩ <;> omega
  case bitmaps_end =>
    simp only [bitmaps, h.kernel_pool, h.user_pool, h.kernel_vaddr, List.mem_cons,
      List.not_mem_nil, or_false, forall_eq_or_imp, forall_eq, kernelBitmapStart]
    omega

theorem bound_of_poolsSound (hmin : 0x200000 ≤ allMem) (hmax : allMem < 2 ^ 32)
    (hsound : PoolsSound allMem (memPoolInit allMem)) : allMem < 0x200000 + 4096 * 87392 := by
  obtain ⟨free, kernel, user, h⟩ := pageCounts hmin hmax
  have hf := h.free_eq
  have hm := hsound.managed
  rw [h.kernel_pool, h.user_pool, ← hf] at hm
  have hlt := h.managed_iff.mp hm
  have hlast := (hsound.bitmaps_end (memPoolInit allMem).kernelVaddr.vaddrBitmap
    (by simp [bitmaps])).2
  rw [h.kernel_vaddr] at hlast
  have := (h.end_iff hlt).mp hlast
  omega

theorem poolsSound_iff (hmin : 0x200000 + 16 * 4096 ≤ allMem) (hmax : allMem < 2 ^ 32) :
    PoolsSound allMem (memPoolInit allMem) ↔ allMem < 0x200000 + 4096 * 87392 := by
  refine ⟨bound_of_poolsSound (by omega) hmax, fun hlt => ?_⟩
  obtain ⟨free, kernel, user, h⟩ := pageCounts (by omega) hmax
  have hf := h.free_eq
  exact h.sound (by omega) (by omega)

theorem poolsSound_32_mib : PoolsSound 0x2000000 (memPoolInit 0x2000000) :=
  (poolsSound_iff (by norm_num) (by norm_num)).mpr (by norm_num)

/-- With 512 MiB the bitmaps reach over the main thread's PCB. -/
theorem pools_unsound_512_mib : ¬ PoolsSound 0x20000000 (memPoolInit 0x20000000) := by
  intro h
  have := bound_of_poolsSound (by norm_num) (by norm_num) h
  omega

end KernelPoolLayout
