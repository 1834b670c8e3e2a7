import Leeos.KernelBitmap
import Leeos.LibStdint

/-!
# Sectors and buffers

Memory and disk are both addressed by bytes; sector `lba` is the 512 bytes from `512 * lba` on.
`ide_read` and `ide_write` copy whole sectors between the two, and words are little-endian.
-/
namespace FsDisk

open KernelBitmap

def inodeSize : ℕ := 76

def dirSize : ℕ := 520

def maxLba : ℕ := 80 * 1024 * 1024 / 512 - 1

/-- `memcpy`, also between two memories. -/
def copyBytes (src : Bytes) (a : ℕ) (dst : Bytes) (b len : ℕ) : Bytes := fun i =>
  if b ≤ i ∧ i < b + len then src (a + (i - b)) else dst i

def memset (m : Bytes) (dst : ℕ) (value : BitVec 8) (num : ℕ) : Bytes := fun i =>
  if dst ≤ i ∧ i < dst + num then value else m i

def ideRead (disk : Bytes) (lba : ℕ) (mem : Bytes) (buf secCnt : ℕ) : Bytes :=
  copyBytes disk (512 * lba) mem buf (512 * secCnt)

def ideWrite (disk : Bytes) (lba : ℕ) (mem : Bytes) (buf secCnt : ℕ) : Bytes :=
  copyBytes mem buf disk (512 * lba) (512 * secCnt)

def loadWord (m : Bytes) (a : ℕ) : ℕ :=
  (m a).toNat + 256 * (m (a + 1)).toNat + 256 ^ 2 * (m (a + 2)).toNat +
    256 ^ 3 * (m (a + 3)).toNat

def storeWord (m : Bytes) (a x : ℕ) : Bytes := fun i =>
  if a ≤ i ∧ i < a + 4 then BitVec.ofNat 8 (x / 256 ^ (i - a)) else m i

variable {src dst m : Bytes} {a b len i x : ℕ}

theorem copyBytes_inside (h : b ≤ i) (h' : i < b + len) :
    copyBytes src a dst b len i = src (a + (i - b)) := if_pos ⟨h, h'⟩

theorem copyBytes_outside (h : i < b ∨ b + len ≤ i) :
    copyBytes src a dst b len i = dst i := if_neg (by omega)

theorem copyBytes_at (h : i < len) : copyBytes src a dst b len (b + i) = src (a + i) := by
  rw [copyBytes_inside (Nat.le_add_right b i) (by omega), Nat.add_sub_cancel_left]

theorem memset_inside {v : BitVec 8} (h : a ≤ i) (h' : i < a + len) :
    memset m a v len i = v := if_pos ⟨h, h'⟩

theorem memset_outside {v : BitVec 8} (h : i < a ∨ a + len ≤ i) :
    memset m a v len i = m i := if_neg (by omega)

theorem storeWord_outside (h : i < a ∨ a + 4 ≤ i) : storeWord m a x i = m i :=
  if_neg (by omega)

theorem loadWord_congr (h : ∀ j < 4, m (a + j) = src (b + j)) :
    loadWord m a = loadWord src b := by
  have h₀ := h 0 (by omega)
  rw [Nat.add_zero, Nat.add_zero] at h₀
  simp only [loadWord, h₀, h 1 (by omega), h 2 (by omega), h 3 (by omega)]

theorem loadWord_lt (m : Bytes) (a : ℕ) : loadWord m a < 2 ^ 32 := by
  have h₀ := (m a).isLt
  have h₁ := (m (a + 1)).isLt
  have h₂ := (m (a + 2)).isLt
  have h₃ := (m (a + 3)).isLt
  unfold loadWord
  omega

theorem loadWord_storeWord (hx : x < 2 ^ 32) : loadWord (storeWord m a x) a = x := by
  have hin : ∀ j < 4, storeWord m a x (a + j) = BitVec.ofNat 8 (x / 256 ^ j) := by
    intro j hj
    rw [storeWord, if_pos (by omega), Nat.add_sub_cancel_left]
  have h₀ := hin 0 (by omega)
  rw [Nat.add_zero] at h₀
  simp only [loadWord, h₀, hin 1 (by omega), hin 2 (by omega), hin 3 (by omega),
    BitVec.toNat_ofNat]
  omega

theorem loadWord_storeWord_of_apart (h : b + 4 ≤ a ∨ a + 4 ≤ b) :
    loadWord (storeWord m a x) b = loadWord m b := by
  apply loadWord_congr
  intro j hj
  exact storeWord_outside (by omega)

end FsDisk
