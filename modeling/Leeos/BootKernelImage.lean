import Leeos.BootMemorySize
import Leeos.BootPages

/-!
# Loading the kernel (`boot/loader.asm`, `init_kernel`)

The file `kernel.bin` lies at 0x70000. With paging on, the loader walks its program headers and
copies what they name to the virtual addresses they name. Registers are numbers below 2 ^ 32. All
accesses go through the page tables in memory, and those without a page stop the machine, as
there are no handlers yet. The parameters `back` and `copied` are the addresses behind the calls
of `init_kernel` and of `mem_cpy`; a `ret` to anywhere else stops the model.
-/
namespace BootKernelImage

open KernelBitmap FsDisk BootPages LibStdint
open BootMemorySize (loadHalf memorySize)

def kernelBinAddBase : ℕ := 0x70000
def gdtStart : ℕ := 0x903
def gdtConfig : ℕ := 0xb04
def stackTop : ℕ := 0x900
def pNull : BitVec 8 := 0#8

def load8 (m : Bytes) (a : ℕ) : Option (BitVec 8) := (phys m a).map m

def store8 (m : Bytes) (a : ℕ) (x : BitVec 8) : Option Bytes :=
  (phys m a).map fun p => Function.update m p x

def load16 (m : Bytes) (a : ℕ) : Option ℕ := do
  let b₀ ← load8 m a
  let b₁ ← load8 m (u32 (a + 1))
  return b₀.toNat + 256 * b₁.toNat

def load32 (m : Bytes) (a : ℕ) : Option ℕ := do
  let low ← load16 m a
  let high ← load16 m (u32 (a + 2))
  return low + 256 ^ 2 * high

def store32 (m : Bytes) (a x : ℕ) : Option Bytes := do
  let m ← store8 m a (BitVec.ofNat 8 x)
  let m ← store8 m (u32 (a + 1)) (BitVec.ofNat 8 (x / 256))
  let m ← store8 m (u32 (a + 2)) (BitVec.ofNat 8 (x / 256 ^ 2))
  store8 m (u32 (a + 3)) (BitVec.ofNat 8 (x / 256 ^ 3))

def repMovsb : ℕ → ℕ → ℕ → Bytes → Option Bytes
  | 0, _, _, m => some m
  | ecx + 1, esi, edi, m => do
    let x ← load8 m esi
    let m ← store8 m edi x
    repMovsb ecx (u32 (esi + 1)) (u32 (edi + 1)) m

/-- `mem_cpy`, entered with `esp` at the return address. The registers `ecx` and `ebp` come back
from the stack. -/
def memCpy (copied ecx ebp esp : ℕ) (m : Bytes) : Option (ℕ × ℕ × Bytes) := do
  let m ← store32 m (esp - 4) ebp
  let m ← store32 m (esp - 8) ecx
  let edi ← load32 m (esp + 8)
  let esi ← load32 m (esp + 4)
  let size ← load32 m (esp + 12)
  let m ← repMovsb size esi edi m
  let ecx ← load32 m (esp - 8)
  let ebp ← load32 m (esp - 4)
  let ret ← load32 m esp
  if ret = copied then return (ecx, ebp, m) else none

/-- A round of `find_useful_program` up to `Deal_P_NULL`. Only the low byte of the type is
looked at. -/
def dealProgram (copied ebx ecx ebp esp : ℕ) (m : Bytes) : Option (ℕ × ℕ × Bytes) := do
  let type ← load8 m ebx
  if type = pNull then return (ecx, ebp, m)
  let size ← load32 m (u32 (ebx + 16))
  let m ← store32 m (esp - 4) size
  let dst ← load32 m (u32 (ebx + 8))
  let m ← store32 m (esp - 8) dst
  let offset ← load32 m (u32 (ebx + 4))
  let m ← store32 m (esp - 12) (u32 (offset + kernelBinAddBase))
  let m ← store32 m (esp - 16) copied
  memCpy copied ecx ebp (esp - 16) m

/-- `loop` takes one from `ecx` before it looks whether that is 0. -/
def findUsefulProgram (copied edx esp : ℕ) : ℕ → ℕ → ℕ → ℕ → Bytes → Option (ℕ × Bytes)
  | 0, _, _, _, _ => none
  | fuel + 1, ebx, ecx, ebp, m => do
    let (ecx, ebp, m) ← dealProgram copied ebx ecx ebp esp m
    let ecx := u32 (ecx + 0xffffffff)
    if ecx = 0 then return (ebp, m)
    findUsefulProgram copied edx esp fuel (u32 (ebx + edx)) ecx ebp m

/-- Entered with `esp` at the return address. -/
def initKernel (back copied fuel ebp esp : ℕ) (m : Bytes) : Option (ℕ × Bytes) := do
  let ebx ← load32 m (kernelBinAddBase + 28)
  let cx ← load16 m (kernelBinAddBase + 44)
  let dx ← load16 m (kernelBinAddBase + 42)
  let (ebp, m) ← findUsefulProgram copied dx esp fuel (u32 (ebx + kernelBinAddBase)) cx ebp m
  let ret ← load32 m esp
  if ret = back then return (ebp, m) else none

/-- Behind `set_page`, before paging is on: `sgdt` stores what `lgdt` took from there, the video
segment and the table itself move up by 3 GB. -/
def raiseGdt (m : Bytes) : Bytes :=
  let ebx := loadWord m (gdtConfig + 2)
  let m := storeWord m (ebx + 0x18 + 4) (loadWord m (ebx + 0x18 + 4) ||| 0xc0000000)
  storeWord m (gdtConfig + 2) (u32 (loadWord m (gdtConfig + 2) + 0xc0000000))

/-- From the call of `set_page` to the jump into the kernel. The parameter `paged` is the address
behind that call. -/
def startKernel (paged back copied fuel ebp : ℕ) (m : Bytes) : Option Bytes := do
  let m := raiseGdt (setPage (storeWord m (stackTop - 4) paged))
  let esp := stackTop + 0xc0000000
  let m ← store32 m (esp - 4) back
  let (_, m) ← initKernel back copied fuel ebp (esp - 4) m
  return m

/-! ## The image -/

/-- What the loader reads of a program header. -/
structure Program where
  type : BitVec 8
  offset : ℕ
  vaddr : ℕ
  filesz : ℕ
  deriving DecidableEq, Repr

/-- The physical address that the program goes to. -/
def Program.dst (p : Program) : ℕ := p.vaddr % 0xc0000000

def programAt (img : Bytes) (a : ℕ) : Program where
  type := img a
  offset := loadWord img (a + 4)
  vaddr := loadWord img (a + 8)
  filesz := loadWord img (a + 16)

def programCount (img : Bytes) : ℕ := loadHalf img (kernelBinAddBase + 44)

def headerAt (img : Bytes) (i : ℕ) : ℕ :=
  kernelBinAddBase + loadWord img (kernelBinAddBase + 28) +
    i * loadHalf img (kernelBinAddBase + 42)

def program (img : Bytes) (i : ℕ) : Program := programAt img (headerAt img i)

def programs (img : Bytes) : List Program := (List.range (programCount img)).map (program img)

def copyProgram (img m : Bytes) (p : Program) : Bytes :=
  if p.type = pNull then m else copyBytes img (kernelBinAddBase + p.offset) m p.dst p.filesz

def imageEnd : ℕ := kernelBinAddBase + 200 * 512

def loaderEnd : ℕ := 0x900 + 4 * 512

/-- The bytes lie in the image, and go to RAM of the first megabyte that neither the image nor
the loader is in. -/
structure Program.Fits (p : Program) : Prop where
  inside : kernelBinAddBase + p.offset + p.filesz ≤ imageEnd
  low : Low p.vaddr
  behind : loaderEnd ≤ p.dst
  apart : p.dst + p.filesz ≤ kernelBinAddBase ∨
    (imageEnd ≤ p.dst ∧ p.dst + p.filesz ≤ 0xa0000)

/-- The image names programs that fit, where it has them loaded. -/
structure Loadable (img : Bytes) : Prop where
  some : 0 < programCount img
  headers : ∀ i < programCount img, headerAt img i + 20 ≤ imageEnd
  fits : ∀ p ∈ programs img, p.type ≠ pNull → p.filesz ≠ 0 → p.Fits

/-! ## Accesses through the tables -/

/-- A stretch of addresses in one of the two low windows. -/
def LowRange (a n : ℕ) : Prop := a + n ≤ 2 ^ 32 ∧ a % 0xc0000000 + n ≤ 0x100000

section

variable {img m s : Bytes} {a n x i : ℕ} {p : Program}

theorem load8_low (h : Mapped m) (ha : Low a) : load8 m a = some (m (a % 0xc0000000)) := by
  rw [load8, h.phys ha]
  rfl

theorem store8_low (h : Mapped m) (ha : Low a) (x : BitVec 8) :
    store8 m a x = some (Function.update m (a % 0xc0000000) x) := by
  rw [store8, h.phys ha]
  rfl

theorem LowRange.low (h : LowRange a n) (hi : i < n) : Low (a + i) := by
  rw [LowRange] at h
  exact ⟨by omega, by omega⟩

theorem LowRange.addr (h : LowRange a n) (hi : i ≤ n) :
    (a + i) % 0xc0000000 = a % 0xc0000000 + i := by
  rw [LowRange] at h
  omega

theorem LowRange.u32 (h : LowRange a n) (hi : i ≤ n) : u32 (a + i) = a + i := by
  rw [LowRange] at h
  exact u32_of_lt (by omega)

theorem LowRange.part {j : ℕ} (h : LowRange a n) (hi : i + j ≤ n) : LowRange (a + i) j := by
  rw [LowRange] at *
  omega

theorem load16_low (h : Mapped m) (ha : LowRange a 2) :
    load16 m a = some (loadHalf m (a % 0xc0000000)) := by
  have h₀ := load8_low h (ha.low (i := 0) (by omega))
  have h₁ := load8_low h (ha.low (i := 1) (by omega))
  rw [ha.addr (by omega)] at h₁
  rw [load16, ha.u32 (by omega), h₁]
  simp only [Nat.add_zero] at h₀
  rw [h₀]
  rfl

theorem load32_low (h : Mapped m) (ha : LowRange a 4) :
    load32 m a = some (loadWord m (a % 0xc0000000)) := by
  have h₀ := load16_low h (ha.part (i := 0) (j := 2) (by omega))
  have h₁ := load16_low h (ha.part (i := 2) (j := 2) (by omega))
  rw [ha.addr (by omega)] at h₁
  rw [load32, ha.u32 (by omega), h₁]
  simp only [Nat.add_zero] at h₀
  rw [h₀]
  simp only [Option.bind_eq_bind, Option.bind_some, Option.pure_def, loadHalf, loadWord]
  congr 1
  rw [show a % 0xc0000000 + 2 + 1 = a % 0xc0000000 + 3 from rfl]
  omega

theorem storeBytes_eq (m : Bytes) (a x : ℕ) :
    Function.update (Function.update (Function.update (Function.update m a (BitVec.ofNat 8 x))
      (a + 1) (BitVec.ofNat 8 (x / 256))) (a + 2) (BitVec.ofNat 8 (x / 256 ^ 2)))
      (a + 3) (BitVec.ofNat 8 (x / 256 ^ 3)) = FsDisk.storeWord m a x := by
  funext b
  rw [FsDisk.storeWord]
  by_cases hb : a ≤ b ∧ b < a + 4
  · obtain ⟨j, rfl⟩ : ∃ j, b = a + j := ⟨b - a, by omega⟩
    have hj : j = 0 ∨ j = 1 ∨ j = 2 ∨ j = 3 := by omega
    rw [if_pos hb, Nat.add_sub_cancel_left]
    rcases hj with rfl | rfl | rfl | rfl <;> simp
  · rw [if_neg hb]
    simp only [Function.update_apply]
    rw [if_neg (by omega), if_neg (by omega), if_neg (by omega), if_neg (by omega)]

theorem store32_low (h : Mapped m) (ha : LowRange a 4) (x : ℕ) :
    store32 m a x = some (storeWord m (a % 0xc0000000) x) := by
  have hend := ha.2
  have h₁ := h.setByte (a := a % 0xc0000000) (by omega) (BitVec.ofNat 8 x)
  have h₂ := h₁.setByte (a := a % 0xc0000000 + 1) (by omega) (BitVec.ofNat 8 (x / 256))
  have h₃ := h₂.setByte (a := a % 0xc0000000 + 2) (by omega) (BitVec.ofNat 8 (x / 256 ^ 2))
  have hstore := store8_low h (ha.low (i := 0) (by omega)) (BitVec.ofNat 8 x)
  rw [Nat.add_zero] at hstore
  rw [store32, ha.u32 (by omega), ha.u32 (by omega), ha.u32 (by omega), hstore]
  simp only [Option.bind_eq_bind, Option.bind_some]
  rw [store8_low h₁ (ha.low (by omega)), ha.addr (by omega), Option.bind_some,
    store8_low h₂ (ha.low (by omega)), ha.addr (by omega), Option.bind_some,
    store8_low h₃ (ha.low (by omega)), ha.addr (by omega)]
  congr 1
  exact storeBytes_eq m _ x

/-! ## The copy -/

/-- A stretch is copied byte by byte from one that the copies do not reach. -/
theorem repMovsb_low {esi edi : ℕ} (h : Mapped m) (hs : LowRange esi n) (hd : LowRange edi n)
    (hapart : esi % 0xc0000000 + n ≤ edi % 0xc0000000 ∨
      edi % 0xc0000000 + n ≤ esi % 0xc0000000) :
    repMovsb n esi edi m =
      some (copyBytes m (esi % 0xc0000000) m (edi % 0xc0000000) n) := by
  induction n generalizing esi edi m with
  | zero => exact congrArg some (funext fun a => (copyBytes_outside (by omega)).symm)
  | succ n ih =>
    have hend := hd.2
    have hload := load8_low h (hs.low (i := 0) (by omega))
    have hstore := store8_low h (hd.low (i := 0) (by omega)) (m (esi % 0xc0000000))
    simp only [Nat.add_zero] at hload hstore
    have hs₁ := hs.part (i := 1) (j := n) (by omega)
    have hd₁ := hd.part (i := 1) (j := n) (by omega)
    have hsa := hs.addr (i := 1) (by omega)
    have hda := hd.addr (i := 1) (by omega)
    have hrest := ih (h.setByte (a := edi % 0xc0000000) (by omega) (m (esi % 0xc0000000))) hs₁ hd₁
      (by omega)
    rw [repMovsb, hload, hs.u32 (by omega), hd.u32 (by omega)]
    simp only [Option.bind_eq_bind, Option.bind_some, hstore]
    rw [hrest, hsa, hda]
    congr 1
    funext a
    simp only [copyBytes, Function.update_apply]
    grind

/-- The pointers that `mem_cpy` finds on the stack, with what they point at off the words that
it uses there itself. -/
structure CopyArgs (m : Bytes) (copied esp src dst size : ℕ) : Prop where
  ret : loadWord m (esp % 0xc0000000) = copied
  first : loadWord m (esp % 0xc0000000 + 4) = src
  second : loadWord m (esp % 0xc0000000 + 8) = dst
  third : loadWord m (esp % 0xc0000000 + 12) = size
  ranges : size ≠ 0 → LowRange src size ∧ LowRange dst size ∧
    (src % 0xc0000000 + size ≤ dst % 0xc0000000 ∨ dst % 0xc0000000 + size ≤ src % 0xc0000000) ∧
    esp % 0xc0000000 ≤ src % 0xc0000000 ∧ esp % 0xc0000000 + 4 ≤ dst % 0xc0000000

theorem memCpy_low {copied ecx ebp esp src dst size : ℕ} (h : Mapped m)
    (hesp : LowRange (esp - 8) 24) (h8 : 8 ≤ esp % 0xc0000000) (hecx : ecx < 2 ^ 32)
    (hebp : ebp < 2 ^ 32) (ha : CopyArgs m copied esp src dst size) :
    ∃ m', memCpy copied ecx ebp esp m = some (ecx, ebp, m') ∧
      ∀ a, a < esp % 0xc0000000 - 8 ∨ esp % 0xc0000000 ≤ a →
        m' a = copyBytes m (src % 0xc0000000) m (dst % 0xc0000000) size a := by
  rw [LowRange] at hesp
  obtain ⟨hret, hfirst, hsecond, hthird, hranges⟩ := ha
  obtain ⟨p, hp⟩ : ∃ p, p = esp % 0xc0000000 := ⟨_, rfl⟩
  rw [← hp] at hret hfirst hsecond hthird h8 hranges ⊢
  have hpush : ∀ k, 4 ≤ k → k ≤ 8 → ∀ m x, Mapped m →
      store32 m (esp - k) x = some (storeWord m (p - k) x) := by
    intro k h4 hk m x hm
    rw [store32_low hm ⟨by omega, by omega⟩, show (esp - k) % 0xc0000000 = p - k by omega]
  have hpop : ∀ k, k ≤ 8 → ∀ m, Mapped m →
      load32 m (esp - k) = some (loadWord m (p - k)) := by
    intro k hk m hm
    rw [load32_low hm ⟨by omega, by omega⟩, show (esp - k) % 0xc0000000 = p - k by omega]
  have harg : ∀ k, k ≤ 12 → ∀ m, Mapped m →
      load32 m (esp + k) = some (loadWord m (p + k)) := by
    intro k hk m hm
    rw [load32_low hm ⟨by omega, by omega⟩, show (esp + k) % 0xc0000000 = p + k by omega]
  obtain ⟨m₁, hm₁⟩ : ∃ m₁, m₁ = storeWord (storeWord m (p - 4) ebp) (p - 8) ecx := ⟨_, rfl⟩
  have h₀ : Mapped (storeWord m (p - 4) ebp) := h.setWord (by omega) ebp
  have h₁ : Mapped m₁ := hm₁ ▸ h₀.setWord (by omega) ecx
  have hout : ∀ a, a < p - 8 ∨ p ≤ a → m₁ a = m a := by
    intro a hout
    rw [hm₁, storeWord_outside (by omega), storeWord_outside (by omega)]
  have hword : ∀ b, p ≤ b → loadWord m₁ b = loadWord m b :=
    fun b hb => loadWord_congr fun j _ => hout _ (by omega)
  obtain ⟨m₂, hm₂⟩ :
      ∃ m₂, m₂ = copyBytes m₁ (src % 0xc0000000) m₁ (dst % 0xc0000000) size := ⟨_, rfl⟩
  have hcopy : repMovsb size src dst m₁ = some m₂ := by
    by_cases hsize : size = 0
    · rw [hm₂, hsize]
      exact congrArg some (funext fun a => (copyBytes_outside (by omega)).symm)
    · obtain ⟨hs, hd, hapart, -, -⟩ := hranges hsize
      rw [hm₂, repMovsb_low h₁ hs hd hapart]
  -- what lies below the copied bytes is as it was: the stack is among it
  have hbelow : ∀ b, b < p + 4 → m₂ b = m₁ b := by
    intro b hb
    by_cases hsize : size = 0
    · rw [hm₂, hsize, copyBytes_outside (by omega)]
    · have hdst := (hranges hsize).2.2.2.2
      rw [hm₂, copyBytes_outside (by omega)]
  have h₂ : Mapped m₂ := by
    refine h₁.congr fun b hb _ => ?_
    by_cases hsize : size = 0
    · rw [hm₂, hsize, copyBytes_outside (by omega)]
    · have hdst := (hranges hsize).2.1.2
      rw [hm₂, copyBytes_outside (by omega)]
  have hstack : ∀ b, b ≤ p → loadWord m₂ b = loadWord m₁ b :=
    fun b hb => loadWord_congr fun j _ => hbelow _ (by omega)
  refine ⟨m₂, ?_, fun a hzone => ?_⟩
  · rw [memCpy, hpush 4 (by omega) (by omega) m ebp h]
    simp only [Option.bind_eq_bind, Option.bind_some]
    rw [hpush 8 (by omega) (by omega) _ ecx h₀, Option.bind_some, ← hm₁,
      harg 8 (by omega) _ h₁, Option.bind_some, harg 4 (by omega) _ h₁, Option.bind_some,
      harg 12 (by omega) _ h₁, Option.bind_some, hword _ (by omega), hword _ (by omega),
      hword _ (by omega), hsecond, hfirst, hthird, hcopy, Option.bind_some,
      hpop 8 (by omega) _ h₂, Option.bind_some, hpop 4 (by omega) _ h₂, Option.bind_some]
    have hback := hpop 0 (by omega) _ h₂
    simp only [Nat.sub_zero] at hback
    rw [hback, Option.bind_some, hstack _ (by omega), hstack _ (by omega), hstack _ (by omega),
      hword _ (by omega), hret, if_pos rfl, hm₁, loadWord_storeWord hecx,
      loadWord_storeWord_of_apart (by omega), loadWord_storeWord hebp]
    rfl
  · rw [hm₂, copyBytes, copyBytes, hout a (by omega)]
    split
    case isTrue hin =>
      have hsize : size ≠ 0 := by omega
      have hsrc := (hranges hsize).2.2.2.1
      exact hout _ (by omega)
    case isFalse => rfl

/-! ## One program -/

/-- The stack pointer lies below the end of the loader, with room under it. -/
structure StackAt (esp : ℕ) : Prop where
  bound : esp < 2 ^ 32
  room : 24 ≤ esp % 0xc0000000
  top : esp % 0xc0000000 + 4 ≤ loaderEnd

def OffStack (esp a : ℕ) : Prop := a < esp % 0xc0000000 - 24 ∨ esp % 0xc0000000 ≤ a

/-- The programs so far are copied: memory is `s`, but for the stack. -/
structure Progress (img s : Bytes) (esp : ℕ) (m : Bytes) : Prop where
  mapped : Mapped m
  image : ∀ a, kernelBinAddBase ≤ a → a < imageEnd → m a = img a
  agree : ∀ a, OffStack esp a → m a = s a

variable {copied ebx ecx ebp esp : ℕ}

theorem copyProgram_outside (h : p.type ≠ pNull → a < p.dst ∨ p.dst + p.filesz ≤ a) :
    copyProgram img m p a = m a := by
  rw [copyProgram]
  split
  case isTrue => rfl
  case isFalse hp => exact copyBytes_outside (h hp)

theorem dealProgram_low (h : Progress img s esp m) (hesp : StackAt esp)
    (hebx : kernelBinAddBase ≤ ebx) (hend : ebx + 20 ≤ imageEnd)
    (hfits : (programAt img ebx).type ≠ pNull → (programAt img ebx).filesz ≠ 0 →
      (programAt img ebx).Fits)
    (hecx : ecx < 2 ^ 32) (hebp : ebp < 2 ^ 32) (hcopied : copied < 2 ^ 32) :
    ∃ m', dealProgram copied ebx ecx ebp esp m = some (ecx, ebp, m') ∧
      ∀ a, OffStack esp a → m' a = copyProgram img m (programAt img ebx) a := by
  obtain ⟨hbound, hroom, htop⟩ := hesp
  obtain ⟨q, hq⟩ : ∃ q, q = programAt img ebx := ⟨_, rfl⟩
  obtain ⟨b, hb⟩ : ∃ b, b = esp % 0xc0000000 := ⟨_, rfl⟩
  rw [← hq] at hfits ⊢
  have hbase : kernelBinAddBase = 0x70000 := rfl
  have himage : imageEnd = 0x89000 := rfl
  have hloader : loaderEnd = 0x1100 := rfl
  have hmod : ∀ k ≤ 16, (ebx + k) % 0xc0000000 = ebx + k := fun k hk => by omega
  have htype : load8 m ebx = some q.type := by
    rw [load8_low h.mapped ⟨by omega, by omega⟩, show ebx % 0xc0000000 = ebx by omega,
      h.image _ (by omega) (by omega), hq]
    rfl
  -- the stores on the stack leave the header as it is
  have hfield : ∀ m', Mapped m' → (∀ a, b ≤ a → m' a = m a) → ∀ k ≤ 16,
      load32 m' (u32 (ebx + k)) = some (loadWord img (ebx + k)) := by
    intro m' hm' heq k hk
    rw [u32_of_lt (by omega), load32_low hm' ⟨by omega, by omega⟩, hmod k hk]
    congr 1
    refine loadWord_congr fun j hj => ?_
    rw [heq _ (by omega), h.image _ (by omega) (by omega)]
  have hpush : ∀ k, 4 ≤ k → k ≤ 16 → ∀ m' x, Mapped m' →
      store32 m' (esp - k) x = some (storeWord m' (b - k) x) := by
    intro k h4 hk m' x hm'
    rw [store32_low hm' ⟨by omega, by omega⟩, show (esp - k) % 0xc0000000 = b - k by omega]
  rw [dealProgram, htype]
  simp only [Option.bind_eq_bind, Option.bind_some]
  by_cases hnull : q.type = pNull
  · rw [if_pos hnull]
    exact ⟨m, rfl, fun a _ => by rw [copyProgram, if_pos hnull]⟩
  · obtain ⟨m₁, hm₁⟩ : ∃ m₁, m₁ = storeWord m (b - 4) q.filesz := ⟨_, rfl⟩
    obtain ⟨m₂, hm₂⟩ : ∃ m₂, m₂ = storeWord m₁ (b - 8) q.vaddr := ⟨_, rfl⟩
    obtain ⟨m₃, hm₃⟩ : ∃ m₃, m₃ = storeWord m₂ (b - 12) (u32 (q.offset + kernelBinAddBase)) :=
      ⟨_, rfl⟩
    obtain ⟨m₄, hm₄⟩ : ∃ m₄, m₄ = storeWord m₃ (b - 16) copied := ⟨_, rfl⟩
    have h₁ : Mapped m₁ := hm₁ ▸ h.mapped.setWord (by omega) _
    have h₂ : Mapped m₂ := hm₂ ▸ h₁.setWord (by omega) _
    have h₃ : Mapped m₃ := hm₃ ▸ h₂.setWord (by omega) _
    have h₄ : Mapped m₄ := hm₄ ▸ h₃.setWord (by omega) _
    have hout₂ : ∀ a, b ≤ a → m₂ a = m a := by
      intro a ha
      rw [hm₂, hm₁, storeWord_outside (by omega), storeWord_outside (by omega)]
    have hout₄ : ∀ a, OffStack esp a → m₄ a = m a := by
      intro a ha
      rw [OffStack] at ha
      rw [hm₄, hm₃, hm₂, hm₁, storeWord_outside (by omega), storeWord_outside (by omega),
        storeWord_outside (by omega), storeWord_outside (by omega)]
    have hsize : q.filesz < 2 ^ 32 := hq ▸ loadWord_lt ..
    have hvaddr : q.vaddr < 2 ^ 32 := hq ▸ loadWord_lt ..
    have hargs : CopyArgs m₄ copied (esp - 16) (u32 (q.offset + kernelBinAddBase)) q.vaddr
        q.filesz := by
      have htop : (esp - 16) % 0xc0000000 = b - 16 := by omega
      refine ⟨?_, ?_, ?_, ?_, fun hne => ?_⟩
      · rw [htop, hm₄, loadWord_storeWord hcopied]
      · rw [htop, hm₄, loadWord_storeWord_of_apart (by omega), hm₃,
          show b - 16 + 4 = b - 12 by omega, loadWord_storeWord (u32_lt _)]
      · rw [htop, hm₄, loadWord_storeWord_of_apart (by omega), hm₃,
          loadWord_storeWord_of_apart (by omega), hm₂, show b - 16 + 8 = b - 8 by omega,
          loadWord_storeWord hvaddr]
      · rw [htop, hm₄, loadWord_storeWord_of_apart (by omega), hm₃,
          loadWord_storeWord_of_apart (by omega), hm₂, loadWord_storeWord_of_apart (by omega),
          hm₁, show b - 16 + 12 = b - 4 by omega, loadWord_storeWord hsize]
      · obtain ⟨hinside, hlow, hbehind, hapart⟩ := hfits hnull hne
        rw [Program.dst] at hbehind hapart
        rw [u32_of_lt (by omega)]
        refine ⟨⟨by omega, by omega⟩, ⟨by omega, by omega⟩, by omega, by omega, by omega⟩
    obtain ⟨m', hrun, hm'⟩ := memCpy_low h₄ ⟨by omega, by omega⟩
      (by omega) hecx hebp hargs
    refine ⟨m', ?_, fun a ha => ?_⟩
    · have hprogram : loadWord img (ebx + 16) = q.filesz ∧ loadWord img (ebx + 8) = q.vaddr ∧
          loadWord img (ebx + 4) = q.offset := by
        rw [hq]
        exact ⟨rfl, rfl, rfl⟩
      have hout₁ : ∀ a, b ≤ a → m₁ a = m a := by
        intro a ha
        rw [hm₁, storeWord_outside (by omega)]
      rw [if_neg hnull, hfield m h.mapped (fun _ _ => rfl) 16 (by omega), Option.bind_some,
        hprogram.1, hpush 4 (by omega) (by omega) _ _ h.mapped, Option.bind_some, ← hm₁,
        hfield m₁ h₁ hout₁ 8 (by omega), Option.bind_some, hprogram.2.1,
        hpush 8 (by omega) (by omega) _ _ h₁, Option.bind_some, ← hm₂,
        hfield m₂ h₂ hout₂ 4 (by omega), Option.bind_some, hprogram.2.2,
        hpush 12 (by omega) (by omega) _ _ h₂, Option.bind_some, ← hm₃,
        hpush 16 (by omega) (by omega) _ _ h₃, Option.bind_some, ← hm₄]
      exact hrun
    · have hstack := ha
      rw [OffStack] at hstack
      rw [hm' a (by omega), copyProgram, if_neg hnull, copyBytes, copyBytes, hout₄ a ha,
        Program.dst]
      split
      case isTrue hin =>
        have hne : q.filesz ≠ 0 := by omega
        obtain ⟨hinside, -, -, -⟩ := hfits hnull hne
        have hsrc : u32 (q.offset + kernelBinAddBase) = kernelBinAddBase + q.offset := by
          rw [u32_of_lt (by omega), Nat.add_comm]
        have hat : u32 (q.offset + kernelBinAddBase) % 0xc0000000 =
            kernelBinAddBase + q.offset := by omega
        rw [hat, hout₄ _ (Or.inr (by omega)), h.image _ (by omega) (by omega)]
      case isFalse => rfl

/-! ## The loop -/

theorem program_mem (h : i < programCount img) : program img i ∈ programs img :=
  List.mem_map.mpr ⟨i, List.mem_range.mpr h, rfl⟩

theorem copyProgram_fits (hfits : p.type ≠ pNull → p.filesz ≠ 0 → p.Fits)
    (ha : a < loaderEnd ∨ (kernelBinAddBase ≤ a ∧ a < imageEnd) ∨ 0xa0000 ≤ a) :
    copyProgram img m p a = m a := by
  refine copyProgram_outside fun hnull => ?_
  by_cases hsize : p.filesz = 0
  · omega
  · obtain ⟨-, -, hbehind, hapart⟩ := hfits hnull hsize
    have hbase : kernelBinAddBase = 0x70000 := rfl
    have himage : imageEnd = 0x89000 := rfl
    omega

theorem foldl_outside {ps : List Program} (h : ∀ p ∈ ps, ∀ t, copyProgram img t p a = t a) :
    ps.foldl (copyProgram img) s a = s a := by
  induction ps generalizing s with
  | nil => rfl
  | cons p ps ih =>
    rw [List.foldl_cons, ih fun q hq => h q (List.mem_cons_of_mem p hq)]
    exact h p List.mem_cons_self s

theorem Progress.round (h : Progress img s esp m) (hl : Loadable img) (hesp : StackAt esp)
    (hi : i < programCount img) (hecx : ecx < 2 ^ 32) (hebp : ebp < 2 ^ 32)
    (hcopied : copied < 2 ^ 32) :
    ∃ m', dealProgram copied (headerAt img i) ecx ebp esp m = some (ecx, ebp, m') ∧
      Progress img (copyProgram img s (program img i)) esp m' := by
  have hfits := hl.fits _ (program_mem hi)
  have hheader : kernelBinAddBase ≤ headerAt img i := by
    rw [headerAt, Nat.add_assoc]
    exact Nat.le_add_right ..
  obtain ⟨m', hrun, hm'⟩ := dealProgram_low h hesp hheader (hl.headers i hi) hfits hecx hebp hcopied
  have htop := hesp.top
  have hbase : kernelBinAddBase = 0x70000 := rfl
  have hloader : loaderEnd = 0x1100 := rfl
  refine ⟨m', hrun, h.mapped.congr fun a ha _ => ?_, fun a ha hb => ?_, fun a ha => ?_⟩
  · rw [hm' a (Or.inr (by omega))]
    exact copyProgram_fits hfits (Or.inr (Or.inr (by omega)))
  · rw [hm' a (Or.inr (by omega)), ← h.image a ha hb]
    exact copyProgram_fits hfits (Or.inr (Or.inl ⟨ha, hb⟩))
  · rw [hm' a ha, program, copyProgram, copyProgram]
    split
    case isTrue => exact h.agree a ha
    case isFalse => rw [copyBytes, copyBytes, h.agree a ha]

theorem findUsefulProgram_next {edx ecx' ebp' fuel : ℕ} {m' : Bytes}
    (hrun : dealProgram copied ebx ecx ebp esp m = some (ecx', ebp', m')) :
    findUsefulProgram copied edx esp (fuel + 1) ebx ecx ebp m =
      if u32 (ecx' + 0xffffffff) = 0 then some (ebp', m')
      else findUsefulProgram copied edx esp fuel (u32 (ebx + edx))
        (u32 (ecx' + 0xffffffff)) ebp' m' := by
  rw [findUsefulProgram, hrun]
  exact Option.bind_some _ _

/-- Each round deals with one header. The last takes `ecx` to 0. -/
theorem findUsefulProgram_low {k fuel : ℕ} (hl : Loadable img) (hesp : StackAt esp)
    (hebp : ebp < 2 ^ 32) (hcopied : copied < 2 ^ 32) (h : Progress img s esp m)
    (hk : i + (k + 1) = programCount img) (hfuel : k < fuel) :
    ∃ m', findUsefulProgram copied (loadHalf img (kernelBinAddBase + 42)) esp fuel
        (headerAt img i) (k + 1) ebp m = some (ebp, m') ∧
      Progress img (((List.range' i (k + 1)).map (program img)).foldl (copyProgram img) s)
        esp m' := by
  have hcount : programCount img < 2 ^ 32 := by
    have h₀ := (img (kernelBinAddBase + 44)).isLt
    have h₁ := (img (kernelBinAddBase + 44 + 1)).isLt
    rw [programCount, loadHalf]
    omega
  induction k generalizing i m s fuel with
  | zero =>
    obtain ⟨fuel, rfl⟩ : ∃ f, fuel = f + 1 := ⟨fuel - 1, by omega⟩
    obtain ⟨m', hrun, h'⟩ := h.round (i := i) hl hesp (by omega)
      (show 0 + 1 < 2 ^ 32 by omega) hebp hcopied
    have hloop : u32 (0 + 1 + 0xffffffff) = 0 := by
      rw [u32]
      omega
    refine ⟨m', ?_, h'⟩
    rw [findUsefulProgram_next hrun, if_pos hloop]
  | succ k ih =>
    obtain ⟨fuel, rfl⟩ : ∃ f, fuel = f + 1 := ⟨fuel - 1, by omega⟩
    obtain ⟨m₁, hrun, h₁⟩ := h.round (i := i) hl hesp (by omega)
      (show k + 1 + 1 < 2 ^ 32 by omega) hebp hcopied
    obtain ⟨m', hrest, h'⟩ := ih (i := i + 1) h₁ (by omega) (show k < fuel by omega)
    have hnext : u32 (headerAt img i + loadHalf img (kernelBinAddBase + 42)) =
        headerAt img (i + 1) := by
      have hstep : headerAt img i + loadHalf img (kernelBinAddBase + 42) =
          headerAt img (i + 1) := by
        rw [headerAt, headerAt, Nat.succ_mul, Nat.add_assoc]
      have hend := hl.headers (i + 1) (by omega)
      have himage : imageEnd = 0x89000 := rfl
      rw [hstep, u32_of_lt (by omega)]
    have hloop : u32 (k + 1 + 1 + 0xffffffff) = k + 1 := by
      rw [u32]
      omega
    refine ⟨m', ?_, h'⟩
    rw [findUsefulProgram_next hrun, hloop, if_neg (by omega), hnext, hrest]

theorem initKernel_low {back fuel : ℕ} (hl : Loadable img) (hesp : StackAt esp)
    (hebp : ebp < 2 ^ 32) (hcopied : copied < 2 ^ 32) (h : Progress img s esp m)
    (hback : loadWord m (esp % 0xc0000000) = back) (hfuel : programCount img ≤ fuel) :
    ∃ m', initKernel back copied fuel ebp esp m = some (ebp, m') ∧
      Progress img ((programs img).foldl (copyProgram img) s) esp m' := by
  have hsome := hl.some
  have hbase : kernelBinAddBase = 0x70000 := rfl
  have himage : imageEnd = 0x89000 := rfl
  have hloader : loaderEnd = 0x1100 := rfl
  have htop := hesp.top
  have hbound := hesp.bound
  have hword : ∀ k ≤ 40,
      loadWord m (kernelBinAddBase + k) = loadWord img (kernelBinAddBase + k) :=
    fun k hk => loadWord_congr fun j hj => h.image _ (by omega) (by omega)
  have hhalf : ∀ k ≤ 44,
      loadHalf m (kernelBinAddBase + k) = loadHalf img (kernelBinAddBase + k) := by
    intro k hk
    rw [loadHalf, loadHalf, h.image _ (by omega) (by omega), h.image _ (by omega) (by omega)]
  have hfirst := hl.headers 0 hsome
  have hheader : u32 (loadWord img (kernelBinAddBase + 28) + kernelBinAddBase) =
      headerAt img 0 := by
    have hzero : headerAt img 0 = kernelBinAddBase + loadWord img (kernelBinAddBase + 28) := by
      rw [headerAt, Nat.zero_mul, Nat.add_zero]
    rw [hzero] at hfirst ⊢
    rw [u32_of_lt (by omega), Nat.add_comm]
  obtain ⟨m', hrun, h'⟩ := findUsefulProgram_low (i := 0) (k := programCount img - 1) hl hesp hebp
    hcopied h (by omega) (show programCount img - 1 < fuel by omega)
  rw [Nat.sub_add_cancel hsome, ← List.range_eq_range'] at h'
  rw [Nat.sub_add_cancel hsome] at hrun
  have hret : loadWord m' (esp % 0xc0000000) = back := by
    rw [← hback]
    refine loadWord_congr fun j hj => ?_
    have hoff : OffStack esp (esp % 0xc0000000 + j) := Or.inr (by omega)
    rw [h'.agree _ hoff, h.agree _ hoff]
    exact foldl_outside fun q hq t => copyProgram_fits (hl.fits q hq) (Or.inl (by omega))
  refine ⟨m', ?_, h'⟩
  rw [initKernel, load32_low h.mapped ⟨by omega, by omega⟩,
    load16_low h.mapped ⟨by omega, by omega⟩, load16_low h.mapped ⟨by omega, by omega⟩]
  simp only [Option.bind_eq_bind, Option.bind_some]
  rw [show (kernelBinAddBase + 28) % 0xc0000000 = kernelBinAddBase + 28 by omega,
    show (kernelBinAddBase + 44) % 0xc0000000 = kernelBinAddBase + 44 by omega,
    show (kernelBinAddBase + 42) % 0xc0000000 = kernelBinAddBase + 42 by omega,
    hword 28 (by omega), hhalf 44 (by omega), hhalf 42 (by omega), hheader,
    ← programCount, hrun, Option.bind_some]
  simp only
  rw [load32_low h'.mapped ⟨by omega, by omega⟩, Option.bind_some, hret, if_pos rfl]
  rfl

/-! ## The whole start -/

/-- No two programs go to the same byte. -/
def Apart (p q : Program) : Prop :=
  p.type ≠ pNull → q.type ≠ pNull → p.dst + p.filesz ≤ q.dst ∨ q.dst + q.filesz ≤ p.dst

/-- A byte of a program is there in the end, as none behind it goes to the same place. -/
theorem foldl_inside {ps : List Program} (hps : ps.Pairwise Apart) (hp : p ∈ ps)
    (hnull : p.type ≠ pNull) (hi : i < p.filesz) :
    ps.foldl (copyProgram img) s (p.dst + i) = img (kernelBinAddBase + p.offset + i) := by
  induction ps generalizing s with
  | nil => cases hp
  | cons q ps ih =>
    rw [List.pairwise_cons] at hps
    rw [List.foldl_cons]
    rcases List.mem_cons.mp hp with rfl | hin
    · rw [foldl_outside fun q hq t => copyProgram_outside fun hq' => ?_, copyProgram, if_neg hnull,
        copyBytes_at hi]
      have hapart := hps.1 q hq hnull hq'
      omega
    · exact ih hps.2 hin

/-- What the loader itself stores outside the tables: two words of its own. -/
theorem raiseGdt_eq (hgdt : loadWord m (gdtConfig + 2) = gdtStart) :
    raiseGdt m = FsDisk.storeWord (FsDisk.storeWord m 0x91f (loadWord m 0x91f ||| 0xc0000000))
      0xb06 0xc0000903 := by
  have hconfig : gdtConfig + 2 = 0xb06 := rfl
  have hgdt' : loadWord m 0xb06 = 0x903 := hgdt
  rw [raiseGdt, hconfig, hgdt', loadWord_storeWord_of_apart (by omega), hgdt']
  rfl

/-- The image that the loader has read is loaded: each program lies at its virtual address, and
nothing else has changed but the tables, the loader's descriptor table and the words under its
stack. -/
theorem kernel_loaded {back copied ebp fuel : ℕ} (paged : ℕ) (hl : Loadable m)
    (hps : (programs m).Pairwise Apart) (hgdt : loadWord m (gdtConfig + 2) = gdtStart)
    (hback : back < 2 ^ 32) (hcopied : copied < 2 ^ 32) (hebp : ebp < 2 ^ 32)
    (hfuel : programCount m ≤ fuel) :
    ∃ m', startKernel paged back copied fuel ebp m = some m' ∧
      (∀ p ∈ programs m, p.type ≠ pNull → ∀ i < p.filesz,
        load8 m' (p.vaddr + i) = some (m (kernelBinAddBase + p.offset + i))) ∧
      (∀ a, (a < stackTop - 28 ∨ stackTop ≤ a) →
        (∀ p ∈ programs m, p.type ≠ pNull → a < p.dst ∨ p.dst + p.filesz ≤ a) →
        m' a = raiseGdt (setPage m) a) ∧
      loadWord m' memorySize = loadWord m memorySize := by
  have hbase : kernelBinAddBase = 0x70000 := rfl
  have himage : imageEnd = 0x89000 := rfl
  have hloader : loaderEnd = 0x1100 := rfl
  have hstack : stackTop = 0x900 := rfl
  obtain ⟨m₀, hm₀⟩ : ∃ m₀, m₀ = FsDisk.storeWord m (stackTop - 4) paged := ⟨_, rfl⟩
  have h₀ : ∀ a, a < stackTop - 4 ∨ stackTop ≤ a → m₀ a = m a := by
    intro a ha
    rw [hm₀, storeWord_outside (by omega)]
  have hpage : ∀ a, a < stackTop - 4 ∨ stackTop ≤ a → setPage m₀ a = setPage m a :=
    fun a ha => setPage_congr (h₀ a ha)
  have hgdt' : ∀ m', (∀ a, stackTop ≤ a → m' a = setPage m a) →
      loadWord m' (gdtConfig + 2) = gdtStart := by
    intro m' heq
    rw [← hgdt]
    refine loadWord_congr fun j hj => ?_
    have hconfig : gdtConfig + 2 = 0xb06 := rfl
    rw [heq _ (by omega), setPage_outside (by omega)]
  obtain ⟨m₁, hm₁⟩ : ∃ m₁, m₁ = raiseGdt (setPage m₀) := ⟨_, rfl⟩
  have hvideo : loadWord (setPage m₀) 0x91f = loadWord (setPage m) 0x91f :=
    loadWord_congr fun j _ => hpage _ (by omega)
  have hraise₀ := raiseGdt_eq (hgdt' _ fun a ha => hpage a (Or.inr ha))
  have hraise := raiseGdt_eq (hgdt' _ fun _ _ => rfl)
  have h₁ : ∀ a, a < stackTop - 4 ∨ stackTop ≤ a → m₁ a = raiseGdt (setPage m) a := by
    intro a ha
    rw [hm₁, hraise₀, hraise, hvideo]
    simp only [FsDisk.storeWord, hpage a ha]
  have hsame : ∀ a, stackTop ≤ a → a < 0x91f ∨ (0x923 ≤ a ∧ a < 0xb06) ∨
      (0xb0a ≤ a ∧ a < 0x100000) → m₁ a = m a := by
    intro a ha hout
    rw [hm₁, hraise₀, storeWord_outside (by omega), storeWord_outside (by omega),
      setPage_outside (by omega), h₀ a (Or.inr ha)]
  have hmapped : Mapped m₁ := by
    rw [hm₁, hraise₀]
    exact ((mapped_setPage m₀).setWord (by omega) _).setWord (by omega) _
  obtain ⟨m₂, hm₂⟩ : ∃ m₂, m₂ = FsDisk.storeWord m₁ (stackTop - 4) back := ⟨_, rfl⟩
  have h₂ : ∀ a, a < stackTop - 4 ∨ stackTop ≤ a → m₂ a = m₁ a := by
    intro a ha
    rw [hm₂, storeWord_outside (by omega)]
  obtain ⟨esp, hesp⟩ : ∃ esp, esp = stackTop + 0xc0000000 - 4 := ⟨_, rfl⟩
  have hphys : esp % 0xc0000000 = stackTop - 4 := by omega
  have hprogress : Progress m m₂ esp m₂ := by
    refine ⟨hm₂ ▸ hmapped.setWord (by omega) back, fun a ha hb => ?_, fun _ _ => rfl⟩
    rw [h₂ a (by omega), hsame a (by omega) (by omega)]
  obtain ⟨m', hrun, hmapped', himage', hagree⟩ := initKernel_low hl
    ⟨by omega, by omega, by omega⟩ hebp hcopied hprogress
    (by rw [hphys, hm₂, loadWord_storeWord hback]) hfuel
  have hkept : ∀ a, a < stackTop - 28 ∨ stackTop ≤ a →
      (∀ p ∈ programs m, p.type ≠ pNull → a < p.dst ∨ p.dst + p.filesz ≤ a) → m' a = m₁ a := by
    intro a ha hfree
    rw [hagree a (by rw [OffStack]; omega), ← h₂ a (by omega)]
    exact foldl_outside fun p hp t => copyProgram_outside (hfree p hp)
  refine ⟨m', ?_, fun p hp hnull i hi => ?_, fun a ha hfree => ?_, ?_⟩
  · rw [startKernel, ← hm₀, ← hm₁, ← hesp,
      store32_low hmapped ⟨by omega, by omega⟩, hphys, ← hm₂]
    simp only [Option.bind_eq_bind, Option.bind_some, hrun]
    rfl
  · obtain ⟨-, hlow, hbehind, hapart⟩ := hl.fits p hp hnull (by omega)
    obtain ⟨hbound, -⟩ := hlow
    rw [Program.dst] at hbehind hapart
    have haddr : (p.vaddr + i) % 0xc0000000 = p.dst + i := by
      rw [Program.dst]
      omega
    have hoff : OffStack esp (p.dst + i) := by
      rw [OffStack, Program.dst]
      omega
    rw [load8_low hmapped' ⟨by omega, by omega⟩, haddr, hagree _ hoff,
      foldl_inside hps hp hnull hi]
  · rw [hkept a ha hfree, h₁ a (by omega)]
  · have hmemory : memorySize = 0xb00 := rfl
    refine loadWord_congr fun j hj => ?_
    rw [hkept _ (by omega) fun p hp hnull => ?_, hsame _ (by omega) (by omega)]
    by_cases hsize : p.filesz = 0
    · omega
    · have hbehind := (hl.fits p hp hnull hsize).behind
      omega

end

/-- An image with one program of 256 bytes and one with nothing to load. -/
def sampleMemory : Bytes :=
  let m := storeWord (fun _ => 0#8) (gdtConfig + 2) gdtStart
  let m := storeWord m (kernelBinAddBase + 28) 52
  let m := storeWord m (kernelBinAddBase + 42) (32 + 2 * 2 ^ 16)
  let m := storeWord m (kernelBinAddBase + 52) 1
  let m := storeWord m (kernelBinAddBase + 56) 0x1000
  let m := storeWord m (kernelBinAddBase + 60) 0xc0001500
  let m := storeWord m (kernelBinAddBase + 68) 0x100
  storeWord m (kernelBinAddBase + 84) 0x6474e551

theorem kernel_loaded_sample : ∃ m', startKernel 1 2 3 2 0 sampleMemory = some m' ∧
    load8 m' 0xc00015ff = some (sampleMemory 0x710ff) := by
  have hprograms : programs sampleMemory =
      [⟨1#8, 0x1000, 0xc0001500, 0x100⟩, ⟨0x51#8, 0, 0, 0⟩] := by decide +kernel
  have hl : Loadable sampleMemory := by
    refine ⟨by decide +kernel, by decide +kernel, fun p hp hnull hsize => ?_⟩
    rw [hprograms] at hp
    rcases List.mem_pair.mp hp with rfl | rfl
    · exact ⟨by decide +kernel, by decide +kernel, by decide +kernel, by decide +kernel⟩
    · exact absurd rfl hsize
  obtain ⟨m', hrun, hload, -, -⟩ := kernel_loaded 1 hl (by
    rw [hprograms]
    exact List.pairwise_pair.mpr fun _ _ => Or.inr (by decide)) (by decide +kernel)
    (show 2 < 2 ^ 32 by decide) (show 3 < 2 ^ 32 by decide) (show 0 < 2 ^ 32 by decide)
    (show programCount sampleMemory ≤ 2 by decide +kernel)
  exact ⟨m', hrun, hload ⟨1#8, 0x1000, 0xc0001500, 0x100⟩ (by simp [hprograms]) (by decide)
    0xff (by decide)⟩

end BootKernelImage
