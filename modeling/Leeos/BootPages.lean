import Leeos.FsDisk
import Leeos.KernelPoolRanges

/-!
# The first page tables (`boot/loader.asm`, `set_page`)

The loader writes its page directory and its first page table into physical memory byte by byte
and word by word. `frames` reads that memory as the words of frames that the kernel's paging is
about. No address passes 2 ^ 32, so addresses are plain numbers.
-/
namespace BootPages

open KernelBitmap FsDisk KernelPaging

def pageDirTable : ℕ := 0x100000

def pageBits : BitVec 32 := 1#32 ||| 2#32 ||| 4#32

def initDirTable : ℕ → ℕ → ℕ → Bytes → Bytes
  | 0, _, _, m => m
  | ecx + 1, ebx, esi, m => initDirTable ecx ebx (esi + 1) (Function.update m (ebx + esi) 0#8)

/-- Rounds of `mov [ebx + esi * 4], edx`, each with the next entry and the next frame. -/
def entryLoop : ℕ → ℕ → ℕ → BitVec 32 → Bytes → Bytes
  | 0, _, _, _, m => m
  | ecx + 1, ebx, esi, edx, m =>
    entryLoop ecx ebx (esi + 1) (edx + 0x1000#32) (storeWord m (ebx + esi * 4) edx.toNat)

/-- The entries for the addresses 0 and 3 GB, and the one that names the directory itself. -/
def setPde (m : Bytes) : Bytes :=
  let eax := (BitVec.ofNat 32 pageDirTable + 0x1000#32) ||| pageBits
  let m := storeWord m pageDirTable eax.toNat
  let m := storeWord m (pageDirTable + 768 * 4) eax.toNat
  storeWord m (pageDirTable + 4092) (eax - 0x1000#32).toNat

def setPteLoop (m : Bytes) : Bytes := entryLoop 256 (pageDirTable + 0x1000) 0 (0#32 ||| pageBits) m

def setOtherPde (m : Bytes) : Bytes :=
  entryLoop 254 pageDirTable 769 ((BitVec.ofNat 32 pageDirTable + 0x2000#32) ||| pageBits) m

def setPage (m : Bytes) : Bytes :=
  setOtherPde (setPteLoop (setPde (initDirTable 4096 pageDirTable 0 m)))

/-- The frames of physical memory, as words. -/
def frames (m : Bytes) : Frames := fun f i => BitVec.ofNat 32 (loadWord m (4096 * f + 4 * i))

/-- The physical address behind a virtual one under the loader's directory. -/
def phys (m : Bytes) (a : ℕ) : Option ℕ :=
  (frameOf (frames m) 0x100 (a / 4096)).map fun f => 4096 * f + a % 4096

/-- The addresses of the first megabyte, as they are or 3 GB up. -/
def Low (a : ℕ) : Prop := a < 2 ^ 32 ∧ a % 0xc0000000 < 0x100000

instance (a : ℕ) : Decidable (Low a) := inferInstanceAs (Decidable (_ ∧ _))

/-- What the tables must hold for the low addresses. -/
structure Mapped (m : Bytes) : Prop where
  first : frames m 0x100 0 = pgEntry 0x101000
  kernel : frames m 0x100 768 = pgEntry 0x101000
  entry : ∀ i < 256, frames m 0x101 i = pgEntry (i * 0x1000)

section

variable {m m' : Bytes} {n a b i f : ℕ} {x : BitVec 32}

/-! ## The loops -/

theorem initDirTable_eq (n b i : ℕ) (m : Bytes) :
    initDirTable n b i m = memset m (b + i) 0#8 n := by
  induction n generalizing i m with
  | zero => exact funext fun a => (memset_outside (by omega)).symm
  | succ n ih =>
    rw [initDirTable, ih]
    funext a
    simp only [memset, Function.update_apply]
    grind

theorem entryLoop_outside (h : a < b + 4 * i ∨ b + 4 * (i + n) ≤ a) :
    entryLoop n b i x m a = m a := by
  induction n generalizing i x m with
  | zero => rfl
  | succ n ih => rw [entryLoop, ih (by omega), storeWord_outside (by omega)]

/-- The entries are words of one alignment, so a round changes one of them and no other. -/
theorem loadWord_entryLoop (ha : a % 4 = 0) (hb : b % 4 = 0) :
    loadWord (entryLoop n b i x m) a =
      if b + 4 * i ≤ a ∧ a < b + 4 * (i + n) then
        (x + BitVec.ofNat 32 (0x1000 * ((a - b) / 4 - i))).toNat
      else loadWord m a := by
  induction n generalizing i x m with
  | zero => rw [if_neg (by omega)]; rfl
  | succ n ih =>
    rw [entryLoop, ih]
    by_cases hhere : a = b + i * 4
    · have hk : (a - b) / 4 - i = 0 := by omega
      rw [if_neg (by omega), if_pos (by omega), hk, hhere, loadWord_storeWord x.isLt]
      simp
    · rw [loadWord_storeWord_of_apart (by omega)]
      by_cases hin : b + 4 * (i + 1) ≤ a ∧ a < b + 4 * (i + 1 + n)
      · have hk : (a - b) / 4 - i = (a - b) / 4 - (i + 1) + 1 := by omega
        rw [if_pos hin, if_pos (by omega), hk, Nat.mul_add, Nat.add_comm (0x1000 * _),
          BitVec.ofNat_add, BitVec.add_assoc]
      · rw [if_neg hin, if_neg (by omega)]

theorem frame_step (h : f + n < 2 ^ 20) :
    pgEntry (4096 * f) + BitVec.ofNat 32 (0x1000 * n) = pgEntry (4096 * (f + n)) := by
  apply BitVec.eq_of_toNat_eq
  rw [BitVec.toNat_add, pgEntry_toNat (by omega), pgEntry_toNat h, BitVec.toNat_ofNat]
  omega

theorem loadWord_setPde (ha : a % 4 = 0) :
    loadWord (setPde m) a =
      if a = 0x100000 ∨ a = 0x100c00 then (pgEntry 0x101000).toNat
      else if a = 0x100ffc then (pgEntry 0x100000).toNat else loadWord m a := by
  have h₁ : 0x100000#32 + 0x1000#32 ||| pageBits = pgEntry 0x101000 := by decide
  have h₂ : pgEntry 0x101000 - 0x1000#32 = pgEntry 0x100000 := by decide
  simp only [setPde, pageDirTable, h₁, h₂]
  by_cases hlast : a = 0x100ffc
  · rw [if_neg (by omega), if_pos hlast, hlast, loadWord_storeWord (pgEntry 0x100000).isLt]
  · rw [loadWord_storeWord_of_apart (by omega)]
    by_cases hkernel : a = 0x100c00
    · rw [if_pos (Or.inr hkernel), hkernel, loadWord_storeWord (pgEntry 0x101000).isLt]
    · rw [loadWord_storeWord_of_apart (by omega)]
      by_cases hfirst : a = 0x100000
      · rw [if_pos (Or.inl hfirst), hfirst, loadWord_storeWord (pgEntry 0x101000).isLt]
      · rw [loadWord_storeWord_of_apart (by omega), if_neg (by tauto), if_neg hlast]

theorem loadWord_memset_zero (ha : a % 4 = 0) (hb : b % 4 = 0) :
    loadWord (memset m b 0#8 (4 * n)) a =
      if b ≤ a ∧ a < b + 4 * n then 0 else loadWord m a := by
  split
  case isTrue hin =>
    have hz : ∀ j < 4, memset m b 0#8 (4 * n) (a + j) = 0#8 :=
      fun j hj => memset_inside (by omega) (by omega)
    have hword : loadWord (memset m b 0#8 (4 * n)) a = loadWord (fun _ => 0#8) 0 :=
      loadWord_congr hz
    exact hword
  case isFalse hout => exact loadWord_congr fun j hj => memset_outside (by omega)

/-! ## The tables -/

theorem loadWord_setPage (ha : a % 4 = 0) :
    loadWord (setPage m) a =
      if 0x100c04 ≤ a ∧ a < 0x100ffc then (pgEntry (4096 * (0x102 + (a - 0x100c04) / 4))).toNat
      else if 0x101000 ≤ a ∧ a < 0x101400 then (pgEntry (4096 * ((a - 0x101000) / 4))).toNat
      else if a = 0x100000 ∨ a = 0x100c00 then (pgEntry 0x101000).toNat
      else if a = 0x100ffc then (pgEntry 0x100000).toNat
      else if 0x100000 ≤ a ∧ a < 0x101000 then 0 else loadWord m a := by
  have hother : 0x100000#32 + 0x2000#32 ||| pageBits = pgEntry (4096 * 0x102) := by
    decide
  have hlow : 0#32 ||| pageBits = pgEntry (4096 * 0) := by decide
  simp only [setPage, setOtherPde, setPteLoop, initDirTable_eq, pageDirTable, hother, hlow]
  rw [loadWord_entryLoop ha (by omega), loadWord_entryLoop ha (by omega), loadWord_setPde ha,
    show (4096 : ℕ) = 4 * 1024 by rfl, loadWord_memset_zero ha (by omega)]
  by_cases h₁ : 0x100c04 ≤ a ∧ a < 0x100ffc
  · rw [if_pos (by omega), if_pos h₁, frame_step (by omega),
      show (a - 0x100000) / 4 - 769 = (a - 0x100c04) / 4 by omega]
  · rw [if_neg (by omega), if_neg h₁]
    by_cases h₂ : 0x101000 ≤ a ∧ a < 0x101400
    · rw [if_pos (by omega), if_pos h₂, frame_step (by omega), Nat.zero_add, Nat.sub_zero]
    · rw [if_neg (by omega), if_neg h₂]

/-- The bytes in memory are the tables that `mem_init` finds. -/
theorem frames_setPage (m : Bytes) (f : ℕ) (hi : i < 1024) :
    frames (setPage m) f i = KernelPools.setPage (frames m) f i := by
  have hword : ∀ e : Word, BitVec.ofNat 32 e.toNat = e := fun e => BitVec.ofNat_toNat ..
  rw [frames, loadWord_setPage (by omega), KernelPools.setPage]
  by_cases hdir : f = 0x100
  · subst hdir
    rw [if_pos rfl]
    by_cases hother : 769 ≤ i ∧ i < 1023
    · rw [if_pos (by omega), if_neg (by omega), if_pos hother, hword]
      exact congrArg pgEntry (by omega)
    · rw [if_neg (by omega), if_neg (by omega), if_neg hother]
      by_cases hfirst : i = 0 ∨ i = 768
      · rw [if_pos (by omega), if_pos hfirst, hword]
      · rw [if_neg (by omega), if_neg hfirst]
        by_cases hself : i = 1023
        · rw [if_pos (by omega), if_pos hself, hword]
        · rw [if_neg (by omega), if_neg hself, if_pos (by omega)]
  · rw [if_neg (by omega), if_neg hdir]
    by_cases htable : f = 0x101 ∧ i < 256
    · rw [if_pos (by omega), if_pos htable, hword]
      exact congrArg pgEntry (by omega)
    · rw [if_neg (by omega), if_neg (by omega), if_neg (by omega), if_neg (by omega),
        if_neg htable, frames]

/-- Nothing but the directory and a quarter of the first table is written. -/
theorem setPage_outside (h : a < 0x100000 ∨ 0x101400 ≤ a) : setPage m a = m a := by
  simp only [setPage, setOtherPde, setPteLoop, setPde, initDirTable_eq, pageDirTable]
  rw [entryLoop_outside (by omega), entryLoop_outside (by omega), storeWord_outside (by omega),
    storeWord_outside (by omega), storeWord_outside (by omega), memset_outside (by omega)]

theorem entryLoop_congr (h : m a = m' a) : entryLoop n b i x m a = entryLoop n b i x m' a := by
  induction n generalizing i x m m' with
  | zero => exact h
  | succ n ih => exact ih (by rw [storeWord, storeWord, h])

/-- What a byte becomes depends on no other byte. -/
theorem setPage_congr (h : m a = m' a) : setPage m a = setPage m' a := by
  have hdir : initDirTable 4096 pageDirTable 0 m a = initDirTable 4096 pageDirTable 0 m' a := by
    rw [initDirTable_eq, initDirTable_eq, memset, memset, h]
  have hpde : setPde (initDirTable 4096 pageDirTable 0 m) a =
      setPde (initDirTable 4096 pageDirTable 0 m') a := by
    rw [setPde, setPde, storeWord, storeWord, storeWord, storeWord, storeWord, storeWord, hdir]
  simp only [setPage, setOtherPde, setPteLoop]
  exact entryLoop_congr (entryLoop_congr hpde)

/-! ## The low addresses -/

theorem mapped_setPage (m : Bytes) : Mapped (setPage m) where
  first := frames_setPage m 0x100 (by norm_num)
  kernel := frames_setPage m 0x100 (by norm_num)
  entry i hi := by
    rw [frames_setPage m 0x101 (by omega), KernelPools.setPage, if_neg (by decide),
      if_pos ⟨rfl, hi⟩]

/-- Stores below the directory and behind the entries in use keep the mapping. -/
theorem Mapped.congr (h : Mapped m) (hm : ∀ a, 0x100000 ≤ a → a < 0x101400 → m' a = m a) :
    Mapped m' := by
  have hframe : ∀ a, 0x100000 ≤ a → a + 4 ≤ 0x101400 → loadWord m' a = loadWord m a :=
    fun a ha hb => loadWord_congr fun j hj => hm _ (by omega) (by omega)
  refine ⟨?_, ?_, fun i hi => ?_⟩
  · rw [frames, hframe _ (by omega) (by omega)]
    exact h.first
  · rw [frames, hframe _ (by omega) (by omega)]
    exact h.kernel
  · rw [frames, hframe _ (by omega) (by omega)]
    exact h.entry i hi

theorem Mapped.setByte (h : Mapped m) (ha : a < 0x100000) (x : BitVec 8) :
    Mapped (Function.update m a x) :=
  h.congr fun b hb _ => Function.update_of_ne (by omega) ..

theorem Mapped.setWord (h : Mapped m) (ha : a + 4 ≤ 0x100000) (x : ℕ) :
    Mapped (storeWord m a x) :=
  h.congr fun _ _ _ => storeWord_outside (by omega)

theorem Mapped.phys (h : Mapped m) (ha : Low a) : phys m a = some (a % 0xc0000000) := by
  obtain ⟨ha, hlow⟩ := ha
  have htable : tableOf (frames m) 0x100 (a / 4096 / 1024) = some 0x101 := by
    have hd : a / 4096 / 1024 = 0 ∨ a / 4096 / 1024 = 768 := by omega
    rcases hd with hd | hd
    · rw [hd, tableOf, h.first]
      exact target_pgEntry (f := 0x101) (by norm_num)
    · rw [hd, tableOf, h.kernel]
      exact target_pgEntry (f := 0x101) (by norm_num)
  have hentry : frames m 0x101 (a / 4096 % 1024) = pgEntry (4096 * (a / 4096 % 1024)) := by
    rw [h.entry _ (by omega), Nat.mul_comm]
  rw [BootPages.phys, frameOf, entryOf, htable]
  simp only [Option.map_some, Option.bind_some, hentry]
  rw [target_pgEntry (by omega), Option.map_some]
  exact congrArg some (by omega)

theorem selfMapped_setPage (m : Bytes) : SelfMapped (frames (setPage m)) 0x100 := by
  have htable : ∀ d < 1024, tableOf (frames (setPage m)) 0x100 d =
      if d = 0 ∨ d = 768 then some 0x101
      else if 769 ≤ d ∧ d < 1023 then some (0x102 + (d - 769))
      else if d = 1023 then some 0x100 else none := by
    intro d hd
    rw [tableOf, frames_setPage m 0x100 hd]
    exact KernelPoolRanges.tableOf_memInit 0 (fun _ => 0#8) (frames m) KernelPools.sampleProcess d
  refine ⟨by rw [htable _ (by omega)]; rfl, fun d hd => ?_⟩
  rw [htable d (by omega)]
  grind

/-- The loader's stores make the tables that the kernel starts with: the words that `mem_init`
takes over, a directory that maps itself, the first megabyte at 0 and at 3 GB, and no byte
elsewhere. -/
theorem setPage_tables (m : Bytes) :
    (∀ f, ∀ i < 1024, frames (setPage m) f i = KernelPools.setPage (frames m) f i) ∧
      SelfMapped (frames (setPage m)) 0x100 ∧
      (∀ a, Low a → phys (setPage m) a = some (a % 0xc0000000)) ∧
      ∀ a, a < 0x100000 ∨ 0x101400 ≤ a → setPage m a = m a :=
  ⟨fun f _ hi => frames_setPage m f hi, selfMapped_setPage m,
    fun _ ha => (mapped_setPage m).phys ha, fun _ ha => setPage_outside ha⟩

end

end BootPages
