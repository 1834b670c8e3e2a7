import Leeos.LinkedChains
import Leeos.ExecRules
import Mathlib.Algebra.Group.Nat.Defs
import Mathlib.Data.List.Perm.Subperm

/-!
# Intrusive lists (`lib/kernel/list.c`)

A `struct list_elem` is named by its address; a `struct list` has its `head` at its own address
and its `tail` behind that. The loops over a list run on fuel. The lists are said to hold
sequences of nodes, and what a call does to these is stated beside the code, in `SeqStep`.
-/
namespace KernelLists

open ExecRules LinkedChains

abbrev Addr := BitVec 32

structure ListState where
  elems : Heap Addr
  intr : Bool

def ListState.setPrev (s : ListState) (a v : Addr) : ListState :=
  { s with elems := LinkedChains.setPrev s.elems a v }

def ListState.setNext (s : ListState) (a v : Addr) : ListState :=
  { s with elems := LinkedChains.setNext s.elems a v }

def tailOf (plist : Addr) : Addr := plist + 8#32

def listInit (plist : Addr) (s : ListState) : ListState :=
  let s := s.setPrev plist 0
  let s := s.setNext (tailOf plist) 0
  let s := s.setNext plist (tailOf plist)
  s.setPrev (tailOf plist) plist

def listInsertBefore (before elem : Addr) (s : ListState) : ListState :=
  let oldStatus := s.intr
  let s := { s with intr := false }
  let s := s.setNext (s.elems before).prev elem
  let s := s.setPrev elem (s.elems before).prev
  let s := s.setNext elem before
  let s := s.setPrev before elem
  { s with intr := oldStatus }

def listPush (plist elem : Addr) (s : ListState) : ListState :=
  listInsertBefore (s.elems plist).next elem s

def listAppend (plist elem : Addr) (s : ListState) : ListState :=
  listInsertBefore (tailOf plist) elem s

def listRemove (elem : Addr) (s : ListState) : ListState :=
  let oldStatus := s.intr
  let s := { s with intr := false }
  let s := s.setNext (s.elems elem).prev (s.elems elem).next
  let s := s.setPrev (s.elems elem).next (s.elems elem).prev
  { s with intr := oldStatus }

def listPop (plist : Addr) (s : ListState) : Addr × ListState :=
  let popElem := (s.elems plist).next
  (popElem, listRemove popElem s)

def elemFindLoop (tail objElem : Addr) (s : ListState) : ℕ → Addr → Option Bool
  | 0, _ => none
  | fuel + 1, helpElem =>
    if helpElem = tail then some false
    else if helpElem = objElem then some true
    else elemFindLoop tail objElem s fuel (s.elems helpElem).next

def elemFind (plist objElem : Addr) (fuel : ℕ) (s : ListState) : Option Bool :=
  elemFindLoop (tailOf plist) objElem s fuel (s.elems plist).next

def listLenLoop (tail : Addr) (s : ListState) : ℕ → Addr → BitVec 32 → Option (BitVec 32)
  | 0, _, _ => none
  | fuel + 1, helpElem, len =>
    if helpElem = tail then some len
    else listLenLoop tail s fuel (s.elems helpElem).next (len + 1#32)

def listLen (plist : Addr) (fuel : ℕ) (s : ListState) : Option (BitVec 32) :=
  listLenLoop (tailOf plist) s fuel (s.elems plist).next 0#32

def listEmpty (plist : Addr) (s : ListState) : Bool := (s.elems plist).next == tailOf plist

/-- `func` with its argument. -/
def listTraveralLoop (tail : Addr) (func : Addr → Bool) (s : ListState) : ℕ → Addr → Option Addr
  | 0, _ => none
  | fuel + 1, helpElem =>
    if helpElem = tail then some 0
    else if func helpElem then some helpElem
    else listTraveralLoop tail func s fuel (s.elems helpElem).next

def listTraveral (plist : Addr) (func : Addr → Bool) (fuel : ℕ) (s : ListState) : Option Addr :=
  if listEmpty plist s then some 0
  else listTraveralLoop (tailOf plist) func s fuel (s.elems plist).next

/-- The walks from `head` along `next` and from `tail` along `prev`. -/
def forwardWalk (plist : Addr) (fuel : ℕ) (s : ListState) : Option (List Addr) :=
  follow (fun a => (s.elems a).next) (tailOf plist) fuel (s.elems plist).next

def backwardWalk (plist : Addr) (fuel : ℕ) (s : ListState) : Option (List Addr) :=
  follow (fun a => (s.elems a).prev) plist fuel (s.elems (tailOf plist)).prev

/-! ## Calls and sequences -/

inductive ListOp where
  | init (plist : Addr)
  | push (plist elem : Addr)
  | append (plist elem : Addr)
  | insertBefore (before elem : Addr)
  | remove (elem : Addr)
  | pop (plist : Addr)
  deriving DecidableEq, Repr

/-- The call, with what it returns. -/
def runListOp : ListOp → ListState → Option Addr × ListState
  | .init plist, s => (none, listInit plist s)
  | .push plist elem, s => (none, listPush plist elem s)
  | .append plist elem, s => (none, listAppend plist elem s)
  | .insertBefore before elem, s => (none, listInsertBefore before elem s)
  | .remove elem, s => (none, listRemove elem s)
  | .pop plist, s => ((some (listPop plist s).1), (listPop plist s).2)

abbrev Sequences := Addr → Option (List Addr)

/-- What a call means for the sequences, and what it returns. -/
inductive SeqStep (q : Sequences) : ListOp → Option Addr → Sequences → Prop
  | init {l : Addr} : FreeBut tailOf q l l → FreeBut tailOf q l (tailOf l) →
      SeqStep q (.init l) none (Function.update q l (some []))
  | push {l x : Addr} {xs : List Addr} : q l = some xs → Free tailOf q x →
      SeqStep q (.push l x) none (Function.update q l (some (x :: xs)))
  | append {l x : Addr} {xs : List Addr} : q l = some xs → Free tailOf q x →
      SeqStep q (.append l x) none (Function.update q l (some (xs ++ [x])))
  | insertBefore {l b x : Addr} {ys zs : List Addr} : q l = some (ys ++ b :: zs) →
      Free tailOf q x →
      SeqStep q (.insertBefore b x) none (Function.update q l (some (ys ++ x :: b :: zs)))
  | remove {l x : Addr} {ys zs : List Addr} : q l = some (ys ++ x :: zs) →
      SeqStep q (.remove x) none (Function.update q l (some (ys ++ zs)))
  | pop {l x : Addr} {xs : List Addr} : q l = some (x :: xs) →
      SeqStep q (.pop l) (some x) (Function.update q l (some xs))

/-- A memory with the sequences that its lists are meant to hold. -/
structure World where
  mem : ListState
  seq : Sequences

def NoLists (w : World) : Prop := ∀ l, w.seq l = none

def ListsStep (w w' : World) : Prop :=
  ∃ op result, SeqStep w.seq op result w'.seq ∧ (runListOp op w.mem).2 = w'.mem

/-- The list at `plist` holds `xs`: the walks and the searches say so. -/
structure Represents (s : ListState) (plist : Addr) (xs : List Addr) : Prop where
  nodup : xs.Nodup
  forward : ∀ fuel > xs.length, forwardWalk plist fuel s = some xs
  backward : ∀ fuel > xs.length, backwardWalk plist fuel s = some xs.reverse
  elem_find : ∀ obj, ∀ fuel > xs.length, elemFind plist obj fuel s = some (decide (obj ∈ xs))
  list_len : ∀ fuel > xs.length, (listLen plist fuel s).map BitVec.toNat = some xs.length
  list_empty : listEmpty plist s = decide (xs = [])
  list_traveral : ∀ func, ∀ fuel > xs.length,
    listTraveral plist func fuel s = some ((xs.find? func).getD 0)

variable {s : ListState} {w w' : World} {q q' : Sequences} {l x : Addr} {xs : List Addr}

/-! ## The calls on the heap -/

@[simp] theorem listInsertBefore_elems (before elem : Addr) (s : ListState) :
    (listInsertBefore before elem s).elems = insertBefore s.elems before elem := rfl

@[simp] theorem listRemove_elems (elem : Addr) (s : ListState) :
    (listRemove elem s).elems = unlink s.elems elem := rfl

theorem tailOf_ne (l : Addr) : l ≠ tailOf l := by
  simp only [tailOf]
  bv_omega

theorem listInit_elems (l : Addr) (s : ListState) :
    Linked (listInit l s).elems l (tailOf l) ∧
      ∀ u, u ≠ l → u ≠ tailOf l → (listInit l s).elems u = s.elems u := by
  constructor
  · simp [Linked, listInit, ListState.setPrev, ListState.setNext]
  · intro u hl ht
    apply Cell.ext
    · simp [listInit, ListState.setPrev, ListState.setNext, hl, ht]
    · simp [listInit, ListState.setPrev, ListState.setNext, hl, ht]

theorem family_first {h : Heap Addr} (hf : Family tailOf h q) (hs : q l = some xs) :
    (xs ++ [tailOf l]).head? = some (h l).next := by
  have hc := hf.chain l xs hs
  cases xs with
  | nil => exact congrArg some (List.isChain_cons_cons.mp hc).1.1.symm
  | cons x xs => exact congrArg some (List.isChain_cons_cons.mp hc).1.1.symm

theorem seqStep_family {op : ListOp} {result : Option Addr} (hf : Family tailOf s.elems q)
    (hstep : SeqStep q op result q') :
    Family tailOf (runListOp op s).2.elems q' ∧ (runListOp op s).1 = result := by
  cases hstep with
  | @init l hl ht =>
    obtain ⟨hlink, hframe⟩ := listInit_elems l s
    exact ⟨hf.init (tailOf_ne l) hl ht hlink hframe, rfl⟩
  | @push l x xs hs hx =>
    have hs : q l = some ([] ++ xs) := hs
    exact ⟨hf.insertBefore hs (family_first hf hs) hx, rfl⟩
  | @append l x xs hs hx =>
    refine ⟨?_, rfl⟩
    have hs : q l = some (xs ++ []) := by rwa [List.append_nil]
    exact hf.insertBefore hs rfl hx
  | insertBefore hs hx => exact ⟨hf.insertBefore hs rfl hx, rfl⟩
  | remove hs => exact ⟨hf.unlink hs, rfl⟩
  | @pop l x xs hs =>
    have hx : (s.elems l).next = x := Option.some.inj (family_first hf hs).symm
    refine ⟨?_, congrArg some hx⟩
    subst hx
    have hs : q l = some ([] ++ (s.elems l).next :: xs) := hs
    exact hf.unlink hs

/-! ## The loops -/

section Loops

variable {a b : Addr} {fuel : ℕ} (hc : Chain s.elems (a :: (xs ++ [b]))) (hb : b ∉ xs)
  (hf : xs.length < fuel)

include hc hb hf

theorem elemFindLoop_chain (obj : Addr) :
    elemFindLoop b obj s fuel (s.elems a).next = some (decide (obj ∈ xs)) := by
  apply hc.walk (P := fun ys fuel u => elemFindLoop b obj s fuel u = some (decide (obj ∈ ys))) hb hf
  · intro fuel
    rw [elemFindLoop, if_pos rfl]
    rfl
  · intro u ys fuel hu hrec
    rw [elemFindLoop, if_neg hu, hrec]
    by_cases hobj : u = obj
    · simp [hobj]
    · simp [hobj, Ne.symm hobj]

theorem listLenLoop_chain (len : BitVec 32) :
    listLenLoop b s fuel (s.elems a).next len = some (len + BitVec.ofNat 32 xs.length) := by
  revert len
  apply hc.walk (P := fun ys fuel u =>
    ∀ len, listLenLoop b s fuel u len = some (len + BitVec.ofNat 32 ys.length)) hb hf
  · intro fuel len
    rw [listLenLoop, if_pos rfl]
    simp
  · intro u ys fuel hu hrec len
    rw [listLenLoop, if_neg hu, hrec, List.length_cons, BitVec.ofNat_add, BitVec.add_assoc,
      BitVec.add_comm 1#32]

theorem listTraveralLoop_chain (func : Addr → Bool) :
    listTraveralLoop b func s fuel (s.elems a).next = some ((xs.find? func).getD 0) := by
  apply hc.walk (P := fun ys fuel u =>
    listTraveralLoop b func s fuel u = some ((ys.find? func).getD 0)) hb hf
  · intro fuel
    rw [listTraveralLoop, if_pos rfl]
    rfl
  · intro u ys fuel hu hrec
    rw [listTraveralLoop, if_neg hu, hrec]
    cases hfunc : func u with
    | true => simp [hfunc]
    | false => simp [hfunc]

end Loops

theorem nodup_length {xs : List Addr} (h : xs.Nodup) : xs.length ≤ 2 ^ 32 := by
  have hmap : (xs.map BitVec.toNat).Nodup := h.map fun a b => BitVec.eq_of_toNat_eq
  have hsub : xs.map BitVec.toNat ⊆ List.range (2 ^ 32) := by
    intro n hn
    obtain ⟨a, -, rfl⟩ := List.mem_map.mp hn
    exact List.mem_range.mpr a.isLt
  have hle := (List.subperm_of_subset hmap hsub).length_le
  rwa [List.length_map, List.length_range] at hle

theorem represents_of_family (hf : Family tailOf s.elems q) (hs : q l = some xs) :
    Represents s l xs := by
  have hc := hf.chain l xs hs
  have hd := hf.nodup l xs hs
  have ht := hf.tail_not_mem hs
  have hempty : listEmpty l s = decide (xs = []) := by
    have hfirst := family_first hf hs
    cases xs with
    | nil => simpa [listEmpty] using (Option.some.inj hfirst).symm
    | cons x xs =>
      have hne : x ≠ tailOf l := fun he => ht (he ▸ List.mem_cons_self)
      simp [listEmpty, ← Option.some.inj hfirst, hne]
  refine ⟨?_, ?_, ?_, ?_, ?_, hempty, ?_⟩
  · exact (List.nodup_append.mp (List.nodup_cons.mp hd).2).1
  · exact fun fuel hfuel => hf.forward hs hfuel
  · exact fun fuel hfuel => hf.backward hs hfuel
  · exact fun obj fuel hfuel => elemFindLoop_chain hc ht hfuel obj
  · intro fuel hfuel
    have hlen := nodup_length hd
    rw [cells, List.length_cons, List.length_append, List.length_singleton] at hlen
    rw [listLen, listLenLoop_chain hc ht hfuel, BitVec.zero_add, Option.map_some,
      BitVec.toNat_ofNat, Nat.mod_eq_of_lt (by omega)]
  · intro func fuel hfuel
    rw [listTraveral, hempty]
    split
    case isTrue he => simp [decide_eq_true_iff.mp he]
    case isFalse => exact listTraveralLoop_chain hc ht hfuel func

/-! ## Runs -/

theorem world_family (h : Reachable NoLists ListsStep w) : Family tailOf w.mem.elems w.seq := by
  apply reachable_invariant (fun w => Family tailOf w.mem.elems w.seq) h
  · intro w hw
    refine ⟨?_, ?_, ?_⟩
    · intro l xs hs
      rw [hw l] at hs
      cases hs
    · intro l xs hs
      rw [hw l] at hs
      cases hs
    · intro l k xs ys _ hs
      rw [hw l] at hs
      cases hs
  · rintro w w' hf ⟨op, result, hstep, hmem⟩
    have hf' := (seqStep_family hf hstep).1
    rwa [hmem] at hf'

/-- In every run the lists hold the sequences that the calls are to leave, and every call returns
what it is to return. -/
theorem lists_refine_sequences (h : Reachable NoLists ListsStep w) :
    (∀ l xs, w.seq l = some xs → Represents w.mem l xs) ∧
      ∀ op result q', SeqStep w.seq op result q' → (runListOp op w.mem).1 = result := by
  have hf := world_family h
  constructor
  · intro l xs hs
    exact represents_of_family hf hs
  · intro op result q' hstep
    exact (seqStep_family hf hstep).2

theorem free_one (hx : x ∉ cells tailOf l xs) :
    Free tailOf (Function.update (fun _ => none) l (some xs)) x := by
  intro k ys hk
  by_cases hkl : k = l
  · subst hkl
    rw [Function.update_self] at hk
    cases hk
    exact hx
  · rw [Function.update_of_ne hkl] at hk
    cases hk

/-- One list: 0x2000 is pushed, 0x3000 appended, and 0x2000 popped. -/
theorem lists_refine_sequences_sample : ∃ s, Represents s 0x1000 [0x2000, 0x3000] ∧
    (listPop 0x1000 s).1 = 0x2000 := by
  let s₀ : ListState := ⟨fun _ => ⟨0, 0⟩, true⟩
  let q (xs : List Addr) : Sequences := Function.update (fun _ => none) 0x1000 (some xs)
  have hq : ∀ xs, q xs 0x1000 = some xs := fun xs => Function.update_self ..
  have h₀ : Reachable NoLists ListsStep ⟨s₀, fun _ => none⟩ := .refl fun _ => rfl
  have h₁ : Reachable NoLists ListsStep ⟨listInit 0x1000 s₀, q []⟩ :=
    h₀.tail ⟨.init 0x1000, none, .init (fun _ _ _ hk => by cases hk) (fun _ _ _ hk => by cases hk),
      rfl⟩
  have hpush : SeqStep (q []) (.push 0x1000 0x2000) none (q [0x2000]) := by
    have := SeqStep.push (q := q []) (l := 0x1000) (x := 0x2000) (hq _)
      (free_one (by decide))
    rwa [Function.update_idem] at this
  have h₂ := h₁.tail (t := ⟨_, q [0x2000]⟩) ⟨_, _, hpush, rfl⟩
  have happend : SeqStep (q [0x2000]) (.append 0x1000 0x3000) none (q [0x2000, 0x3000]) := by
    have := SeqStep.append (q := q [0x2000]) (l := 0x1000) (x := 0x3000) (hq _)
      (free_one (by decide))
    rwa [Function.update_idem] at this
  have h₃ := h₂.tail (t := ⟨_, q [0x2000, 0x3000]⟩) ⟨_, _, happend, rfl⟩
  obtain ⟨hrep, hret⟩ := lists_refine_sequences h₃
  refine ⟨_, hrep 0x1000 _ (hq _), ?_⟩
  exact Option.some.inj (hret _ _ _ (.pop (hq _)))

end KernelLists
