import Mathlib.Data.List.Chain
import Mathlib.Data.List.Nodup
import Mathlib.Logic.Function.Basic

/-!
# Doubly linked chains in a heap

A heap gives each address a cell with two links. A chain is a list of addresses in which
neighbours point at each other. A family of lists names each list by its first sentinel; the
chain of a list runs from that sentinel through the nodes to the second one, and no address
stands on two chains. Insertion and removal work on three neighbouring cells and know no list.
-/
namespace LinkedChains

@[ext] structure Cell (α : Type) where
  prev : α
  next : α
  deriving DecidableEq, Repr

abbrev Heap (α : Type) := α → Cell α

variable {α : Type} {h h' : Heap α} {a b x u v : α} {l₁ l₂ xs ys zs : List α}

/-- `a` and `b` are neighbours. -/
def Linked (h : Heap α) (a b : α) : Prop := (h a).next = b ∧ (h b).prev = a

def Chain (h : Heap α) (l : List α) : Prop := l.IsChain (Linked h)

theorem Chain.split (hc : Chain h (l₁ ++ a :: l₂)) : Chain h (l₁ ++ [a]) ∧ Chain h (a :: l₂) :=
  List.isChain_split.mp hc

theorem Chain.link (hc : Chain h (l₁ ++ a :: b :: l₂)) : Linked h a b :=
  (List.isChain_append_cons_cons.mp hc).2.1

theorem Chain.frame (hc : Chain h xs) (hl : ∀ u ∈ xs, h' u = h u) : Chain h' xs := by
  apply List.IsChain.imp_of_mem_imp _ hc
  intro u v hu hv hlink
  rwa [Linked, hl u hu, hl v hv]

theorem Chain.left (hc : Chain h (l₁ ++ [a])) (hn : ∀ u ∈ l₁, (h' u).next = (h u).next)
    (hp : ∀ u ∈ l₁ ++ [a], (h' u).prev = (h u).prev) : Chain h' (l₁ ++ [a]) := by
  induction l₁ with
  | nil => exact .singleton a
  | cons u l₁ ih =>
    have hrest : Chain h' (l₁ ++ [a]) := by
      apply ih
      · exact List.IsChain.tail hc
      · exact fun w hw => hn w (List.mem_cons_of_mem u hw)
      · exact fun w hw => hp w (List.mem_cons_of_mem u hw)
    cases l₁ with
    | nil =>
      obtain ⟨hlink, -⟩ := List.isChain_cons_cons.mp hc
      refine .cons_cons ⟨?_, ?_⟩ hrest
      · exact (hn u List.mem_cons_self).trans hlink.1
      · exact (hp a (by simp)).trans hlink.2
    | cons w l₁ =>
      obtain ⟨hlink, -⟩ := List.isChain_cons_cons.mp hc
      refine .cons_cons ⟨?_, ?_⟩ hrest
      · exact (hn u List.mem_cons_self).trans hlink.1
      · exact (hp w (by simp)).trans hlink.2

theorem Chain.right (hc : Chain h (b :: l₂)) (hn : ∀ u ∈ b :: l₂, (h' u).next = (h u).next)
    (hp : ∀ u ∈ l₂, (h' u).prev = (h u).prev) : Chain h' (b :: l₂) := by
  apply List.IsChain.imp_of_mem_tail_imp _ hc
  intro u v hu hv hlink
  rwa [Linked, hn u hu, hp v hv]

/-- The rule for a loop along `next` that ends at `b`: what holds at the end, and one node before
whatever it holds at, holds at the beginning. -/
theorem Chain.walk {P : List α → ℕ → α → Prop} {fuel : ℕ} (hc : Chain h (a :: (xs ++ [b])))
    (hb : b ∉ xs) (hf : xs.length < fuel) (hstop : ∀ fuel, P [] (fuel + 1) b)
    (hstep : ∀ u ys fuel, u ≠ b → P ys fuel (h u).next → P (u :: ys) (fuel + 1) u) :
    P xs fuel (h a).next := by
  induction xs generalizing a fuel with
  | nil =>
    obtain ⟨hlink, -⟩ := List.isChain_cons_cons.mp hc
    cases fuel with
    | zero => cases hf
    | succ fuel =>
      rw [hlink.1]
      exact hstop fuel
  | cons u xs ih =>
    obtain ⟨hlink, hrest⟩ := List.isChain_cons_cons.mp hc
    cases fuel with
    | zero => cases hf
    | succ fuel =>
      rw [hlink.1]
      apply hstep u xs fuel
      · exact fun he => hb (he ▸ List.mem_cons_self)
      · apply ih hrest
        · exact fun hm => hb (List.mem_cons_of_mem u hm)
        · exact Nat.lt_of_succ_lt_succ hf

/-- Read backwards, a chain is one of the heap with the links exchanged. -/
theorem Chain.reverse (hc : Chain h xs) :
    Chain (fun u => ⟨(h u).next, (h u).prev⟩) xs.reverse := by
  apply List.isChain_reverse.mpr
  apply hc.imp
  intro u v hlink
  exact ⟨hlink.2, hlink.1⟩

/-- What the list at `l` occupies. -/
def cells (tail : α → α) (l : α) (xs : List α) : List α := l :: (xs ++ [tail l])

structure Family (tail : α → α) (h : Heap α) (seq : α → Option (List α)) : Prop where
  chain : ∀ l xs, seq l = some xs → Chain h (cells tail l xs)
  nodup : ∀ l xs, seq l = some xs → (cells tail l xs).Nodup
  apart : ∀ l k xs ys, l ≠ k → seq l = some xs → seq k = some ys →
    ∀ u ∈ cells tail l xs, u ∉ cells tail k ys

/-- `x` is on no list, except perhaps on the one at `l`. -/
def FreeBut (tail : α → α) (seq : α → Option (List α)) (l x : α) : Prop :=
  ∀ k ys, k ≠ l → seq k = some ys → x ∉ cells tail k ys

def Free (tail : α → α) (seq : α → Option (List α)) (x : α) : Prop :=
  ∀ k ys, seq k = some ys → x ∉ cells tail k ys

variable {tail : α → α} {seq : α → Option (List α)} {l : α}

theorem Family.freeBut (hf : Family tail h seq) (hs : seq l = some xs) (hu : u ∈ cells tail l xs) :
    FreeBut tail seq l u :=
  fun k ys hne hk => hf.apart l k xs ys hne.symm hs hk u hu

theorem Family.tail_not_mem (hf : Family tail h seq) (hs : seq l = some xs) : tail l ∉ xs := by
  have hd := hf.nodup l xs hs
  simp only [cells, List.nodup_cons, List.nodup_append] at hd
  intro hm
  exact hd.2.2.2 (tail l) hm (tail l) List.mem_cons_self rfl

theorem cells_split (tail : α → α) (l : α) (ys zs : List α) (hb : (zs ++ [tail l]).head? = some b) :
    ∃ l₁ a l₂, cells tail l (ys ++ zs) = l₁ ++ a :: b :: l₂ ∧
      ∀ x, cells tail l (ys ++ x :: zs) = l₁ ++ a :: x :: b :: l₂ := by
  obtain ⟨l₁, a, ha⟩ := (List.eq_nil_or_concat (l :: ys)).resolve_left (List.cons_ne_nil l ys)
  obtain ⟨l₂, hl₂⟩ := List.head?_eq_some_iff.mp hb
  rw [List.concat_eq_append] at ha
  refine ⟨l₁, a, l₂, ?_, ?_⟩
  · calc cells tail l (ys ++ zs) = (l :: ys) ++ (zs ++ [tail l]) := by simp [cells]
      _ = l₁ ++ a :: b :: l₂ := by rw [ha, hl₂]; simp
  · intro x
    calc cells tail l (ys ++ x :: zs) = (l :: ys) ++ x :: (zs ++ [tail l]) := by simp [cells]
      _ = l₁ ++ a :: x :: b :: l₂ := by rw [ha, hl₂]; simp

section Ops

variable [DecidableEq α]

def setPrev (h : Heap α) (a v : α) : Heap α := Function.update h a { h a with prev := v }

def setNext (h : Heap α) (a v : α) : Heap α := Function.update h a { h a with next := v }

@[simp] theorem setPrev_prev : (setPrev h a v u).prev = if u = a then v else (h u).prev := by
  by_cases hu : u = a
  · simp [setPrev, hu]
  · simp [setPrev, hu]

@[simp] theorem setPrev_next : (setPrev h a v u).next = (h u).next := by
  by_cases hu : u = a
  · simp [setPrev, hu]
  · simp [setPrev, hu]

@[simp] theorem setNext_next : (setNext h a v u).next = if u = a then v else (h u).next := by
  by_cases hu : u = a
  · simp [setNext, hu]
  · simp [setNext, hu]

@[simp] theorem setNext_prev : (setNext h a v u).prev = (h u).prev := by
  by_cases hu : u = a
  · simp [setNext, hu]
  · simp [setNext, hu]

/-! ## Insertion and removal -/

/-- The four writes, each of which reads the heap that the one before left. -/
def insertBefore (h : Heap α) (b x : α) : Heap α :=
  let h := setNext h (h b).prev x
  let h := setPrev h x (h b).prev
  let h := setNext h x b
  setPrev h b x

def unlink (h : Heap α) (x : α) : Heap α :=
  let h := setNext h (h x).prev (h x).next
  setPrev h (h x).next (h x).prev

@[simp] theorem insertBefore_next : (insertBefore h b x u).next =
    if u = x then b else if u = (h b).prev then x else (h u).next := by
  simp [insertBefore]

@[simp] theorem insertBefore_prev : (insertBefore h b x u).prev =
    if u = b then x else if u = x then (h b).prev else (h u).prev := by
  simp [insertBefore]

@[simp] theorem unlink_next : (unlink h x u).next =
    if u = (h x).prev then (h x).next else (h u).next := by
  simp [unlink]

@[simp] theorem unlink_prev : (unlink h x u).prev =
    if u = (h x).next then (h x).prev else (h u).prev := by
  simp [unlink]

theorem Chain.insertBefore (hc : Chain h (l₁ ++ a :: b :: l₂))
    (hd : (l₁ ++ a :: b :: l₂).Nodup) (hx : x ∉ l₁ ++ a :: b :: l₂) :
    Chain (insertBefore h b x) (l₁ ++ a :: x :: b :: l₂) := by
  have hprev : (h b).prev = a := hc.link.2
  obtain ⟨hleft, -, hright⟩ := List.isChain_append_cons_cons.mp hc
  simp only [List.nodup_append, List.nodup_cons, List.mem_append, List.mem_cons] at hd hx
  refine List.isChain_append_cons_cons.mpr ⟨?_, ⟨?_, ?_⟩, .cons_cons ⟨?_, ?_⟩ ?_⟩
  · apply Chain.left hleft
    · intro u hu
      simp only [insertBefore_next, hprev]
      grind
    · intro u hu
      simp only [insertBefore_prev, hprev]
      grind
  · simp only [insertBefore_next, hprev]
    grind
  · simp only [insertBefore_prev, hprev]
    grind
  · simp only [insertBefore_next, if_true]
  · simp only [insertBefore_prev, if_true]
  · apply Chain.right hright
    · intro u hu
      simp only [insertBefore_next, hprev]
      grind
    · intro u hu
      simp only [insertBefore_prev, hprev]
      grind

theorem Chain.unlink (hc : Chain h (l₁ ++ a :: x :: b :: l₂))
    (hd : (l₁ ++ a :: x :: b :: l₂).Nodup) : Chain (unlink h x) (l₁ ++ a :: b :: l₂) := by
  have hprev : (h x).prev = a := hc.link.2
  obtain ⟨hleft, -, hrest⟩ := List.isChain_append_cons_cons.mp hc
  obtain ⟨⟨hnext, -⟩, hright⟩ := List.isChain_cons_cons.mp hrest
  simp only [List.nodup_append, List.nodup_cons, List.mem_cons] at hd
  refine List.isChain_append_cons_cons.mpr ⟨?_, ⟨?_, ?_⟩, ?_⟩
  · apply Chain.left hleft
    · intro u hu
      simp only [unlink_next, hprev]
      grind
    · intro u hu
      simp only [unlink_prev, hnext]
      grind
  · simp only [unlink_next, hprev, hnext, if_true]
  · simp only [unlink_prev, hprev, hnext, if_true]
  · apply Chain.right hright
    · intro u hu
      simp only [unlink_next, hprev]
      grind
    · intro u hu
      simp only [unlink_prev, hnext]
      grind

/-- Away from the new node and its neighbours nothing changes. -/
theorem insertBefore_frame (hb : u ≠ b) (hx : u ≠ x) (ha : u ≠ (h b).prev) :
    insertBefore h b x u = h u := by
  apply Cell.ext
  · rw [insertBefore_prev, if_neg hb, if_neg hx]
  · rw [insertBefore_next, if_neg hx, if_neg ha]

theorem unlink_frame (hp : u ≠ (h x).prev) (hn : u ≠ (h x).next) : unlink h x u = h u := by
  apply Cell.ext
  · rw [unlink_prev, if_neg hn]
  · rw [unlink_next, if_neg hp]

/-! ## Walks -/

/-- The addresses from `a` on up to `stop`, which is not among them. -/
def follow (next : α → α) (stop : α) : ℕ → α → Option (List α)
  | 0, _ => none
  | fuel + 1, a => if a = stop then some [] else (follow next stop fuel (next a)).map (a :: ·)

theorem Chain.follow {fuel : ℕ} (hc : Chain h (a :: (xs ++ [b]))) (hb : b ∉ xs)
    (hf : xs.length < fuel) : follow (fun u => (h u).next) b fuel (h a).next = some xs := by
  apply hc.walk (P := fun ys fuel u => LinkedChains.follow (fun u => (h u).next) b fuel u = some ys)
    hb hf
  · intro fuel
    rw [LinkedChains.follow, if_pos rfl]
  · intro u ys fuel hu hrec
    rw [LinkedChains.follow, if_neg hu, hrec, Option.map_some]

/-! ## Families of lists -/

theorem Family.update (hf : Family tail h seq) (hc : Chain h' (cells tail l xs))
    (hd : (cells tail l xs).Nodup) (ha : ∀ u ∈ cells tail l xs, FreeBut tail seq l u)
    (hframe : ∀ k ys, k ≠ l → seq k = some ys → ∀ u ∈ cells tail k ys, h' u = h u) :
    Family tail h' (Function.update seq l (some xs)) where
  chain := by
    intro k ys hk
    by_cases hkl : k = l
    · subst hkl
      rw [Function.update_self] at hk
      cases hk
      exact hc
    · rw [Function.update_of_ne hkl] at hk
      exact (hf.chain k ys hk).frame (hframe k ys hkl hk)
  nodup := by
    intro k ys hk
    by_cases hkl : k = l
    · subst hkl
      rw [Function.update_self] at hk
      cases hk
      exact hd
    · rw [Function.update_of_ne hkl] at hk
      exact hf.nodup k ys hk
  apart := by
    intro k j ys zs hne hk hj u hu hu'
    by_cases hkl : k = l
    · subst hkl
      rw [Function.update_self] at hk
      rw [Function.update_of_ne hne.symm] at hj
      cases hk
      exact ha u hu j zs hne.symm hj hu'
    · rw [Function.update_of_ne hkl] at hk
      by_cases hjl : j = l
      · subst hjl
        rw [Function.update_self] at hj
        cases hj
        exact ha u hu' k ys hkl hk hu
      · rw [Function.update_of_ne hjl] at hj
        exact hf.apart k j ys zs hne hk hj u hu hu'

theorem Family.init (hf : Family tail h seq) (hne : l ≠ tail l) (hl : FreeBut tail seq l l)
    (ht : FreeBut tail seq l (tail l)) (hlink : Linked h' l (tail l))
    (hframe : ∀ u, u ≠ l → u ≠ tail l → h' u = h u) :
    Family tail h' (Function.update seq l (some [])) := by
  apply hf.update
  · exact .cons_cons hlink (.singleton _)
  · simpa [cells] using hne
  · intro u hu
    rcases List.mem_pair.mp hu with rfl | rfl
    · exact hl
    · exact ht
  · intro k ys hk hs u hu
    apply hframe
    · rintro rfl
      exact hl k ys hk hs hu
    · rintro rfl
      exact ht k ys hk hs hu

theorem Family.insertBefore (hf : Family tail h seq) (hs : seq l = some (ys ++ zs))
    (hb : (zs ++ [tail l]).head? = some b) (hx : Free tail seq x) :
    Family tail (insertBefore h b x) (Function.update seq l (some (ys ++ x :: zs))) := by
  obtain ⟨l₁, a, l₂, hold, hnew⟩ := cells_split tail l ys zs hb
  have hc := hf.chain l _ hs
  have hd := hf.nodup l _ hs
  have hxl := hx l _ hs
  rw [hold] at hc hd hxl
  have hmem : ∀ u ∈ l₁ ++ a :: b :: l₂, FreeBut tail seq l u :=
    fun u hu => hf.freeBut hs (hold ▸ hu)
  apply hf.update
  · rw [hnew]
    exact hc.insertBefore hd hxl
  · rw [hnew, List.append_cons, List.nodup_middle, List.append_assoc]
    exact List.nodup_cons.mpr ⟨hxl, hd⟩
  · rw [hnew]
    intro u hu
    by_cases hux : u = x
    · subst hux
      exact fun k ys _ hk => hx k ys hk
    · apply hmem
      simp only [List.mem_append, List.mem_cons] at hu ⊢
      tauto
  · intro k ws hk hw u hu
    have hprev : (h b).prev = a := hc.link.2
    apply insertBefore_frame
    · rintro rfl
      exact hmem u (by simp) k ws hk hw hu
    · rintro rfl
      exact hx k ws hw hu
    · rw [hprev]
      rintro rfl
      exact hmem u (by simp) k ws hk hw hu

theorem Family.unlink (hf : Family tail h seq) (hs : seq l = some (ys ++ x :: zs)) :
    Family tail (unlink h x) (Function.update seq l (some (ys ++ zs))) := by
  obtain ⟨b, hb⟩ : ∃ b, (zs ++ [tail l]).head? = some b := by cases zs <;> exact ⟨_, rfl⟩
  obtain ⟨l₁, a, l₂, hnew, hold⟩ := cells_split tail l ys zs hb
  have hc := hf.chain l _ hs
  have hd := hf.nodup l _ hs
  rw [hold] at hc hd
  have hmem : ∀ u ∈ l₁ ++ a :: x :: b :: l₂, FreeBut tail seq l u :=
    fun u hu => hf.freeBut hs (hold x ▸ hu)
  apply hf.update
  · rw [hnew]
    exact hc.unlink hd
  · rw [hnew]
    apply List.Nodup.sublist _ hd
    simp
  · rw [hnew]
    intro u hu
    apply hmem
    simp only [List.mem_append, List.mem_cons] at hu ⊢
    tauto
  · intro k ws hk hw u hu
    have hprev : (h x).prev = a := hc.link.2
    rw [List.append_cons] at hc
    have hnext : (h x).next = b := hc.link.1
    apply unlink_frame
    · rw [hprev]
      rintro rfl
      exact hmem u (by simp) k ws hk hw hu
    · rw [hnext]
      rintro rfl
      exact hmem u (by simp) k ws hk hw hu

/-- The walk from the first sentinel visits the nodes, and the one from the second visits them
in the opposite order. -/
theorem Family.forward {fuel : ℕ} (hf : Family tail h seq) (hs : seq l = some xs)
    (hfuel : xs.length < fuel) : follow (fun u => (h u).next) (tail l) fuel (h l).next = some xs :=
  (hf.chain l xs hs).follow (hf.tail_not_mem hs) hfuel

theorem Family.backward {fuel : ℕ} (hf : Family tail h seq) (hs : seq l = some xs)
    (hfuel : xs.length < fuel) :
    follow (fun u => (h u).prev) l fuel (h (tail l)).prev = some xs.reverse := by
  have hd := hf.nodup l xs hs
  have hc : Chain (fun u => ⟨(h u).next, (h u).prev⟩) (tail l :: (xs.reverse ++ [l])) := by
    simpa [cells] using (hf.chain l xs hs).reverse
  apply Chain.follow hc
  · intro hm
    exact (List.nodup_cons.mp hd).1 (List.mem_append_left _ (List.mem_reverse.mp hm))
  · rwa [List.length_reverse]

end Ops

end LinkedChains
