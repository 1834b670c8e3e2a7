import Leeos.KernelHeap
import Mathlib.Data.List.Nodup

/-!
# Accounts of the heap

`Accounts` says how arenas, free lists and live blocks fit together, without mentioning memory:
a block of a small arena is on its class's free list or live, never both, and the arena's
counter is the number of its listed blocks. Each allocator action has one lemma here.
-/
namespace KernelHeapAccounts

open KernelPools KernelPoolRanges KernelHeap

def blockSizeOf (d : ℕ) : ℕ := 16 * 2 ^ d
def blocksOf (d : ℕ) : ℕ := (4096 - arenaSize) / blockSizeOf d

/-- Block `k` of the arena on range `R`, for class `d`. -/
def block (R : Range) (d k : ℕ) : ℕ := arenaToBlock (4096 * R.page) (blockSizeOf d) k

theorem block_eq (R : Range) (d k : ℕ) :
    block R d k = 4096 * R.page + 12 + k * blockSizeOf d := rfl

theorem blockSizeOf_pos (d : ℕ) : 0 < blockSizeOf d := by
  have := Nat.two_pow_pos d
  simp only [blockSizeOf]
  omega

theorem block_fits {d k : ℕ} (hk : k < blocksOf d) :
    12 + k * blockSizeOf d + blockSizeOf d ≤ 4096 := by
  have h := Nat.div_mul_le_self (4096 - arenaSize) (blockSizeOf d)
  have h' : (k + 1) * blockSizeOf d ≤ (4096 - arenaSize) / blockSizeOf d * blockSizeOf d :=
    Nat.mul_le_mul_right _ hk
  rw [Nat.add_one_mul] at h'
  simp only [arenaSize] at *
  omega

theorem block_page {R : Range} {d k : ℕ} (hk : k < blocksOf d) : block R d k / 4096 = R.page := by
  have := block_fits hk
  have := blockSizeOf_pos d
  rw [block_eq]
  omega

theorem block_inj {R : Range} {d k k' : ℕ} : block R d k = block R d k' ↔ k = k' := by
  constructor
  · intro h
    simp only [block_eq, Nat.add_left_cancel_iff] at h
    exact Nat.eq_of_mul_eq_mul_right (blockSizeOf_pos d) h
  · rintro rfl
    rfl

structure Live where
  ptr : ℕ
  size : ℕ
  deriving DecidableEq

/-- How many blocks of the arena are on the list. -/
def listed (l : List ℕ) (R : Range) (d : ℕ) : ℕ :=
  ((Finset.range (blocksOf d)).filter fun k => block R d k ∈ l).card

/-- `fit` relates the size of a large block to the number of its pages. -/
structure Accounts (fit : ℕ → ℕ → Prop) (H : List Range) (hdr : Range → Arena)
    (lists : ℕ → List ℕ) (L : List Live) : Prop where
  pages : ∀ R ∈ H, ∀ R' ∈ H, R.page = R'.page → R = R'
  nodup : H.Nodup
  kinds : ∀ R ∈ H, ((hdr R).memDescAddr = none ∧ (hdr R).cnt = R.count) ∨
    ∃ d < 7, (hdr R).memDescAddr = some d ∧ R.count = 1
  list_nodup : ∀ d < 7, (lists d).Nodup
  list_blocks : ∀ d < 7, ∀ e ∈ lists d, ∃ R ∈ H, (hdr R).memDescAddr = some d ∧
    ∃ k < blocksOf d, e = block R d k
  counts : ∀ R ∈ H, ∀ d, (hdr R).memDescAddr = some d → (hdr R).cnt = listed (lists d) R d
  live_nodup : (L.map Live.ptr).Nodup
  live_blocks : ∀ b ∈ L, ∃ R ∈ H, ((hdr R).memDescAddr = none ∧ b.ptr = 4096 * R.page + 12 ∧
      fit b.size R.count) ∨ ∃ d, (hdr R).memDescAddr = some d ∧ b.size ≤ blockSizeOf d ∧
      ∃ k < blocksOf d, b.ptr = block R d k
  unlisted_live : ∀ R ∈ H, ∀ d, (hdr R).memDescAddr = some d → ∀ k < blocksOf d,
    (block R d k ∉ lists d ↔ ∃ b ∈ L, b.ptr = block R d k)

variable {fit : ℕ → ℕ → Prop} {H : List Range} {hdr hdr' : Range → Arena}
  {lists lists' : ℕ → List ℕ} {L : List Live} {R R' : Range} {d : ℕ}

theorem listed_le (l : List ℕ) (R : Range) (d : ℕ) : listed l R d ≤ blocksOf d := by
  have := Finset.card_filter_le (Finset.range (blocksOf d)) fun k => block R d k ∈ l
  simpa [listed] using this

theorem listed_congr {l l' : List ℕ} (h : ∀ k < blocksOf d, block R d k ∈ l ↔ block R d k ∈ l') :
    listed l R d = listed l' R d := by
  rw [listed, listed]
  congr 1
  apply Finset.filter_congr
  intro k hk
  exact h k (Finset.mem_range.mp hk)

theorem listed_add {l l' : List ℕ} {k : ℕ} (hk : k < blocksOf d) (hn : block R d k ∉ l)
    (hl : ∀ e, e ∈ l' ↔ e ∈ l ∨ e = block R d k) : listed l' R d = listed l R d + 1 := by
  have hset : (Finset.range (blocksOf d)).filter (fun j => block R d j ∈ l') =
      insert k ((Finset.range (blocksOf d)).filter fun j => block R d j ∈ l) := by
    ext j
    simp only [Finset.mem_filter, Finset.mem_range, Finset.mem_insert, hl, block_inj]
    constructor
    · rintro ⟨h₁, h₂ | h₂⟩
      · exact Or.inr ⟨h₁, h₂⟩
      · exact Or.inl h₂
    · rintro (rfl | ⟨h₁, h₂⟩)
      · exact ⟨hk, Or.inr rfl⟩
      · exact ⟨h₁, Or.inl h₂⟩
  rw [listed, hset, Finset.card_insert_of_notMem (by simp [hn])]
  rfl

theorem listed_full_iff {l : List ℕ} :
    listed l R d = blocksOf d ↔ ∀ k < blocksOf d, block R d k ∈ l := by
  have h := Finset.card_filter_eq_iff (s := Finset.range (blocksOf d)) (p := fun k => block R d k ∈ l)
  rw [Finset.card_range] at h
  simpa [listed] using h

theorem Accounts.block_owner (h : Accounts fit H hdr lists L) (hR : R ∈ H) (hR' : R' ∈ H) {d' k k' : ℕ}
    (hk : k < blocksOf d) (hk' : k' < blocksOf d') (he : block R d k = block R' d' k') : R = R' := by
  apply h.pages R hR R' hR'
  rw [← block_page (R := R) hk, he, block_page hk']

theorem Accounts.class_lt (h : Accounts fit H hdr lists L) (hR : R ∈ H)
    (hm : (hdr R).memDescAddr = some d) : d < 7 := by
  rcases h.kinds R hR with ⟨hn, -⟩ | ⟨d', hd', hm', -⟩
  · rw [hn] at hm
    cases hm
  · rw [hm', Option.some.injEq] at hm
    omega

/-- Accounts look at the headers of handed ranges only. -/
theorem Accounts.congr (h : Accounts fit H hdr lists L) (hh : ∀ R ∈ H, hdr' R = hdr R)
    (hl : ∀ d < 7, lists' d = lists d) : Accounts fit H hdr' lists' L := by
  constructor
  case pages => exact h.pages
  case nodup => exact h.nodup
  case kinds => exact fun R hR => hh R hR ▸ h.kinds R hR
  case list_nodup => exact fun d hd => hl d hd ▸ h.list_nodup d hd
  case list_blocks =>
    intro d hd e he
    rw [hl d hd] at he
    obtain ⟨R, hR, hm, hk⟩ := h.list_blocks d hd e he
    exact ⟨R, hR, hh R hR ▸ hm, hk⟩
  case counts =>
    intro R hR d hm
    rw [hh R hR] at hm ⊢
    rw [hl d (h.class_lt hR hm)]
    exact h.counts R hR d hm
  case live_nodup => exact h.live_nodup
  case live_blocks =>
    intro b hb
    obtain ⟨R, hR, hm⟩ := h.live_blocks b hb
    exact ⟨R, hR, hh R hR ▸ hm⟩
  case unlisted_live =>
    intro R hR d hm
    rw [hh R hR] at hm
    rw [hl d (h.class_lt hR hm)]
    exact h.unlisted_live R hR d hm

/-- Counting the blocks of one arena leaves what each arena holds. -/
theorem desc_recounted {n : ℕ} (hcnt : hdr' R = { hdr R with cnt := n })
    (hh : ∀ R' ∈ H, R' ≠ R → hdr' R' = hdr R') :
    ∀ R' ∈ H, (hdr' R').memDescAddr = (hdr R').memDescAddr := by
  intro R' hR'
  by_cases hRR : R' = R
  · rw [hRR, hcnt]
  · rw [hh R' hR' hRR]

theorem Accounts.kinds_recounted {n : ℕ} (h : Accounts fit H hdr lists L)
    (hm : (hdr R).memDescAddr = some d) (hcnt : hdr' R = { hdr R with cnt := n })
    (hh : ∀ R' ∈ H, R' ≠ R → hdr' R' = hdr R') :
    ∀ R' ∈ H, ((hdr' R').memDescAddr = none ∧ (hdr' R').cnt = R'.count) ∨
      ∃ d < 7, (hdr' R').memDescAddr = some d ∧ R'.count = 1 := by
  intro R' hR'
  rw [desc_recounted hcnt hh R' hR']
  rcases h.kinds R' hR' with hlarge | hsmall
  · have hne : R' ≠ R := by
      rintro rfl
      cases hlarge.1.symm.trans hm
    rw [hh R' hR' hne]
    exact Or.inl hlarge
  · exact Or.inr hsmall

/-! ## New arenas -/

def NewPage (H : List Range) (R : Range) : Prop := ∀ R' ∈ H, R'.page ≠ R.page

theorem pages_cons (h : Accounts fit H hdr lists L) (hn : NewPage H R) :
    ∀ R₁ ∈ R :: H, ∀ R₂ ∈ R :: H, R₁.page = R₂.page → R₁ = R₂ := by
  intro R₁ h₁ R₂ h₂ he
  rcases List.mem_cons.mp h₁ with rfl | k₁ <;> rcases List.mem_cons.mp h₂ with rfl | k₂
  · rfl
  · exact (hn _ k₂ he.symm).elim
  · exact (hn _ k₁ he).elim
  · exact h.pages _ k₁ _ k₂ he

theorem nodup_cons (h : Accounts fit H hdr lists L) (hn : NewPage H R) : (R :: H).Nodup :=
  List.nodup_cons.mpr ⟨fun hR => hn R hR rfl, h.nodup⟩

theorem live_page_mem (h : Accounts fit H hdr lists L) {b : Live} (hb : b ∈ L) :
    ∃ R ∈ H, b.ptr / 4096 = R.page := by
  obtain ⟨R, hR, ⟨-, hp, -⟩ | ⟨d, -, -, k, hk, hp⟩⟩ := h.live_blocks b hb
  · exact ⟨R, hR, by omega⟩
  · exact ⟨R, hR, by rw [hp, block_page hk]⟩

theorem Accounts.add_large (h : Accounts fit H hdr lists L) (hn : NewPage H R) {b : Live}
    (hb : b.ptr = 4096 * R.page + 12) (hfit : fit b.size R.count)
    (hR : hdr' R = ⟨none, R.count, true⟩)
    (hh : ∀ R' ∈ H, hdr' R' = hdr R') : Accounts fit (R :: H) hdr' lists (b :: L) := by
  have h' : Accounts fit H hdr' lists L := h.congr hh fun _ _ => rfl
  have hnew : ∀ b' ∈ L, b'.ptr ≠ b.ptr := by
    intro b' hb' he
    obtain ⟨R', hR', hp⟩ := live_page_mem h hb'
    exact hn R' hR' (by omega)
  constructor
  case pages => exact pages_cons h hn
  case nodup => exact nodup_cons h hn
  case kinds =>
    intro R' hR'
    rcases List.mem_cons.mp hR' with rfl | hR'
    · exact Or.inl (by rw [hR]; exact ⟨rfl, rfl⟩)
    · exact h'.kinds R' hR'
  case list_nodup => exact h.list_nodup
  case list_blocks =>
    intro d hd e he
    obtain ⟨R', hR', hm⟩ := h'.list_blocks d hd e he
    exact ⟨R', List.mem_cons_of_mem _ hR', hm⟩
  case counts =>
    intro R' hR' d hm
    rcases List.mem_cons.mp hR' with rfl | hR'
    · rw [hR] at hm
      cases hm
    · exact h'.counts R' hR' d hm
  case live_nodup =>
    refine List.nodup_cons.mpr ⟨fun hm => ?_, h.live_nodup⟩
    obtain ⟨b', hb', he⟩ := List.mem_map.mp hm
    exact hnew b' hb' he
  case live_blocks =>
    intro b' hb'
    rcases List.mem_cons.mp hb' with rfl | hb'
    · exact ⟨R, List.mem_cons_self, Or.inl ⟨by rw [hR], hb, hfit⟩⟩
    · obtain ⟨R', hR', hm⟩ := h'.live_blocks b' hb'
      exact ⟨R', List.mem_cons_of_mem _ hR', hm⟩
  case unlisted_live =>
    intro R' hR' d hm k hk
    rcases List.mem_cons.mp hR' with rfl | hR'
    · rw [hR] at hm
      cases hm
    · rw [h'.unlisted_live R' hR' d hm k hk]
      constructor
      · rintro ⟨b', hb', he⟩
        exact ⟨b', List.mem_cons_of_mem _ hb', he⟩
      · rintro ⟨b', hb', he⟩
        rcases List.mem_cons.mp hb' with rfl | hb'
        · refine (hn R' hR' ?_).elim
          rw [← block_page (R := R') hk, ← he, hb]
          omega
        · exact ⟨b', hb', he⟩

theorem Accounts.add_small (h : Accounts fit H hdr lists L) (hn : NewPage H R) (hd : d < 7)
    (hc : R.count = 1) (he : lists d = []) (hR : hdr' R = ⟨some d, blocksOf d, false⟩)
    (hh : ∀ R' ∈ H, hdr' R' = hdr R')
    (hl : lists' d = (List.range (blocksOf d)).map (block R d))
    (ho : ∀ d' ≠ d, lists' d' = lists d') : Accounts fit (R :: H) hdr' lists' L := by
  have hmem : ∀ e, e ∈ lists' d ↔ ∃ k < blocksOf d, e = block R d k := by
    intro e
    rw [hl, List.mem_map]
    constructor
    · rintro ⟨k, hk, rfl⟩
      exact ⟨k, List.mem_range.mp hk, rfl⟩
    · rintro ⟨k, hk, rfl⟩
      exact ⟨k, List.mem_range.mpr hk, rfl⟩
  have hclass : ∀ d', (hdr' R).memDescAddr = some d' → d' = d := by
    intro d' hm
    rw [hR, Option.some.injEq] at hm
    exact hm.symm
  -- no block of an old arena is on the new list
  have hother : ∀ R' ∈ H, ∀ k < blocksOf d, block R' d k ∉ lists' d := by
    intro R' hR' k hk hin
    obtain ⟨k', hk', he'⟩ := (hmem _).mp hin
    exact hn R' hR' (by rw [← block_page (R := R') hk, he', block_page hk'])
  have hlist : ∀ R' ∈ H, ∀ d' k, k < blocksOf d' →
      (block R' d' k ∈ lists' d' ↔ block R' d' k ∈ lists d') := by
    intro R' hR' d' k hk
    by_cases hdd : d' = d
    · subst hdd
      simp [hother R' hR' k hk, he]
    · rw [ho d' hdd]
  constructor
  case pages => exact pages_cons h hn
  case nodup => exact nodup_cons h hn
  case kinds =>
    intro R' hR'
    rcases List.mem_cons.mp hR' with rfl | hR'
    · exact Or.inr ⟨d, hd, by rw [hR], hc⟩
    · exact hh R' hR' ▸ h.kinds R' hR'
  case list_nodup =>
    intro d' hd'
    by_cases hdd : d' = d
    · subst hdd
      rw [hl]
      exact List.nodup_range.map fun k k' hk => block_inj.mp hk
    · rw [ho d' hdd]
      exact h.list_nodup d' hd'
  case list_blocks =>
    intro d' hd' e hin
    by_cases hdd : d' = d
    · subst hdd
      exact ⟨R, List.mem_cons_self, by rw [hR], (hmem e).mp hin⟩
    · rw [ho d' hdd] at hin
      obtain ⟨R', hR', hm, hk⟩ := h.list_blocks d' hd' e hin
      exact ⟨R', List.mem_cons_of_mem _ hR', hh R' hR' ▸ hm, hk⟩
  case counts =>
    intro R' hR' d' hm
    rcases List.mem_cons.mp hR' with rfl | hR'
    · cases hclass d' hm
      rw [hR]
      exact (listed_full_iff.mpr fun k hk => (hmem _).mpr ⟨k, hk, rfl⟩).symm
    · rw [hh R' hR'] at hm ⊢
      rw [h.counts R' hR' d' hm]
      exact listed_congr fun k hk => (hlist R' hR' d' k hk).symm
  case live_nodup => exact h.live_nodup
  case live_blocks =>
    intro b hb
    obtain ⟨R', hR', hm⟩ := h.live_blocks b hb
    exact ⟨R', List.mem_cons_of_mem _ hR', hh R' hR' ▸ hm⟩
  case unlisted_live =>
    intro R' hR' d' hm k hk
    rcases List.mem_cons.mp hR' with rfl | hR'
    · cases hclass d' hm
      refine iff_of_false (fun hnot => hnot ((hmem _).mpr ⟨k, hk, rfl⟩)) ?_
      rintro ⟨b, hb, hp⟩
      obtain ⟨R₀, hR₀, hpage⟩ := live_page_mem h hb
      exact hn R₀ hR₀ (by rw [← hpage, hp, block_page hk])
    · rw [hh R' hR'] at hm
      rw [hlist R' hR' d' k hk]
      exact h.unlisted_live R' hR' d' hm k hk

/-! ## Blocks of a small arena -/

theorem Accounts.pop (h : Accounts fit H hdr lists L) (hd : d < 7) {rest : List ℕ} {b : Live}
    (hsize : b.size ≤ blockSizeOf d) (he : lists d = b.ptr :: rest) (hR : R ∈ H)
    (hm : (hdr R).memDescAddr = some d) (hp : b.ptr / 4096 = R.page)
    (hcnt : hdr' R = { hdr R with cnt := (hdr R).cnt - 1 })
    (hh : ∀ R' ∈ H, R' ≠ R → hdr' R' = hdr R') (hl : lists' d = rest)
    (ho : ∀ d' ≠ d, lists' d' = lists d') : Accounts fit H hdr' lists' (b :: L) ∧
      (hdr' R).cnt < blocksOf d := by
  have hnd := h.list_nodup d hd
  rw [he] at hnd
  obtain ⟨hnot, hrest⟩ := List.nodup_cons.mp hnd
  obtain ⟨R₁, hR₁, -, k, hk, hbk⟩ := h.list_blocks d hd b.ptr (by rw [he]; exact List.mem_cons_self)
  obtain rfl : R₁ = R := h.pages R₁ hR₁ R hR (by rw [← hp, hbk, block_page hk])
  have hdesc := desc_recounted hcnt hh
  have hone : listed (lists d) R₁ d = listed rest R₁ d + 1 := by
    rw [he]
    refine listed_add hk (hbk ▸ hnot) fun e => ?_
    rw [List.mem_cons, hbk, or_comm]
  -- only the popped block's membership has changed
  have hlist : ∀ R' ∈ H, ∀ d' j, (hdr R').memDescAddr = some d' → j < blocksOf d' →
      (block R' d' j ∉ lists' d' ↔ block R' d' j ∉ lists d' ∨ block R' d' j = b.ptr) := by
    intro R' hR' d' j hm' hj
    by_cases hdd : d' = d
    · subst hdd
      rw [hl, he, List.mem_cons]
      constructor
      · intro hj'
        by_cases hjb : block R' d' j = b.ptr
        · exact Or.inr hjb
        · exact Or.inl (by simp [hjb, hj'])
      · rintro (hj' | hjb)
        · exact fun hin => hj' (Or.inr hin)
        · exact hjb ▸ hnot
    · rw [ho d' hdd]
      refine ⟨Or.inl, fun hor => hor.elim id fun hjb => ?_⟩
      have hown := h.block_owner hR' hR₁ hj hk (hjb.trans hbk)
      rw [hown, hm, Option.some.injEq] at hm'
      exact (hdd hm'.symm).elim
  have hcount : ∀ R' ∈ H, R' ≠ R₁ → ∀ d', (hdr R').memDescAddr = some d' →
      listed (lists' d') R' d' = listed (lists d') R' d' := by
    intro R' hR' hne d' hm'
    refine listed_congr fun j hj => ?_
    have := hlist R' hR' d' j hm' hj
    have hnb : block R' d' j ≠ b.ptr :=
      fun hjb => hne (h.block_owner hR' hR₁ hj hk (hjb.trans hbk))
    simp only [hnb, or_false] at this
    exact not_iff_not.mp this
  have hnl := (h.unlisted_live R₁ hR₁ d hm k hk).not.mp
    (by rw [not_not, he, ← hbk]; exact List.mem_cons_self)
  have hlt : (hdr' R₁).cnt = listed rest R₁ d ∧ listed rest R₁ d < blocksOf d := by
    have h₁ := h.counts R₁ hR₁ d hm
    have h₂ := listed_le (lists d) R₁ d
    rw [hcnt]
    dsimp only
    omega
  refine ⟨?_, by omega⟩
  constructor
  case pages => exact h.pages
  case nodup => exact h.nodup
  case kinds => exact h.kinds_recounted hm hcnt hh
  case list_nodup =>
    intro d' hd'
    by_cases hdd : d' = d
    · rw [hdd, hl]
      exact hrest
    · rw [ho d' hdd]
      exact h.list_nodup d' hd'
  case list_blocks =>
    intro d' hd' e hin
    have hin' : e ∈ lists d' := by
      by_cases hdd : d' = d
      · subst hdd
        rw [hl] at hin
        rw [he]
        exact List.mem_cons_of_mem _ hin
      · rwa [ho d' hdd] at hin
    obtain ⟨R', hR', hm', hk'⟩ := h.list_blocks d' hd' e hin'
    exact ⟨R', hR', hdesc R' hR' ▸ hm', hk'⟩
  case counts =>
    intro R' hR' d' hm'
    rw [hdesc R' hR'] at hm'
    by_cases hRR : R' = R₁
    · subst hRR
      rw [hm, Option.some.injEq] at hm'
      subst hm'
      rw [hl, hlt.1]
    · rw [hh R' hR' hRR, h.counts R' hR' d' hm']
      exact (hcount R' hR' hRR d' hm').symm
  case live_nodup =>
    refine List.nodup_cons.mpr ⟨fun hin => hnl ?_, h.live_nodup⟩
    obtain ⟨b', hb', hpe⟩ := List.mem_map.mp hin
    exact ⟨b', hb', hpe.trans hbk⟩
  case live_blocks =>
    intro b' hb'
    rcases List.mem_cons.mp hb' with rfl | hb'
    · exact ⟨R₁, hR₁, Or.inr ⟨d, (hdesc R₁ hR₁).trans hm, hsize, k, hk, hbk⟩⟩
    · obtain ⟨R', hR', hm'⟩ := h.live_blocks b' hb'
      exact ⟨R', hR', hdesc R' hR' ▸ hm'⟩
  case unlisted_live =>
    intro R' hR' d' hm' j hj
    rw [hdesc R' hR'] at hm'
    rw [hlist R' hR' d' j hm' hj, h.unlisted_live R' hR' d' hm' j hj]
    constructor
    · rintro (⟨b', hb', hpe⟩ | hjb)
      · exact ⟨b', List.mem_cons_of_mem _ hb', hpe⟩
      · exact ⟨b, List.mem_cons_self, hjb.symm⟩
    · rintro ⟨b', hb', hpe⟩
      rcases List.mem_cons.mp hb' with rfl | hb'
      · exact Or.inr hpe.symm
      · exact Or.inl ⟨b', hb', hpe⟩

theorem live_eq (h : Accounts fit H hdr lists L) {b b' : Live} (hb : b ∈ L) (hb' : b' ∈ L)
    (hp : b.ptr = b'.ptr) : b = b' := List.inj_on_of_nodup_map h.live_nodup hb hb' hp

theorem live_erase (h : Accounts fit H hdr lists L) (b b' : Live) :
    b' ∈ L.erase b ↔ b' ∈ L ∧ b' ≠ b := by
  rw [(h.live_nodup.of_map _).mem_erase_iff, and_comm]

theorem Accounts.push (h : Accounts fit H hdr lists L) {b : Live} {k : ℕ} (hb : b ∈ L) (hR : R ∈ H)
    (hm : (hdr R).memDescAddr = some d) (hk : k < blocksOf d) (hbk : b.ptr = block R d k)
    (hcnt : hdr' R = { hdr R with cnt := (hdr R).cnt + 1 })
    (hh : ∀ R' ∈ H, R' ≠ R → hdr' R' = hdr R') (hl : lists' d = lists d ++ [b.ptr])
    (ho : ∀ d' ≠ d, lists' d' = lists d') : Accounts fit H hdr' lists' (L.erase b) := by
  have hnot : b.ptr ∉ lists d := hbk ▸ (h.unlisted_live R hR d hm k hk).mpr ⟨b, hb, hbk⟩
  have hdesc := desc_recounted hcnt hh
  have hmem : ∀ e, e ∈ lists' d ↔ e ∈ lists d ∨ e = block R d k := by
    intro e
    rw [hl, List.mem_append, List.mem_singleton, hbk]
  have hlist : ∀ R' ∈ H, ∀ d' j, (hdr R').memDescAddr = some d' → j < blocksOf d' →
      (block R' d' j ∈ lists' d' ↔ block R' d' j ∈ lists d' ∨ block R' d' j = b.ptr) := by
    intro R' hR' d' j hm' hj
    by_cases hdd : d' = d
    · subst hdd
      rw [hmem, hbk]
    · rw [ho d' hdd]
      refine ⟨Or.inl, fun hor => hor.elim id fun hjb => ?_⟩
      have hown := h.block_owner hR' hR hj hk (hjb.trans hbk)
      rw [hown, hm, Option.some.injEq] at hm'
      exact (hdd hm'.symm).elim
  constructor
  case pages => exact h.pages
  case nodup => exact h.nodup
  case kinds => exact h.kinds_recounted hm hcnt hh
  case list_nodup =>
    intro d' hd'
    by_cases hdd : d' = d
    · subst hdd
      rw [hl]
      exact List.nodup_append.mpr ⟨h.list_nodup d' hd', List.nodup_singleton _,
        fun e he e' he' => by rw [List.mem_singleton.mp he']; rintro rfl; exact hnot he⟩
    · rw [ho d' hdd]
      exact h.list_nodup d' hd'
  case list_blocks =>
    intro d' hd' e hin
    by_cases hdd : d' = d
    · subst hdd
      rcases (hmem e).mp hin with hin | he
      · obtain ⟨R', hR', hm', hk'⟩ := h.list_blocks d' hd' e hin
        exact ⟨R', hR', hdesc R' hR' ▸ hm', hk'⟩
      · exact ⟨R, hR, (hdesc R hR).trans hm, k, hk, he⟩
    · rw [ho d' hdd] at hin
      obtain ⟨R', hR', hm', hk'⟩ := h.list_blocks d' hd' e hin
      exact ⟨R', hR', hdesc R' hR' ▸ hm', hk'⟩
  case counts =>
    intro R' hR' d' hm'
    rw [hdesc R' hR'] at hm'
    by_cases hRR : R' = R
    · subst hRR
      rw [hm, Option.some.injEq] at hm'
      subst hm'
      rw [hcnt, listed_add hk (hbk ▸ hnot) hmem]
      exact congrArg (· + 1) (h.counts R' hR' _ hm)
    · rw [hh R' hR' hRR, h.counts R' hR' d' hm']
      refine listed_congr fun j hj => ?_
      rw [hlist R' hR' d' j hm' hj]
      have hnb : block R' d' j ≠ b.ptr :=
        fun hjb => hRR (h.block_owner hR' hR hj hk (hjb.trans hbk))
      simp [hnb]
  case live_nodup => exact h.live_nodup.sublist (List.erase_sublist.map _)
  case live_blocks =>
    intro b' hb'
    obtain ⟨R', hR', hm'⟩ := h.live_blocks b' (List.mem_of_mem_erase hb')
    exact ⟨R', hR', hdesc R' hR' ▸ hm'⟩
  case unlisted_live =>
    intro R' hR' d' hm' j hj
    rw [hdesc R' hR'] at hm'
    rw [hlist R' hR' d' j hm' hj, not_or, h.unlisted_live R' hR' d' hm' j hj]
    constructor
    · rintro ⟨⟨b', hb', hp⟩, hne⟩
      exact ⟨b', (live_erase h b b').mpr ⟨hb', fun he => hne (by rw [← hp, he])⟩, hp⟩
    · rintro ⟨b', hb', hp⟩
      obtain ⟨hmem', hne⟩ := (live_erase h b b').mp hb'
      exact ⟨⟨b', hmem', hp⟩, fun he => hne (live_eq h hmem' hb (hp.trans he))⟩

/-! ## Arenas that go back to the page allocator -/

theorem Accounts.pages_erase (h : Accounts fit H hdr lists L) :
    ∀ R₁ ∈ H.erase R, ∀ R₂ ∈ H.erase R, R₁.page = R₂.page → R₁ = R₂ := by
  intro R₁ h₁ R₂ h₂
  exact h.pages R₁ (List.mem_of_mem_erase h₁) R₂ (List.mem_of_mem_erase h₂)

theorem Accounts.range_erase (h : Accounts fit H hdr lists L) : R' ∈ H.erase R ↔ R' ∈ H ∧ R' ≠ R := by
  rw [h.nodup.mem_erase_iff, and_comm]

theorem Accounts.drop_large (h : Accounts fit H hdr lists L) {b : Live} (hb : b ∈ L) (hR : R ∈ H)
    (hm : (hdr R).memDescAddr = none) (hp : b.ptr / 4096 = R.page) :
    Accounts fit (H.erase R) hdr lists (L.erase b) := by
  have hbp : b.ptr = 4096 * R.page + 12 := by
    obtain ⟨R', hR', ⟨-, hb', -⟩ | ⟨d, hm', -, k, hk, hb'⟩⟩ := h.live_blocks b hb
    · omega
    · rw [h.pages R' hR' R hR (by rw [← hp, hb', block_page hk]), hm] at hm'
      cases hm'
  constructor
  case pages => exact h.pages_erase
  case nodup => exact h.nodup.erase R
  case kinds => exact fun R' hR' => h.kinds R' (List.mem_of_mem_erase hR')
  case list_nodup => exact h.list_nodup
  case list_blocks =>
    intro d hd e he
    obtain ⟨R', hR', hm', hk⟩ := h.list_blocks d hd e he
    refine ⟨R', h.range_erase.mpr ⟨hR', ?_⟩, hm', hk⟩
    rintro rfl
    rw [hm] at hm'
    cases hm'
  case counts => exact fun R' hR' => h.counts R' (List.mem_of_mem_erase hR')
  case live_nodup => exact h.live_nodup.sublist (List.erase_sublist.map _)
  case live_blocks =>
    intro b' hb'
    obtain ⟨hmem, hne⟩ := (live_erase h b b').mp hb'
    obtain ⟨R', hR', hm'⟩ := h.live_blocks b' hmem
    refine ⟨R', h.range_erase.mpr ⟨hR', ?_⟩, hm'⟩
    rintro rfl
    rcases hm' with ⟨-, hb'', -⟩ | ⟨d, hm', -⟩
    · exact hne (live_eq h hmem hb (hb''.trans hbp.symm))
    · rw [hm] at hm'
      cases hm'
  case unlisted_live =>
    intro R' hR' d hm' k hk
    obtain ⟨hmem, hne⟩ := h.range_erase.mp hR'
    rw [h.unlisted_live R' hmem d hm' k hk]
    constructor
    · rintro ⟨b', hb', he⟩
      refine ⟨b', (live_erase h b b').mpr ⟨hb', ?_⟩, he⟩
      rintro rfl
      exact hne (h.pages R' hmem R hR (by rw [← hp, he, block_page hk]))
    · rintro ⟨b', hb', he⟩
      exact ⟨b', List.mem_of_mem_erase hb', he⟩

theorem Accounts.retire (h : Accounts fit H hdr lists L) (hR : R ∈ H)
    (hm : (hdr R).memDescAddr = some d) (hfull : ∀ k < blocksOf d, block R d k ∈ lists d)
    (hl : ∀ e, e ∈ lists' d ↔ e ∈ lists d ∧ ∀ k < blocksOf d, e ≠ block R d k)
    (hnd : (lists' d).Nodup) (ho : ∀ d' ≠ d, lists' d' = lists d') :
    Accounts fit (H.erase R) hdr lists' L := by
  have hkeep : ∀ R' ∈ H, R' ≠ R → ∀ d' k, k < blocksOf d' →
      (block R' d' k ∈ lists' d' ↔ block R' d' k ∈ lists d') := by
    intro R' hR' hne d' k hk
    by_cases hdd : d' = d
    · subst hdd
      rw [hl]
      exact and_iff_left fun k' hk' he => hne (h.block_owner hR' hR hk hk' he)
    · rw [ho d' hdd]
  constructor
  case pages => exact h.pages_erase
  case nodup => exact h.nodup.erase R
  case kinds => exact fun R' hR' => h.kinds R' (List.mem_of_mem_erase hR')
  case list_nodup =>
    intro d' hd'
    by_cases hdd : d' = d
    · exact hdd ▸ hnd
    · rw [ho d' hdd]
      exact h.list_nodup d' hd'
  case list_blocks =>
    intro d' hd' e he
    by_cases hdd : d' = d
    · subst hdd
      obtain ⟨hin, hnot⟩ := (hl e).mp he
      obtain ⟨R', hR', hm', k, hk, hek⟩ := h.list_blocks d' hd' e hin
      refine ⟨R', h.range_erase.mpr ⟨hR', ?_⟩, hm', k, hk, hek⟩
      rintro rfl
      exact hnot k hk hek
    · rw [ho d' hdd] at he
      obtain ⟨R', hR', hm', hk⟩ := h.list_blocks d' hd' e he
      refine ⟨R', h.range_erase.mpr ⟨hR', ?_⟩, hm', hk⟩
      rintro rfl
      rw [hm, Option.some.injEq] at hm'
      exact hdd hm'.symm
  case counts =>
    intro R' hR' d' hm'
    obtain ⟨hmem, hne⟩ := h.range_erase.mp hR'
    rw [h.counts R' hmem d' hm']
    exact listed_congr fun k hk => (hkeep R' hmem hne d' k hk).symm
  case live_nodup => exact h.live_nodup
  case live_blocks =>
    intro b hb
    obtain ⟨R', hR', hm'⟩ := h.live_blocks b hb
    refine ⟨R', h.range_erase.mpr ⟨hR', ?_⟩, hm'⟩
    rintro rfl
    rcases hm' with ⟨hn, -⟩ | ⟨d', hm', -, k, hk, he⟩
    · rw [hm] at hn
      cases hn
    · rw [hm, Option.some.injEq] at hm'
      subst hm'
      exact (h.unlisted_live R' hR d hm k hk).mpr ⟨b, hb, he⟩ (hfull k hk)
  case unlisted_live =>
    intro R' hR' d' hm' k hk
    obtain ⟨hmem, hne⟩ := h.range_erase.mp hR'
    rw [hkeep R' hmem hne d' k hk]
    exact h.unlisted_live R' hmem d' hm' k hk

end KernelHeapAccounts
