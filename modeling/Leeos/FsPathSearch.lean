import Leeos.FsPaths

/-!
# When `search_file` finds what it should

The loop is first brought to a walk over the components that are left, with the faults in it
(`descend`). The two calls of `path_parse` before the loop make it start with the second name
written over the first and go on behind the second, so a search is right only where the walk
from there and the walk that was asked for say the same.
-/
namespace FsPathSearch

open FsPaths

variable {t : Tree} {p s : CString}

/-! ## One call of `path_parse` -/

theorem copyName_spec (p : CString) : p = (copyName p).1 ++ (copyName p).2 ∧
    slash ∉ (copyName p).1 ∧ ((copyName p).2 = [] ∨ ∃ r, (copyName p).2 = slash :: r) := by
  induction p with
  | nil => simp [copyName]
  | cons c rest ih =>
    simp only [copyName]
    by_cases hc : c = slash
    · simp [hc]
    · simp only [if_neg hc, List.cons_append, List.mem_cons, not_or]
      exact ⟨congrArg (c :: ·) ih.1, ⟨Ne.symm hc, ih.2.1⟩, ih.2.2⟩

theorem skipSlashes_head (p : CString) : skipSlashes p = [] ∨
    ∃ c rest, skipSlashes p = c :: rest ∧ c ≠ slash := by
  induction p with
  | nil => simp [skipSlashes]
  | cons c rest ih =>
    simp only [skipSlashes]
    by_cases hc : c = slash
    · rw [if_pos hc]
      exact ih
    · rw [if_neg hc]
      exact Or.inr ⟨c, rest, rfl, hc⟩

theorem components_slash (s : CString) : components (slash :: s) = components s := by
  have := List.splitOn_append_cons_self_of_not_mem (List.not_mem_nil : slash ∉ []) s
  rw [List.nil_append] at this
  simp [components, this]

theorem components_skipSlashes (p : CString) : components (skipSlashes p) = components p := by
  induction p with
  | nil => rfl
  | cons c rest ih =>
    simp only [skipSlashes]
    by_cases hc : c = slash
    · rw [if_pos hc, ih, hc, components_slash]
    · rw [if_neg hc]

theorem components_name {c : CString} (hc : slash ∉ c) (hne : c ≠ []) : components c = [c] := by
  simp [components, List.splitOn_eq_singleton hc, hne]

theorem components_cons {c : CString} (hc : slash ∉ c) (hne : c ≠ []) (r : CString) :
    components (c ++ slash :: r) = c :: components (slash :: r) := by
  rw [components_slash]
  simp [components, List.splitOn_append_cons_self_of_not_mem hc, hne]

def ptrComponents (ptr : Option CString) : List CString := components (ptr.getD [])

/-- The path goes on behind its last component. -/
def closed (path : CString) : Bool := path.getLast? == some slash

def ptrClosed (ptr : Option CString) : Bool := closed (ptr.getD [])

/-- A pointer that `path_parse` returns: null, or at a slash. -/
def AtSlash (ptr : Option CString) : Prop := ptr = none ∨ ∃ r, ptr = some (slash :: r)

theorem closed_slash (h : p ≠ []) : closed (slash :: p) = closed p := by
  simp [closed, List.getLast?_cons, List.getLast?_eq_some_getLast h]

theorem closed_skipSlashes (h : skipSlashes p ≠ []) : closed (skipSlashes p) = closed p := by
  induction p with
  | nil => rfl
  | cons c rest ih =>
    simp only [skipSlashes] at h ⊢
    by_cases hc : c = slash
    · rw [if_pos hc] at h ⊢
      have hr : rest ≠ [] := by
        rintro rfl
        exact h rfl
      rw [ih h, hc, closed_slash hr]
    · rw [if_neg hc]

theorem closed_of_skipSlashes_nil (h : skipSlashes p = []) : closed (slash :: p) = true := by
  induction p with
  | nil => rfl
  | cons c rest ih =>
    simp only [skipSlashes] at h
    by_cases hc : c = slash
    · rw [if_pos hc] at h
      subst hc
      have := ih h
      simpa [closed, List.getLast?_cons] using this
    · rw [if_neg hc] at h
      cases h

/-- What a call at a slash stores, and where it leaves the pointer. -/
structure Parsed (path : CString) (ptr : Option CString) (name : CString) : Prop where
  at_slash : AtSlash ptr
  no_slash : slash ∉ name
  last : name = [] → ptr = none ∧ components path = [] ∧ closed path = true
  next : name ≠ [] → components path = name :: ptrComponents ptr ∧ closed path = ptrClosed ptr
  shorter : ptrLen ptr < path.length

theorem pathParse_spec (s : CString) :
    Parsed (slash :: s) (pathParse (slash :: s)).1 (pathParse (slash :: s)).2 := by
  obtain ⟨happ, hno, hrest⟩ := copyName_spec (skipSlashes s)
  have hparse : pathParse (slash :: s) =
      (if (copyName (skipSlashes s)).2 = [] then none else some (copyName (skipSlashes s)).2,
        (copyName (skipSlashes s)).1) := by
    simp [pathParse]
  have hshort := ptrLen_pathParse slash s
  have hcomp : components (slash :: s) = components (skipSlashes s) := by
    rw [components_slash, components_skipSlashes]
  rw [hparse] at hshort ⊢
  generalize copyName (skipSlashes s) = r at *
  obtain ⟨name, rest⟩ := r
  simp only at happ hno hrest hshort ⊢
  rcases hrest with rfl | ⟨r, rfl⟩
  · rw [List.append_nil] at happ
    refine ⟨Or.inl rfl, hno, fun hn => ⟨rfl, ?_, ?_⟩, fun hn => ⟨?_, ?_⟩, hshort⟩
    · rw [hcomp, happ, hn]
      rfl
    · exact closed_of_skipSlashes_nil (happ.trans hn)
    · rw [hcomp, happ, components_name hno hn]
      rfl
    · have hc : closed (skipSlashes s) = closed s := closed_skipSlashes (happ ▸ hn)
      have hs : s ≠ [] := by
        rintro rfl
        exact hn happ.symm
      rw [closed_slash hs, ← hc, happ]
      have hlast : name.getLast? ≠ some slash := fun he => hno (List.mem_of_getLast? he)
      simp only [closed, ptrClosed]
      simpa using hlast
  · have hne : name ++ slash :: r ≠ [] := by simp
    have hname : name ≠ [] := by
      rintro rfl
      rcases skipSlashes_head s with h | ⟨c, tl, h, hc⟩
      · rw [h] at happ
        cases happ
      · rw [h] at happ
        exact hc (List.cons.inj happ).1
    refine ⟨Or.inr ⟨r, rfl⟩, hno, fun hn => absurd hn hname, fun _ => ⟨?_, ?_⟩, hshort⟩
    · rw [hcomp, happ, components_cons hno hname]
      rfl
    · have hc : closed (skipSlashes s) = closed s := closed_skipSlashes (happ ▸ hne)
      have hs : s ≠ [] := by
        rintro rfl
        exact hne happ.symm
      rw [closed_slash hs, ← hc, happ]
      simp [closed, ptrClosed, List.getLast?_append]

/-! ## The loop as a walk over components -/

/-- `more` tells whether the path goes on behind the components. -/
def descend (t : Tree) (dir parent iNo : ℕ) (visited : CString) :
    List CString → Bool → SearchResult
  | [], _ => .ok (some iNo, ⟨visited, parent, .directory⟩)
  | name :: rest, more =>
    let path := visited ++ slash :: name
    if path.length < maxPathLen then
      match t.lookup dir name with
      | none => .ok (none, ⟨path, dir, .unknown⟩)
      | some e =>
        if rest = [] ∧ more = false then .error .nullPath
        else if maxPathLen ≤ (rest.headD []).length then .error .nameOverflow
        else if e.fType = .directory then descend t e.iNo dir e.iNo path rest more
        else .ok (some e.iNo, ⟨path, dir, .regular⟩)
    else .error .pathOverflow

theorem strcatPath_fits {visited name : CString}
    (h : (visited ++ slash :: name).length < maxPathLen) :
    strcatPath visited [slash] = .ok (visited ++ [slash]) ∧
      strcatPath (visited ++ [slash]) name = .ok (visited ++ slash :: name) := by
  simp only [List.length_append, List.length_cons] at h
  constructor
  · exact if_pos (by simp only [List.length_cons, List.length_nil]; omega)
  · have hlen : (visited ++ [slash]).length + name.length < maxPathLen := by
      simp only [List.length_append, List.length_cons, List.length_nil]
      omega
    rw [strcatPath, if_pos hlen, List.append_assoc]
    rfl

theorem strcatPath_overflows {visited name : CString}
    (h : ¬ (visited ++ slash :: name).length < maxPathLen) :
    strcatPath visited [slash] = .error .pathOverflow ∨
      strcatPath visited [slash] = .ok (visited ++ [slash]) ∧
        strcatPath (visited ++ [slash]) name = .error .pathOverflow := by
  simp only [List.length_append, List.length_cons] at h
  by_cases hs : visited.length + [slash].length < maxPathLen
  · refine Or.inr ⟨if_pos hs, if_neg ?_⟩
    simp only [List.length_append, List.length_cons, List.length_nil]
    omega
  · exact Or.inl (if_neg hs)

theorem searchLoop_cons {dir parent : ℕ} {pDe : DirEntry} {ptr : Option CString}
    {name visited : CString} (hname : name ≠ []) :
    searchLoop t dir parent pDe ptr name ⟨visited, dir, .unknown⟩ =
      if (visited ++ slash :: name).length < maxPathLen then
        match t.lookup dir name with
        | none => .ok (none, ⟨visited ++ slash :: name, dir, .unknown⟩)
        | some e =>
          match parseNext ptr with
          | .error fault => .error fault
          | .ok (ptr, next) =>
            if e.fType = .directory then
              searchLoop t e.iNo dir e ptr next ⟨visited ++ slash :: name, e.iNo, .unknown⟩
            else .ok (some e.iNo, ⟨visited ++ slash :: name, dir, .regular⟩)
      else .error .pathOverflow := by
  rw [searchLoop, dif_neg hname]
  by_cases hfit : (visited ++ slash :: name).length < maxPathLen
  · obtain ⟨h₁, h₂⟩ := strcatPath_fits hfit
    simp only [h₁, h₂, if_pos hfit]
    cases hl : t.lookup dir name with
    | none => rfl
    | some e =>
      have huse := t.in_use dir name e hl
      simp only
      split
      case h_1 fault hn => simp only [hn]
      case h_2 ptr' next hn =>
        simp only [hn]
        cases hf : e.fType with
        | directory => rfl
        | regular => rfl
        | unknown => exact absurd hf huse
  · rw [if_neg hfit]
    rcases strcatPath_overflows hfit with h₁ | ⟨h₁, h₂⟩
    · simp only [h₁]
    · simp only [h₁, h₂]

theorem parseNext_cons {s : CString} : parseNext (some (slash :: s)) =
    if (pathParse (slash :: s)).2.length < maxPathLen then
      .ok ((pathParse (slash :: s)).1, (pathParse (slash :: s)).2)
    else .error .nameOverflow := by
  simp only [parseNext, storeName, List.drop_nil, List.append_nil]
  by_cases h : (pathParse (slash :: s)).2.length < maxPathLen
  · simp only [if_pos h]
  · simp only [if_neg h]

theorem searchLoop_eq {dir parent : ℕ} {pDe : DirEntry} {ptr : Option CString}
    {name visited : CString} (hname : name ≠ []) (hptr : AtSlash ptr) :
    searchLoop t dir parent pDe ptr name ⟨visited, dir, .unknown⟩ =
      descend t dir parent pDe.iNo visited (name :: ptrComponents ptr) (ptrClosed ptr) := by
  induction hlen : ptrLen ptr using Nat.strong_induction_on
    generalizing dir parent pDe ptr name visited with
  | h n ih =>
    rw [searchLoop_cons hname, descend]
    split
    case isFalse => rfl
    case isTrue hfit =>
      cases hl : t.lookup dir name with
      | none => rfl
      | some e =>
        simp only
        rcases hptr with rfl | ⟨s, rfl⟩
        · rfl
        · have hp := pathParse_spec s
          have hc : ptrComponents (some (slash :: s)) = components (slash :: s) := rfl
          have hcl : ptrClosed (some (slash :: s)) = closed (slash :: s) := rfl
          rw [parseNext_cons, hc, hcl]
          generalize pathParse (slash :: s) = r at *
          obtain ⟨ptr', next⟩ := r
          simp only at hp ⊢
          by_cases hnext : next = []
          · obtain ⟨rfl, hcomp, hclosed⟩ := hp.last hnext
            subst hnext
            have hshort : ¬ maxPathLen ≤ (([] : List CString).headD []).length := by decide
            rw [if_pos (by decide), hcomp, hclosed, if_neg (by simp), if_neg hshort]
            simp only
            by_cases hd : e.fType = .directory
            · rw [if_pos hd, if_pos hd, searchLoop, dif_pos rfl]
              rfl
            · rw [if_neg hd, if_neg hd]
          · obtain ⟨hcomp, hclosed⟩ := hp.next hnext
            have hcons : ¬ (next :: ptrComponents ptr' = [] ∧ ptrClosed ptr' = false) := by simp
            rw [hcomp, hclosed, if_neg hcons]
            by_cases hlong : next.length < maxPathLen
            · have hshort : ¬ maxPathLen ≤ ((next :: ptrComponents ptr').headD []).length :=
                Nat.not_le.mpr hlong
              rw [if_pos hlong, if_neg hshort]
              simp only
              by_cases hd : e.fType = .directory
              · rw [if_pos hd, if_pos hd]
                exact ih (ptrLen ptr') (hlen ▸ hp.shorter) hnext hp.at_slash rfl
              · rw [if_neg hd, if_neg hd]
            · have hover : maxPathLen ≤ ((next :: ptrComponents ptr').headD []).length :=
                Nat.not_lt.mp hlong
              rw [if_neg hlong, if_pos hover]

/-! ## Comparing two walks -/

/-- What may follow a name in a path. -/
def Tail (u : CString) : Prop := u = [] ∨ ∃ r, u = slash :: r

theorem Tail.behind {u : CString} (h : Tail u) (comps : List CString) :
    Tail (comps.head?.elim [] (slash :: ·) ++ u) := by
  cases comps with
  | nil => exact h
  | cons c comps => exact Or.inr ⟨c ++ u, rfl⟩

theorem name_eq {x y u v : CString} (hx : slash ∉ x) (hy : slash ∉ y) (hu : Tail u) (hv : Tail v)
    (h : x ++ u = y ++ v) : x = y := by
  induction x generalizing y with
  | nil =>
    cases y with
    | nil => rfl
    | cons b y =>
      rcases hu with rfl | ⟨r, rfl⟩
      · cases h
      · exact absurd (List.mem_cons.mpr (Or.inl (List.cons.inj h).1)) hy
  | cons a x ih =>
    cases y with
    | nil =>
      rcases hv with rfl | ⟨r, rfl⟩
      · cases h
      · exact absurd (List.mem_cons.mpr (Or.inl (List.cons.inj h).1.symm)) hx
    | cons b y =>
      obtain ⟨rfl, htl⟩ : a = b ∧ x ++ u = y ++ v := List.cons.inj h
      rw [ih (fun hm => hx (List.mem_cons_of_mem _ hm)) (fun hm => hy (List.mem_cons_of_mem _ hm))
        htl]

theorem descend_searchedPath {comps : List CString} {dir parent iNo : ℕ} {visited : CString}
    {more : Bool} {r : Option ℕ × PathSearchRecord}
    (h : descend t dir parent iNo visited comps more = .ok r) :
    ∃ u, r.2.searchedPath = visited ++ (comps.head?.elim [] (slash :: ·)) ++ u ∧ Tail u := by
  induction comps generalizing dir parent iNo visited with
  | nil =>
    cases h
    exact ⟨[], by simp, Or.inl rfl⟩
  | cons name rest ih =>
    rw [descend] at h
    split at h
    case isFalse => cases h
    case isTrue =>
      split at h
      · cases h
        exact ⟨[], by simp, Or.inl rfl⟩
      · split at h
        · cases h
        · split at h
          · cases h
          · split at h
            · obtain ⟨u, hu, htail⟩ := ih h
              exact ⟨rest.head?.elim [] (slash :: ·) ++ u, by simp [hu], htail.behind rest⟩
            · cases h
              exact ⟨[], by simp, Or.inl rfl⟩

theorem follow_searchedPath (comps : List CString) (dir : ℕ) (visited : CString) :
    ∃ u, (follow t dir visited comps).2.searchedPath =
      visited ++ (comps.head?.elim [] (slash :: ·)) ++ u ∧ Tail u := by
  induction comps generalizing dir visited with
  | nil => exact ⟨[], by simp [follow], Or.inl rfl⟩
  | cons name rest ih =>
    simp only [follow]
    split
    · exact ⟨[], by simp, Or.inl rfl⟩
    · split
      · exact ⟨[], by simp, Or.inl rfl⟩
      · split
        case isTrue e _ _ _ =>
          obtain ⟨u, hu, htail⟩ := ih e.iNo (visited ++ slash :: name)
          exact ⟨rest.head?.elim [] (slash :: ·) ++ u, by simp [hu], htail.behind rest⟩
        · exact ⟨[], by simp, Or.inl rfl⟩

/-- Walks that leave the same path behind have taken the same first step. -/
theorem first_eq {x y : CString} {rest rest' : List CString} {dir dir' parent iNo : ℕ}
    {visited : CString} {more : Bool} (hx : slash ∉ x) (hy : slash ∉ y)
    (h : descend t dir parent iNo visited (y :: rest) more =
      .ok (follow t dir' visited (x :: rest'))) : y = x := by
  obtain ⟨u, hu, htu⟩ := descend_searchedPath h
  obtain ⟨v, hv, htv⟩ := follow_searchedPath (t := t) (x :: rest') dir' visited
  have he := hu.symm.trans hv
  simp only [List.head?_cons, Option.elim_some, List.append_assoc, List.cons_append,
    List.append_cancel_left_eq, List.cons.injEq, true_and] at he
  exact name_eq hy hx htu htv he

/-- Below directory `d`, the directories `x`, `x/x` and so on are there, `k` of them, and the last
of them has no entry `x`. -/
def MissingBelow (t : Tree) (x : CString) : ℕ → ℕ → Prop
  | d, 0 => t.lookup d x = none
  | d, k + 1 => ∃ d', t.lookup d x = some ⟨d', .directory⟩ ∧ MissingBelow t x d' k

theorem repeated_head {x : CString} {k : ℕ} {comps rest : List CString}
    (h : comps = List.replicate (k + 1) x ++ rest) : comps ≠ [] ∧ comps.headD [] = x := by
  rw [h, List.replicate_succ, List.cons_append]
  exact ⟨List.cons_ne_nil _ _, List.headD_cons⟩

/-- The walk that leaves one name out agrees with the one that does not, when all names they
visit are that name and both miss it at the same depth. -/
theorem compare_walks {x : CString} (hx : slash ∉ x) {comps : List CString}
    (hno : ∀ c ∈ comps, slash ∉ c) {dir parent iNo : ℕ} {visited : CString} {more : Bool} :
    descend t dir parent iNo visited comps more = .ok (follow t dir visited (x :: comps)) ↔
      ∃ k rest, MissingBelow t x dir k ∧ comps = List.replicate (k + 1) x ++ rest ∧
        visited.length + (k + 1) * (x.length + 1) < maxPathLen := by
  induction comps generalizing dir parent iNo visited with
  | nil =>
    constructor
    · intro h
      obtain ⟨u, hu, -⟩ := follow_searchedPath (t := t) [x] dir visited
      rw [descend] at h
      rw [← Except.ok.inj h] at hu
      have := congrArg List.length hu
      simp at this
    · rintro ⟨k, rest, -, he, -⟩
      simp [List.replicate_succ] at he
  | cons y comps ih =>
    have hno' : ∀ c ∈ comps, slash ∉ c := fun c hc => hno c (List.mem_cons_of_mem _ hc)
    have hlen : (visited ++ slash :: x).length = visited.length + (x.length + 1) := by simp
    constructor
    · intro h
      obtain rfl : y = x := first_eq hx (hno y (List.mem_cons_self ..)) h
      rw [descend, follow] at h
      split at h
      case isFalse => cases h
      case isTrue hfit =>
        rw [hlen] at hfit
        cases hl : t.lookup dir y with
        | none => exact ⟨0, comps, hl, rfl, by omega⟩
        | some e =>
          simp only [hl] at h
          rw [if_neg (List.cons_ne_nil y comps)] at h
          split at h
          · cases h
          · split at h
            · cases h
            · by_cases hd : e.fType = .directory
              · rw [if_pos hd, if_pos hd] at h
                obtain ⟨k, rest, hmiss, hrest, hbound⟩ := (ih hno').mp h
                refine ⟨k + 1, rest, ⟨e.iNo, by rw [hl, ← hd], hmiss⟩, ?_, ?_⟩
                · rw [hrest, List.replicate_succ (n := k + 1), List.cons_append]
                · rw [hlen] at hbound
                  rw [Nat.succ_mul]
                  omega
              · rw [if_neg hd, if_neg hd] at h
                cases h
    · rintro ⟨k, rest, hmiss, hcomps, hbound⟩
      rw [List.replicate_succ, List.cons_append] at hcomps
      obtain ⟨rfl, hcomps⟩ := List.cons.inj hcomps
      rw [Nat.succ_mul] at hbound
      have hfit : (visited ++ slash :: y).length < maxPathLen := by
        rw [hlen]
        omega
      rw [descend, follow]
      simp only [if_pos hfit]
      cases k with
      | zero =>
        have hl : t.lookup dir y = none := hmiss
        simp only [hl]
      | succ k =>
        obtain ⟨d', hl, hmiss⟩ := hmiss
        obtain ⟨hne, hfirst⟩ := repeated_head hcomps
        have hhead : ¬ maxPathLen ≤ (comps.headD []).length := by
          rw [hlen] at hfit
          rw [hfirst]
          omega
        simp only [hl, if_neg (List.cons_ne_nil y comps), if_neg hhead, hne, false_and, if_false,
          if_true]
        apply (ih hno').mpr
        refine ⟨k, rest, hmiss, hcomps, ?_⟩
        rw [hlen]
        omega

/-! ## The whole search -/

/-- The paths on which `search_file` does what it is for: the root's spellings, and paths whose
second name is a beginning of the first (an absent one after a trailing slash included), if the
walk meets a missing name soon enough. That is the first name in the root, or the second one,
repeated along the path and below the first, before the path ends. -/
def FoundRight (t : Tree) (filename : CString) : Prop :=
  filename ∈ rootSpellings ∨
  ∃ first rest, components filename = first :: rest ∧
    (rest = [] → closed filename = true) ∧ rest.headD [] <+: first ∧
    (t.lookup 0 first = none ∧ first.length + 1 < maxPathLen ∨
      ∃ d x k tail, t.lookup 0 first = some ⟨d, .directory⟩ ∧ MissingBelow t x d k ∧
        rest = List.replicate (k + 2) x ++ tail ∧
        first.length + 1 + (k + 1) * (x.length + 1) < maxPathLen)

theorem components_no_slash (path : CString) : ∀ c ∈ components path, slash ∉ c := by
  induction hlen : path.length using Nat.strong_induction_on generalizing path with
  | h n ih =>
    cases path with
    | nil => simp [components]
    | cons b s =>
      by_cases hb : b = slash
      · subst hb
        have hp := pathParse_spec s
        by_cases hn : (pathParse (slash :: s)).2 = []
        · rw [(hp.last hn).2.1]
          simp
        · rw [(hp.next hn).1]
          intro c hc
          rcases List.mem_cons.mp hc with rfl | hc
          · exact hp.no_slash
          · exact ih _ (hlen ▸ hp.shorter) _ rfl c hc
      · -- a relative path is the absolute one without its slash
        have hp := pathParse_spec (b :: s)
        rw [← components_slash]
        have hn : (pathParse (slash :: b :: s)).2 ≠ [] := by
          simp [pathParse, skipSlashes, hb, copyName]
        rw [(hp.next hn).1]
        intro c hc
        rcases List.mem_cons.mp hc with rfl | hc
        · exact hp.no_slash
        · refine ih _ ?_ _ rfl c hc
          have : ptrLen (pathParse (slash :: b :: s)).1 ≤ s.length := by
            have hb' : pathParse (slash :: b :: s) = pathParse (b :: s) := by
              simp [pathParse, skipSlashes, hb]
            have := ptrLen_pathParse b s
            rw [hb']
            simp only [List.length_cons] at this
            omega
          simp only [List.length_cons] at hlen
          have he : ((pathParse (slash :: b :: s)).1.getD []).length =
              ptrLen (pathParse (slash :: b :: s)).1 := rfl
          omega

/-- The walk from the root, with the second name written over the first. -/
theorem descend_iff {c₁ c₂ : CString} {comps : List CString} {iNo : ℕ} {more : Bool}
    (h₁ : slash ∉ c₁) (h₂ : slash ∉ c₂) (hno : ∀ c ∈ comps, slash ∉ c) :
    descend t 0 0 iNo [] ((c₂ ++ c₁.drop c₂.length) :: comps) more =
        .ok (follow t 0 [] (c₁ :: c₂ :: comps)) ↔
      c₂ <+: c₁ ∧ (t.lookup 0 c₁ = none ∧ c₁.length + 1 < maxPathLen ∨
        ∃ d k tail, t.lookup 0 c₁ = some ⟨d, .directory⟩ ∧ MissingBelow t c₂ d k ∧
          comps = List.replicate (k + 1) c₂ ++ tail ∧
          c₁.length + 1 + (k + 1) * (c₂.length + 1) < maxPathLen) := by
  have hover : slash ∉ c₂ ++ c₁.drop c₂.length := by
    rw [List.mem_append, not_or]
    exact ⟨h₂, fun hm => h₁ (List.mem_of_mem_drop hm)⟩
  have hlen : (([] : CString) ++ slash :: c₁).length = c₁.length + 1 := by simp
  constructor
  · intro h
    have hsame := first_eq h₁ hover h
    have hpre : c₂ <+: c₁ := ⟨_, hsame⟩
    refine ⟨hpre, ?_⟩
    rw [hsame, descend, follow] at h
    split at h
    case isFalse => cases h
    case isTrue hfit =>
      rw [hlen] at hfit
      cases hl : t.lookup 0 c₁ with
      | none => exact Or.inl ⟨rfl, hfit⟩
      | some e =>
        simp only [hl] at h
        rw [if_neg (List.cons_ne_nil c₂ comps)] at h
        split at h
        · cases h
        · split at h
          · cases h
          · by_cases hd : e.fType = .directory
            · rw [if_pos hd, if_pos hd] at h
              obtain ⟨k, tail, hmiss, hcomps, hbound⟩ := (compare_walks h₂ hno).mp h
              rw [hlen] at hbound
              exact Or.inr ⟨e.iNo, k, tail, by rw [← hd], hmiss, hcomps, hbound⟩
            · rw [if_neg hd, if_neg hd] at h
              cases h
  · rintro ⟨hpre, h⟩
    have hsame : c₂ ++ c₁.drop c₂.length = c₁ := by
      obtain ⟨u, rfl⟩ := hpre
      simp
    rw [hsame, descend, follow]
    rcases h with ⟨hl, hfit⟩ | ⟨d, k, tail, hl, hmiss, hcomps, hbound⟩
    · rw [if_pos (by rw [hlen]; exact hfit)]
      simp only [hl]
    · have hfit : (([] : CString) ++ slash :: c₁).length < maxPathLen := by
        rw [hlen]
        omega
      obtain ⟨hne, hfirst⟩ := repeated_head hcomps
      have hhead : ¬ maxPathLen ≤ (comps.headD []).length := by
        have hle := hpre.length_le
        rw [hfirst]
        omega
      simp only [if_pos hfit, hl, if_neg (List.cons_ne_nil c₂ comps), if_neg hhead, hne, false_and,
        if_false, if_true]
      apply (compare_walks h₂ hno).mpr
      exact ⟨k, tail, hmiss, hcomps, by rw [hlen]; exact hbound⟩

/-- One name with a slash behind it: the second call has stored nothing and returned null. -/
theorem descend_single_iff {c : CString} {iNo : ℕ} :
    descend t 0 0 iNo [] [c] false = .ok (follow t 0 [] [c]) ↔
      t.lookup 0 c = none ∧ c.length + 1 < maxPathLen := by
  have hlen : (([] : CString) ++ slash :: c).length = c.length + 1 := by simp
  rw [descend, follow, hlen]
  constructor
  · intro h
    split at h
    case isFalse => cases h
    case isTrue hfit =>
      cases hl : t.lookup 0 c with
      | none => exact ⟨rfl, hfit⟩
      | some e =>
        simp only [hl, and_self, if_true] at h
        cases h
  · rintro ⟨hl, hfit⟩
    rw [if_pos hfit]
    simp only [hl]

/-- On absolute paths, `search_file` returns what the tree says, without a fault and with the
record right, exactly on the paths of `FoundRight`. -/
theorem searchFile_iff (t : Tree) (stack : DirEntry) (s : CString) :
    searchFile t stack (slash :: s) = .ok (expected t (slash :: s)) ↔
      FoundRight t (slash :: s) := by
  by_cases hroot : slash :: s ∈ rootSpellings
  · simp [searchFile, expected, FoundRight, hroot, follow]
  have hp := pathParse_spec s
  simp only [searchFile, expected, FoundRight, hroot, if_false, false_or, storeName, List.drop_nil,
    List.append_nil]
  generalize pathParse (slash :: s) = r₁ at *
  obtain ⟨ptr, c₁⟩ := r₁
  simp only at hp ⊢
  by_cases hne₁ : c₁ = []
  · obtain ⟨rfl, hcomps, -⟩ := hp.last hne₁
    rw [hcomps]
    simp [hne₁, maxPathLen]
  obtain ⟨hcomps, hclosed⟩ := hp.next hne₁
  have hno₁ := hp.no_slash
  rw [hcomps, hclosed]
  by_cases hlong₁ : c₁.length < maxPathLen
  case neg =>
    rw [if_neg hlong₁]
    constructor
    · intro h
      cases h
    · rintro ⟨first, rest, he, -, -, h⟩
      obtain ⟨rfl, -⟩ := List.cons.inj he
      rcases h with ⟨-, h⟩ | ⟨d, x, k, tail, -, -, -, h⟩ <;> omega
  rw [if_pos hlong₁]
  simp only
  rcases hp.at_slash with rfl | ⟨s', rfl⟩
  · constructor
    · intro h
      cases h
    · rintro ⟨first, rest, he, hend, -⟩
      obtain ⟨-, rfl⟩ := List.cons.inj he
      exact absurd (hend rfl) (by decide)
  · have hq := pathParse_spec s'
    have hrest : ptrComponents (some (slash :: s')) = components (slash :: s') := rfl
    have hend : ptrClosed (some (slash :: s')) = closed (slash :: s') := rfl
    rw [hrest, hend]
    simp only
    generalize pathParse (slash :: s') = r₂ at *
    obtain ⟨ptr', c₂⟩ := r₂
    simp only at hq ⊢
    have hno : ∀ c ∈ ptrComponents ptr', slash ∉ c := components_no_slash _
    by_cases hne₂ : c₂ = []
    · obtain ⟨rfl, hcomps₂, hclosed₂⟩ := hq.last hne₂
      subst hne₂
      rw [hcomps₂, hclosed₂, if_pos (by decide)]
      simp only [List.nil_append, List.length_nil, List.drop_zero]
      rw [searchLoop_eq hne₁ (Or.inl rfl)]
      refine descend_single_iff.trans ⟨fun h => ?_, ?_⟩
      · exact ⟨c₁, [], rfl, fun _ => trivial, List.nil_prefix, Or.inl h⟩
      · rintro ⟨first, rest, he, -, -, h⟩
        obtain ⟨rfl, rfl⟩ := List.cons.inj he
        rcases h with h | ⟨d, x, k, tail, -, -, hrest, -⟩
        · exact h
        · simp [List.replicate_succ] at hrest
    · obtain ⟨hcomps₂, hclosed₂⟩ := hq.next hne₂
      rw [hcomps₂, hclosed₂]
      by_cases hlong₂ : c₂.length < maxPathLen
      case neg =>
        rw [if_neg hlong₂]
        constructor
        · intro h
          cases h
        · rintro ⟨first, rest, he, -, hpre, -⟩
          obtain ⟨rfl, rfl⟩ := List.cons.inj he
          have := hpre.length_le
          rw [List.headD_cons] at this
          omega
      rw [if_pos hlong₂]
      simp only
      have hover : c₂ ++ c₁.drop c₂.length ≠ [] := by simp [hne₂]
      rw [searchLoop_eq hover hq.at_slash, descend_iff hno₁ hq.no_slash hno]
      constructor
      · rintro ⟨hpre, h⟩
        refine ⟨c₁, _, rfl, fun he => absurd he (List.cons_ne_nil _ _), hpre, ?_⟩
        rcases h with h | ⟨d, k, tail, hl, hmiss, hcomps, hbound⟩
        · exact Or.inl h
        · refine Or.inr ⟨d, c₂, k, tail, hl, hmiss, ?_, hbound⟩
          rw [hcomps, List.replicate_succ (n := k + 1), List.cons_append]
      · rintro ⟨first, rest, he, -, hpre, h⟩
        obtain ⟨rfl, rfl⟩ := List.cons.inj he
        refine ⟨hpre, ?_⟩
        rcases h with h | ⟨d, x, k, tail, hl, hmiss, hcomps, hbound⟩
        · exact Or.inl h
        · rw [List.replicate_succ (n := k + 1), List.cons_append] at hcomps
          obtain ⟨rfl, hcomps⟩ := List.cons.inj hcomps
          exact Or.inr ⟨d, k, tail, hl, hmiss, hcomps, hbound⟩

/-- Directory `a` in the root, with a file `b` in it. -/
def sampleTree : Tree where
  lookup := fun d name =>
    if d = 0 ∧ name = [0x61#8] then some ⟨1, .directory⟩
    else if d = 1 ∧ name = [0x62#8] then some ⟨2, .regular⟩
    else none
  in_use := by
    intro d name e he
    split at he
    · cases he
      decide
    · split at he
      · cases he
        decide
      · cases he

/-- `/a/b` is there, and the search looks for `b` in the root. -/
theorem search_misses_file : expected sampleTree [0x2f#8, 0x61#8, 0x2f#8, 0x62#8] =
      (some 2, ⟨[0x2f#8, 0x61#8, 0x2f#8, 0x62#8], 1, .regular⟩) ∧
    searchFile sampleTree ⟨0, .unknown⟩ [0x2f#8, 0x61#8, 0x2f#8, 0x62#8] =
      .ok (none, ⟨[0x2f#8, 0x62#8], 0, .unknown⟩) := by
  constructor
  · decide
  · have hname : [0x62#8] ≠ [] := by decide
    exact @searchLoop_cons sampleTree 0 0 ⟨0, .unknown⟩ none [0x62#8] [] hname

end FsPathSearch
