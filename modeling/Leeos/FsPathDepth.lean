import Leeos.FsPathSearch
import Leeos.FsDirectory

/-!
# Counting the components of a path (`path_deepth_cnt` in `fs/fs.c`)

`name` is the buffer of 16 bytes on the stack, with whatever it held before; a store behind it
ends the run. The loop goes on as long as the first byte of the buffer is not 0. A path fits into
32-bit memory, so the count is a number.
-/
namespace FsPathDepth

open KernelBitmap FsDisk FsPaths FsPathSearch
open FsDirectory (maxFileNameLen)

inductive DepthHalt where
  | nameOverflow
  | fuel
  deriving DecidableEq, Repr

def parseInto (path : CString) (name : Bytes) : Except DepthHalt (Option CString × Bytes) :=
  if (pathParse path).2.length ≤ maxFileNameLen then
    .ok ((pathParse path).1, copyBytes (fun i => (pathParse path).2.getD i 0#8) 0 name 0
      (pathParse path).2.length)
  else .error .nameOverflow

def depthLoop : ℕ → Option CString → Bytes → ℕ → Except DepthHalt ℕ
  | 0, _, _, _ => .error .fuel
  | fuel + 1, p, name, depth =>
    if name 0 ≠ 0#8 then
      let name := memset name 0 0#8 maxFileNameLen
      match p with
      | none => depthLoop fuel none name (depth + 1)
      | some path =>
        match parseInto path name with
        | .ok (p, name) => depthLoop fuel p name (depth + 1)
        | .error e => .error e
    else .ok depth

def pathDeepthCnt (fuel : ℕ) (pathname : CString) (name : Bytes) : Except DepthHalt ℕ :=
  match parseInto pathname name with
  | .ok (p, name) => depthLoop fuel p name 0
  | .error e => .error e

/-- The function returns the number of components, and stores nothing behind the buffer. -/
def DepthOk (pathname : CString) (name : Bytes) : Prop :=
  ∀ fuel, pathname.length + 2 < fuel →
    pathDeepthCnt fuel pathname name = .ok (components pathname).length

def AllFit (comps : List CString) : Prop := ∀ c ∈ comps, c.length ≤ maxFileNameLen

instance (comps : List CString) : Decidable (AllFit comps) :=
  inferInstanceAs (Decidable (∀ c ∈ comps, _))

variable {s path : CString} {ptr : Option CString} {name : Bytes} {comps : List CString}
  {fuel depth : ℕ}

theorem allFit_nil : AllFit [] := fun _ hc => by cases hc

theorem allFit_cons {c : CString} :
    AllFit (c :: comps) ↔ c.length ≤ maxFileNameLen ∧ AllFit comps := List.forall_mem_cons

/-! ## One call -/

theorem pathParse_slash (s : CString) : pathParse (slash :: s) = pathParse s := by
  cases s with
  | nil => rfl
  | cons c rest =>
    by_cases hc : c = slash
    · simp [pathParse, skipSlashes, hc]
    · simp [pathParse, skipSlashes, hc]

theorem pathParse_parsed (s : CString) :
    Parsed (slash :: s) (pathParse s).1 (pathParse s).2 := by
  rw [← pathParse_slash]
  exact pathParse_spec s

theorem skipSlashes_mem {c : BitVec 8} (p : CString) (h : c ∈ skipSlashes p) : c ∈ p := by
  induction p with
  | nil => exact h
  | cons d rest ih =>
    rw [skipSlashes] at h
    split at h
    · exact List.mem_cons_of_mem d (ih h)
    · exact h

theorem pathParse_mem {c : BitVec 8} (h : c ∈ (pathParse s).2 ++ (pathParse s).1.getD []) :
    c ∈ s := by
  rw [← pathParse_slash] at h
  apply skipSlashes_mem
  rw [(copyName_spec (skipSlashes s)).1]
  simp only [pathParse, if_true] at h
  split at h
  case isTrue he =>
    rw [he]
    simpa using h
  case isFalse => exact h

/-- The first byte of the buffer tells whether a component was stored. -/
theorem parseInto_ok (name : Bytes) (hfit : (pathParse s).2.length ≤ maxFileNameLen)
    (hnul : 0#8 ∉ s) : ∃ name', parseInto s name = .ok ((pathParse s).1, name') ∧
      ((pathParse s).2 ≠ [] → name' 0 ≠ 0#8) ∧ ((pathParse s).2 = [] → name' 0 = name 0) := by
  refine ⟨_, if_pos hfit, ?_, ?_⟩
  · intro hne
    obtain ⟨c, rest, hc⟩ := List.exists_cons_of_ne_nil hne
    have hmem : c ∈ s := pathParse_mem (List.mem_append_left _ (hc ▸ List.mem_cons_self))
    rw [hc, copyBytes_inside (Nat.zero_le 0) (by simp)]
    simp only [Nat.sub_self, Nat.add_zero, List.getD_cons_zero]
    exact fun he => hnul (he ▸ hmem)
  · intro he
    rw [he]
    exact copyBytes_outside (Or.inr le_rfl)

theorem ptrComponents_nul (h : 0#8 ∉ s) : 0#8 ∉ (pathParse s).1.getD [] :=
  fun hm => h (pathParse_mem (List.mem_append_right _ hm))

/-! ## The loop -/

theorem depthLoop_done (h : name 0 = 0#8) (hf : 0 < fuel) :
    depthLoop fuel ptr name depth = .ok depth := by
  cases fuel with
  | zero => cases hf
  | succ fuel => exact if_neg (not_not.mpr h)

theorem memset_zero (name : Bytes) : memset name 0 0#8 maxFileNameLen 0 = 0#8 :=
  memset_inside le_rfl (by decide)

/-- With a component in the buffer, it and the ones behind `p` are counted. -/
theorem depthLoop_eq (hat : AtSlash ptr) (hnul : 0#8 ∉ ptr.getD []) (hname : name 0 ≠ 0#8)
    (hf : ptrLen ptr + 1 < fuel) : depthLoop fuel ptr name depth =
      if AllFit (ptrComponents ptr) then .ok (depth + 1 + (ptrComponents ptr).length)
      else .error .nameOverflow := by
  induction fuel generalizing ptr name depth with
  | zero => cases hf
  | succ fuel ih =>
    rw [depthLoop, if_pos hname]
    rcases hat with rfl | ⟨r, rfl⟩
    · have hcomps : ptrComponents none = [] := rfl
      rw [hcomps, if_pos allFit_nil]
      exact depthLoop_done (memset_zero name) (by omega)
    · have hp := pathParse_spec r
      have hcomps : ptrComponents (some (slash :: r)) = components (slash :: r) := rfl
      have hlen : ptrLen (some (slash :: r)) = (slash :: r).length := rfl
      have hshort := hp.shorter
      by_cases hfit : (pathParse (slash :: r)).2.length ≤ maxFileNameLen
      · obtain ⟨name', hparse, hsome, hnone⟩ :=
          parseInto_ok (memset name 0 0#8 maxFileNameLen) hfit hnul
        simp only [hparse]
        by_cases he : (pathParse (slash :: r)).2 = []
        · rw [hcomps, (hp.last he).2.1, if_pos allFit_nil]
          apply depthLoop_done _ (by omega)
          rw [hnone he, memset_zero]
        · rw [ih hp.at_slash (ptrComponents_nul hnul) (hsome he) (by omega), hcomps,
            (hp.next he).1]
          simp only [allFit_cons, hfit, true_and, List.length_cons, Nat.add_assoc, Nat.add_comm 1]
      · have hne : (pathParse (slash :: r)).2 ≠ [] := by
          intro he
          rw [he] at hfit
          exact hfit (Nat.zero_le _)
        have hover : parseInto (slash :: r) (memset name 0 0#8 maxFileNameLen) =
            .error .nameOverflow := if_neg hfit
        rw [hcomps, (hp.next hne).1, if_neg (fun h => hfit (allFit_cons.mp h).1)]
        simp only [hover]

theorem pathDeepthCnt_eq (hnul : 0#8 ∉ path) (hf : path.length + 2 < fuel) :
    pathDeepthCnt fuel path name =
      if AllFit (components path) then
        .ok (if components path = [] ∧ name 0 ≠ 0#8 then 1 else (components path).length)
      else .error .nameOverflow := by
  have hp := pathParse_parsed path
  have hshort := hp.shorter
  have hlen : (slash :: path).length = path.length + 1 := rfl
  have hlast : (pathParse path).2 = [] → (pathParse path).1 = none ∧ components path = [] := by
    intro he
    obtain ⟨hptr, hc, -⟩ := hp.last he
    exact ⟨hptr, (components_slash path).symm.trans hc⟩
  have hnext : (pathParse path).2 ≠ [] →
      components path = (pathParse path).2 :: ptrComponents (pathParse path).1 :=
    fun he => (components_slash path).symm.trans (hp.next he).1
  rw [pathDeepthCnt]
  by_cases hfit : (pathParse path).2.length ≤ maxFileNameLen
  · obtain ⟨name', hparse, hsome, hnone⟩ := parseInto_ok name hfit hnul
    simp only [hparse]
    by_cases he : (pathParse path).2 = []
    · obtain ⟨hptr, hc⟩ := hlast he
      have hcomps : ptrComponents none = [] := rfl
      rw [hc, if_pos allFit_nil, hptr, ← hnone he]
      by_cases hz : name' 0 = 0#8
      · rw [depthLoop_done hz (by omega), if_neg (fun h => h.2 hz)]
        rfl
      · rw [depthLoop_eq (Or.inl rfl) List.not_mem_nil hz (by simp [ptrLen]; omega), hcomps,
          if_pos allFit_nil, if_pos ⟨rfl, hz⟩]
        rfl
    · have hc := hnext he
      rw [depthLoop_eq hp.at_slash (ptrComponents_nul hnul) (hsome he) (by omega), hc,
        if_neg (fun h : _ ∧ _ => List.cons_ne_nil _ _ h.1)]
      simp only [allFit_cons, hfit, true_and, List.length_cons, Nat.zero_add, Nat.add_comm 1]
  · have hne : (pathParse path).2 ≠ [] := by
      intro he
      rw [he] at hfit
      exact hfit (Nat.zero_le _)
    have hover : parseInto path name = .error .nameOverflow := if_neg hfit
    rw [hnext hne, if_neg (fun h => hfit (allFit_cons.mp h).1)]
    simp only [hover]

/-- `path_deepth_cnt` is right exactly if every component fits into the buffer and, where there is
no component, the buffer begins with 0. -/
theorem depth_ok_iff (hnul : 0#8 ∉ path) : DepthOk path name ↔
    AllFit (components path) ∧ (components path ≠ [] ∨ name 0 = 0#8) := by
  constructor
  · intro h
    have hrun := h (path.length + 3) (by omega)
    rw [pathDeepthCnt_eq hnul (by omega)] at hrun
    by_cases hfit : AllFit (components path)
    · refine ⟨hfit, ?_⟩
      rw [if_pos hfit] at hrun
      by_contra hstale
      obtain ⟨hc, hz⟩ := not_or.mp hstale
      rw [if_pos ⟨not_not.mp hc, hz⟩, not_not.mp hc] at hrun
      cases hrun
    · rw [if_neg hfit] at hrun
      cases hrun
  · rintro ⟨hfit, hclean⟩ fuel hf
    rw [pathDeepthCnt_eq hnul hf, if_pos hfit, if_neg]
    rintro ⟨hc, hz⟩
    rcases hclean with h | h
    · exact h hc
    · exact hz h

/-- `//a/b/` with a buffer that holds an `x`. -/
theorem depth_ok_sample :
    DepthOk [0x2f#8, 0x2f#8, 0x61#8, 0x2f#8, 0x62#8, 0x2f#8] (fun _ => 0x78#8) := by
  apply (depth_ok_iff _).mpr
  · exact ⟨by decide, Or.inl (by decide)⟩
  · decide

/-- The path `/` with a buffer that holds an `x`, and a name of 17 bytes. -/
theorem depth_fails : ¬ DepthOk [slash] (fun _ => 0x78#8) ∧
    ¬ DepthOk (List.replicate 17 0x61#8) (fun _ => 0#8) := by
  constructor
  · intro h
    have hrun := h 4 (by decide)
    rw [pathDeepthCnt_eq (by decide) (by decide), if_pos (by decide), if_pos (by decide)] at hrun
    cases hrun
  · intro h
    have hrun := h 20 (by decide)
    rw [pathDeepthCnt_eq (by decide) (by decide), if_neg (by decide)] at hrun
    cases hrun

end FsPathDepth
