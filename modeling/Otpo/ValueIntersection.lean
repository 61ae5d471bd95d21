import Otpo.ValueMerge

/-!
# The intersection of result files

The branch that keeps what occurs in all the files. It compares the names at
one index, and the values with the first other file.
-/

set_option autoImplicit false

namespace Otpo.ValueIntersection
open Otpo.ParamList Otpo.ValueMerge

/-- The `y` loop over the names of another file. It compares `params[x][j]`
again and again, so the first comparison decides. -/
def sameName (name : Text) (j : ℕ) (other : List ResultParam) : Except Fault Bool :=
  if other.length = 0 then .ok false
  else
    match other[j]? with
    | none => .error .undefined
    | some p => .ok (name == p.name)

def inOthers (name : Text) (i j : ℕ) : ℕ → List (List ResultParam) → Except Fault Bool
  | _, [] => .ok true
  | x, other::files =>
    if x = i then inOthers name i j (x+1) files
    else
      match sameName name j other with
      | .error f => .error f
      | .ok true => inOthers name i j (x+1) files
      | .ok false => .ok false

def addName (files : List (List ResultParam)) (names : List Text) (e : Entry) :
    Except Fault (List Text) :=
  if e.param.name ∈ names then .ok names
  else
    match inOthers e.param.name e.file e.index 0 files with
    | .error f => .error f
    | .ok true => .ok (names ++ [e.param.name])
    | .ok false => .ok names

def findValue (value : ℤ) : List Text → Bool
  | [] => false
  | v::vs => if value = atoi v then true else if value < atoi v then false else findValue value vs

def findInFile (name : Text) (value : ℤ) (other : List ResultParam) : Bool :=
  match other.find? (name == ·.name) with
  | some p => findValue value p.values
  | none => false

/-- The `x` loop over the values, from file `x` on. The flag is not cleared
between two files. -/
def keepValue (name : Text) (value : ℤ) (i : ℕ) : ℕ → Bool → List (List ResultParam) → Bool
  | _, _, [] => true
  | x, found, other::files =>
    if x = i then keepValue name value i (x+1) found files
    else
      let found := found || findInFile name value other
      if found then keepValue name value i (x+1) found files else false

def intersectionValues (files : List (List ResultParam)) (name : Text) : List Text × ℕ :=
  (entries files).foldl
    (fun acc e =>
      if e.param.name = name then
        insertValues acc
          (e.param.values.filter fun v => keepValue name (atoi v) e.file 0 false files)
      else acc)
    ([], 0)

def intersection (files : List (List ResultParam)) : Except Fault (List CombinedParam) :=
  match (entries files).foldlM (addName files) [] with
  | .error f => .error f
  | .ok names => .ok (names.map fun name =>
      let (values, numValues) := intersectionValues files name
      { name, values, numValues })

section Loops

variable {name : Text} {i j x : ℕ} {value : ℤ} {vs : List Text} {f : List ResultParam}

def nameAt (f : List ResultParam) (j : ℕ) : Option Text := (f[j]?).map ResultParam.name

def others (i x : ℕ) (files : List (List ResultParam)) : List (List ResultParam) :=
  ((files.zipIdx x).filter (·.2 ≠ i)).map Prod.fst

theorem others_cons (i x : ℕ) (f : List ResultParam) (files : List (List ResultParam)) :
    others i x (f::files) = if x = i then others i (x+1) files else f::others i (x+1) files := by
  by_cases h : x = i <;> simp [others, List.zipIdx_cons, h]

theorem others_behind (files : List (List ResultParam)) (h : i < x) :
    others i x files = files := by
  induction files generalizing x with
  | nil => rfl
  | cons f files ih => rw [others_cons, if_neg (by omega), ih (by omega)]

theorem others_erase (files : List (List ResultParam)) (i x : ℕ) :
    others (x+i) x files = files.eraseIdx i := by
  induction files generalizing i x with
  | nil => rfl
  | cons f files ih =>
    rw [others_cons]
    cases i with
    | zero => rw [if_pos (by omega), others_behind files (by omega), List.eraseIdx_zero,
        List.tail_cons]
    | succ i => rw [if_neg (by omega), List.eraseIdx_cons_succ, ← ih i (x+1),
        show x+(i+1) = x+1+i by omega]

def inAll (name : Text) (j : ℕ) : List (List ResultParam) → Except Fault Bool
  | [] => .ok true
  | f::files =>
    match sameName name j f with
    | .error fault => .error fault
    | .ok true => inAll name j files
    | .ok false => .ok false

theorem in_others_all (files : List (List ResultParam)) :
    inOthers name i j x files = inAll name j (others i x files) := by
  induction files generalizing x with
  | nil => rfl
  | cons f files ih =>
    rw [inOthers, others_cons]
    split_ifs
    · exact ih
    · rw [inAll]
      split <;> first | rfl | exact ih

theorem same_name_fault : (∃ fault, sameName name j f = .error fault) ↔
    f ≠ [] ∧ f.length ≤ j := by
  rw [sameName]
  by_cases hf : f = []
  · simp [hf]
  · cases hj : f[j]? with
    | none => simp [hf, List.getElem?_eq_none_iff.mp hj]
    | some p =>
      have hlt := (List.getElem?_eq_some_iff.mp hj).1
      simp [hf]
      omega

theorem same_name_true : sameName name j f = .ok true ↔ nameAt f j = some name := by
  rw [sameName, nameAt]
  by_cases hf : f = []
  · simp [hf]
  · rw [if_neg (mt List.length_eq_zero_iff.mp hf)]
    cases f[j]? with
    | none => simp
    | some p => simpa using eq_comm

theorem in_all_true {files : List (List ResultParam)} :
    inAll name j files = .ok true ↔ ∀ f ∈ files, nameAt f j = some name := by
  induction files with
  | nil => simp [inAll]
  | cons f files ih =>
    rw [inAll, List.forall_mem_cons, ← same_name_true, ← ih]
    split <;> simp_all

theorem in_all_defined {files : List (List ResultParam)} : (∃ b, inAll name j files = .ok b) ↔
    ∀ before f after, files = before ++ f::after → f ≠ [] → f.length ≤ j →
      ∃ g ∈ before, nameAt g j ≠ some name := by
  induction files with
  | nil => simp [inAll]
  | cons g files ih =>
    constructor
    · rintro ⟨b, hb⟩ before f after he hne hle
      cases before with
      | nil =>
        cases he
        obtain ⟨fault, hfault⟩ := same_name_fault.mpr ⟨hne, hle⟩
        rw [inAll, hfault] at hb
        cases hb
      | cons _ before =>
        cases he
        by_cases hg : nameAt g j = some name
        · rw [inAll, same_name_true.mpr hg] at hb
          obtain ⟨g', hg', hn⟩ := ih.mp ⟨b, hb⟩ before f after rfl hne hle
          exact ⟨g', List.mem_cons_of_mem _ hg', hn⟩
        · exact ⟨g, List.mem_cons_self, hg⟩
    · intro h
      rw [inAll]
      cases hs : sameName name j g with
      | error fault =>
        obtain ⟨hne, hle⟩ := same_name_fault.mp ⟨fault, hs⟩
        obtain ⟨g', hg', _⟩ := h [] g files rfl hne hle
        cases hg'
      | ok same =>
        cases same with
        | false => exact ⟨false, rfl⟩
        | true =>
          refine ih.mpr fun before f after he hne hle => ?_
          obtain ⟨g', hg', hn⟩ := h (g::before) f after (by rw [he]; rfl) hne hle
          rcases List.mem_cons.mp hg' with rfl | hg'
          · exact absurd (same_name_true.mp hs) hn
          · exact ⟨g', hg', hn⟩

theorem find_value_iff (h : vs.Pairwise fun a b => atoi a ≤ atoi b) :
    findValue value vs = true ↔ ∃ v ∈ vs, atoi v = value := by
  induction vs with
  | nil => simp [findValue]
  | cons v vs ih =>
    obtain ⟨hv, hvs⟩ := List.pairwise_cons.mp h
    rw [findValue, List.exists_mem_cons_iff]
    by_cases he : value = atoi v
    · simp [he]
    · rw [if_neg he]
      by_cases hlt : value < atoi v
      · rw [if_pos hlt]
        refine iff_of_false Bool.false_ne_true ?_
        rintro (hw | ⟨w, hw, rfl⟩)
        · exact he hw.symm
        · exact absurd hlt (not_lt.mpr (hv w hw))
      · rw [if_neg hlt, ih hvs]
        simp [eq_comm, he]

/-- After the first other file the flag stays. -/
theorem keep_value_found (files : List (List ResultParam)) :
    keepValue name value i x true files = true := by
  induction files generalizing x with
  | nil => rfl
  | cons f files ih => simp [keepValue, ih]

theorem keep_value_head (files : List (List ResultParam)) :
    keepValue name value i x false files =
      ((others i x files).head?).all (findInFile name value) := by
  induction files generalizing x with
  | nil => rfl
  | cons f files ih =>
    rw [keepValue, others_cons]
    split_ifs with hx
    · exact ih
    · cases hf : findInFile name value f <;> simp [hf, keep_value_found]

end Loops

end Otpo.ValueIntersection
