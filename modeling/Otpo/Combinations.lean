import Otpo.ParamList
import Otpo.Library.Odometer

/-!
# Stepping through the combinations

The stepping functions compare the current value with the last listed one and
look its successor up by value. Each parameter is one wheel of an odometer;
nothing here assumes that its values are sorted or distinct. The condition
check is a parameter of the loop, so that the loop can be studied on its own.
-/

set_option autoImplicit false

namespace Otpo.Combinations
open Otpo.ParamList

def getNextVal (p : Param) (val : ℤ) : ℤ :=
  match p.possibleValues.findIdx? (· == val) with
  | none => -1
  | some i => if i ≠ p.numValues-1 then p.possibleValues.getD (i+1) 0 else i

/-- `get_next_combination`. A value above the last listed one is left alone. -/
def getNextCombination : List Param → List ℤ → Bool × List ℤ
  | p::ps, v::vs =>
    if v < p.last then (true, getNextVal p v :: vs)
    else if v = p.last then
      ((getNextCombination ps vs).1, p.first :: (getNextCombination ps vs).2)
    else ((getNextCombination ps vs).1, v :: (getNextCombination ps vs).2)
  | _, vs => (false, vs)

def firstCombination (ps : List Param) : List ℤ := ps.map Param.first

def getNumCombinations : List Param → Except Fault ℤ
  | [] => .error .undefined
  | p::ps => do ps.foldlM (fun num q => int32 (num*q.numValues)) (← int32 p.numValues)

theorem int32_nat (n : ℕ) :
    int32 (n:ℤ) = if n ≤ 2147483647 then .ok (n:ℤ) else .error .undefined := by
  unfold int32
  split_ifs <;> first | rfl | omega

theorem prod_numValues_pos (ps : List Param) : 0 < (ps.map Param.numValues).prod := by
  induction ps with
  | nil => exact Nat.one_pos
  | cons p ps ih =>
    rw [List.map_cons, List.prod_cons]
    exact Nat.mul_pos p.numValues_pos ih

theorem get_num_combinations_fold (ps : List Param) (n : ℕ) (hn : n ≤ 2147483647) :
    ps.foldlM (fun (num : ℤ) q => int32 (num*q.numValues)) (n:ℤ) =
      if n*(ps.map Param.numValues).prod ≤ 2147483647
        then .ok ((n*(ps.map Param.numValues).prod : ℕ):ℤ) else .error .undefined := by
  induction ps generalizing n with
  | nil => simp [hn, pure, Except.pure]
  | cons p ps ih =>
    have hstep := int32_nat (n*p.numValues)
    simp only [List.foldlM_cons, List.map_cons, List.prod_cons, ← Nat.mul_assoc,
      ← Nat.cast_mul, hstep]
    by_cases hfit : n*p.numValues ≤ 2147483647
    · rw [if_pos hfit]
      exact ih _ hfit
    · have hbig := Nat.le_mul_of_pos_right (n*p.numValues) (prod_numValues_pos ps)
      rw [if_neg hfit, if_neg (by omega)]
      rfl

theorem get_num_combinations_eq (ps : List Param) (hne : ps ≠ []) :
    getNumCombinations ps =
      if (ps.map Param.numValues).prod ≤ 2147483647
        then .ok ((ps.map Param.numValues).prod:ℤ) else .error .undefined := by
  cases ps with
  | nil => exact absurd rfl hne
  | cons p ps =>
    have hstart := get_num_combinations_fold (p::ps) 1 (by decide)
    simp only [List.foldlM_cons, Nat.cast_one, Int.one_mul, Nat.one_mul] at hstart
    exact hstart

theorem get_num_combinations_ok {ps : List Param} {num : ℤ} :
    getNumCombinations ps = .ok num ↔
      ps ≠ [] ∧ (ps.map Param.numValues).prod ≤ 2147483647 ∧
        num = (ps.map Param.numValues).prod := by
  by_cases hne : ps = []
  · subst hne
    exact iff_of_false (fun h => by cases h) fun h => h.1 rfl
  · rw [get_num_combinations_eq ps hne]
    split_ifs with hfit
    · simp [hne, hfit, eq_comm]
    · simp [hfit]

/-- The state of the loop of `otpo_populate_function_set`. The visited
combinations are recorded for the reader; the code keeps the functions only. -/
structure Population where
  attrVals : List ℤ
  visited : List (List ℤ)
  functions : List (List ℤ)
  deriving DecidableEq, Repr

variable (check : List ℤ → Except Fault ℤ)

def populateStep (ps : List Param) (s : Population) : Except Fault (Bool × Population) :=
  match check s.attrVals with
  | .error f => .error f
  | .ok r =>
    .ok ((getNextCombination ps s.attrVals).1,
      { attrVals := (getNextCombination ps s.attrVals).2
        visited := s.visited ++ [s.attrVals]
        functions := if r ≠ 0 then s.functions ++ [s.attrVals] else s.functions })

def populateLoop (ps : List Param) : ℕ → Population → Option (Except Fault Population)
  | 0, _ => none
  | n+1, s =>
    match populateStep check ps s with
    | .error f => some (.error f)
    | .ok (more, t) => if more then populateLoop ps n t else some (.ok t)

def populateFunctionSet (ps : List Param) (n : ℕ) : Option (Except Fault Population) :=
  populateLoop check ps n ⟨firstCombination ps, [], []⟩

/-- The call in `main`: the array has as many functions as `get_num_combinations`
computed, and a count beyond that has overrun it. -/
def registerFunctions (ps : List Param) (n : ℕ) : Option (Except Fault Population) :=
  match getNumCombinations ps with
  | .error f => some (.error f)
  | .ok num =>
    (populateFunctionSet check ps n).map fun r => r.bind fun t =>
      if t.functions.length ≤ num then .ok t else .error .undefined

theorem registerFunctions_ok {ps : List Param} {n : ℕ} {t : Population} :
    registerFunctions check ps n = some (.ok t) ↔
      ∃ num, getNumCombinations ps = .ok num ∧
        populateFunctionSet check ps n = some (.ok t) ∧ t.functions.length ≤ num := by
  unfold registerFunctions
  cases getNumCombinations ps with
  | error f => simp
  | ok num =>
    cases populateFunctionSet check ps n with
    | none => simp
    | some r =>
      cases r with
      | error f => simp [Except.bind]
      | ok u =>
        simp only [Option.map_some, Except.bind, Option.some.injEq, Except.ok.injEq,
          exists_eq_left']
        split_ifs with hfit
        · rw [Except.ok.injEq]
          exact ⟨fun h => ⟨h, h ▸ hfit⟩, fun h => h.1⟩
        · exact ⟨fun h => (nomatch h), fun h => absurd (h.1 ▸ h.2) hfit⟩

def wheel (p : Param) : Odometer.Wheel ℤ where
  advance v := if v < p.last then some (getNextVal p v) else none
  carry v := if v = p.last then p.first else v

theorem next_combination_tick (ps : List Param) (vs : List ℤ) :
    getNextCombination ps vs = Odometer.tick (ps.map wheel) vs := by
  induction ps generalizing vs with
  | nil => rfl
  | cons p ps ih =>
    cases vs with
    | nil => rfl
    | cons v vs =>
      simp only [getNextCombination, List.map_cons, Odometer.tick, wheel, ← ih vs]
      split_ifs <;> rfl

def accepts (v : List ℤ) : Bool :=
  match check v with
  | .ok r => r != 0
  | .error _ => false

def Sound (s : Population) : Prop := s.functions = s.visited.filter (accepts check)

theorem populateStep_ok {ps : List Param} {s t : Population} {more : Bool}
    (h : populateStep check ps s = .ok (more, t)) :
    ∃ r, check s.attrVals = .ok r ∧ more = (getNextCombination ps s.attrVals).1 ∧
      t.attrVals = (getNextCombination ps s.attrVals).2 ∧
      t.visited = s.visited ++ [s.attrVals] ∧
      t.functions = if r ≠ 0 then s.functions ++ [s.attrVals] else s.functions := by
  unfold populateStep at h
  split at h
  · cases h
  · rename_i r hr
    cases h
    exact ⟨r, hr, rfl, rfl, rfl, rfl⟩

theorem populateStep_sound {ps : List Param} {s t : Population} {more : Bool}
    (h : populateStep check ps s = .ok (more, t)) (hs : Sound check s) : Sound check t := by
  obtain ⟨r, hr, _, _, hv, hf⟩ := populateStep_ok check h
  unfold Sound at *
  rw [hf, hv, List.filter_append, ← hs]
  by_cases h0 : r = 0 <;> simp [accepts, hr, h0]

theorem populateLoop_sound {ps : List Param} {n : ℕ} {s t : Population}
    (h : populateLoop check ps n s = some (.ok t)) (hs : Sound check s) : Sound check t := by
  induction n generalizing s with
  | zero => cases h
  | succ n ih =>
    unfold populateLoop at h
    split at h
    · cases h
    · rename_i more u hu
      have hsound := populateStep_sound check hu hs
      split at h
      · exact ih h hsound
      · cases h
        exact hsound

/-- The loop follows the odometer: from a run of the wheels it either returns
having visited exactly that run, or stops in the check of one of its readings. -/
theorem populateLoop_of_run {ps : List Param} {v e : List ℤ} {l : List (List ℤ)}
    (hr : Odometer.Run (ps.map wheel) v l e) (seen fns : List (List ℤ))
    (hs : Sound check ⟨v, seen, fns⟩) (n : ℕ) (hn : l.length ≤ n) :
    (∃ t, populateLoop check ps n ⟨v, seen, fns⟩ = some (.ok t) ∧ t.attrVals = e ∧
      t.visited = seen ++ l ∧ Sound check t) ∨
    (∃ f, populateLoop check ps n ⟨v, seen, fns⟩ = some (.error f) ∧
      ∃ x ∈ l, check x = .error f) := by
  induction hr generalizing seen fns n with
  | @stop v h =>
    obtain ⟨n, rfl⟩ : ∃ m, n = m+1 := ⟨n-1, by simp at hn; omega⟩
    rw [← next_combination_tick] at h
    cases hc : check v with
    | error f =>
      exact Or.inr ⟨f, by simp [populateLoop, populateStep, hc], v, by simp, hc⟩
    | ok r =>
      refine Or.inl ⟨_, by simp only [populateLoop, populateStep, hc, h]; rfl, ?_, rfl, ?_⟩
      · rw [next_combination_tick]
      · exact populateStep_sound check (by simp only [populateStep, hc]; rfl) hs
  | @step v e l h _ ih =>
    obtain ⟨n, rfl⟩ : ∃ m, n = m+1 := ⟨n-1, by simp at hn; omega⟩
    rw [← next_combination_tick] at h ih
    cases hc : check v with
    | error f =>
      exact Or.inr ⟨f, by simp [populateLoop, populateStep, hc], v, by simp, hc⟩
    | ok r =>
      have hp : populateStep check ps ⟨v, seen, fns⟩ = .ok (true,
          ⟨(getNextCombination ps v).2, seen ++ [v], if r ≠ 0 then fns ++ [v] else fns⟩) := by
        simp only [populateStep, hc, h]
      have hl : populateLoop check ps (n+1) ⟨v, seen, fns⟩ = populateLoop check ps n
          ⟨(getNextCombination ps v).2, seen ++ [v], if r ≠ 0 then fns ++ [v] else fns⟩ := by
        simp only [populateLoop, hp, if_true]
      rw [hl]
      rcases ih (seen ++ [v]) _ (populateStep_sound check hp hs) n (by simp at hn; omega) with
        ⟨t, ht, he, hv, hsound⟩ | ⟨f, hf, x, hx, hcx⟩
      · exact Or.inl ⟨t, ht, he, by simp [hv], hsound⟩
      · exact Or.inr ⟨f, hf, x, List.mem_cons_of_mem _ hx, hcx⟩

theorem populateLoop_succ {ps : List Param} {n : ℕ} {s : Population}
    {r : Except Fault Population} (h : populateLoop check ps n s = some r) :
    populateLoop check ps (n+1) s = some r := by
  induction n generalizing s with
  | zero => cases h
  | succ n ih =>
    unfold populateLoop at h ⊢
    cases hp : populateStep check ps s with
    | error f => simpa only [hp] using h
    | ok q =>
      obtain ⟨more, t⟩ := q
      cases more with
      | false =>
        rw [hp] at h
        exact h
      | true =>
        simp only [hp, if_true] at h ⊢
        exact ih h

inductive Reached (ps : List Param) : Bool → Population → Prop
  | start : Reached ps true ⟨firstCombination ps, [], []⟩
  | step {s t : Population} {more : Bool} (h : Reached ps true s)
      (hs : populateStep check ps s = .ok (more, t)) : Reached ps more t

theorem populateLoop_mono {ps : List Param} {n m : ℕ} {s : Population}
    {r : Except Fault Population} (h : populateLoop check ps n s = some r) (hm : n ≤ m) :
    populateLoop check ps m s = some r := by
  induction m, hm using Nat.le_induction with
  | base => exact h
  | succ m _ ih => exact populateLoop_succ check ih

theorem populateLoop_length {ps : List Param} {n : ℕ} {s t : Population}
    (h : populateLoop check ps n s = some (.ok t)) :
    t.visited.length ≤ s.visited.length+n := by
  induction n generalizing s with
  | zero => cases h
  | succ n ih =>
    unfold populateLoop at h
    split at h
    · cases h
    · rename_i more u hu
      obtain ⟨r, _, _, _, hv, _⟩ := populateStep_ok check hu
      have hl : u.visited.length = s.visited.length+1 := by simp [hv]
      split at h
      · have := ih h
        omega
      · cases h
        omega

/-- Conversely the loop returns only along a run of the wheels. -/
theorem run_of_populateLoop {ps : List Param} (n : ℕ) {s t : Population}
    (h : populateLoop check ps n s = some (.ok t)) :
    ∃ l e, Odometer.Run (ps.map wheel) s.attrVals l e ∧ t.visited = s.visited ++ l := by
  induction n generalizing s with
  | zero => cases h
  | succ n ih =>
    unfold populateLoop at h
    split at h
    · cases h
    · rename_i more u hu
      obtain ⟨r, _, hm, ha, hv, _⟩ := populateStep_ok check hu
      rw [next_combination_tick] at hm ha
      split at h
      · rename_i htrue
        obtain ⟨l, e, hr, hl⟩ := ih h
        rw [ha] at hr
        exact ⟨_, e, Odometer.Run.step (hm.symm.trans htrue) hr, by simp [hl, hv]⟩
      · rename_i hfalse
        cases h
        refine ⟨_, _, Odometer.Run.stop ?_, hv⟩
        rw [← hm]
        simpa using hfalse

end Otpo.Combinations
