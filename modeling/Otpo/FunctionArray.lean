import Otpo.ValueOrder

/-!
# The length of the function array

The array gets the `int` product of the value counts as its length. A loop
which ends has never shown a combination twice, so it fits; which loops end is
decided by the repetitions in the value lists.
-/

set_option autoImplicit false

namespace Otpo.FunctionArray
open Otpo.ParamList Otpo.RpnStack Otpo.Combinations Otpo.Enumeration Otpo.ValueOrder

section Loop

variable (check : List ℤ → Except Fault ℤ) (ps : List Param)

def nextChecked (v : List ℤ) : Option (List ℤ) :=
  match check v with
  | .error _ => none
  | .ok _ => if (getNextCombination ps v).1 then some (getNextCombination ps v).2 else none

variable {check ps}

theorem nextChecked_of_step {s t : Population} {more : Bool}
    (h : populateStep check ps s = .ok (more, t)) :
    nextChecked check ps s.attrVals = if more then some t.attrVals else none := by
  obtain ⟨r, hr, hm, ha, _, _⟩ := populateStep_ok check h
  simp only [nextChecked, hr, hm, ha]

theorem path_of_populateLoop {n : ℕ} {s : Population} {r : Except Fault Population}
    (h : populateLoop check ps n s = some r) :
    ∃ l, Orbit.Path (nextChecked check ps) s.attrVals l := by
  induction n generalizing s with
  | zero => cases h
  | succ n ih =>
    unfold populateLoop at h
    split at h
    · rename_i f hf
      unfold populateStep at hf
      split at hf
      · rename_i g hg
        exact ⟨_, .stop (by simp [nextChecked, hg])⟩
      · cases hf
    · rename_i more t ht
      have hnext := nextChecked_of_step ht
      split at h
      · rename_i htrue
        obtain ⟨l, hl⟩ := ih h
        exact ⟨_, .step (by rw [hnext, if_pos htrue]) hl⟩
      · rename_i hfalse
        exact ⟨_, .stop (by rw [hnext, if_neg hfalse])⟩

theorem reached_sound {more : Bool} {s : Population} (h : Reached check ps more s) :
    Sound check s := by
  induction h with
  | start => rfl
  | step _ hs ih => exact populateStep_sound check hs ih

theorem reached_path {l : List (List ℤ)}
    (hl : Orbit.Path (nextChecked check ps) (firstCombination ps) l) {more : Bool}
    {s : Population} (h : Reached check ps more s) :
    ∃ m, l = s.visited ++ m ∧
      (more = true → Orbit.Path (nextChecked check ps) s.attrVals m) := by
  induction h with
  | start => exact ⟨l, rfl, fun _ => hl⟩
  | @step s t more _ hs ih =>
    obtain ⟨m, rfl, hm⟩ := ih
    have hnext := nextChecked_of_step hs
    obtain ⟨r, _, _, _, hv, _⟩ := populateStep_ok check hs
    cases hm rfl with
    | stop hstop =>
      rw [hstop] at hnext
      cases more with
      | true => cases hnext
      | false => exact ⟨[], by simp [hv], by simp⟩
    | @step _ b m hstep ht =>
      rw [hstep] at hnext
      cases more with
      | false => cases hnext
      | true =>
        cases hnext
        exact ⟨m, by simp [hv], fun _ => ht⟩

theorem get_next_val_mem {p : Param} {v : ℤ} (hm : v ∈ p.possibleValues) (hlt : v < p.last) :
    getNextVal p v ∈ p.possibleValues := by
  cases hf : p.possibleValues.findIdx? (· == v) with
  | none =>
    rw [List.findIdx?_eq_none_iff] at hf
    simpa using hf v hm
  | some i =>
    obtain ⟨hi, he, _⟩ := List.findIdx?_eq_some_iff_getElem.mp hf
    have hne : i ≠ p.numValues-1 := by
      rintro rfl
      have hlast : p.possibleValues[p.numValues-1] = p.last :=
        (List.getLast_eq_getElem p.nonempty).symm
      rw [hlast, beq_iff_eq] at he
      omega
    have hbound : i+1 < p.possibleValues.length := by
      simp only [Param.numValues] at hne
      omega
    simp only [getNextVal, hf, if_pos hne]
    rw [List.getD_eq_getElem?_getD, List.getElem?_eq_getElem hbound, Option.getD_some]
    exact List.getElem_mem hbound

theorem get_next_combination_from_values {ps : List Param} {v : List ℤ}
    (h : List.Forall₂ (fun p v => v ∈ p.possibleValues) ps v) :
    List.Forall₂ (fun p v => v ∈ p.possibleValues) ps (getNextCombination ps v).2 := by
  induction h with
  | nil => exact .nil
  | @cons p v ps vs hm ht ih =>
    unfold getNextCombination
    split_ifs with hlt heq
    · exact .cons (get_next_val_mem hm hlt) ht
    · exact .cons p.first_mem ih
    · exact .cons hm ih

theorem first_combination_from_values (ps : List Param) :
    List.Forall₂ (fun p v => v ∈ p.possibleValues) ps (firstCombination ps) := by
  induction ps with
  | nil => exact .nil
  | cons p ps ih => exact .cons p.first_mem ih

/-- A loop that ends has visited distinct elements of the product. -/
theorem reached_length {n : ℕ} {r : Except Fault Population}
    (h : populateFunctionSet check ps n = some r) {more : Bool} {s : Population}
    (hs : Reached check ps more s) :
    s.functions.length ≤ (ps.map Param.numValues).prod := by
  obtain ⟨l, hl⟩ := path_of_populateLoop h
  obtain ⟨m, hm, _⟩ := reached_path hl hs
  have hsub : l ⊆ product ps := by
    intro x hx
    refine mem_product.mpr (Orbit.path_forall ?_ hl (first_combination_from_values ps) x hx)
    intro a b ha hab
    unfold nextChecked at hab
    split at hab
    · cases hab
    · split_ifs at hab
      cases hab
      exact get_next_combination_from_values ha
  calc s.functions.length ≤ s.visited.length := by
        rw [reached_sound hs]
        exact List.length_filter_le ..
    _ ≤ l.length := by
        rw [hm, List.length_append]
        omega
    _ ≤ (product ps).length := (List.subperm_of_subset (Orbit.path_nodup hl) hsub).length_le
    _ = _ := length_product ps

theorem reached_of_error {n : ℕ} {s : Population} {f : Fault} (hs : Reached check ps true s)
    (h : populateLoop check ps n s = some (.error f)) :
    ∃ t, Reached check ps true t ∧ check t.attrVals = .error f := by
  induction n generalizing s with
  | zero => cases h
  | succ n ih =>
    unfold populateLoop at h
    split at h
    · rename_i g hg
      cases h
      unfold populateStep at hg
      split at hg
      · rename_i hc
        cases hg
        exact ⟨s, hs, hc⟩
      · cases hg
    · rename_i more t ht
      split at h
      · rename_i htrue
        exact ih (htrue ▸ hs.step ht) h
      · cases h

theorem populateLoop_of_reached {s : Population} {more : Bool} {r : Except Fault Population}
    (h : Reached check ps more s) (hend : ∃ n, populateLoop check ps n s = some r)
    (hm : more = true) : ∃ n, populateFunctionSet check ps n = some r := by
  induction h with
  | start => exact hend
  | step hr hs ih =>
    obtain ⟨n, hn⟩ := hend
    subst hm
    exact ih ⟨n+1, by simp only [populateLoop, hs, if_true, hn]⟩ rfl

def combination (ps : List Param) (k : ℕ) : List ℤ :=
  (fun v => (getNextCombination ps v).2)^[k] (firstCombination ps)

def ComesTo (ps : List Param) (k : ℕ) : Prop :=
  ∀ j < k, (getNextCombination ps (combination ps j)).1 = true

theorem combination_succ (ps : List Param) (k : ℕ) :
    combination ps (k+1) = (getNextCombination ps (combination ps k)).2 := by
  rw [combination, combination, Function.iterate_succ_apply']

theorem reached_combination {more : Bool} {s : Population} (h : Reached check ps more s) :
    ∃ k, s.attrVals = combination ps k ∧ (more = true → ComesTo ps k) ∧
      ∀ j < k, ∃ r, check (combination ps j) = .ok r := by
  induction h with
  | start =>
    exact ⟨0, rfl, fun _ j hj => absurd hj j.not_lt_zero, fun j hj => absurd hj j.not_lt_zero⟩
  | @step s t more _ hs ih =>
    obtain ⟨k, hk, hcomes, hok⟩ := ih
    obtain ⟨r, hr, hm, ha, _, _⟩ := populateStep_ok check hs
    rw [hk] at hr hm ha
    refine ⟨k+1, by rw [ha, combination_succ], ?_, ?_⟩
    · intro hmore j hj
      rcases Nat.lt_succ_iff_lt_or_eq.mp hj with hlt | rfl
      · exact hcomes rfl j hlt
      · rw [← hm, hmore]
    · intro j hj
      rcases Nat.lt_succ_iff_lt_or_eq.mp hj with hlt | rfl
      · exact hok j hlt
      · exact ⟨r, hr⟩

/-- The loop gets to a combination where no check in front of it stops. -/
theorem reached_of_comesTo {k : ℕ} (hcomes : ComesTo ps k)
    (hok : ∀ j < k, ∃ r, check (combination ps j) = .ok r) :
    ∃ s, Reached check ps true s ∧ s.attrVals = combination ps k := by
  induction k with
  | zero => exact ⟨_, .start, rfl⟩
  | succ k ih =>
    obtain ⟨s, hs, hk⟩ := ih (fun j hj => hcomes j (by omega)) (fun j hj => hok j (by omega))
    obtain ⟨r, hr⟩ := hok k (Nat.lt_succ_self k)
    have hmore := hcomes k (Nat.lt_succ_self k)
    refine ⟨_, hs.step (by simp only [populateStep, hk, hr, hmore]; rfl), ?_⟩
    rw [combination_succ]

theorem ends_of_reached {s : Population} {f : Fault} (h : Reached check ps true s)
    (hc : check s.attrVals = .error f) : ∃ n, populateFunctionSet check ps n = some (.error f) :=
  populateLoop_of_reached h ⟨1, by simp only [populateLoop, populateStep, hc]⟩ rfl

theorem reached_endless (hend : ¬ ∃ n r, populateFunctionSet check ps n = some r) (k : ℕ) :
    ∃ s, Reached check ps true s ∧ s.attrVals = combination ps k := by
  induction k with
  | zero => exact ⟨_, .start, rfl⟩
  | succ k ih =>
    obtain ⟨s, hs, hk⟩ := ih
    cases hstep : populateStep check ps s with
    | error f =>
      have hone : populateLoop check ps 1 s = some (.error f) := by simp [populateLoop, hstep]
      obtain ⟨n, hn⟩ := populateLoop_of_reached hs ⟨1, hone⟩ rfl
      exact absurd ⟨n, _, hn⟩ hend
    | ok next =>
      obtain ⟨more, t⟩ := next
      cases more with
      | false =>
        have hone : populateLoop check ps 1 s = some (.ok t) := by simp [populateLoop, hstep]
        obtain ⟨n, hn⟩ := populateLoop_of_reached hs ⟨1, hone⟩ rfl
        exact absurd ⟨n, _, hn⟩ hend
      | true =>
        obtain ⟨_, _, _, ha, _, _⟩ := populateStep_ok check hstep
        refine ⟨t, hs.step hstep, ?_⟩
        rw [ha, hk, combination_succ]

end Loop

/-- The loop ends exactly when no value repeats before the first one which is
not below the last, or a check stops the process. -/
theorem populate_terminates_iff (check : List ℤ → Except Fault ℤ) (ps : List Param) :
    (∃ n r, populateFunctionSet check ps n = some r) ↔
      (∀ p ∈ ps, (front p).Nodup) ∨ ∃ k f, check (combination ps k) = .error f := by
  constructor
  · rintro ⟨n, r, h⟩
    cases r with
    | ok t =>
      obtain ⟨l, e, hr, _⟩ := run_of_populateLoop check n h
      exact Or.inl (nodup_of_run hr)
    | error f =>
      obtain ⟨t, ht, hc⟩ := reached_of_error .start h
      obtain ⟨k, hk, -⟩ := reached_combination ht
      exact Or.inr ⟨k, f, hk ▸ hc⟩
  · rintro (h | ⟨k, f, hc⟩)
    · obtain ⟨l, e, hr, _, _⟩ := Odometer.run_settling (settling_of_nodup h)
      rcases populateLoop_of_run check hr [] [] rfl l.length (Nat.le_refl _) with
        ⟨t, ht, _⟩ | ⟨f, hf, _⟩
      · exact ⟨_, _, ht⟩
      · exact ⟨_, _, hf⟩
    · by_contra hend
      obtain ⟨s, hs, hk⟩ := reached_endless hend k
      rw [← hk] at hc
      obtain ⟨n, hn⟩ := ends_of_reached hs hc
      exact hend ⟨n, _, hn⟩

def Ends (check : List ℤ → Except Fault ℤ) (ps : List Param) : Prop :=
  ∃ n r, populateFunctionSet check ps n = some r ∧ r ≠ .error .undefined

def Exits (check : List ℤ → Except Fault ℤ) (ps : List Param) : Prop :=
  ∃ k message, ComesTo ps k ∧ check (combination ps k) = .error (.exit message)

def Defined (check : List ℤ → Except Fault ℤ) (ps : List Param) : Prop :=
  ∀ k, ComesTo ps k → check (combination ps k) = .error .undefined →
    ∃ j < k, ∃ message, check (combination ps j) = .error (.exit message)

section Ending

variable {check : List ℤ → Except Fault ℤ} {ps : List Param}

/-- The first combination whose check stops is the one the loop ends at. -/
theorem ends_at_first {k : ℕ} {f : Fault} (hcomes : ComesTo ps k)
    (hk : check (combination ps k) = .error f) :
    ∃ j ≤ k, ∃ g, check (combination ps j) = .error g ∧
      ∃ n, populateFunctionSet check ps n = some (.error g) := by
  classical
  have hex : ∃ j, ∃ g, check (combination ps j) = .error g := ⟨k, f, hk⟩
  obtain ⟨g, hg⟩ := Nat.find_spec hex
  have hle : Nat.find hex ≤ k := Nat.find_min' hex ⟨f, hk⟩
  refine ⟨_, hle, g, hg, ?_⟩
  have hok : ∀ j < Nat.find hex, ∃ r, check (combination ps j) = .ok r := by
    intro j hj
    cases hc : check (combination ps j) with
    | ok r => exact ⟨r, rfl⟩
    | error g => exact absurd ⟨g, hc⟩ (Nat.find_min hex hj)
  obtain ⟨s, hs, hat⟩ := reached_of_comesTo (fun j hj => hcomes j (hj.trans_le hle)) hok
  rw [← hat] at hg
  exact ends_of_reached hs hg

theorem same_result {n m : ℕ} {r r' : Except Fault Population}
    (h : populateFunctionSet check ps n = some r) (h' : populateFunctionSet check ps m = some r') :
    r = r' := by
  have hn := populateLoop_mono check h (Nat.le_max_left n m)
  have hm := populateLoop_mono check h' (Nat.le_max_right n m)
  exact Option.some.inj (hn.symm.trans hm)

theorem ends_iff : Ends check ps ↔
    ((∀ p ∈ ps, (front p).Nodup) ∨ Exits check ps) ∧ Defined check ps := by
  constructor
  · rintro ⟨n, r, h, hr⟩
    constructor
    · cases r with
      | ok t =>
        obtain ⟨l, e, hrun, _⟩ := run_of_populateLoop check n h
        exact Or.inl (nodup_of_run hrun)
      | error f =>
        obtain ⟨t, ht, hc⟩ := reached_of_error .start h
        obtain ⟨k, hk, hcomes, -⟩ := reached_combination ht
        cases f with
        | undefined => exact absurd rfl hr
        | exit message => exact Or.inr ⟨k, message, hcomes rfl, hk ▸ hc⟩
    · intro k hcomes hk
      obtain ⟨j, hj, g, hg, m, hm⟩ := ends_at_first hcomes hk
      obtain rfl := same_result h hm
      cases g with
      | undefined => exact absurd rfl hr
      | exit message =>
        refine ⟨j, lt_of_le_of_ne hj ?_, message, hg⟩
        rintro rfl
        rw [hk] at hg
        cases hg
  · rintro ⟨hstop, hdefined⟩
    obtain ⟨n, r, h⟩ := (populate_terminates_iff check ps).mpr
      (hstop.imp_right fun ⟨k, message, _, hk⟩ => ⟨k, _, hk⟩)
    refine ⟨n, r, h, ?_⟩
    rintro rfl
    obtain ⟨t, ht, hc⟩ := reached_of_error .start h
    obtain ⟨k, hk, hcomes, hok⟩ := reached_combination ht
    obtain ⟨j, hj, message, hexit⟩ := hdefined k (hcomes rfl) (hk ▸ hc)
    obtain ⟨r, hr⟩ := hok j hj
    rw [hr] at hexit
    cases hexit

end Ending

def Bounded (check : List ℤ → Except Fault ℤ) (ps : List Param) : Prop :=
  Ends check ps ∧ ∃ num, getNumCombinations ps = .ok num ∧
    ∀ more s, Reached check ps more s → (s.functions.length:ℤ) ≤ num

/-- The array never overruns exactly when its length is computed without
overflow and the loop ends. -/
theorem function_array_bounded_iff (bytes : Text → ℤ) (leftover : List ℤ → ℤ)
    (ps : List Param) :
    Bounded (fun v => checkRpn bytes ps v (leftover v)) ps ↔
      ps ≠ [] ∧ (ps.map Param.numValues).prod ≤ 2147483647 ∧
        ((∀ p ∈ ps, (front p).Nodup) ∨ Exits (fun v => checkRpn bytes ps v (leftover v)) ps) ∧
        Defined (fun v => checkRpn bytes ps v (leftover v)) ps := by
  rw [Bounded, ends_iff]
  constructor
  · rintro ⟨hend, num, hnum, _⟩
    obtain ⟨hne, hfit, -⟩ := get_num_combinations_ok.mp hnum
    exact ⟨hne, hfit, hend⟩
  · rintro ⟨hne, hfit, hend⟩
    refine ⟨hend, _, get_num_combinations_ok.mpr ⟨hne, hfit, rfl⟩, fun more s hs => ?_⟩
    obtain ⟨n, r, hn, -⟩ := ends_iff.mpr hend
    exact_mod_cast reached_length hn hs

def repeated : Param := Param.listed "a".toList "1".toList ["1".toList, "2".toList]

theorem function_array_repeated :
    setStringValues "a".toList "1 1 2".toList = .ok repeated ∧
      ∀ (bytes : Text → ℤ) (leftover : List ℤ → ℤ),
        ¬ Bounded (fun v => checkRpn bytes [repeated] v (leftover v)) [repeated] := by
  refine ⟨rfl, fun bytes leftover h => ?_⟩
  rcases (ends_iff.mp h.1).1 with hn | ⟨k, message, -, hc⟩
  · exact absurd (hn repeated (by simp)) (by decide)
  · simp only [check_rpn_unconditioned bytes (by decide : ∀ p ∈ [repeated], _ = [])] at hc
    cases hc

end Otpo.FunctionArray
