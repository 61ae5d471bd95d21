import Otpo.Enumeration
import Otpo.BruteForce

/-!
# From the parameters to the best combination

The combinations that the loop registers are the functions of the search, and
the search by brute force decides among them. So the conditions have their
effect on the winner.
-/

set_option autoImplicit false

namespace Otpo.BestCombination
open Otpo.ParamList Otpo.Combinations Otpo.RpnStack Otpo.Enumeration Otpo.Statistics Otpo.Adcl
open Otpo.BruteForce

section search

variable (hypothesisGetNext : Emethod → Except Fault (Option ℕ × Emethod))
variable {f : Fnctset} (cost : Function → ℚ)

/-- The search by brute force takes a function with the least cost. -/
theorem main_least (hf : 0 < f.maxnum) (threshold : ℤ)
    (hc : ∀ g ∈ f.functions, 0 < cost g ∧ cost g < 999999) : ∃ r winner,
    otpoMain hypothesisGetNext (fun _ => false) (fun _ => cost) .bruteForce threshold f none =
      .ok (.finished r, f.functions.map (⟨·, .testing⟩) ++ [⟨winner, .regular⟩]) ∧
    winner ∈ f.functions ∧ ∀ g ∈ f.functions, cost winner ≤ cost g := by
  have hrecorded {i : ℕ} (hi : i < f.maxnum) :
      recorded (fun _ => cost) f i = cost (functionAt f i) :=
    recorded_positive (hc _ (List.mem_of_getElem? (functionAt_get hi))).1
  have hpos : ∀ i, ([] : List Double).length ≤ i → i < f.maxnum →
      0 < recorded (fun _ => cost) f i ∧ recorded (fun _ => cost) f i < 2999997 := by
    intro i _ hi
    rw [hrecorded hi]
    have hcost := hc _ (List.mem_of_getElem? (functionAt_get hi))
    exact ⟨hcost.1, hcost.2.trans (by norm_num)⟩
  obtain ⟨w, x, hleast, hx⟩ := exists_least_average hf hpos
  have hw := get_winner_exact (decided_averages hpos) hleast hx
  have hlt : w < f.maxnum := by simpa using get_winner_lt hw
  have hkey {i : ℕ} (hi : i < f.maxnum) :
      (keys ((List.range f.maxnum).map (average (fun _ => cost) f [])))[i]? =
        some (some (cost (functionAt f i))) := by
    rw [keys_getElem, List.getElem?_map, List.getElem?_range hi, ← hrecorded hi]
    exact ⟨rfl, (hpos i (Nat.zero_le i) hi).1.ne'⟩
  refine ⟨_, functionAt f w, main_decides _ hf threshold hw,
    List.mem_of_getElem? (functionAt_get hlt), ?_⟩
  intro g hg
  obtain ⟨i, hi, rfl⟩ := List.getElem_of_mem hg
  have hfunction : functionAt f i = f.functions[i] := by
    rw [functionAt, List.getD_eq_getElem?_getD, List.getElem?_eq_getElem hi, Option.getD_some]
  have hsame : cost (functionAt f w) = x :=
    Option.some.inj (Option.some.inj ((hkey hlt).symm.trans hleast.1))
  rw [hsame, ← hfunction]
  exact (hleast.2 i _ (hkey hi)).1

end search

/-- For ascending values, conditions that can be checked and costs that the
filter leaves, each combination that the conditions accept is tested once, in
order, and the winner is one of them with the least cost. -/
theorem best_combination (hypothesisGetNext : Emethod → Except Fault (Option ℕ × Emethod))
    (bytes : Text → ℤ) (leftover : List ℤ → ℤ) (ps : List Param) (num : ℤ) (cost : List ℤ → ℚ)
    (threshold : ℤ) (h : ∀ p ∈ ps, p.possibleValues.Pairwise (· < ·))
    (hnum : getNumCombinations ps = .ok num)
    (hchecks : ∀ x ∈ product ps, ∃ r, checkRpn bytes ps x (leftover x) = .ok r)
    (hcost : ∀ x ∈ product ps, 0 < cost x ∧ cost x < 999999) :
    let accepted := (product ps).filter (accepts fun v => checkRpn bytes ps v (leftover v))
    ∃ t r winner log,
      registerFunctions (fun v => checkRpn bytes ps v (leftover v)) ps num.toNat = some (.ok t) ∧
      otpoMain hypothesisGetNext (fun _ => false) (fun _ g => cost g.attrVals) .bruteForce
        threshold (fnctsetOf ps t.functions) none = .ok (.finished r, log++[⟨winner, .regular⟩]) ∧
      log.map (fun s => s.function.attrVals) = accepted ∧
      winner.attrVals ∈ accepted ∧ ∀ x ∈ accepted, cost winner.attrVals ≤ cost x := by
  intro accepted
  obtain ⟨-, -, rfl⟩ := get_num_combinations_ok.mp hnum
  rw [Int.toNat_natCast, ← length_product]
  obtain ⟨t, ht, -, -, hf⟩ | ⟨fault, -, x, hx, hfault⟩ :=
    populate_product (fun v => checkRpn bytes ps v (leftover v))
      (returning_ordered fun p hp => ordered_ascending (h p hp)) _ le_rfl
  · have hvalues : (fnctsetOf ps t.functions).functions.map Function.attrVals = accepted := by
      rw [fnctset_values, hf]
    have hmem {x : List ℤ} : x ∈ accepted ↔
        ∃ g ∈ (fnctsetOf ps t.functions).functions, g.attrVals = x := by
      rw [← hvalues, List.mem_map]
    have hpositive : 0 < (fnctsetOf ps t.functions).maxnum := by
      have hlength := congrArg List.length (fnctset_values ps t.functions)
      rw [List.length_map] at hlength
      exact (registered_pos ht hf).trans_eq hlength.symm
    obtain ⟨r, winner, hrun, hwinner, hleast⟩ := main_least hypothesisGetNext
      (fun g => cost g.attrVals) hpositive threshold fun g hg =>
        hcost _ (List.mem_filter.mp (hmem.mpr ⟨g, hg, rfl⟩)).1
    refine ⟨t, r, winner, _, ?_, hrun, ?_, hmem.mpr ⟨winner, hwinner, rfl⟩, ?_⟩
    · refine (registerFunctions_ok _).mpr ⟨_, hnum, ht, ?_⟩
      rw [hf, ← length_product]
      exact_mod_cast List.length_filter_le _ _
    · rw [← hvalues, List.map_map]
      rfl
    · intro x hx
      obtain ⟨g, hg, rfl⟩ := hmem.mp hx
      exact hleast g hg
  · obtain ⟨r, hr⟩ := hchecks x hx
    rw [hr] at hfault
    cases hfault

/-- The cheapest combination is not accepted. -/
theorem best_combination_conditional :
    ∃ t r winner log,
      registerFunctions (fun v => checkRpn (fun _ => 0) conditional v 0) conditional 6 =
        some (.ok t) ∧
      otpoMain (fun e => .ok (none, e)) (fun _ => false)
        (fun _ g => if g.attrVals = [0, 2] then 1 else if g.attrVals = [1, 2] then 5 else 20)
        .bruteForce 50 (fnctsetOf conditional t.functions) none =
        .ok (.finished r, log++[⟨winner, .regular⟩]) ∧
      log.map (fun s => s.function.attrVals) = [[0, 1], [1, 1], [1, 2], [1, 3]] ∧
      winner.attrVals = [1, 2] := by
  have hchecks : ∀ x ∈ product conditional, checkRpn (fun _ => 0) conditional x 0 = .ok 0 ∨
      checkRpn (fun _ => 0) conditional x 0 = .ok 1 := by decide
  obtain ⟨t, r, winner, log, ht, hrun, hlog, hmem, hleast⟩ :=
    best_combination (fun e => .ok (none, e)) (fun _ => 0) (fun _ => 0) conditional 6
      (fun x => if x = [0, 2] then 1 else if x = [1, 2] then 5 else 20) 50 (by decide) rfl
      (fun x hx => (hchecks x hx).elim (fun h => ⟨0, h⟩) fun h => ⟨1, h⟩)
      (by intro x _; split_ifs <;> norm_num)
  have haccepted : (product conditional).filter
      (accepts fun v => checkRpn (fun _ => 0) conditional v 0) =
        [[0, 1], [1, 1], [1, 2], [1, 3]] := by decide
  rw [haccepted] at hlog hmem hleast
  refine ⟨t, r, winner, log, ht, hrun, hlog, ?_⟩
  have hcost := hleast [1, 2] (by decide)
  by_contra hother
  simp only [List.mem_cons, List.not_mem_nil, or_false] at hmem
  obtain h | h | h | h := hmem
  · norm_num [h] at hcost
  · norm_num [h] at hcost
  · exact hother h
  · norm_num [h] at hcost

end Otpo.BestCombination
