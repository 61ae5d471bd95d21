import Otpo.DefaultSearch
import Otpo.InterruptResume

/-!
# Resuming the default search

Only the brute-force search restores what a file holds. A resumed 2k search
starts over at its first corner, in a loop that is shorter by the number of
saved results.
-/

set_option autoImplicit false

namespace Otpo.TwokResume
open Otpo.ParamList Otpo.Statistics Otpo.Adcl Otpo.Combinations Otpo.RpnStack Otpo.Enumeration
open Otpo.TwokCorners Otpo.TwokKnowledge Otpo.InterruptResume Otpo.DefaultSearch

def restoredEmethod (threshold : ℤ) (f : Fnctset) (results : List Double) :
    Except Fault Emethod :=
  match requestCreate .twokFactorial threshold f with
  | .error fault => .error fault
  | .ok r => restoreStatus r.emethod (restoredPoints results)

def Resumes (hypothesisGetNext : Emethod → Except Fault (Option ℕ × Emethod)) (threshold : ℤ)
    (f : Fnctset) (cost : Function → ℚ) (s : Saved) (log : List Start) : Prop :=
  ∃ r winner rest e, uninterrupted hypothesisGetNext cost .twokFactorial threshold f
      (some s.results) = .ok (.finished r, rest) ∧
    r.emethod.state = .regular ∧ r.emethod.wfunction = some winner ∧
    (∀ k, k < s.testedNum → testingStart f k ∈ log → testingStart f k ∉ rest) ∧
    restoredEmethod threshold f s.results = .ok e ∧
    ∀ k, k < s.testedNum → testingStart f k ∈ log →
      (e.stats[k]?).map (fun s => s.lpts.unfiltered) = s.results[k]?

section Resume

variable {hypothesisGetNext : Emethod → Except Fault (Option ℕ × Emethod)} {threshold : ℤ}
variable {ps : List Param} {f : Fnctset} {cost : Function → ℚ}

theorem corner_first {s : List ℤ} (hlen : s.length = ps.length) (hsign : ∀ x ∈ s, x ≠ 1) :
    cornerVals (attrsetOf ps) s = firstCombination ps := by
  refine List.ext_getElem? fun m => ?_
  rw [corner_value, baseval_at, maxval_at, firstCombination, List.getElem?_map]
  by_cases hm : m < ps.length
  · rw [List.getElem?_eq_getElem hm, List.getElem?_eq_getElem (hlen.symm ▸ hm)]
    simp only [Option.map_some, if_neg (hsign _ (List.getElem_mem _))]
  · rw [List.getElem?_eq_none (Nat.not_lt.mp hm)]
    cases s[m]? <;> rfl

theorem first_corner (ps : List Param) :
    (cornerPos (fnctsetOf ps (product ps)))[0]? = some 0 := by
  have hmax : (attrsetOf ps).maxnum = ps.length := List.length_map ..
  have hzero : ∀ x ∈ List.replicate (attrsetOf ps).maxnum (0:ℤ), x ≠ 1 := by
    intro x hx
    rw [List.eq_of_mem_replicate hx]
    decide
  obtain ⟨s, rest, hs, hlen, hsign⟩ := signs_head (l := (attrsetOf ps).maxnum-1) hzero
  rw [List.length_replicate, hmax] at hlen
  have hcorners : corners (fnctsetOf ps (product ps)).attrset =
      firstCombination ps :: rest.map (cornerVals (attrsetOf ps)) := by
    change corners (attrsetOf ps) = _
    rw [corners, hs, List.map_cons, corner_first hlen hsign]
  obtain ⟨others, hothers⟩ : ∃ others, product ps = firstCombination ps :: others := by
    cases hp : product ps with
    | nil => simpa [hp] using head_product ps
    | cons c others =>
      have hhead := head_product ps
      rw [hp, List.head?_cons, Option.some.injEq] at hhead
      exact ⟨others, by rw [hhead]⟩
  have hfirst : (fnctsetOf ps (product ps)).functions.findIdx
      (·.attrVals == firstCombination ps) = 0 := by
    simp [fnctsetOf, hothers, List.zipIdx_cons, List.findIdx_cons]
  rw [cornerPos, hcorners, List.map_cons, hfirst]
  rfl

theorem starts_at_corner (hf : Cornered f) {p : ℕ} (hp : (cornerPos f)[0]? = some p)
    (hc : Bounded f cost) {stop : ℕ → Bool} {left i : ℕ} (hstop : stop i = false) {o : Outcome}
    {log : List Start}
    (h : tuningLoop hypothesisGetNext stop (fun _ => cost) (left+1) i true (initial threshold f) []
      = .ok (o, log)) : testingStart f p ∈ log := by
  obtain ⟨r, cell, hr, hfun, hst, _⟩ := first_start hypothesisGetNext threshold hf hp hc
  have hloop : tuningLoop hypothesisGetNext stop (fun _ => cost) (left+1) i true
      (initial threshold f) [] = _ := loop_first hstop hr hfun hst
  rw [hloop] at h
  exact (tuningLoop_extends h).subset (List.mem_singleton_self _)

theorem main_resumed (hf : Cornered f) (stop : ℕ → Bool) (results : List Double) :
    otpoMain hypothesisGetNext stop (fun _ => cost) .twokFactorial threshold f (some results) =
      tuningLoop hypothesisGetNext stop (fun _ => cost) (f.maxnum+1-results.length)
        results.length true (initial threshold f) [] := by
  simp only [otpoMain, twok_created hf]
  rfl

theorem first_saved (hne : ps ≠ []) (hc : Bounded (fnctsetOf ps (product ps)) cost) {i : ℕ}
    {s : Saved} {log : List Start}
    (hi : interrupted hypothesisGetNext cost .twokFactorial threshold
      (fnctsetOf ps (product ps)) i none = .ok (.saved s, log)) :
    0 < s.testedNum ∧ testingStart (fnctsetOf ps (product ps)) 0 ∈ log := by
  have hf := product_cornered hne
  rw [interrupted, main_created hf] at hi
  constructor
  · obtain ⟨r, hr⟩ := tuningLoop_saved hi
    exact saveStatus_pos hr
  · cases i with
    | zero => cases hi
    | succ i => exact starts_at_corner hf (first_corner ps) hc rfl hi

theorem first_tested_again (hne : ps ≠ []) (hc : Bounded (fnctsetOf ps (product ps)) cost)
    {results : List Double} {r : Request} {log : List Start}
    (h : uninterrupted hypothesisGetNext cost .twokFactorial threshold
      (fnctsetOf ps (product ps)) (some results) = .ok (.finished r, log))
    (hregular : r.emethod.state = .regular) :
    testingStart (fnctsetOf ps (product ps)) 0 ∈ log := by
  have hf := product_cornered hne
  rw [uninterrupted, main_resumed hf] at h
  cases hleft : (fnctsetOf ps (product ps)).maxnum+1-results.length with
  | zero =>
    rw [hleft] at h
    cases h
    cases hregular
  | succ left =>
    rw [hleft] at h
    exact starts_at_corner hf (first_corner ps) hc rfl h

/-- No saved run of the default search is resumed as it should be. -/
theorem never_resumes (hypothesisGetNext : Emethod → Except Fault (Option ℕ × Emethod))
    (threshold : ℤ) (bytes : Text → ℤ) (leftover : List ℤ → ℤ) (ps : List Param) (hne : ps ≠ [])
    (h : ∀ p ∈ ps, p.possibleValues.Pairwise (· < ·) ∧ 2 ≤ p.numValues)
    (hno : ∀ p ∈ ps, p.rpnElements = []) (n : ℕ) (t : Population)
    (ht : populateFunctionSet (fun v => checkRpn bytes ps v (leftover v)) ps n = some (.ok t))
    (cost : Function → ℚ)
    (hc : ∀ g ∈ (fnctsetOf ps t.functions).functions, 0 < cost g ∧ cost g < 999999)
    (i : ℕ) (s : Saved) (log : List Start)
    (hi : interrupted hypothesisGetNext cost .twokFactorial threshold (fnctsetOf ps t.functions) i
      none = .ok (.saved s, log)) :
    ¬ Resumes hypothesisGetNext threshold (fnctsetOf ps t.functions) cost s log := by
  rw [registered_product (fun p hp => (h p hp).1) hno ht] at hc hi ⊢
  rintro ⟨r, winner, rest, e, hrun, hregular, _, hnew, _⟩
  obtain ⟨hpos, hfirst⟩ := first_saved hne hc hi
  exact hnew 0 hpos hfirst (first_tested_again hne hc hrun hregular)

end Resume

/-- Both values are tested when the signal is seen, and the saved winner is the
first. -/
theorem never_resumes_two :
    ¬ Resumes (fun e => .ok (none, e)) 50 (fnctsetOf [two] [[1], [2]]) (fun g => g.id+1)
      ⟨2, [some 1, some 2], some 0⟩
      [testingStart (fnctsetOf [two] [[1], [2]]) 0, testingStart (fnctsetOf [two] [[1], [2]]) 1] :=
  never_resumes (fun e => .ok (none, e)) 50 (fun _ => 0) (fun _ => 0) [two] (by decide) (by decide)
    (by decide) 2 ⟨[1], [[1], [2]], [[1], [2]]⟩ rfl (fun g => g.id+1) (by decide +kernel) 2 _ _
    (by decide +kernel)

/-- The resumed process tests the first value again and ends undecided. -/
theorem resumed_two_undecided :
    interrupted (fun e => .ok (none, e)) (fun g => g.id+1) .twokFactorial 50
        (fnctsetOf [two] [[1], [2]]) 2 none =
      .ok (.saved ⟨2, [some 1, some 2], some 0⟩, [testingStart (fnctsetOf [two] [[1], [2]]) 0,
        testingStart (fnctsetOf [two] [[1], [2]]) 1]) ∧
    (uninterrupted (fun e => .ok (none, e)) (fun g => g.id+1) .twokFactorial 50
        (fnctsetOf [two] [[1], [2]]) (some [some 1, some 2])).map Prod.snd =
      .ok [testingStart (fnctsetOf [two] [[1], [2]]) 0] ∧
    finalWinner (uninterrupted (fun e => .ok (none, e)) (fun g => g.id+1) .twokFactorial 50
        (fnctsetOf [two] [[1], [2]]) (some [some 1, some 2])) = none ∧
    ¬ Resumes (fun e => .ok (none, e)) 50 (fnctsetOf [two] [[1], [2]]) (fun g => g.id+1)
      ⟨2, [some 1, some 2], some 0⟩
      [testingStart (fnctsetOf [two] [[1], [2]]) 0,
        testingStart (fnctsetOf [two] [[1], [2]]) 1] := by
  have hundecided : finalWinner (uninterrupted (fun e => .ok (none, e)) (fun g => g.id+1)
      .twokFactorial 50 (fnctsetOf [two] [[1], [2]]) (some [some 1, some 2])) = none := by
    decide +kernel
  refine ⟨by decide +kernel, by decide +kernel, hundecided, ?_⟩
  rintro ⟨r, winner, rest, e, hrun, _, hwinner, _⟩
  rw [hrun] at hundecided
  cases hwinner.symm.trans hundecided

end Otpo.TwokResume
