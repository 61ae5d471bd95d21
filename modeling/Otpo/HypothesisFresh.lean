import Otpo.HypothesisOdometer
import Otpo.Attribution

/-!
# Where the search over hypotheses proposes a function

A call goes through the combinations that follow. It stops at the first one
whose function was not tested; if there is none, it returns whatever position
it has come across last.
-/

set_option autoImplicit false

namespace Otpo.HypothesisFresh
open Otpo.Statistics Otpo.Adcl Otpo.Attribution Otpo.PerfHypothesis Otpo.HypothesisOdometer

def ahead (a : Attrset) (active : ℕ) : ℕ → List ℤ → List (Step × List ℤ)
  | 0, _ => []
  | fuel+1, vals =>
    match nextAttrCombination a active vals with
    | (.evalDone, _) => []
    | (step, vals) => (step, vals) :: ahead a active fuel vals

def registered (e : Emethod) (vals : List ℤ) : Bool := (e.fnctset.getFnctByAttrs vals).isSome

def fresh (e : Emethod) (vals : List ℤ) : Bool :=
  (e.fnctset.getFnctByAttrs vals).any fun n => !isTested e n

def moved (e : Emethod) (hypo : Hypothesis) (vals : List ℤ) : Emethod :=
  setHypo e { hypo with currAttrvals := vals }

def activeAfter (attrs : List (List ℤ)) (active : ℕ) : ℕ :=
  if (attrs.getD active []).length = 1 then nextActive attrs active else active

def goesOn (fuel : ℕ) (e : Emethod) (hypo : Hypothesis) : Bool :=
  let a := e.fnctset.attrset
  let active := activeAfter a.attrs hypo.activeAttrpos
  active == a.maxnum ||
    !fresh e a.baseval && (ahead a active fuel a.baseval).any fun q => fresh e q.2

/-- The state before a call from which the search does not go wrong. Of the
combinations that follow one is untested, or none has a function at all; and
where the first untested one starts a block whose evaluation changes the set,
the changed set goes on. -/
def meets (fuel : ℕ) (e : Emethod) : Bool :=
  match e.hypo with
  | none => false
  | some hypo =>
    let combinations := ahead e.fnctset.attrset hypo.activeAttrpos fuel hypo.currAttrvals
    match combinations.find? fun q => fresh e q.2 with
    | none => !combinations.any fun q => registered e q.2
    | some (.newBlock, vals) =>
      match evalV3 fuel (moved e hypo vals) { hypo with currAttrvals := vals } with
      | .ok (true, d) => d.hypo.any (goesOn fuel d)
      | _ => true
    | some _ => true

section Ahead

variable {a : Attrset} {active fuel : ℕ} {vals vals' : List ℤ} {step : Step}

theorem ahead_done (h : nextAttrCombination a active vals = (.evalDone, vals')) (fuel : ℕ) :
    ahead a active (fuel+1) vals = [] := by
  rw [ahead, h]

theorem ahead_next (h : nextAttrCombination a active vals = (step, vals'))
    (hstep : step ≠ .evalDone) (fuel : ℕ) :
    ahead a active (fuel+1) vals = (step, vals') :: ahead a active fuel vals' := by
  rw [ahead, h]
  cases step with
  | same => rfl
  | newBlock => rfl
  | evalDone => exact absurd rfl hstep

theorem next_placed (hf : Formed a) (hv : Placed a vals) (ha : active < a.maxnum)
    (h : nextAttrCombination a active vals = (step, vals')) (hstep : step ≠ .evalDone) :
    Placed a vals' ∧ total a active vals' < total a active vals := by
  have hcomb := combination_step hf hv ha
  rw [h] at hcomb
  exact hcomb hstep

/-- What follows does not depend on the fuel, once there is enough. -/
theorem ahead_enough (hf : Formed a) (hv : Placed a vals) (ha : active < a.maxnum)
    {m n : ℕ} (hm : total a active vals < m) (hn : total a active vals < n) :
    ahead a active m vals = ahead a active n vals := by
  induction m generalizing n vals with
  | zero => cases hm
  | succ m ih =>
    cases n with
    | zero => cases hn
    | succ n =>
      obtain ⟨step, vals', h⟩ : ∃ step vals', nextAttrCombination a active vals = (step, vals') :=
        ⟨_, _, rfl⟩
      by_cases hdone : step = .evalDone
      · subst hdone
        rw [ahead_done h, ahead_done h]
      · obtain ⟨hnext, hlt⟩ := next_placed hf hv ha h hdone
        rw [ahead_next h hdone, ahead_next h hdone, ih hnext (n := n) (by omega) (by omega)]

end Ahead

section Round

variable {e : Emethod} {hypo : Hypothesis} {evalFuel : ℕ} {justEvaluated : Bool}
variable {next : Option ℕ} {step : Step} {vals vals' : List ℤ} {n : ℕ}

theorem fresh_iff (e : Emethod) (vals : List ℤ) : fresh e vals = true ↔
    ∃ n, e.fnctset.getFnctByAttrs vals = some n ∧ isTested e n = false := by
  rw [fresh]
  cases e.fnctset.getFnctByAttrs vals <;> simp

theorem moved_self (h : e.hypo = some hypo) : moved e hypo hypo.currAttrvals = e := by
  cases e
  cases h
  rfl

theorem round_done
    (h : nextAttrCombination e.fnctset.attrset hypo.activeAttrpos vals = (.evalDone, vals')) :
    PerfHypothesis.round evalFuel justEvaluated next (moved e hypo vals) =
      .ok (.finish next, moved e hypo vals') := by
  simp only [PerfHypothesis.round, moved, setHypo, h, if_true]

theorem round_stale
    (h : nextAttrCombination e.fnctset.attrset hypo.activeAttrpos vals = (step, vals'))
    (hstep : step ≠ .evalDone) (hf : fresh e vals' = false) :
    PerfHypothesis.round evalFuel justEvaluated next (moved e hypo vals) =
      .ok (.again justEvaluated ((e.fnctset.getFnctByAttrs vals').or next),
        moved e hypo vals') := by
  simp only [PerfHypothesis.round, moved, setHypo, h, if_neg hstep]
  rw [fresh] at hf
  cases hget : e.fnctset.getFnctByAttrs vals' with
  | none => rfl
  | some n =>
    rw [hget] at hf
    have ht : isTested e n = true := by simpa using hf
    exact if_pos ht

theorem round_fresh
    (h : nextAttrCombination e.fnctset.attrset hypo.activeAttrpos vals = (step, vals'))
    (hstep : step ≠ .evalDone) (hget : e.fnctset.getFnctByAttrs vals' = some n)
    (ht : isTested e n = false) :
    PerfHypothesis.round evalFuel justEvaluated next (moved e hypo vals) =
      if step = .newBlock ∧ justEvaluated = false then
        evaluationRound evalFuel n (moved e hypo vals') { hypo with currAttrvals := vals' }
      else .ok (.finish (some n), moved e hypo vals') := by
  have hn : ¬ isTested e n = true := by simp [ht]
  simp only [PerfHypothesis.round, moved, setHypo, h, if_neg hstep, hget]
  exact if_neg hn

end Round

section Loop

variable {e : Emethod} {hypo : Hypothesis} {fuel : ℕ} {step : Step} {vals vals' : List ℤ}

/-- Without an untested function ahead the loop ends with the combinations; only
a registered combination changes the position that it returns. -/
theorem loop_stale (evalFuel : ℕ) (justEvaluated : Bool) (next : Option ℕ)
    (hf : Formed e.fnctset.attrset) (hv : Placed e.fnctset.attrset vals)
    (ha : hypo.activeAttrpos < e.fnctset.attrset.maxnum)
    (hfuel : total e.fnctset.attrset hypo.activeAttrpos vals < fuel)
    (hnone : ∀ q ∈ ahead e.fnctset.attrset hypo.activeAttrpos fuel vals, fresh e q.2 = false) :
    ∃ next' vals', getNextLoop evalFuel fuel justEvaluated next (moved e hypo vals) =
        .ok (next', moved e hypo vals') ∧
      ((∀ q ∈ ahead e.fnctset.attrset hypo.activeAttrpos fuel vals, registered e q.2 = false) →
        next' = next) := by
  induction fuel generalizing next vals with
  | zero => cases hfuel
  | succ fuel ih =>
    obtain ⟨step, vals', h⟩ : ∃ step vals',
      nextAttrCombination e.fnctset.attrset hypo.activeAttrpos vals = (step, vals') := ⟨_, _, rfl⟩
    by_cases hdone : step = .evalDone
    · subst hdone
      refine ⟨next, vals', ?_, fun _ => rfl⟩
      rw [getNextLoop, round_done h]
    · obtain ⟨hnext, hlt⟩ := next_placed hf hv ha h hdone
      rw [ahead_next h hdone, List.forall_mem_cons] at hnone
      obtain ⟨next', vals'', hloop, hregistered⟩ :=
        ih ((e.fnctset.getFnctByAttrs vals').or next) hnext (by omega) hnone.2
      refine ⟨next', vals'', ?_, fun hall => ?_⟩
      · rw [getNextLoop, round_stale h hdone hnone.1]
        exact hloop
      · rw [ahead_next h hdone, List.forall_mem_cons] at hall
        have hget : e.fnctset.getFnctByAttrs vals' = none := by simpa [registered] using hall.1
        rw [hregistered hall.2, hget, Option.none_or]

/-- The first untested function ahead is where the loop stops. -/
theorem loop_fresh (evalFuel : ℕ) (justEvaluated : Bool) (next : Option ℕ)
    (hf : Formed e.fnctset.attrset) (hv : Placed e.fnctset.attrset vals)
    (ha : hypo.activeAttrpos < e.fnctset.attrset.maxnum)
    (hfuel : total e.fnctset.attrset hypo.activeAttrpos vals < fuel)
    (hfind : (ahead e.fnctset.attrset hypo.activeAttrpos fuel vals).find?
      (fun q => fresh e q.2) = some (step, vals')) :
    ∃ n left, e.fnctset.getFnctByAttrs vals' = some n ∧ isTested e n = false ∧
      Placed e.fnctset.attrset vals' ∧
      fuel ≤ left+total e.fnctset.attrset hypo.activeAttrpos vals ∧
      getNextLoop evalFuel fuel justEvaluated next (moved e hypo vals) =
        if step = .newBlock ∧ justEvaluated = false then
          match evaluationRound evalFuel n (moved e hypo vals')
            { hypo with currAttrvals := vals' } with
          | .error f => .error f
          | .ok (.finish next, e) => .ok (next, e)
          | .ok (.again justEvaluated next, e) => getNextLoop evalFuel left justEvaluated next e
        else .ok (some n, moved e hypo vals') := by
  induction fuel generalizing next vals with
  | zero => cases hfuel
  | succ fuel ih =>
    obtain ⟨step₁, vals₁, h⟩ : ∃ step vals',
      nextAttrCombination e.fnctset.attrset hypo.activeAttrpos vals = (step, vals') := ⟨_, _, rfl⟩
    by_cases hdone : step₁ = .evalDone
    · subst hdone
      rw [ahead_done h] at hfind
      cases hfind
    · obtain ⟨hnext, hlt⟩ := next_placed hf hv ha h hdone
      rw [ahead_next h hdone, List.find?_cons] at hfind
      cases hfresh : fresh e vals₁ with
      | true =>
        simp only [hfresh] at hfind
        cases hfind
        obtain ⟨n, hn, ht⟩ := (fresh_iff e vals').mp hfresh
        refine ⟨n, fuel, hn, ht, hnext, by omega, ?_⟩
        rw [getNextLoop, round_fresh h hdone hn ht]
        by_cases hblock : step = .newBlock ∧ justEvaluated = false
        · rw [if_pos hblock]
          exact (if_pos hblock).symm
        · rw [if_neg hblock, if_neg hblock]
      | false =>
        simp only [hfresh] at hfind
        obtain ⟨n, left, hn, ht, hp, hleft, hloop⟩ :=
          ih ((e.fnctset.getFnctByAttrs vals₁).or next) hnext (by omega) hfind
        refine ⟨n, left, hn, ht, hp, by omega, ?_⟩
        rw [getNextLoop, round_stale h hdone hfresh]
        exact hloop

end Loop

end Otpo.HypothesisFresh
