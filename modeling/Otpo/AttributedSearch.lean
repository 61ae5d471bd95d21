import Otpo.Attribution
import Otpo.PerfHypothesis

/-!
# What the searches leave behind

The decision copies every measurement. So does the 2k search before it shrinks
the set; the search over hypotheses copies only what the first shrink keeps.
-/

set_option autoImplicit false

namespace Otpo.AttributedSearch
open Otpo.ParamList Otpo.Statistics Otpo.Adcl Otpo.Attribution Otpo.PerfHypothesis

def Affordable (paid : ℕ → Option ℚ) : Prop := ∀ p c, paid p = some c → 0 < c ∧ c < 999999

def Complete (f : Fnctset) (paid : ℕ → Option ℚ) (e : Emethod) : Prop :=
  ∀ p, p < f.maxnum → e.orgstats[p]? = some (recorded (paid p))

structure Ready (f : Fnctset) (paid : ℕ → Option ℚ) (e : Emethod) : Prop where
  attributed : Attributed f paid e
  settled : ∀ s ∈ e.stats, Settled s

section Winner

variable {f : Fnctset} {paid : ℕ → Option ℚ} {e d : Emethod} {stats : List Stat}
variable {w : ℕ} {winner : Option ℕ} {filtering : Filtering}

/-- The averages of the functions that were paid for are what was paid. -/
theorem paid_gpts (hpoints : ∀ s ∈ stats, s.gpts = recorded (paid s.pos)) :
    stats.map Stat.gpts =
      (stats.map fun s => (recorded (paid s.pos)).filtered).map fun x => ⟨x, x, some 0⟩ := by
  rw [List.map_map]
  refine List.map_congr_left fun s hs => ?_
  rw [hpoints s hs]
  simp only [Function.comp_apply, recorded, exact, noPoints]
  split <;> rfl

theorem paid_keys (hc : Affordable paid) (j : ℕ) (x : ℚ) :
    (keys (stats.map fun s => (recorded (paid s.pos)).filtered))[j]? = some (some x) ↔
      ∃ s, stats[j]? = some s ∧ paid s.pos = some x := by
  rw [keys_getElem, List.getElem?_map, Option.map_eq_some_iff]
  constructor
  · rintro ⟨⟨s, hs, hx⟩, hne⟩
    refine ⟨s, hs, ?_⟩
    cases hp : paid s.pos with
    | none =>
      rw [hp] at hx
      cases hx
      exact absurd rfl hne
    | some c =>
      rw [hp] at hx
      exact hx
  · rintro ⟨s, hs, hx⟩
    exact ⟨⟨s, hs, by rw [hx]; rfl⟩, (hc _ _ hx).1.ne'⟩

/-- The winner is the cheapest of the functions that were paid for. -/
theorem winner_cheapest (hc : Affordable paid)
    (hpoints : ∀ s ∈ stats, s.gpts = recorded (paid s.pos))
    (h : getWinnerV3 stats = .ok (filtering, some w)) :
    ∃ s c, stats[w]? = some s ∧ paid s.pos = some c ∧
      ∀ t ∈ stats, ∀ x, paid t.pos = some x → c ≤ x := by
  have hgpts := paid_gpts hpoints
  have hfiltered : (stats.map fun s => s.gpts.filtered) =
      stats.map fun s => (recorded (paid s.pos)).filtered :=
    List.map_congr_left fun s hs => by rw [hpoints s hs]
  by_cases hex : ∃ (j : ℕ) (x : ℚ),
      (keys (stats.map fun s => (recorded (paid s.pos)).filtered))[j]? = some (some x)
  · obtain ⟨v, x, hl⟩ := FirstMinimum.exists_least hex
    obtain ⟨s, hs, hx⟩ := (paid_keys hc v x).mp hl.1
    have hlt : x < 999999999999/100 := (hc _ _ hx).2.trans (by norm_num)
    rw [get_winner_exact hgpts hl hlt] at h
    cases h
    refine ⟨s, x, hs, hx, fun t ht y hy => ?_⟩
    obtain ⟨j, hj⟩ := List.getElem?_of_mem ht
    exact (hl.2 j y ((paid_keys hc j y).mpr ⟨t, hj, hy⟩)).1
  · rw [get_winner_undefined (fun j y hj => absurd ⟨j, y, hfiltered ▸ hj⟩ hex)] at h
    cases h

def comparedStats (e : Emethod) : List Stat :=
  if e.searchAlgo = .perfHypo then e.stats.map filterTimings
  else (e.stats.map filterTimings).map globalMax

theorem compared_pos (e : Emethod) : (comparedStats e).map Stat.pos = e.stats.map Stat.pos := by
  rw [comparedStats]
  split <;> simp only [List.map_map] <;> exact List.map_congr_left fun s _ => filter_timings_pos s

theorem compared_ready (h : Attributed f paid e)
    (hs : e.searchAlgo = .perfHypo → ∀ s ∈ e.stats, Settled s) :
    Ready f paid { e with stats := comparedStats e } := by
  refine ⟨attributed_stats h (compared_pos e) fun s hs => ?_, fun s hmem => ?_⟩
  · rw [comparedStats] at hs
    split at hs
    · obtain ⟨t, ht, rfl⟩ := List.mem_map.mp hs
      exact measured_filter (h.measured t ht)
    · rw [List.map_map] at hs
      obtain ⟨t, ht, rfl⟩ := List.mem_map.mp hs
      exact measured_global (measured_filter (h.measured t ht))
  · change s ∈ comparedStats e at hmem
    rw [comparedStats] at hmem
    split at hmem
    case isTrue halgo =>
      obtain ⟨t, ht, rfl⟩ := List.mem_map.mp hmem
      exact settled_filter (hs halgo t ht)
    case isFalse =>
      rw [List.map_map] at hmem
      obtain ⟨t, ht, rfl⟩ := List.mem_map.mp hmem
      exact settled_global t

theorem get_winner_compared (h : getWinner e e.stats.length = .ok (winner, d)) :
    ∃ filtering, getWinnerV3 (comparedStats e) = .ok (filtering, winner) ∧
      d = syncStatobjects { e with stats := comparedStats e, filtering } := by
  simp only [getWinner, Nat.lt_irrefl, if_false, List.take_length, List.drop_length,
    List.append_nil] at h
  cases hw : getWinnerV3 (comparedStats e) with
  | error fault =>
    rw [comparedStats] at hw
    rw [hw] at h
    cases h
  | ok result =>
    obtain ⟨filtering, winner'⟩ := result
    rw [comparedStats] at hw
    rw [hw] at h
    cases h
    exact ⟨filtering, rfl, rfl⟩

structure Decisive (f : Fnctset) (paid : ℕ → Option ℚ) (winner : Option ℕ) (d : Emethod) :
    Prop where
  ready : Ready f paid d
  complete : Complete f paid d
  cheapest : ∀ w, winner = some w → ∃ s c, d.stats[w]? = some s ∧ paid s.pos = some c ∧
    ∀ t ∈ d.stats, ∀ x, paid t.pos = some x → c ≤ x

theorem decisive_winner (hc : Affordable paid) (h : Attributed f paid e)
    (hs : e.searchAlgo = .perfHypo → ∀ s ∈ e.stats, Settled s)
    (hw : getWinner e e.stats.length = .ok (winner, d)) :
    Decisive f paid winner d ∧ d.stats = comparedStats e ∧ d.fnctset = e.fnctset ∧
      d.state = e.state ∧ d.searchAlgo = e.searchAlgo := by
  obtain ⟨filtering, hv3, rfl⟩ := get_winner_compared hw
  have hready := compared_ready h hs
  have ha : Attributed f paid { e with stats := comparedStats e, filtering } :=
    attributed_congr hready.attributed rfl rfl rfl rfl
  refine ⟨⟨⟨attributed_sync ha, hready.settled⟩, fun p hp => sync_complete ha hready.settled hc hp,
    fun w hwin => ?_⟩, rfl, rfl, rfl, rfl⟩
  subst hwin
  exact winner_cheapest hc
    (fun s hs => settled_points (ha.measured s hs) (hready.settled s hs) (hc s.pos)) hv3

end Winner

section Shrinking

variable {f : Fnctset} {paid : ℕ → Option ℚ} {e : Emethod} {attr : ℕ} {v : ℤ}

theorem shrunk_stats (h : Attributed f paid e) (attr : ℕ) (v : ℤ) :
    (shrinklistByattr e attr v).stats =
      e.stats.filter fun s => keeps attr v (functionAt f s.pos) := by
  change ((e.fnctset.functions.zip e.stats).filter fun q => keeps attr v q.1).map Prod.snd = _
  rw [shrink_stats h, List.map_map]
  exact List.map_id _

theorem copied_of_complete (h : Attributed f paid e) (hcomplete : Complete f paid e) :
    Copied f paid e attr v := by
  intro s hs _ c hc
  rw [hcomplete s.pos (pos_lt h hs), hc]
  rfl

/-- A shrink copies all that it keeps. -/
theorem shrink_ready (hc : Affordable paid) (h : Ready f paid e)
    (hcopied : Copied f paid e attr v) :
    Ready f paid (shrinklistByattr e attr v) ∧ Complete f paid (shrinklistByattr e attr v) := by
  have ha := attributed_shrink h.attributed hcopied
  have hsettled : ∀ s ∈ (shrinklistByattr e attr v).stats, Settled s := by
    rw [shrunk_stats h.attributed]
    exact fun s hs => h.settled s (List.mem_of_mem_filter hs)
  refine ⟨⟨ha, hsettled⟩, fun p hp => ?_⟩
  by_cases hin : p ∈ (shrinklistByattr e attr v).stats.map Stat.pos
  · obtain ⟨s, hs, rfl⟩ := List.mem_map.mp hin
    have hpoints := settled_points (ha.measured s hs) (hsettled s hs) (hc s.pos)
    have hlt : s.pos < e.orgstats.length := h.attributed.length ▸ hp
    exact (copied_own (positions_nodup ha) hs hlt).trans (congrArg some hpoints)
  · cases hpaid : paid p with
    | none => exact ha.untested p hp hpaid
    | some c => exact ha.removed p c hpaid hin

theorem shrinks_ready (hc : Affordable paid) (settled : List (ℕ × ℤ)) (h : Ready f paid e)
    (hcopied : ∀ a v, settled.head? = some (a, v) → Copied f paid e a v) :
    Ready f paid (settled.foldl (fun e q => shrinklistByattr e q.1 q.2) e) := by
  induction settled generalizing e with
  | nil => exact h
  | cons q settled ih =>
    obtain ⟨hready, hcomplete⟩ := shrink_ready hc h (hcopied q.1 q.2 rfl)
    exact ih hready fun a v _ => copied_of_complete hready.attributed hcomplete

theorem shrinks_kept (settled : List (ℕ × ℤ)) (e : Emethod) :
    (settled.foldl (fun e q => shrinklistByattr e q.1 q.2) e).state = e.state ∧
      (settled.foldl (fun e q => shrinklistByattr e q.1 q.2) e).searchAlgo = e.searchAlgo := by
  induction settled generalizing e with
  | nil => exact ⟨rfl, rfl⟩
  | cons q settled ih => exact ih (shrinklistByattr e q.1 q.2)

end Shrinking

section Hypothesis

variable {f : Fnctset} {paid : ℕ → Option ℚ} {e d : Emethod} {hypo : Hypothesis}
variable {evalFuel fuel : ℕ} {justEvaluated : Bool} {next next' : Option ℕ}

theorem ready_hypo (h : Ready f paid e) (hypo : Hypothesis) : Ready f paid (setHypo e hypo) :=
  ⟨attributed_congr h.attributed rfl rfl rfl rfl, h.settled⟩

def EvaluatesCopied (f : Fnctset) (paid : ℕ → Option ℚ) (evalFuel : ℕ) (e : Emethod)
    (hypo : Hypothesis) : Prop :=
  ∀ b, evaluate evalFuel e hypo = .ok b →
    ∀ a v, (reached e.fnctset.attrset b).head? = some (a, v) → Copied f paid e a v

theorem evaluates_copied_hypo (h : EvaluatesCopied f paid evalFuel e hypo) (vals : List ℤ) :
    EvaluatesCopied f paid evalFuel (setHypo e { hypo with currAttrvals := vals })
      { hypo with currAttrvals := vals } := h

theorem eval_ready (hc : Affordable paid) (h : Ready f paid e)
    (hcopied : EvaluatesCopied f paid evalFuel e hypo) {changed : Bool}
    (he : evalV3 evalFuel e hypo = .ok (changed, d)) :
    Ready f paid d ∧ d.state = e.state ∧ d.searchAlgo = e.searchAlgo := by
  rw [evalV3] at he
  cases hb : evaluate evalFuel e hypo with
  | error fault =>
    rw [hb] at he
    cases he
  | ok b =>
    rw [hb] at he
    cases he
    exact ⟨shrinks_ready hc _ (ready_hypo h _) (hcopied b hb), shrinks_kept _ _⟩

theorem after_change_ready (h : Ready f paid e) {n : ℕ} {outcome : Round}
    (ho : afterChange n e hypo = .ok (outcome, d)) :
    Ready f paid d ∧ d.state = e.state ∧ d.searchAlgo = e.searchAlgo ∧
      ∀ just next, outcome = .again just next → just = true := by
  simp only [afterChange] at ho
  generalize (if (e.fnctset.attrset.attrs.getD hypo.activeAttrpos []).length = 1 then
    nextActive e.fnctset.attrset.attrs hypo.activeAttrpos else hypo.activeAttrpos) = active at ho
  split at ho
  · cases ho
    exact ⟨ready_hypo h _, rfl, rfl, by simp⟩
  · split at ho
    · cases ho
      exact ⟨ready_hypo h _, rfl, rfl, by simp⟩
    · split at ho <;> cases ho
      exact ⟨ready_hypo h _, rfl, rfl, by simp⟩

theorem evaluation_round_ready (hc : Affordable paid) (h : Ready f paid e)
    (hcopied : EvaluatesCopied f paid evalFuel e hypo) {n : ℕ} {outcome : Round}
    (ho : evaluationRound evalFuel n e hypo = .ok (outcome, d)) :
    Ready f paid d ∧ d.state = e.state ∧ d.searchAlgo = e.searchAlgo ∧
      ∀ just next, outcome = .again just next → just = true := by
  rw [evaluationRound] at ho
  cases he : evalV3 evalFuel e hypo with
  | error fault =>
    rw [he] at ho
    cases ho
  | ok result =>
    obtain ⟨changed, e'⟩ := result
    obtain ⟨hr, hst, halgo⟩ := eval_ready hc h hcopied he
    rw [he] at ho
    cases changed with
    | false =>
      cases ho
      exact ⟨hr, hst, halgo, by simp⟩
    | true =>
      cases hh : e'.hypo with
      | none =>
        simp only [hh] at ho
        cases ho
      | some hypo' =>
        simp only [hh] at ho
        obtain ⟨hd, hst', halgo', hjust⟩ := after_change_ready hr ho
        exact ⟨hd, hst'.trans hst, halgo'.trans halgo, hjust⟩

/-- What one iteration does: the search ends, or it goes on with the next values, or
it evaluates, which the loop comes to then. -/
theorem round_cases {outcome : Round}
    (ho : round evalFuel justEvaluated next e = .ok (outcome, d)) :
    ∃ hypo vals, e.hypo = some hypo ∧
      let moved := setHypo e { hypo with currAttrvals := vals }
      (d = moved ∧ ∃ n, outcome = .finish n) ∨
        (d = moved ∧ (∃ n, outcome = .again justEvaluated n) ∧
          ∀ fuel, evaluates (fuel+1) e = evaluates fuel moved) ∨
        (justEvaluated = false ∧ (∀ fuel, evaluates (fuel+1) e = true) ∧
          ∃ n, evaluationRound evalFuel n moved { hypo with currAttrvals := vals } =
            .ok (outcome, d)) := by
  cases hh : e.hypo with
  | none =>
    rw [PerfHypothesis.round, hh] at ho
    cases ho
  | some hypo =>
    simp only [evaluates, hh]
    rw [PerfHypothesis.round, hh] at ho
    simp only at ho
    generalize nextAttrCombination e.fnctset.attrset hypo.activeAttrpos hypo.currAttrvals = step
      at ho ⊢
    obtain ⟨step, vals⟩ := step
    refine ⟨hypo, vals, rfl, ?_⟩
    simp only at ho ⊢
    generalize hfnct : (setHypo e { hypo with currAttrvals := vals }).fnctset.getFnctByAttrs vals =
      found at ho ⊢
    by_cases hdone : step = .evalDone
    · rw [if_pos hdone] at ho
      cases ho
      exact Or.inl ⟨rfl, _, rfl⟩
    · simp only [if_neg hdone] at ho ⊢
      cases found with
      | none =>
        cases ho
        exact Or.inr (Or.inl ⟨rfl, ⟨_, rfl⟩, fun _ => rfl⟩)
      | some n =>
        simp only at ho ⊢
        by_cases ht : isTested (setHypo e { hypo with currAttrvals := vals }) n = true
        · simp only [if_pos ht] at ho ⊢
          cases ho
          exact Or.inr (Or.inl ⟨rfl, ⟨_, rfl⟩, fun _ => trivial⟩)
        · simp only [if_neg ht] at ho ⊢
          by_cases hblock : step = .newBlock ∧ justEvaluated = false
          · rw [if_pos hblock] at ho
            exact Or.inr (Or.inr ⟨hblock.2, fun _ => decide_eq_true hblock.1, n, ho⟩)
          · rw [if_neg hblock] at ho
            cases ho
            exact Or.inl ⟨rfl, _, rfl⟩

/-- What one iteration keeps, and what it passes on to the next one. -/
theorem round_ready (hc : Affordable paid) (h : Ready f paid e)
    (hcopied : justEvaluated = false → evaluates (fuel+1) e = true →
      ∀ hypo, e.hypo = some hypo → EvaluatesCopied f paid evalFuel e hypo) {outcome : Round}
    (ho : round evalFuel justEvaluated next e = .ok (outcome, d)) :
    Ready f paid d ∧ d.state = e.state ∧ d.searchAlgo = e.searchAlgo ∧
      ∀ just next, outcome = .again just next → just = false → evaluates fuel d = true →
        ∀ hypo, d.hypo = some hypo → EvaluatesCopied f paid evalFuel d hypo := by
  obtain ⟨hypo, vals, hh, hcases⟩ := round_cases ho
  have hr := ready_hypo h { hypo with currAttrvals := vals }
  rcases hcases with ⟨rfl, n, rfl⟩ | ⟨rfl, ⟨n, rfl⟩, hevaluates⟩ | ⟨hjust, hevaluates, n, ho⟩
  · exact ⟨hr, rfl, rfl, fun just next he => by cases he⟩
  · refine ⟨hr, rfl, rfl, fun just next he hjust heval hypo' hh' => ?_⟩
    cases he
    cases hh'
    exact evaluates_copied_hypo (hcopied hjust ((hevaluates fuel).trans heval) hypo hh) vals
  · have hev := evaluates_copied_hypo (hcopied hjust (hevaluates fuel) hypo hh) vals
    obtain ⟨hd, hst, halgo, hagain⟩ := evaluation_round_ready hc hr hev ho
    refine ⟨hd, hst, halgo, fun just next he hfalse => ?_⟩
    rw [hagain just next he] at hfalse
    cases hfalse

/-- The whole loop keeps the objects ready. -/
theorem loop_ready (hc : Affordable paid) (h : Ready f paid e)
    (hcopied : justEvaluated = false → evaluates fuel e = true →
      ∀ hypo, e.hypo = some hypo → EvaluatesCopied f paid evalFuel e hypo)
    (hl : getNextLoop evalFuel fuel justEvaluated next e = .ok (next', d)) :
    Ready f paid d ∧ d.state = e.state ∧ d.searchAlgo = e.searchAlgo := by
  induction fuel generalizing justEvaluated next e with
  | zero => cases hl
  | succ fuel ih =>
    rw [getNextLoop] at hl
    cases ho : round evalFuel justEvaluated next e with
    | error fault =>
      rw [ho] at hl
      cases hl
    | ok result =>
      obtain ⟨outcome, e'⟩ := result
      obtain ⟨hr, hst, halgo, hpass⟩ := round_ready hc h hcopied ho
      rw [ho] at hl
      cases outcome with
      | finish next =>
        cases hl
        exact ⟨hr, hst, halgo⟩
      | again just next =>
        obtain ⟨hd, hst', halgo'⟩ := ih hr (hpass just next rfl) hl
        exact ⟨hd, hst'.trans hst, halgo'.trans halgo⟩

end Hypothesis

end Otpo.AttributedSearch
