import Otpo.CodedSearch
import Otpo.RunMeasurements

/-!
# The search does not depend on the codes

Two tuning runs over corresponding sets, in which corresponding functions report
the same, start corresponding functions one after the other, fix the same
attributes to corresponding values and decide on corresponding winners. Only a
winner whose value is the marker in one of the sets can tell them apart.
-/

set_option autoImplicit false

namespace Otpo.CodeIndependence
open AlignedLists RelatedLists RelatedResults Otpo.ParamList Otpo.Statistics Otpo.Adcl
open Otpo.PerfHypothesis Otpo.AttributedRun Otpo.RunMeasurements Otpo.AttributeCodes
open Otpo.CodedEvaluation Otpo.CodedSearch

structure Corresponding (f f' : Fnctset) (r r' : Request) : Prop where
  state : r.emethod.state = r'.emethod.state
  started : Option.Rel (Twin f f') r.function r'.function
  lengths : Matching r.emethod.fnctset.attrset r'.emethod.fnctset.attrset
  values : Within r.emethod.fnctset.attrset r'.emethod.fnctset.attrset f.attrset f'.attrset
  winner : Option.Rel (Twin f f') r.emethod.wfunction r'.emethod.wfunction

structure Parallel (f f' : Fnctset) (r r' : Request) : Prop where
  alike : Alike f f' r.emethod r'.emethod
  paired : r.emethod.state = .testing → Paired f f' r.emethod r'.emethod
  started : Option.Rel (Twin f f') r.function r'.function
  last : r.erlast = r'.erlast
  flag : r.erflag = r'.erflag

section Start

variable {f f' : Fnctset} {e e' : Emethod} {r r' : Request} {n : ℕ}

theorem parallel_corresponding (h : Parallel f f' r r') : Corresponding f f' r r' :=
  ⟨h.alike.state, h.started, h.alike.sets, h.alike.within, h.alike.winner⟩

theorem alike_stats (h : Alike f f' e e') (n : ℕ) (stats : List Stat) :
    Alike f f' { e with last := n, stats } { e' with last := n, stats } :=
  { h with last := rfl, stats := rfl }

theorem alike_decided (h : Alike f f' e e') {g g' : Function} (hg : Twin f f' g g') (w : ℕ) :
    Alike f f' { e with last := w, wfunction := some g, state := .regular }
      { e' with last := w, wfunction := some g', state := .regular } :=
  { h with state := rfl, last := rfl, winner := .some hg }

theorem paired_stats (h : Paired f f' e e') (n : ℕ) (stats : List Stat) :
    Paired f f' { e with last := n, stats } { e' with last := n, stats } :=
  ⟨alike_stats h.alike n stats, h.posed⟩

theorem twin_get (h : Alike f f' e e') (n : ℕ) :
    Option.Rel (Twin f f') e.fnctset.functions[n]? e'.fnctset.functions[n]? := by
  cases hn : e.fnctset.functions[n]? with
  | none =>
    rw [List.getElem?_eq_none_iff, h.functions.length_eq, ← List.getElem?_eq_none_iff] at hn
    rw [hn]
    exact .none
  | some g =>
    obtain ⟨g', hn', hg⟩ := related_get h.functions hn
    rw [hn']
    exact .some hg

structure Next (f f' : Fnctset) (q q' : Option ℕ × Flag × Emethod) : Prop where
  next : q.1 = q'.1
  flag : q.2.1 = q'.2.1
  alike : Alike f f' q.2.2 q'.2.2
  paired : q.1 ≠ none → Paired f f' q.2.2 q'.2.2

theorem advance_called {d d' : Emethod} (next : Option ℕ) (h : Alike f f' d d')
    (hp : next ≠ none → Paired f f' d d') :
    Agree (Called f f') (advance next d) (advance next d') := by
  cases next with
  | none => exact ⟨rfl, h, fun hne => absurd rfl hne⟩
  | some n =>
    have hpaired := hp (by simp)
    simp only [advance, updateStat, ← h.stats]
    by_cases hn : n < d.stats.length
    · simp only [if_pos hn]
      exact ⟨rfl, alike_stats h n _, fun _ => paired_stats hpaired n _⟩
    · simp only [if_neg hn]
      rfl

theorem get_next_alike (ht : Twins f f') (h : Paired f f' e e') (fuel : ℕ)
    (hclear : evaluates fuel (handed e) = true → Clear (handed e) (handed e')) :
    Agree (Next f f') (getNext (hypothesisGetNext fuel) e)
      (getNext (hypothesisGetNext fuel) e') := by
  have halike := h.alike
  have hhanded : Paired f f' (handed e) (handed e') := by
    have hpaired := paired_stats h e.last
      ((e.stats.modify e.last markTested).modify e.last globalMax)
    rw [handed, handed, ← halike.stats, ← halike.last]
    exact hpaired
  have hcall := loop_alike ht fuel fuel false none hhanded fun _ => hclear
  cases hs : e.stats[e.last]? with
  | none =>
    have hs' : e'.stats[e'.last]? = none := by rw [← halike.stats, ← halike.last, hs]
    simp only [getNext, hs, hs']
    rfl
  | some s =>
    have hs' : e'.stats[e'.last]? = some s := by rw [← halike.stats, ← halike.last, hs]
    by_cases hfirst : s.count < emethodNumtests
    · have hlt : e.last < e.stats.length := (List.getElem?_eq_some_iff.mp hs).1
      have hcalled := paired_stats h e.last (e.stats.modify e.last called)
      simp only [getNext, hs, if_pos hfirst, updateStat, ← halike.stats, ← halike.last,
        if_pos hlt]
      exact ⟨rfl, rfl, hcalled.alike, fun _ => hcalled⟩
    · by_cases hwait : s.time.length < emethodNumtests
      · simp only [getNext, hs, hs', if_neg hfirst, if_pos hwait]
        exact ⟨congrArg some halike.last, rfl, halike, fun _ => h⟩
      · rw [get_next_search fuel halike.algo hs hfirst hwait,
          get_next_search fuel halike.algo' hs' hfirst hwait, hypothesisGetNext, hypothesisGetNext]
        rcases agree_cases hcall with ⟨fault, hc, hc'⟩ | ⟨q, q', hc, hc', hcalled⟩
        · rw [hc, hc']
          rfl
        · obtain ⟨next, d⟩ := q
          obtain ⟨next', d'⟩ := q'
          obtain ⟨hnext, hd, hpaired⟩ := hcalled
          simp only at hnext hd hpaired
          subst hnext
          rw [hc, hc']
          rcases agree_cases (advance_called next hd hpaired) with
            ⟨fault, ha, ha'⟩ | ⟨q, q', ha, ha', hadvanced⟩
          · simp only [ha, ha']
            rfl
          · simp only [ha, ha']
            exact ⟨hadvanced.next, rfl, hadvanced.alike, hadvanced.paired⟩

theorem get_winner_alike (h : Alike f f' e e') (n : ℕ) :
    Agree (fun q q' => q.1 = q'.1 ∧ Alike f f' q.2 q'.2) (getWinner e n) (getWinner e' n) := by
  simp only [getWinner, ← h.stats, if_pos h.algo, if_pos h.algo']
  by_cases hlen : e.stats.length < n
  · simp only [if_pos hlen]
    rfl
  · simp only [if_neg hlen]
    cases getWinnerV3 ((e.stats.take n).map filterTimings) with
    | error fault => rfl
    | ok result =>
      exact ⟨rfl, { h with stats := rfl }⟩

theorem maxnum_alike (h : Alike f f' e e') : e.fnctset.maxnum = e'.fnctset.maxnum :=
  h.functions.length_eq

theorem decide_alike (h : Alike f f' r.emethod r'.emethod) (hlast : r.erlast = r'.erlast)
    (hflag : r.erflag = r'.erflag) (hstarted : Option.Rel (Twin f f') r.function r'.function) :
    Agree (fun q q' => Twin f f' q.1 q'.1 ∧ Parallel f f' q.2 q'.2) (decideWinner r)
      (decideWinner r') := by
  rw [decideWinner, decideWinner, ← maxnum_alike h]
  rcases agree_cases (get_winner_alike h r.emethod.fnctset.maxnum) with
    ⟨fault, hw, hw'⟩ | ⟨q, q', hw, hw', hwinner, halike⟩
  · simp only [hw, hw']
    rfl
  · obtain ⟨winner, d⟩ := q
    obtain ⟨winner', d'⟩ := q'
    simp only at hwinner halike
    subst hwinner
    simp only [hw, hw']
    cases winner with
    | none => rfl
    | some w =>
      have hget := twin_get halike w
      simp only
      generalize d.fnctset.functions[w]? = g at hget
      generalize d'.fnctset.functions[w]? = g' at hget
      cases hget with
      | none => rfl
      | some hg =>
        exact ⟨hg, alike_decided halike hg w, fun hst => (by cases hst), hstarted, hlast, hflag⟩

theorem function_by_state_alike (ht : Twins f f') (h : Parallel f f' r r') (fuel : ℕ)
    (hclear : r.emethod.state = .testing → evaluates fuel (handed r.emethod) = true →
      Clear (handed r.emethod) (handed r'.emethod)) :
    Agree (fun q q' => Twin f f' q.1 q'.1 ∧ Parallel f f' q.2 q'.2)
      (getFunctionByState (hypothesisGetNext fuel) r)
      (getFunctionByState (hypothesisGetNext fuel) r') := by
  rw [getFunctionByState, getFunctionByState, ← h.alike.state]
  cases hst : r.emethod.state with
  | decision => exact decide_alike h.alike h.last h.flag h.started
  | regular =>
    have hwinner := h.alike.winner
    simp only
    generalize r.emethod.wfunction = g at hwinner
    generalize r'.emethod.wfunction = g' at hwinner
    cases hwinner with
    | none => rfl
    | some hg => exact ⟨hg, h⟩
  | testing =>
    simp only
    rcases agree_cases (get_next_alike ht (h.paired hst) fuel (hclear hst)) with
      ⟨fault, hn, hn'⟩ | ⟨q, q', hn, hn', hnext⟩
    · simp only [hn, hn']
      rfl
    · obtain ⟨next, flag, d⟩ := q
      obtain ⟨next', flag', d'⟩ := q'
      obtain ⟨hpos, hflag, halike, hpaired⟩ := hnext
      simp only at hpos hflag halike hpaired
      subst hpos
      subst hflag
      simp only [hn, hn']
      cases next with
      | none =>
        have hdecision : Alike f f' { d with state := .decision } { d' with state := .decision } :=
          { halike with state := rfl }
        exact decide_alike (r := { r with emethod := { d with state := .decision } })
          hdecision h.last h.flag h.started
      | some n =>
        have hget := twin_get halike n
        simp only
        generalize d.fnctset.functions[n]? = g at hget
        generalize d'.fnctset.functions[n]? = g' at hget
        cases hget with
        | none => rfl
        | some hg => exact ⟨hg, halike, fun _ => hpaired (by simp), h.started, rfl, rfl⟩

theorem method_update_paired (h : Paired f f' e e') (pos : ℕ) (flag : Flag) (time : ℚ) :
    Agree (Paired f f') (emethodsUpdate e pos flag time) (emethodsUpdate e' pos flag time) := by
  cases flag with
  | noperf => exact h
  | perf =>
    have hstats := h.alike.stats
    simp only [emethodsUpdate, ← hstats]
    cases hs : e.stats[pos]? with
    | none => rfl
    | some s =>
      have hlt : pos < e.stats.length := (List.getElem?_eq_some_iff.mp hs).1
      have hnext := paired_stats h e.last (e.stats.modify pos (recordTime (timeDiff 0 time)))
      rw [h.alike.last] at hnext
      by_cases htime : s.time.length < emethodNumtests
      · simp only [if_pos htime, updateStat, ← hstats, if_pos hlt]
        exact h.alike.last ▸ hnext
      · simp only [if_neg htime]
        rfl

theorem update_parallel (h : Parallel f f' r r') (time : ℚ) :
    Agree (Parallel f f') (requestUpdate r time) (requestUpdate r' time) := by
  rw [requestUpdate, requestUpdate, ← h.alike.state]
  cases hst : r.emethod.state with
  | decision => exact h
  | regular => exact h
  | testing =>
    have hupdate := method_update_paired (h.paired hst) r.erlast r.erflag time
    simp only [← h.last, ← h.flag]
    rcases agree_cases hupdate with ⟨fault, hu, hu'⟩ | ⟨d, d', hu, hu', hd⟩
    · simp only [hu, hu']
      rfl
    · simp only [hu, hu']
      exact ⟨hd.alike, fun _ => hd, h.started, rfl, rfl⟩

theorem start_parallel (ht : Twins f f') {report report' : Function → ℚ}
    (hc : ∀ g g', Twin f f' g g' → report g = report' g') (h : Parallel f f' r r') (fuel : ℕ)
    (hclear : r.emethod.state = .testing → evaluates fuel (handed r.emethod) = true →
      Clear (handed r.emethod) (handed r'.emethod)) :
    Agree (Parallel f f') (requestStart (hypothesisGetNext fuel) report r)
      (requestStart (hypothesisGetNext fuel) report' r') := by
  rw [requestStart, requestStart]
  rcases agree_cases (function_by_state_alike ht h fuel hclear) with
    ⟨fault, hg, hg'⟩ | ⟨q, q', hg, hg', htwin, hparallel⟩
  · simp only [hg, hg']
    rfl
  · simp only [hg, hg', ← hc q.1 q'.1 htwin]
    have hnext : Parallel f f' { q.2 with function := some q.1 }
        { q'.2 with function := some q'.1 } :=
      ⟨hparallel.alike, hparallel.paired, .some htwin, hparallel.last, hparallel.flag⟩
    exact update_parallel hnext _

end Start

section Run

variable {f f' : Fnctset} {threshold threshold' : ℤ} {r₀ r₀' : Request}
variable {fuel : ℕ} {report report' : ℕ → Function → ℚ}

theorem twins_all (ht : Twins f f') : List.Forall₂ (Twin f f') f.functions f'.functions := by
  refine List.forall₂_iff_get.mpr ⟨ht.functions.length_eq, fun p hp hp' => ⟨p, ?_, ?_⟩⟩
  · exact List.getElem?_eq_getElem hp
  · exact List.getElem?_eq_getElem hp'

theorem unset_indexed (b b' : Attrset) (i n : ℕ) :
    Indexed (Belief b b') i (List.replicate n (-1)) (List.replicate n (-1)) := by
  induction n generalizing i with
  | zero => exact .nil i
  | succ n ih => exact .cons (Or.inl ⟨rfl, rfl⟩) (ih (i+1))

theorem created_parallel (ht : Twins f f') (hattrs : 0 < f.attrset.maxnum)
    (hr : requestCreate .perfHypo threshold f = .ok r₀)
    (hr' : requestCreate .perfHypo threshold' f' = .ok r₀') : Parallel f f' r₀ r₀' := by
  cases hr
  cases hr'
  have hmaxnum : f.maxnum = f'.maxnum := ht.functions.length_eq
  have hsets := maxnum_eq ht.sets
  have halike : Alike f f'
      { state := .testing, last := 0, searchAlgo := .perfHypo, filtering := .unfiltered
        stats := (List.range f.maxnum).map freshStat, orgfnctset := f, fnctset := f
        twok := none, wfunction := none, orgstats := List.replicate f.maxnum noPoints
        hypo := some
          { attrHypothesis := List.replicate f.attrset.maxnum (-1)
            attrConfidence := List.replicate f.attrset.maxnum 0
            currAttrvals := f.attrset.baseval, activeAttrpos := 0 } }
      { state := .testing, last := 0, searchAlgo := .perfHypo, filtering := .unfiltered
        stats := (List.range f'.maxnum).map freshStat, orgfnctset := f', fnctset := f'
        twok := none, wfunction := none, orgstats := List.replicate f'.maxnum noPoints
        hypo := some
          { attrHypothesis := List.replicate f'.attrset.maxnum (-1)
            attrConfidence := List.replicate f'.attrset.maxnum 0
            currAttrvals := f'.attrset.baseval, activeAttrpos := 0 } } :=
    ⟨rfl, rfl, rfl, rfl, congrArg (fun n => (List.range n).map freshStat) hmaxnum, twins_all ht,
      ht.sets, fun _ _ _ hcodes => hcodes, rfl, .none⟩
  have hbelieved : Believed f.attrset f'.attrset
      ⟨List.replicate f.attrset.maxnum (-1), List.replicate f.attrset.maxnum 0⟩
      ⟨List.replicate f'.attrset.maxnum (-1), List.replicate f'.attrset.maxnum 0⟩ := by
    rw [← hsets]
    exact ⟨List.length_replicate, unset_indexed _ _ _ _, List.length_replicate, rfl⟩
  exact ⟨halike, fun _ => ⟨halike, _, _, rfl, rfl, hbelieved, rfl, hattrs, valued_base ht.sets⟩,
    .none, rfl, rfl⟩

/-- Each start keeps the two runs in parallel. -/
theorem run_parallel (ht : Twins f f') (hattrs : 0 < f.attrset.maxnum)
    (hc : ∀ i, List.Forall₂ (fun g g' => report i g = report' i g') f.functions f'.functions)
    (hr : requestCreate .perfHypo threshold f = .ok r₀)
    (hr' : requestCreate .perfHypo threshold' f' = .ok r₀')
    (hclear : ∀ i r r', before fuel report r₀ i = .ok r → before fuel report' r₀' i = .ok r' →
      Parallel f f' r r' → r.emethod.state = .testing →
      evaluates fuel (handed r.emethod) = true → Clear (handed r.emethod) (handed r'.emethod))
    (i : ℕ) : Agree (Parallel f f') (before fuel report r₀ i) (before fuel report' r₀' i) := by
  induction i with
  | zero => exact created_parallel ht hattrs hr hr'
  | succ i ih =>
    have hreport : ∀ g g', Twin f f' g g' → report i g = report' i g' := by
      rintro g g' ⟨p, hg, hg'⟩
      obtain ⟨k, hk, hsame⟩ := related_get (hc i) hg
      rw [hg'] at hk
      cases hk
      exact hsame
    rw [before, before]
    rcases agree_cases ih with ⟨fault, hb, hb'⟩ | ⟨r, r', hb, hb', hparallel⟩
    · simp only [hb, hb']
      rfl
    · simp only [hb, hb']
      exact start_parallel ht hreport hparallel fuel (hclear i r r' hb hb' hparallel)

/-- Where the marker stands at the same places of both sets, no winner is
confused with it. -/
theorem clear_of_codes {e e' : Emethod} (ht : Twins f f')
    (hcodes : ∀ m v w, Codes f.attrset f'.attrset m v w → (v = attrNotSet ↔ w = attrNotSet))
    (h : Alike f f' e e') : Clear e e' := by
  intro m vals vals' v w hvals hv hw
  have hone := eval_one_codes ht.sets (alike_same ht h) (indexed_mono h.within hvals.codes)
    (codes_all h.sets h.within m)
  rw [hv, hw] at hone
  cases hone with
  | some hvw => exact hcodes m v w hvw

theorem handed_alike {e e' : Emethod} (h : Alike f f' e e') :
    Alike f f' (handed e) (handed e') := by
  have hhanded := alike_stats h e.last ((e.stats.modify e.last markTested).modify e.last globalMax)
  rw [handed, handed, ← h.stats, ← h.last]
  exact hhanded

/-- Sets whose markers stand at the same places are told apart in no evaluation. -/
theorem clear_run (ht : Twins f f') (hattrs : 0 < f.attrset.maxnum)
    (hcodes : ∀ m v w, Codes f.attrset f'.attrset m v w → (v = attrNotSet ↔ w = attrNotSet))
    (hc : ∀ i, List.Forall₂ (fun g g' => report i g = report' i g') f.functions f'.functions)
    (hr : requestCreate .perfHypo threshold f = .ok r₀)
    (hr' : requestCreate .perfHypo threshold' f' = .ok r₀') {i : ℕ} {r r' : Request}
    (hb : before fuel report r₀ i = .ok r) (hb' : before fuel report' r₀' i = .ok r') :
    Clear (handed r.emethod) (handed r'.emethod) := by
  have hrun : Agree (Parallel f f') (before fuel report r₀ i) (before fuel report' r₀' i) :=
    run_parallel ht hattrs hc hr hr'
      (fun _ _ _ _ _ h _ _ => clear_of_codes ht hcodes (handed_alike h.alike)) i
  rw [hb, hb'] at hrun
  exact clear_of_codes ht hcodes (handed_alike hrun.alike)

end Run

def crossed (x y a b c : ℤ) : Fnctset :=
  ⟨[⟨0, [x, a]⟩, ⟨1, [y, a]⟩, ⟨2, [x, b]⟩, ⟨3, [y, b]⟩, ⟨4, [x, c]⟩, ⟨5, [y, c]⟩],
    ⟨[[x, y], [a, b, c]], [x, a], [y, c], [2, 3]⟩⟩

theorem crossed_ascending {x y a b c : ℤ} (hxy : x < y) (hab : a < b) (hbc : b < c) :
    Ascending (crossed x y a b c).attrset := by
  refine ⟨rfl, rfl, ?_⟩
  simp only [crossed, List.forall_mem_cons]
  simp [hxy, hab, hbc, hab.trans hbc]

theorem crossed_twins {x y a b c x' y' a' b' c' : ℤ} (hxy : x < y) (hab : a < b) (hbc : b < c)
    (hxy' : x' < y') (hab' : a' < b') (hbc' : b' < c') :
    Twins (crossed x y a b c) (crossed x' y' a' b' c') := by
  refine ⟨⟨crossed_ascending hxy hab hbc, crossed_ascending hxy' hab' hbc', rfl⟩, ?_⟩
  have hvalued : ∀ {i j : ℕ} {v w v' w' : ℤ}, [x, y][i]? = some v → [x', y'][i]? = some v' →
      [a, b, c][j]? = some w → [a', b', c'][j]? = some w' →
      Valued (crossed x y a b c).attrset (crossed x' y' a' b' c').attrset [v, w] [v', w'] :=
    fun hv hv' hw hw' => ⟨rfl, .cons ⟨_, hv, hv'⟩ (.cons ⟨_, hw, hw'⟩ (.nil 2))⟩
  simp only [crossed, List.forall₂_cons, List.forall₂_nil_left_iff, and_true]
  exact ⟨@hvalued 0 0 _ _ _ _ rfl rfl rfl rfl, @hvalued 1 0 _ _ _ _ rfl rfl rfl rfl,
    @hvalued 0 1 _ _ _ _ rfl rfl rfl rfl, @hvalued 1 1 _ _ _ _ rfl rfl rfl rfl,
    @hvalued 0 2 _ _ _ _ rfl rfl rfl rfl, @hvalued 1 2 _ _ _ _ rfl rfl rfl rfl⟩

theorem agree_lengths {f f' : Fnctset} {x x' : Except Fault Request}
    (h : Agree (Corresponding f f') x x') :
    x.toOption.map (fun r => r.emethod.fnctset.attrset.attrs.map List.length) =
      x'.toOption.map (fun r => r.emethod.fnctset.attrset.attrs.map List.length) := by
  rcases agree_cases h with ⟨fault, rfl, rfl⟩ | ⟨r, r', rfl, rfl, hcorresponding⟩
  · rfl
  · exact congrArg some hcorresponding.lengths.lengths

/-- Two runs correspond start by start, as long as in no evaluation a winner has
the value of the marker in one of the sets only. -/
theorem search_independent {f f' : Fnctset} {threshold threshold' : ℤ} {fuel : ℕ}
    {report report' : ℕ → Function → ℚ} {r₀ r₀' : Request} (ht : Twins f f')
    (hattrs : 0 < f.attrset.maxnum)
    (hc : ∀ i, List.Forall₂ (fun g g' => report i g = report' i g') f.functions f'.functions)
    (hr : requestCreate .perfHypo threshold f = .ok r₀)
    (hr' : requestCreate .perfHypo threshold' f' = .ok r₀')
    (hclear : ∀ i r r', before fuel report r₀ i = .ok r → before fuel report' r₀' i = .ok r' →
      r.emethod.state = .testing → evaluates fuel (handed r.emethod) = true →
      Clear (handed r.emethod) (handed r'.emethod)) (i : ℕ) :
    Agree (Corresponding f f') (before fuel report r₀ i) (before fuel report' r₀' i) := by
  have hrun := run_parallel ht hattrs hc hr hr' (fun i r r' hb hb' _ => hclear i r r' hb hb') i
  rcases agree_cases hrun with ⟨fault, hb, hb'⟩ | ⟨r, r', hb, hb', hparallel⟩
  · rw [hb, hb']
    rfl
  · rw [hb, hb']
    exact parallel_corresponding hparallel

/-- Two runs that shrink the set after four tests. -/
theorem search_independent_six :
    let cost : Function → ℚ := fun g => if g.id % 2 = 0 then 1 else 2
    ∃ r₀ r₀', requestCreate .perfHypo 50 (crossed 0 1 0 1 2) = .ok r₀ ∧
      requestCreate .perfHypo 50 (crossed 5 7 (-3) 2 9) = .ok r₀' ∧
      ∀ i, Agree (Corresponding (crossed 0 1 0 1 2) (crossed 5 7 (-3) 2 9))
        (before 20 (fun _ => cost) r₀ i) (before 20 (fun _ => cost) r₀' i) := by
  intro cost
  obtain ⟨r₀, hr⟩ : ∃ r₀, requestCreate .perfHypo 50 (crossed 0 1 0 1 2) = .ok r₀ := ⟨_, rfl⟩
  obtain ⟨r₀', hr'⟩ : ∃ r₀', requestCreate .perfHypo 50 (crossed 5 7 (-3) 2 9) = .ok r₀' :=
    ⟨_, rfl⟩
  have ht : Twins (crossed 0 1 0 1 2) (crossed 5 7 (-3) 2 9) :=
    crossed_twins (by decide) (by decide) (by decide) (by decide) (by decide) (by decide)
  have hc : ∀ i : ℕ, List.Forall₂ (fun g g' => (fun _ => cost) i g = (fun _ => cost) i g')
      (crossed 0 1 0 1 2).functions (crossed 5 7 (-3) 2 9).functions := fun _ => by
    simp [crossed, cost]
  have hcodes : ∀ m v w, Codes (crossed 0 1 0 1 2).attrset (crossed 5 7 (-3) 2 9).attrset m v w →
      (v = attrNotSet ↔ w = attrNotSet) := by
    rintro m v w ⟨j, hv, hw⟩
    have hv := List.mem_of_getElem? hv
    have hw := List.mem_of_getElem? hw
    match m with
    | 0 => simp [crossed, attrNotSet] at hv hw ⊢; omega
    | 1 => simp [crossed, attrNotSet] at hv hw ⊢; omega
    | m+2 => simp [crossed] at hv
  refine ⟨r₀, r₀', hr, hr', search_independent ht (by decide) hc hr hr' ?_⟩
  intro i r r' hb hb' _ _
  exact clear_run ht (by decide) hcodes hc hr hr' hb hb'

/-- The functions with the code of the marker are the fastest ones. Only the run
with other codes fixes the attribute to their value. -/
theorem search_confused :
    let cost : Function → ℚ := fun g => if g.id % 2 = 0 then 1 else 2
    Twins (crossed 0 1 0 1 2) (crossed (-1) 1 0 1 2) ∧ (∀ g, 0 < cost g ∧ cost g < 999999) ∧
      List.Forall₂ (fun g g' => cost g = cost g') (crossed 0 1 0 1 2).functions
        (crossed (-1) 1 0 1 2).functions ∧
      ∃ r₀ r₀', requestCreate .perfHypo 50 (crossed 0 1 0 1 2) = .ok r₀ ∧
        requestCreate .perfHypo 50 (crossed (-1) 1 0 1 2) = .ok r₀' ∧
        ¬ Agree (Corresponding (crossed 0 1 0 1 2) (crossed (-1) 1 0 1 2))
          (before 20 (fun _ => cost) r₀ 5) (before 20 (fun _ => cost) r₀' 5) := by
  intro cost
  refine ⟨crossed_twins (by decide) (by decide) (by decide) (by decide) (by decide) (by decide),
    fun g => ?_, ?_, ?_⟩
  · by_cases hg : g.id % 2 = 0 <;> simp only [cost, hg] <;> norm_num
  · simp [crossed, cost]
  · exact ⟨_, _, rfl, rfl, fun hagree => absurd (agree_lengths hagree) (by decide +kernel)⟩

end Otpo.CodeIndependence
