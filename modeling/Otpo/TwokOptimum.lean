import Otpo.DefaultSearch
import Otpo.RunMeasurements

/-!
# The best function survives the reduction

Behind the corners the set is reduced around the cheapest of them, so that it
is still there when the decision compares what is left.
-/

set_option autoImplicit false

namespace Otpo.TwokOptimum
open Otpo.ParamList Otpo.Statistics Otpo.Adcl Otpo.Enumeration Otpo.TwokCorners
open Otpo.TwokKnowledge Otpo.TwokSearch Otpo.TwokRun Otpo.DefaultSearch Otpo.PerfHypothesis
open Otpo.Attribution Otpo.AttributedSearch Otpo.AttributedRun Otpo.RunMeasurements

def always (cost : Function → ℚ) : ℕ → Function → ℚ := fun _ => cost

def Dominated (f : Fnctset) (cost : Function → ℚ) (kept started : List ℕ) : Prop :=
  ∀ p ∈ started, ∃ q ∈ kept, q ∈ started ∧ cost (functionAt f q) ≤ cost (functionAt f p)

def Optimal (f : Fnctset) (cost : Function → ℚ) (kept started : List ℕ)
    (run : Except Fault (Outcome × List Start)) : Prop :=
  ∃ (r : Request) (rest : List ℕ) (w : ℕ),
    run = .ok (.finished r, (started ++ rest).map (testingStart f) ++
      [⟨functionAt f w, .regular⟩]) ∧
    r.emethod.state = .regular ∧ r.emethod.wfunction = some (functionAt f w) ∧
    r.emethod.fnctset.functions = kept.map (functionAt f) ∧ rest.Nodup ∧
    (∀ q, q ∈ rest ↔ q ∈ kept ∧ q ∉ started) ∧ w ∈ started ++ rest ∧
    ∀ p ∈ started ++ rest, cost (functionAt f w) ≤ cost (functionAt f p)

section Run

variable {f : Fnctset} {cost : Function → ℚ} {paid : ℕ → Option ℚ} {fuel i left p q : ℕ}
variable {r r' : Request} {kept kept' started : List ℕ} {cell : ℕ → Stat} {t : Twok}
variable {g : Function}

theorem function_injective (hf : f.functions.Nodup) (hp : p < f.maxnum) (hq : q < f.maxnum)
    (h : functionAt f p = functionAt f q) : p = q := by
  have hp' := functionAt_get hp
  rw [h, ← functionAt_get hq] at hp'
  exact (List.getElem?_inj hp hf).mp hp'

theorem tally_paid (h : Tally f (always cost) started paid) (hp : p ∈ started) :
    paid p = some (cost (functionAt f p)) := by
  obtain ⟨i, hi⟩ := List.getElem?_of_mem hp
  exact h.own i p hi

theorem tally_started {c : ℚ} (h : Tally f (always cost) started paid) (hp : paid p = some c) :
    p ∈ started ∧ c = cost (functionAt f p) := by
  by_cases hin : p ∈ started
  · rw [tally_paid h hin] at hp
    cases hp
    exact ⟨hin, rfl⟩
  · rw [h.other p hin] at hp
    cases hp

theorem dominated_next (h : Dominated f cost kept started) (hq : q ∈ kept) :
    Dominated f cost kept (started ++ [q]) := by
  intro p hp
  rcases List.mem_append.mp hp with hp | hp
  · obtain ⟨x, hx, hs, hle⟩ := h p hp
    exact ⟨x, hx, List.mem_append_left _ hs, hle⟩
  · rw [List.mem_singleton.mp hp]
    exact ⟨q, hq, by simp, le_refl _⟩

/-- A start that goes on has paid for the function that it runs. -/
theorem paying_next (hf : f.functions.Nodup) (hc : Bounded f cost) (h : Paying f paid r)
    (halgo : r.emethod.searchAlgo = .twokFactorial)
    (ht : Tally f (always cost) started paid)
    (hs : requestStart (hypothesisGetNext fuel) (always cost i) r = .ok r')
    (hfun : r'.function = some (functionAt f q)) (hst : r'.emethod.state = .testing)
    (hq : q < f.maxnum) : ∃ paid', Paying f paid' r' ∧
      r'.emethod.searchAlgo = .twokFactorial ∧ Tally f (always cost) (started ++ [q]) paid' := by
  rcases start_step (tally_affordable (fun _ => hc) ht) (show Bounded f (always cost i) from hc) h
      (fun hp => by rw [halgo] at hp; cases hp) hs with
    ⟨p, hlt, hpaid, hfun', halgo', hp⟩ | ⟨g, _, hd⟩
  · rw [hfun, Option.some.injEq] at hfun'
    obtain rfl := function_injective hf hq hlt hfun'
    exact ⟨_, hp, halgo'.trans halgo, tally_next ht hlt hpaid⟩
  · rw [hd.state] at hst
    cases hst

/-- A start that decides takes the cheapest of all that was started. -/
theorem decided_optimal (hf : f.functions.Nodup) (hc : Bounded f cost) (h : Paying f paid r)
    (halgo : r.emethod.searchAlgo = .twokFactorial)
    (ht : Tally f (always cost) started paid)
    (hs : requestStart (hypothesisGetNext fuel) (always cost i) r = .ok r')
    (hfun : r'.function = some g) (hst : r'.emethod.state = .regular)
    (hkept : r'.emethod.fnctset.functions = kept.map (functionAt f))
    (hdom : Dominated f cost kept started) :
    ∃ w ∈ started, g = functionAt f w ∧
      ∀ p ∈ started, cost (functionAt f w) ≤ cost (functionAt f p) := by
  rcases start_step (tally_affordable (fun _ => hc) ht) (show Bounded f (always cost i) from hc) h
      (fun hp => by rw [halgo] at hp; cases hp) hs with
    ⟨p, _, _, _, _, hp⟩ | ⟨g', hfun', hd⟩
  · rw [hp.testing] at hst
    cases hst
  · rw [hfun, Option.some.injEq] at hfun'
    subst hfun'
    obtain ⟨w, c, hg, hw, hmin⟩ := hd.cheapest
    obtain ⟨hws, rfl⟩ := tally_started ht hw
    refine ⟨w, hws, hg, fun p hp => ?_⟩
    obtain ⟨q, hq, hqs, hle⟩ := hdom p hp
    have hin : functionAt f q ∈ r'.emethod.stats.map fun s => functionAt f s.pos := by
      rw [← hd.attributed.functions, hkept]
      exact List.mem_map_of_mem hq
    obtain ⟨s, hs, hpos⟩ := List.mem_map.mp hin
    have hsq := function_injective hf (pos_lt hd.attributed hs) (ht.inside q hqs) hpos
    have hpaid : paid s.pos = some (cost (functionAt f q)) := by
      rw [hsq]
      exact tally_paid ht hqs
    exact (hmin s hs _ hpaid).trans hle

theorem optimal_next (hq : q ∈ kept) (hnew : q ∉ started)
    {run : Except Fault (Outcome × List Start)}
    (h : Optimal f cost kept (started ++ [q]) run) : Optimal f cost kept started run := by
  obtain ⟨r, rest, w, hrun, hst, hw, hkept, hn, hrest, hin, hmin⟩ := h
  rw [List.append_assoc, List.singleton_append] at hrun hin hmin
  refine ⟨r, q::rest, w, hrun, hst, hw, hkept, List.nodup_cons.mpr ⟨fun hmem => ?_, hn⟩,
    fun x => ?_, hin, hmin⟩
  · exact ((hrest q).mp hmem).2 (by simp)
  · rw [List.mem_cons, hrest x, List.mem_append, List.mem_singleton, not_or]
    constructor
    · rintro (rfl | ⟨hx, hs, _⟩)
      · exact ⟨hq, hnew⟩
      · exact ⟨hx, hs⟩
    · rintro ⟨hx, hs⟩
      exact or_iff_not_imp_left.mpr fun hne => ⟨hx, hs, hne⟩

/-- What one start does to a run that is to be optimal. -/
theorem optimal_step (hf : f.functions.Nodup) (hc : Bounded f cost) (h : Paying f paid r)
    (halgo : r.emethod.searchAlgo = .twokFactorial)
    (ht : Tally f (always cost) started paid)
    (hex : Exhausts (hypothesisGetNext fuel) f (always cost i) r kept started)
    (hin : kept.Sublist (List.range f.maxnum)) (hdom : Dominated f cost kept started)
    (hleft : (untested kept started).length < left+1)
    (hrest : ∀ r' paid' cell' q, Paying f paid' r' → r'.emethod.searchAlgo = .twokFactorial →
      Tally f (always cost) (started ++ [q]) paid' →
      Progress f r' kept cell' (started ++ [q]) q → Remaining r' →
      Dominated f cost kept (started ++ [q]) →
      (untested kept (started ++ [q])).length < left →
      Optimal f cost kept (started ++ [q]) (tuningLoop (hypothesisGetNext fuel) (fun _ => false)
        (always cost) left (i+1) true r' ((started ++ [q]).map (testingStart f)))) :
    Optimal f cost kept started (tuningLoop (hypothesisGetNext fuel) (fun _ => false)
      (always cost) (left+1) i true r (started.map (testingStart f))) := by
  rcases hex with ⟨r', cell', q, hr, hfun, hst, hnew, hq, hp, hrem⟩ |
    ⟨r', g, hr, hfun, hst, hw, hkept, hall⟩
  · have hlt : q < f.maxnum := List.mem_range.mp (hin.subset hq)
    obtain ⟨paid', hpaying, halgo', ht'⟩ := paying_next hf hc h halgo ht hr hfun hst hlt
    have hless := untested_next (List.Sublist.refl kept) hq hnew
    refine optimal_next hq hnew ?_
    rw [loop_testing rfl hr hfun hst]
    exact hrest r' paid' cell' q hpaying halgo' ht' hp hrem (dominated_next hdom hq) (by omega)
  · obtain ⟨w, hws, rfl, hmin⟩ := decided_optimal hf hc h halgo ht hr hfun hst hkept hdom
    refine ⟨r', [], w, ?_, hst, hw, hkept, List.nodup_nil, fun q => ?_, ?_, ?_⟩
    · rw [tuningLoop_start rfl hr hfun, getState, hst, List.append_nil]
      exact tuningLoop_done
    · exact iff_of_false List.not_mem_nil fun hq => hq.2 (hall q hq.1)
    · rwa [List.append_nil]
    · rwa [List.append_nil]

/-- The loop over what is left of the set. -/
theorem optimal_remaining (hf : f.functions.Nodup) (hc : Bounded f cost)
    (hpaying : Paying f paid r) (halgo : r.emethod.searchAlgo = .twokFactorial)
    (ht : Tally f (always cost) started paid) (h : Progress f r kept cell started p)
    (hrem : Remaining r) (hdom : Dominated f cost kept started)
    (hleft : (untested kept started).length < left) :
    Optimal f cost kept started (tuningLoop (hypothesisGetNext fuel) (fun _ => false)
      (always cost) left i true r (started.map (testingStart f))) := by
  induction left generalizing i r cell started p paid with
  | zero => exact absurd hleft (Nat.not_lt_zero _)
  | succ left ih =>
    have hbounded : Bounded f (always cost i) := hc
    exact optimal_step hf hc hpaying halgo ht (remaining_exhausts hbounded h hrem) h.inside hdom
      hleft fun r' paid' cell' q hpaying' halgo' ht' hp hrem' hdom' hleft' =>
        ih hpaying' halgo' ht' hp hrem' hdom' hleft'

theorem marked_with_modify {e : Emethod} (h : Cells e kept cell) (hp : kept[e.last]? = some p) :
    markedWith e kept cell p = { e with stats := e.stats.modify e.last markTested } := by
  rw [markedWith, h.stats, modify_map h.nodup cell hp]

/-- The set is reduced around a corner that none of the others beats. -/
theorem corners_dominated (hc : Bounded f cost) (hpaying : Paying f paid r)
    (ht : Tally f (always cost) started paid) (h : Progress f r kept cell started p)
    (hcorner : AtCorner f r kept started t) {e : Emethod}
    (hwin : getWinner (markedWith r.emethod kept cell p)
      (markedWith r.emethod kept cell p).fnctset.maxnum = .ok (some q, e))
    (hq : q ∈ kept') (hs : q ∈ started) : Dominated f cost kept' started := by
  have hmarked : Attributed f paid (markedWith r.emethod kept cell p) := by
    rw [marked_with_modify h.working.cells h.last]
    exact attributed_marked hpaying.moved.attributed
  have halgo : (markedWith r.emethod kept cell p).searchAlgo = .twokFactorial := h.working.algo
  rw [maxnum_stats hmarked] at hwin
  obtain ⟨hd, _, hfnctset, _, _⟩ := decisive_winner (tally_affordable (fun _ => hc) ht) hmarked
    (fun hp => by rw [halgo] at hp; cases hp) hwin
  have ha := hd.ready.attributed
  have hlen : (e.stats.map Stat.pos).length = (List.range f.maxnum).length := by
    rw [List.length_map, ← maxnum_stats ha, hfnctset, Fnctset.maxnum]
    change r.emethod.fnctset.functions.length = _
    rw [h.working.functions, List.length_map, hcorner.kept]
  have hpos := ha.positions.eq_of_length hlen
  obtain ⟨s, c, hsq, hpaid, hmin⟩ := hd.cheapest q rfl
  have hqpos : s.pos = q := by
    have hget : (e.stats.map Stat.pos)[q]? = some s.pos := by rw [List.getElem?_map, hsq]; rfl
    rw [hpos, List.getElem?_range (ht.inside q hs), Option.some.injEq] at hget
    exact hget.symm
  rw [hqpos] at hpaid
  obtain ⟨_, rfl⟩ := tally_started ht hpaid
  refine fun p hp => ⟨q, hq, hs, ?_⟩
  have hin : p ∈ e.stats.map Stat.pos := hpos ▸ List.mem_range.mpr (ht.inside p hp)
  obtain ⟨u, hu, rfl⟩ := List.mem_map.mp hin
  exact hmin u hu _ (tally_paid ht hp)

/-- The loop over the corners, and what it leaves of the set. -/
theorem optimal_corners (hf : Cornered f) (hn : (cornerPos f).Nodup) (hc : Bounded f cost)
    (hpaying : Paying f paid r) (halgo : r.emethod.searchAlgo = .twokFactorial)
    (ht : Tally f (always cost) started paid) (h : Progress f r kept cell started p)
    (hcorner : AtCorner f r kept started t) (hleft : (untested kept started).length < left) :
    ∃ kept', kept'.Sublist kept ∧ Optimal f cost kept' (cornerPos f)
      (tuningLoop (hypothesisGetNext fuel) (fun _ => false) (always cost) left i true r
        (started.map (testingStart f))) := by
  induction left generalizing i r kept cell started p t paid with
  | zero => exact absurd hleft (Nat.not_lt_zero _)
  | succ left ih =>
    rcases Nat.lt_or_eq_of_le hcorner.bound with hbound | hend
    · have hq := List.getElem?_eq_getElem hbound
      have hqn := cornerPos_lt hf (List.getElem_mem hbound)
      have hnew := corner_new hn hcorner hq
      obtain ⟨r', cell', hr, hfun, hst, hp, hcorner'⟩ :=
        corner_step hf (show Bounded f (always cost i) from hc) h hcorner hq hnew
      obtain ⟨paid', hpaying', halgo', ht'⟩ :=
        paying_next hf.distinct hc hpaying halgo ht hr hfun hst hqn
      have hkept := List.mem_of_getElem? (corner_kept hf hcorner hq)
      have hless := untested_next (List.Sublist.refl kept) hkept hnew
      rw [loop_testing rfl hr hfun hst]
      exact ih hpaying' halgo' ht' hp hcorner' (by omega)
    · obtain ⟨kept', hsub, hex, q, e, hq, hs, hwin⟩ :=
        corners_exhaust (hypothesisGetNext fuel) hf (show Bounded f (always cost i) from hc) h
          hcorner hend
      have hdom := corners_dominated hc hpaying ht h hcorner hwin hq hs
      have hfewer : (untested kept' started).length < left+1 :=
        ((hsub.filter _).length_le).trans_lt hleft
      have hall : started = cornerPos f := by rw [hcorner.started, hend, List.take_length]
      refine ⟨kept', hsub, hall ▸ ?_⟩
      exact optimal_step hf.distinct hc hpaying halgo ht hex (hsub.trans h.inside) hdom hfewer
        fun r' paid' cell' q hpaying' halgo' ht' hp hrem' hdom' hleft' =>
          optimal_remaining hf.distinct hc hpaying' halgo' ht' hp hrem' hdom' hleft'

end Run

section Process

variable {f : Fnctset} {cost : Function → ℚ}

/-- The corners are the functions with a first or last value everywhere. -/
theorem corners_values (hf : Cornered f) :
    (cornerPos f).map (fun q => (functionAt f q).attrVals) = corners f.attrset := by
  rw [cornerPos, List.map_map]
  refine (List.map_congr_left fun c hc => ?_).trans (List.map_id _)
  obtain ⟨g, hg, hv⟩ := corner_found hf hc
  rw [functionAt_get (List.getElem?_eq_some_iff.mp hg).1, Option.some.injEq] at hg
  rw [Function.comp_apply, hg]
  exact hv

theorem main_optimal (hf : Cornered f) (hn : (cornerPos f).Nodup) (threshold : ℤ) (fuel : ℕ)
    (hc : Bounded f cost) :
    ∃ kept : List ℕ, kept.Sublist (List.range f.maxnum) ∧ Optimal f cost kept (cornerPos f)
      (otpoMain (hypothesisGetNext fuel) (fun _ => false) (always cost) .twokFactorial threshold f
        none) := by
  obtain ⟨p, hp⟩ := cornerPos_first hf
  have hlt : p < f.maxnum := cornerPos_lt hf (List.mem_of_getElem? hp)
  obtain ⟨r, cell, hr, hfun, hst, hprogress, hcorner⟩ :=
    first_start (hypothesisGetNext fuel) threshold hf hp (show Bounded f (always cost 0) from hc)
  have hcreated : requestCreate .twokFactorial threshold f = .ok (initial threshold f) :=
    twok_created hf
  obtain ⟨hpaying, halgo⟩ := created_paying hcreated
  obtain ⟨paid, hpaying', halgo', ht⟩ := paying_next hf.distinct hc hpaying halgo tally_nil hr
    hfun hst hlt
  rw [main_created hf, loop_first rfl hr hfun hst]
  exact optimal_corners hf hn hc hpaying' halgo' ht hprogress hcorner (untested_first hlt)

end Process

theorem first_ne_last {p : Param} (hn : p.possibleValues.Nodup) (h : 2 ≤ p.numValues) :
    p.first ≠ p.last := by
  intro he
  have hlt : 0 < p.possibleValues.length := by
    rw [Param.numValues] at h
    omega
  rw [Param.first, Param.last, List.head_eq_getElem, List.getLast_eq_getElem,
    hn.getElem_inj_iff] at he
  rw [Param.numValues] at h
  omega

theorem corners_distinct {ps : List Param} (hne : ps ≠ [])
    (h : ∀ p ∈ ps, 2 ≤ p.numValues ∧ p.possibleValues.Nodup) :
    (cornerPos (fnctsetOf ps (product ps))).Nodup := by
  rw [nodup_cornerPos_iff (product_cornered hne)]
  intro m hm he
  have hi : m < ps.length := by simpa [fnctsetOf, attrsetOf, Attrset.maxnum] using hm
  change (attrsetOf ps).baseval[m]? = (attrsetOf ps).maxval[m]? at he
  rw [baseval_at, maxval_at, List.getElem?_eq_getElem hi, Option.map_some, Option.map_some,
    Option.some.injEq] at he
  obtain ⟨htwo, hn⟩ := h _ (List.getElem_mem hi)
  exact first_ne_last hn htwo he

/-- Over a full product the 2k search tests each corner once, then each other
function that the reduction has kept once, and decides on the cheapest of all
that it has tested. -/
theorem twok_optimal (ps : List Param) (hne : ps ≠ [])
    (h : ∀ p ∈ ps, 2 ≤ p.numValues ∧ p.possibleValues.Nodup) (threshold : ℤ) (fuel : ℕ)
    (cost : Function → ℚ) (hc : Bounded (fnctsetOf ps (product ps)) cost) :
    let f := fnctsetOf ps (product ps)
    (cornerPos f).Nodup ∧
    (cornerPos f).map (fun q => (functionAt f q).attrVals) = corners f.attrset ∧
    ∃ kept : List ℕ, kept.Sublist (List.range f.maxnum) ∧ Optimal f cost kept (cornerPos f)
      (otpoMain (hypothesisGetNext fuel) (fun _ => false) (fun _ => cost) .twokFactorial threshold
        f none) := by
  intro f
  have hf : Cornered f := product_cornered hne
  exact ⟨corners_distinct hne h, corners_values hf,
    main_optimal hf (corners_distinct hne h) threshold fuel hc⟩

/-- The second parameter decides, and its value 2 is best, which is at no corner;
the first one is reduced to the value of the best corner. -/
theorem twok_optimal_grid :
    let ps := [Param.range "a".toList 1 [2], Param.range "b".toList 1 [2, 3]]
    let cost : Function → ℚ := fun g =>
      if g.attrVals = [1, 2] then 5 else if g.attrVals = [1, 1] then 10
      else if g.attrVals = [2, 1] then 11 else 20
    let run := otpoMain (hypothesisGetNext 0) (fun _ => false) (fun _ => cost) .twokFactorial 50
      (fnctsetOf ps (product ps)) none
    finalWinner run = some ⟨2, [1, 2]⟩ ∧
      ∃ kept : List ℕ, Optimal (fnctsetOf ps (product ps)) cost kept
        (cornerPos (fnctsetOf ps (product ps))) run := by
  intro ps cost run
  obtain ⟨_, _, kept, _, hopt⟩ := twok_optimal ps (by simp [ps]) (by decide) 50 0 cost
    (fun g _ => by
      simp only [cost]
      split_ifs <;> norm_num)
  exact ⟨by decide +kernel, kept, hopt⟩

end Otpo.TwokOptimum
