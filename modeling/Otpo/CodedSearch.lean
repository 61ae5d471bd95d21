import Otpo.CodedEvaluation
import Otpo.HypothesisCall

/-!
# The search in corresponding sets

Two methods with corresponding working sets and the same measurements are
searched alike: each call evaluates, shrinks and returns the same in both, as
long as no winner is confused with the marker.
-/

set_option autoImplicit false

namespace Otpo.CodedSearch
open AlignedLists RelatedLists RelatedResults Otpo.ParamList Otpo.Statistics Otpo.Adcl
open Otpo.PerfHypothesis Otpo.HypothesisOdometer Otpo.HypothesisFresh Otpo.AttributeCodes
open Otpo.HypothesisCall Otpo.CodedEvaluation

structure Twins (f f' : Fnctset) : Prop where
  sets : Matching f.attrset f'.attrset
  functions : List.Forall₂
    (fun g g' => Valued f.attrset f'.attrset g.attrVals g'.attrVals) f.functions f'.functions

def Twin (f f' : Fnctset) : Function → Function → Prop := Aligned f.functions f'.functions

structure Alike (f f' : Fnctset) (e e' : Emethod) : Prop where
  state : e.state = e'.state
  last : e.last = e'.last
  algo : e.searchAlgo = .perfHypo
  algo' : e'.searchAlgo = .perfHypo
  stats : e.stats = e'.stats
  functions : List.Forall₂ (Twin f f') e.fnctset.functions e'.fnctset.functions
  sets : Matching e.fnctset.attrset e'.fnctset.attrset
  within : Within e.fnctset.attrset e'.fnctset.attrset f.attrset f'.attrset
  attributes : e.fnctset.attrset.maxnum = f.attrset.maxnum
  winner : Option.Rel (Twin f f') e.wfunction e'.wfunction

structure Posed (f f' : Fnctset) (a a' : Attrset) (hypo hypo' : Hypothesis) : Prop where
  believed : Believed f.attrset f'.attrset ⟨hypo.attrHypothesis, hypo.attrConfidence⟩
    ⟨hypo'.attrHypothesis, hypo'.attrConfidence⟩
  position : hypo.activeAttrpos = hypo'.activeAttrpos
  active : hypo.activeAttrpos < a.maxnum
  valued : Valued a a' hypo.currAttrvals hypo'.currAttrvals

structure Paired (f f' : Fnctset) (e e' : Emethod) : Prop where
  alike : Alike f f' e e'
  posed : ∃ hypo hypo', e.hypo = some hypo ∧ e'.hypo = some hypo' ∧
    Posed f f' e.fnctset.attrset e'.fnctset.attrset hypo hypo'

def Clear (e e' : Emethod) : Prop :=
  Unconfused e.fnctset.attrset e'.fnctset.attrset (e.fnctset.functions.zip e.stats)
    (e'.fnctset.functions.zip e'.stats)

section Sets

variable {f f' : Fnctset} {e e' : Emethod} {hypo hypo' : Hypothesis} {vals vals' : List ℤ}
variable {m : ℕ} {v w : ℤ}

theorem twin_valued (ht : Twins f f') {g g' : Function} (h : Twin f f' g g') :
    Valued f.attrset f'.attrset g.attrVals g'.attrVals := by
  obtain ⟨p, hg, hg'⟩ := h
  obtain ⟨k, hk, hvalued⟩ := related_get ht.functions hg
  rw [hg'] at hk
  cases hk
  exact hvalued

theorem alike_same (ht : Twins f f') (h : Alike f f' e e') :
    List.Forall₂ (Same f.attrset f'.attrset) (e.fnctset.functions.zip e.stats)
      (e'.fnctset.functions.zip e'.stats) := by
  rw [← h.stats]
  exact (related_zip h.functions e.stats).imp fun _ _ hq => ⟨twin_valued ht hq.1, hq.2⟩

theorem function_codes (ht : Twins f f') (h : Alike f f' e e')
    (hv : Valued e.fnctset.attrset e'.fnctset.attrset vals vals') :
    e.fnctset.getFnctByAttrs vals = e'.fnctset.getFnctByAttrs vals' :=
  related_find_idx h.functions fun _ _ hg => Bool.eq_iff_iff.mpr <| by
    rw [beq_iff_eq, beq_iff_eq]
    exact vals_eq_iff ht.sets (twin_valued ht hg) (indexed_mono h.within hv.codes)

theorem tested_eq (h : Alike f f' e e') (n : ℕ) : isTested e n = isTested e' n := by
  rw [isTested, isTested, h.stats]

theorem fresh_eq (ht : Twins f f') (h : Alike f f' e e')
    (hv : Valued e.fnctset.attrset e'.fnctset.attrset vals vals') :
    fresh e vals = fresh e' vals' := by
  rw [fresh, fresh, function_codes ht h hv]
  simp only [tested_eq h]

theorem keeps_eq (ht : Twins f f') (hvw : Codes f.attrset f'.attrset m v w) {g g' : Function}
    (hg : Twin f f' g g') : keeps m v g = keeps m w g' := by
  have hget := indexed_get_rel (twin_valued ht hg).codes m
  rw [Nat.zero_add] at hget
  rw [keeps, keeps, Bool.eq_iff_iff, beq_iff_eq, beq_iff_eq]
  generalize g.attrVals[m]? = x at hget
  generalize g'.attrVals[m]? = x' at hget
  cases hget with
  | none => exact ⟨fun h => (by cases h), fun h => (by cases h)⟩
  | some hcodes =>
    rw [Option.some.injEq, Option.some.injEq]
    exact codes_eq ht.sets hcodes hvw

theorem alike_hypo (h : Alike f f' e e') (hypo hypo' : Hypothesis) :
    Alike f f' (setHypo e hypo) (setHypo e' hypo') := { h with }

/-- Fixing an attribute to corresponding values keeps corresponding functions. -/
theorem shrink_alike (ht : Twins f f') (h : Alike f f' e e')
    (hvw : Codes f.attrset f'.attrset m v w) :
    Alike f f' (shrinklistByattr e m v) (shrinklistByattr e' m w) := by
  have hkept : List.Forall₂ (fun q q' => Twin f f' q.1 q'.1 ∧ q.2 = q'.2)
      ((e.fnctset.functions.zip e.stats).filter fun q => keeps m v q.1)
      ((e'.fnctset.functions.zip e'.stats).filter fun q => keeps m w q.1) := by
    rw [← h.stats]
    exact related_filter (related_zip h.functions e.stats) fun _ _ hq => keeps_eq ht hvw hq.1
  refine ⟨h.state, h.last, h.algo, h.algo', ?_, ?_, matching_fixed h.sets m v w,
    fun k x y hxy => ?_, (List.length_set ..).trans h.attributes, h.winner⟩
  · change List.map Prod.snd _ = List.map Prod.snd _
    rw [← List.forall₂_eq_eq_eq, List.forall₂_map_left_iff, List.forall₂_map_right_iff]
    exact hkept.imp fun _ _ hq => hq.2
  · change List.Forall₂ _ (List.map Prod.fst _) (List.map Prod.fst _)
    rw [List.forall₂_map_left_iff, List.forall₂_map_right_iff]
    exact hkept.imp fun _ _ hq => hq.1
  · rcases codes_fixed hxy with ⟨rfl, rfl, rfl⟩ | hcodes
    · exact hvw
    · exact h.within k x y hcodes

theorem shrinks_alike (ht : Twins f f') (h : Alike f f' e e') {settled settled' : List (ℕ × ℤ)}
    (hs : List.Forall₂ (fun q q' => q.1 = q'.1 ∧ Codes f.attrset f'.attrset q.1 q.2 q'.2)
      settled settled') :
    Alike f f' (settled.foldl (fun e q => shrinklistByattr e q.1 q.2) e)
      (settled'.foldl (fun e q => shrinklistByattr e q.1 q.2) e') := by
  induction hs generalizing e e' with
  | nil => exact h
  | @cons q q' settled settled' hq _ ih =>
    obtain ⟨m, v⟩ := q
    obtain ⟨m', w⟩ := q'
    obtain ⟨rfl, hvw⟩ := hq
    exact ih (shrink_alike ht h hvw)

theorem shrinks_hypo (settled : List (ℕ × ℤ)) (e : Emethod) :
    (settled.foldl (fun e q => shrinklistByattr e q.1 q.2) e).hypo = e.hypo := by
  induction settled generalizing e with
  | nil => rfl
  | cons q settled ih => exact ih (shrinklistByattr e q.1 q.2)

end Sets

section Evaluation

variable {f f' : Fnctset} {e e' : Emethod} {hypo hypo' : Hypothesis}

structure Evaluated (f f' : Fnctset) (e e' : Emethod) (hypo hypo' : Hypothesis)
    (r r' : Bool × Emethod) : Prop where
  changed : r.1 = r'.1
  alike : Alike f f' r.2 r'.2
  unchanged : r.1 = false → r.2.fnctset = e.fnctset ∧ r'.2.fnctset = e'.fnctset
  believed : ∃ h h', r.2.hypo = some h ∧ r'.2.hypo = some h' ∧
    Believed f.attrset f'.attrset ⟨h.attrHypothesis, h.attrConfidence⟩
      ⟨h'.attrHypothesis, h'.attrConfidence⟩ ∧
    (h.activeAttrpos = hypo.activeAttrpos ∧ h'.activeAttrpos = hypo'.activeAttrpos) ∧
    h.currAttrvals = hypo.currAttrvals ∧ h'.currAttrvals = hypo'.currAttrvals

theorem eval_v3_alike (ht : Twins f f') (h : Alike f f' e e')
    (hp : Posed f f' e.fnctset.attrset e'.fnctset.attrset hypo hypo') (hclear : Clear e e')
    (fuel : ℕ) : Agree (Evaluated f f' e e' hypo hypo') (evalV3 fuel e hypo)
      (evalV3 fuel e' hypo') := by
  have hevaluate := eval_hypotheses_codes ht.sets h.sets h.within h.attributes (alike_same ht h)
    hclear fuel hp.believed
  rw [evalV3, evalV3]
  rcases agree_cases hevaluate with ⟨fault, hx, hx'⟩ | ⟨x, x', hx, hx', hbelieved⟩
  · simp only [evaluate, hx, hx']
    rfl
  · have hreached := reached_codes h.sets h.attributes hbelieved
    have hempty : (reached e.fnctset.attrset x).isEmpty =
        (reached e'.fnctset.attrset x').isEmpty := by
      rw [Bool.eq_iff_iff, List.isEmpty_iff_length_eq_zero, List.isEmpty_iff_length_eq_zero,
        hreached.length_eq]
    simp only [evaluate, hx, hx']
    refine ⟨congrArg not hempty, shrinks_alike ht (alike_hypo h _ _) hreached, fun hchanged => ?_,
      _, _, shrinks_hypo _ _, shrinks_hypo _ _, hbelieved, ⟨rfl, rfl⟩, rfl, rfl⟩
    have hnil : reached e.fnctset.attrset x = [] := by simpa using hchanged
    have hnil' : reached e'.fnctset.attrset x' = [] := by
      rw [List.eq_nil_iff_length_eq_zero, ← hreached.length_eq, hnil]
      rfl
    rw [hnil, hnil']
    exact ⟨rfl, rfl⟩

structure Rounded (f f' : Fnctset) (r r' : Round × Emethod) : Prop where
  outcome : r.1 = r'.1
  alike : Alike f f' r.2 r'.2
  paired : r.1 ≠ .finish none → Paired f f' r.2 r'.2

theorem active_after_eq (h : Alike f f' e e') (active : ℕ) :
    activeAfter e.fnctset.attrset.attrs active = activeAfter e'.fnctset.attrset.attrs active := by
  have hdrop : (e.fnctset.attrset.attrs.drop active).findIdx (·.length != 1) =
      (e'.fnctset.attrset.attrs.drop active).findIdx (·.length != 1) := by
    have hlengths : (e.fnctset.attrset.attrs.drop active).map List.length =
        (e'.fnctset.attrset.attrs.drop active).map List.length := by
      rw [List.map_drop, List.map_drop, h.sets.lengths]
    have hidx : ∀ l : List (List ℤ), l.findIdx (·.length != 1) =
        (l.map List.length).findIdx (· != 1) := fun l => by
      rw [List.findIdx_map]
      rfl
    rw [hidx, hidx, hlengths]
  rw [activeAfter, activeAfter, lengths_get h.sets, nextActive, nextActive, hdrop]

/-- After a change both methods stop, or go on from corresponding base values. -/
theorem after_change_alike (ht : Twins f f') (h : Alike f f' e e')
    (hx : Believed f.attrset f'.attrset ⟨hypo.attrHypothesis, hypo.attrConfidence⟩
      ⟨hypo'.attrHypothesis, hypo'.attrConfidence⟩)
    (hpos : hypo.activeAttrpos = hypo'.activeAttrpos)
    (ha : hypo.activeAttrpos < e.fnctset.attrset.maxnum) (n : ℕ) :
    Agree (fun r r' => Rounded f f' r r' ∧ ∀ just m, r.1 = .again just m → just = true)
      (afterChange n e hypo) (afterChange n e' hypo') := by
  have hactive := active_after_eq h hypo.activeAttrpos
  have hle := active_after_le ha
  have hbase := valued_base h.sets
  have hfound := function_codes ht h hbase
  rw [after_change_eq, after_change_eq, ← hpos, ← hactive, ← hfound, ← maxnum_eq h.sets]
  by_cases hdone : activeAfter e.fnctset.attrset.attrs hypo.activeAttrpos = e.fnctset.attrset.maxnum
  · rw [if_pos hdone, if_pos hdone]
    exact ⟨⟨rfl, alike_hypo h _ _, fun hne => absurd rfl hne⟩, fun just m he => by cases he⟩
  · rw [if_neg hdone, if_neg hdone]
    have hposed : Posed f f' e.fnctset.attrset e'.fnctset.attrset (rebased e hypo)
        (rebased e' hypo') := by
      refine ⟨hx, ?_, Nat.lt_of_le_of_ne hle hdone, hbase⟩
      simp only [rebased, ← hpos, ← hactive]
    have hpaired : Paired f f' (setHypo e (rebased e hypo)) (setHypo e' (rebased e' hypo')) :=
      ⟨alike_hypo h _ _, _, _, rfl, rfl, hposed⟩
    have hagain : ∀ m : ℕ, Agree
        (fun r r' => Rounded f f' r r' ∧ ∀ just m, r.1 = .again just m → just = true)
        (.ok (.again true (some m), setHypo e (rebased e hypo)) : Except Fault (Round × Emethod))
        (.ok (.again true (some m), setHypo e' (rebased e' hypo'))) := fun m =>
      ⟨⟨rfl, hpaired.alike, fun _ => hpaired⟩, fun just m he => by cases he; rfl⟩
    cases e.fnctset.getFnctByAttrs e.fnctset.attrset.baseval with
    | none => exact hagain n
    | some m =>
      simp only [← tested_eq h]
      split
      · exact hagain m
      · rfl

theorem evaluation_round_alike (ht : Twins f f') (h : Alike f f' e e')
    (hp : Posed f f' e.fnctset.attrset e'.fnctset.attrset hypo hypo') (hclear : Clear e e')
    (fuel n : ℕ) :
    Agree (fun r r' => Rounded f f' r r' ∧ ∀ just m, r.1 = .again just m → just = true)
      (evaluationRound fuel n e hypo) (evaluationRound fuel n e' hypo') := by
  rw [evaluationRound, evaluationRound]
  rcases agree_cases (eval_v3_alike ht h hp hclear fuel) with
    ⟨fault, he, he'⟩ | ⟨r, r', he, he', hevaluated⟩
  · simp only [he, he']
    rfl
  · obtain ⟨changed, d⟩ := r
    obtain ⟨changed', d'⟩ := r'
    obtain ⟨hchanged, halike, hsame, h₁, h₁', hhypo, hhypo', hx, ⟨hpos, hpos'⟩, hcurr, hcurr'⟩ :=
      hevaluated
    simp only at hchanged halike hsame hhypo hhypo'
    have hposition : h₁.activeAttrpos = h₁'.activeAttrpos := by rw [hpos, hpos', hp.position]
    subst hchanged
    simp only [he, he']
    cases changed with
    | false =>
      obtain ⟨hset, hset'⟩ := hsame rfl
      have hpaired : Paired f f' d d' := by
        refine ⟨halike, h₁, h₁', hhypo, hhypo', hx, hposition, ?_, ?_⟩
        · rw [hset, hpos]
          exact hp.active
        · rw [hset, hset', hcurr, hcurr']
          exact hp.valued
      exact ⟨⟨rfl, halike, fun _ => hpaired⟩, fun just m hm => by cases hm⟩
    | true =>
      have hactive : h₁.activeAttrpos < d.fnctset.attrset.maxnum := by
        rw [hpos, halike.attributes, ← h.attributes]
        exact hp.active
      simp only [hhypo, hhypo']
      exact after_change_alike ht halike hx hposition hactive n

end Evaluation

section Loop

variable {f f' : Fnctset} {e e' : Emethod} {hypo hypo' : Hypothesis} {vals vals' : List ℤ}
variable {step : Step}

theorem evaluates_stale
    (h : nextAttrCombination e.fnctset.attrset hypo.activeAttrpos vals = (step, vals'))
    (hstep : step ≠ .evalDone) (hf : fresh e vals' = false) (fuel : ℕ) :
    evaluates (fuel+1) (moved e hypo vals) = evaluates fuel (moved e hypo vals') := by
  simp only [evaluates, moved, setHypo, h, if_neg hstep]
  rw [fresh] at hf
  cases hget : e.fnctset.getFnctByAttrs vals' with
  | none => rfl
  | some n =>
    rw [hget] at hf
    have ht : isTested e n = true := by simpa using hf
    exact if_pos ht

theorem evaluates_block
    (h : nextAttrCombination e.fnctset.attrset hypo.activeAttrpos vals = (.newBlock, vals'))
    (hf : fresh e vals' = true) (fuel : ℕ) : evaluates (fuel+1) (moved e hypo vals) = true := by
  obtain ⟨n, hget, ht⟩ := (fresh_iff e vals').mp hf
  have hn : ¬ isTested e n = true := by simp [ht]
  have hstep : ¬ Step.newBlock = .evalDone := by decide
  simp only [evaluates, moved, setHypo, h, hget]
  rw [if_neg hstep]
  exact (if_neg hn).trans rfl

structure Called (f f' : Fnctset) (r r' : Option ℕ × Emethod) : Prop where
  next : r.1 = r'.1
  alike : Alike f f' r.2 r'.2
  paired : r.1 ≠ none → Paired f f' r.2 r'.2

/-- One iteration does the same in both sets. Where the search goes on without an
evaluation, the next one finds the winners as they were. -/
theorem round_alike (ht : Twins f f') (evalFuel fuel : ℕ) (just : Bool) (next : Option ℕ)
    (h : Paired f f' e e') (hclear : just = false → evaluates (fuel+1) e = true → Clear e e') :
    Agree (fun r r' => Rounded f f' r r' ∧ ∀ just m, r.1 = .again just m → just = false →
        evaluates fuel r.2 = true → Clear r.2 r'.2)
      (PerfHypothesis.round evalFuel just next e) (PerfHypothesis.round evalFuel just next e') := by
  obtain ⟨halike, hypo, hypo', hhypo, hhypo', hposed⟩ := h
  rw [← moved_self hhypo, ← moved_self hhypo']
  rw [← moved_self hhypo] at hclear
  obtain ⟨hstep, hvalued⟩ := combination_codes halike.sets hposed.valued hposed.active
  obtain ⟨step, vals, hcomb⟩ : ∃ step vals, nextAttrCombination e.fnctset.attrset
    hypo.activeAttrpos hypo.currAttrvals = (step, vals) := ⟨_, _, rfl⟩
  obtain ⟨step', vals', hcomb'⟩ : ∃ step vals, nextAttrCombination e'.fnctset.attrset
    hypo'.activeAttrpos hypo'.currAttrvals = (step, vals) := ⟨_, _, rfl⟩
  rw [hcomb, hposed.position, hcomb'] at hstep hvalued
  simp only at hstep hvalued
  subst hstep
  have hposed' : Posed f f' e.fnctset.attrset e'.fnctset.attrset
      { hypo with currAttrvals := vals } { hypo' with currAttrvals := vals' } :=
    ⟨hposed.believed, hposed.position, hposed.active, hvalued⟩
  have hmoved : Paired f f' (moved e hypo vals) (moved e' hypo' vals') :=
    ⟨alike_hypo halike _ _, _, _, rfl, rfl, hposed'⟩
  have hfresh := fresh_eq ht halike hvalued
  have hget := function_codes ht halike hvalued
  by_cases hdone : step = .evalDone
  · subst hdone
    rw [round_done hcomb, round_done hcomb']
    exact ⟨⟨rfl, hmoved.alike, fun _ => hmoved⟩, fun just m hm => by cases hm⟩
  · cases hf : fresh e vals with
    | false =>
      rw [round_stale hcomb hdone hf, round_stale hcomb' hdone (hfresh ▸ hf), ← hget]
      refine ⟨⟨rfl, hmoved.alike, fun _ => hmoved⟩, fun j m hm hj hevaluates => ?_⟩
      cases hm
      rw [← evaluates_stale hcomb hdone hf] at hevaluates
      exact hclear hj hevaluates
    | true =>
      obtain ⟨n, hn, hnt⟩ := (fresh_iff e vals).mp hf
      rw [round_fresh hcomb hdone hn hnt,
        round_fresh hcomb' hdone (hget ▸ hn) (tested_eq halike n ▸ hnt)]
      by_cases hblock : step = .newBlock ∧ just = false
      · obtain ⟨rfl, rfl⟩ := hblock
        rw [if_pos ⟨rfl, rfl⟩, if_pos ⟨rfl, rfl⟩]
        have hevaluation := evaluation_round_alike ht hmoved.alike hposed'
          (hclear rfl (evaluates_block hcomb hf fuel)) evalFuel n
        rcases agree_cases hevaluation with ⟨fault, hr, hr'⟩ | ⟨r, r', hr, hr', hround, hjust⟩
        · rw [hr, hr']
          rfl
        · rw [hr, hr']
          exact ⟨hround, fun just m hm hfalse => absurd (hjust just m hm) (by simp [hfalse])⟩
      · rw [if_neg hblock, if_neg hblock]
        exact ⟨⟨rfl, hmoved.alike, fun _ => hmoved⟩, fun just m hm => by cases hm⟩

/-- The loops do the same in both sets. -/
theorem loop_alike (ht : Twins f f') (evalFuel fuel : ℕ) (just : Bool) (next : Option ℕ)
    (h : Paired f f' e e') (hclear : just = false → evaluates fuel e = true → Clear e e') :
    Agree (Called f f') (getNextLoop evalFuel fuel just next e)
      (getNextLoop evalFuel fuel just next e') := by
  induction fuel generalizing just next e e' with
  | zero => rfl
  | succ fuel ih =>
    rw [getNextLoop, getNextLoop]
    rcases agree_cases (round_alike ht evalFuel fuel just next h hclear) with
      ⟨fault, hr, hr'⟩ | ⟨r, r', hr, hr', hround, hagain⟩
    · rw [hr, hr']
      rfl
    · rw [hr, hr']
      obtain ⟨outcome, d⟩ := r
      obtain ⟨outcome', d'⟩ := r'
      obtain ⟨houtcome, hd, hpaired⟩ := hround
      simp only at houtcome hd hpaired hagain
      subst houtcome
      cases outcome with
      | finish next => exact ⟨rfl, hd, fun hne => hpaired fun he => hne (Round.finish.inj he)⟩
      | again just next =>
        exact ih just next (hpaired fun he => by cases he) (hagain just next rfl)

end Loop

end Otpo.CodedSearch
