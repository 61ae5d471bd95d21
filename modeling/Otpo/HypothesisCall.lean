import Otpo.HypothesisEvaluation

/-!
# One call of the search over hypotheses

From a state that meets the condition a call comes to its end. It returns no
position, or that of a function which waits for its test.
-/

set_option autoImplicit false

namespace Otpo.HypothesisCall
open Otpo.Statistics Otpo.Adcl Otpo.PerfHypothesis Otpo.HypothesisOdometer Otpo.HypothesisFresh
open Otpo.HypothesisEvaluation

structure Searching (f : Fnctset) (e : Emethod) (hypo : Hypothesis) : Prop where
  sound : Sound f e
  present : e.hypo = some hypo
  placed : Placed e.fnctset.attrset hypo.currAttrvals
  active : hypo.activeAttrpos < e.fnctset.attrset.maxnum

section Call

variable {f : Fnctset} {e d : Emethod} {hypo : Hypothesis} {fuel n : ℕ} {vals : List ℤ}

theorem searching_moved (h : Searching f e hypo) (hv : Placed e.fnctset.attrset vals) :
    Searching f (moved e hypo vals) { hypo with currAttrvals := vals } :=
  ⟨sound_hypo h.sound _, rfl, hv, h.active⟩

theorem searching_total (h : Searching f e hypo) (hfuel : size f.attrset ≤ fuel) :
    total e.fnctset.attrset hypo.activeAttrpos hypo.currAttrvals < fuel :=
  (total_lt h.placed h.active).trans_le (h.sound.bounded.trans hfuel)

/-- A function that is found untested is one of the working set. -/
theorem found_waits (h : Sound f e) (hn : e.fnctset.getFnctByAttrs vals = some n)
    (ht : isTested e n = false) : ∃ s, e.stats[n]? = some s ∧ Waiting s := by
  rw [Fnctset.getFnctByAttrs, List.findIdx?_eq_some_iff_getElem] at hn
  obtain ⟨hlt, _⟩ := hn
  rw [h.length] at hlt
  have hget : e.stats[n]? = some e.stats[n] := List.getElem?_eq_getElem hlt
  refine ⟨e.stats[n], hget, (h.phased _ (List.getElem_mem hlt)).resolve_right fun hev => ?_⟩
  rw [isTested, hget, Option.any_some, hev.tested] at ht
  cases ht

theorem active_after_le {attrs : List (List ℤ)} {active : ℕ} (h : active < attrs.length) :
    activeAfter attrs active ≤ attrs.length := by
  rw [activeAfter]
  split
  · have hle : (attrs.drop active).findIdx (·.length != 1) ≤ (attrs.drop active).length :=
      List.findIdx_le_length
    rw [List.length_drop] at hle
    rw [nextActive]
    omega
  · exact h.le

def rebased (e : Emethod) (hypo : Hypothesis) : Hypothesis :=
  { hypo with
    activeAttrpos := activeAfter e.fnctset.attrset.attrs hypo.activeAttrpos
    currAttrvals := e.fnctset.attrset.baseval }

theorem after_change_eq (n : ℕ) (e : Emethod) (hypo : Hypothesis) :
    afterChange n e hypo =
      if activeAfter e.fnctset.attrset.attrs hypo.activeAttrpos = e.fnctset.attrset.maxnum then
        .ok (.finish none, setHypo e { hypo with
          activeAttrpos := activeAfter e.fnctset.attrset.attrs hypo.activeAttrpos })
      else
        match e.fnctset.getFnctByAttrs e.fnctset.attrset.baseval with
        | none => .ok (.again true (some n), setHypo e (rebased e hypo))
        | some m =>
          if isTested e m then .ok (.again true (some m), setHypo e (rebased e hypo))
          else .error .undefined := rfl

/-- After a change the loop ends, or goes on with the base combination. -/
theorem after_change_goes (h : Sound f e) (hypo : Hypothesis)
    (ha : hypo.activeAttrpos < e.fnctset.attrset.maxnum)
    (hgo : goesOn fuel e hypo = true) (n : ℕ) :
    (∃ hypo', afterChange n e hypo = .ok (.finish none, setHypo e hypo')) ∨
      ∃ m step vals, afterChange n e hypo =
          .ok (.again true (some m), setHypo e (rebased e hypo)) ∧
        Searching f (setHypo e (rebased e hypo)) (rebased e hypo) ∧
        (ahead e.fnctset.attrset (rebased e hypo).activeAttrpos fuel
          e.fnctset.attrset.baseval).find? (fun q => fresh e q.2) = some (step, vals) := by
  have hle := active_after_le ha
  rw [after_change_eq]
  by_cases hdone : activeAfter e.fnctset.attrset.attrs hypo.activeAttrpos = e.fnctset.attrset.maxnum
  · exact Or.inl ⟨_, if_pos hdone⟩
  · right
    have hactive : activeAfter e.fnctset.attrset.attrs hypo.activeAttrpos <
        e.fnctset.attrset.maxnum := Nat.lt_of_le_of_ne hle hdone
    have hsearching : Searching f (setHypo e (rebased e hypo)) (rebased e hypo) :=
      ⟨sound_hypo h _, rfl, placed_base h.formed, hactive⟩
    simp only [goesOn, beq_false_of_ne hdone, Bool.false_or, Bool.and_eq_true,
      Bool.not_eq_true'] at hgo
    obtain ⟨hbase, hahead⟩ := hgo
    rw [List.any_eq_true] at hahead
    obtain ⟨q, hq, hfresh⟩ := hahead
    have hsome : ((ahead e.fnctset.attrset (rebased e hypo).activeAttrpos fuel
        e.fnctset.attrset.baseval).find? fun q => fresh e q.2).isSome :=
      List.find?_isSome.mpr ⟨q, hq, hfresh⟩
    obtain ⟨⟨step, vals⟩, hfind⟩ := Option.isSome_iff_exists.mp hsome
    rw [if_neg hdone]
    cases hget : e.fnctset.getFnctByAttrs e.fnctset.attrset.baseval with
    | none => exact ⟨n, step, vals, rfl, hsearching, hfind⟩
    | some m =>
      have ht : isTested e m = true := by simpa [fresh, hget] using hbase
      exact ⟨m, step, vals, if_pos ht, hsearching, hfind⟩

/-- The combinations after a change lead to a function that waits. -/
theorem rebased_fresh (h : Searching f (setHypo e (rebased e hypo)) (rebased e hypo))
    (evalFuel m : ℕ) {left : ℕ} {step : Step} (hfuel : size f.attrset ≤ fuel)
    (hleft : size f.attrset ≤ left)
    (hfind : (ahead e.fnctset.attrset (rebased e hypo).activeAttrpos fuel
      e.fnctset.attrset.baseval).find? (fun q => fresh e q.2) = some (step, vals)) :
    ∃ k d hypo', getNextLoop evalFuel left true (some m) (setHypo e (rebased e hypo)) =
        .ok (some k, d) ∧ Searching f d hypo' ∧ Kept e d ∧
      ∃ s, d.stats[k]? = some s ∧ Waiting s := by
  have henough := ahead_enough h.sound.formed h.placed h.active (searching_total h hfuel)
    (searching_total h hleft)
  obtain ⟨k, _, hk, ht, hplaced, _, hloop⟩ := loop_fresh evalFuel true (some m) h.sound.formed
    h.placed h.active (searching_total h hleft) (henough ▸ hfind)
  rw [moved_self h.present, if_neg (by simp)] at hloop
  have hmoved := searching_moved h hplaced
  exact ⟨k, _, _, hloop, hmoved, kept_hypo e _, found_waits hmoved.sound hk ht⟩

/-- The evaluation of a block ends the call, or leads to another function. -/
theorem evaluation_goes (h : Searching f e hypo) (hfuel : size f.attrset ≤ fuel)
    (hwaits : ∃ s, e.stats[n]? = some s ∧ Waiting s)
    (hgo : ∀ d hypo', evalV3 fuel e hypo = .ok (true, d) → d.hypo = some hypo' →
      goesOn fuel d hypo' = true) :
    (∃ next d, evaluationRound fuel n e hypo = .ok (.finish next, d) ∧ Sound f d ∧ Kept e d ∧
      ∀ k, next = some k → (∃ hypo', Searching f d hypo') ∧
        ∃ s, d.stats[k]? = some s ∧ Waiting s) ∨
    ∃ m d hypo' step vals, evaluationRound fuel n e hypo =
        .ok (.again true (some m), setHypo d (rebased d hypo')) ∧ Kept e d ∧
      Searching f (setHypo d (rebased d hypo')) (rebased d hypo') ∧
      (ahead d.fnctset.attrset (rebased d hypo').activeAttrpos fuel
        d.fnctset.attrset.baseval).find? (fun q => fresh d q.2) = some (step, vals) := by
  obtain ⟨changed, d, hypo', heval, hd, hkept, hhypo, hcurr, hpos, hsame⟩ :=
    eval_v3_sound h.sound hfuel hypo
  rw [evaluationRound, heval]
  cases changed with
  | false =>
    obtain ⟨hfnctset, hstats⟩ := hsame rfl
    refine Or.inl ⟨some n, d, rfl, hd, hkept, fun k hk => ?_⟩
    cases hk
    refine ⟨⟨hypo', hd, hhypo, ?_, ?_⟩, ?_⟩
    · rw [hfnctset, hcurr]
      exact h.placed
    · rw [hfnctset, hpos]
      exact h.active
    · rw [hstats]
      exact hwaits
  | true =>
    have hactive : hypo'.activeAttrpos < d.fnctset.attrset.maxnum := by
      rw [hkept.attributes, hpos]
      exact h.active
    simp only [hhypo]
    rcases after_change_goes hd hypo' hactive (hgo d hypo' heval hhypo) n with
      ⟨hypo'', hafter⟩ | ⟨m, step, vals, hafter, hsearching, hfind⟩
    · exact Or.inl ⟨none, _, hafter, sound_hypo hd _, kept_trans hkept (kept_hypo d _),
        fun k hk => by cases hk⟩
    · exact Or.inr ⟨m, d, hypo', step, vals, hafter, hkept, hsearching, hfind⟩

/-- One call from a state that meets the condition. -/
theorem get_next_fresh (h : Searching f e hypo) (hfuel : 2*size f.attrset ≤ fuel)
    (hm : meets fuel e = true) :
    ∃ next d, hypothesisGetNext fuel e = .ok (next, d) ∧ Sound f d ∧ Kept e d ∧
      ∀ n, next = some n → (∃ hypo', Searching f d hypo') ∧
        ∃ s, d.stats[n]? = some s ∧ Waiting s := by
  have hsize : size f.attrset ≤ fuel := by omega
  have htotal := searching_total h hsize
  have hself := moved_self h.present
  rw [hypothesisGetNext]
  simp only [meets, h.present] at hm
  cases hfind : (ahead e.fnctset.attrset hypo.activeAttrpos fuel hypo.currAttrvals).find?
      fun q => fresh e q.2 with
  | none =>
    simp only [hfind, Bool.not_eq_true', List.any_eq_false] at hm
    obtain ⟨next, vals, hloop, hnext⟩ := loop_stale fuel false none h.sound.formed h.placed
      h.active htotal fun q hq => Bool.eq_false_iff.mpr (List.find?_eq_none.mp hfind q hq)
    rw [hself] at hloop
    refine ⟨next, _, hloop, sound_hypo h.sound _, kept_hypo e _, fun n hn => ?_⟩
    rw [hnext fun q hq => Bool.eq_false_iff.mpr (hm q hq)] at hn
    cases hn
  | some q =>
    obtain ⟨step, vals⟩ := q
    obtain ⟨n, left, hn, ht, hplaced, hleft, hloop⟩ := loop_fresh fuel false none
      h.sound.formed h.placed h.active htotal hfind
    have hmoved := searching_moved h hplaced
    have hkept := kept_hypo e { hypo with currAttrvals := vals }
    have hwaits := found_waits hmoved.sound hn ht
    have hleft : size f.attrset ≤ left := by
      have hlt := searching_total h (Nat.le_refl _)
      omega
    rw [hself] at hloop
    rw [hloop]
    by_cases hblock : step = .newBlock
    · subst hblock
      rw [if_pos ⟨rfl, rfl⟩]
      simp only [hfind] at hm
      have hgo : ∀ d hypo', evalV3 fuel (moved e hypo vals) { hypo with currAttrvals := vals } =
          .ok (true, d) → d.hypo = some hypo' → goesOn fuel d hypo' = true := by
        intro d hypo' heval hhypo
        simpa only [heval, hhypo, Option.any_some] using hm
      rcases evaluation_goes hmoved hsize hwaits hgo with
        ⟨next, d, hround, hd, hchanged, hnext⟩ |
        ⟨m, d, hypo', step, vals', hround, hchanged, hsearching, hfind'⟩
      · rw [hround]
        exact ⟨next, d, rfl, hd, kept_trans hkept hchanged, hnext⟩
      · obtain ⟨k, d', hypo'', hloop', hd', hkept', hwaits'⟩ := rebased_fresh hsearching
          fuel m hsize hleft hfind'
        rw [hround]
        refine ⟨some k, d', hloop', hd'.sound, kept_trans hkept (kept_trans hchanged hkept'),
          fun j hj => ?_⟩
        cases hj
        exact ⟨⟨hypo'', hd'⟩, hwaits'⟩
    · rw [if_neg fun hb => hblock hb.1]
      refine ⟨some n, _, rfl, hmoved.sound, hkept, fun k hk => ?_⟩
      cases hk
      exact ⟨⟨_, hmoved⟩, hwaits⟩

end Call

end Otpo.HypothesisCall
