import Otpo.TwokSearch

/-!
# The run of the 2k search

The loop ends in a decision as long as it has one iteration more than there
are untested functions, which holds from the first start on. A corner that
repeats another one stops the run instead.
-/

set_option autoImplicit false

namespace Otpo.TwokRun
open Otpo.ParamList Otpo.Statistics Otpo.Adcl Otpo.TwokCorners Otpo.TwokReduction
open Otpo.TwokKnowledge Otpo.TwokSearch

def untested (kept started : List ℕ) : List ℕ := kept.filter fun q => q ∉ started

def Ends (f : Fnctset) (run : Except Fault (Outcome × List Start)) : Prop :=
  ∃ r g, ∃ started : List ℕ,
    run = .ok (.finished r, started.map (testingStart f) ++ [⟨g, .regular⟩]) ∧
    r.emethod.state = .regular ∧ r.emethod.wfunction = some g ∧
    started.Nodup ∧ ∀ q ∈ started, q < f.maxnum

section Loop

variable {hypothesisGetNext : Emethod → Except Fault (Option ℕ × Emethod)}
variable {f : Fnctset} {report : ℕ → Function → ℚ} {r : Request} {kept kept' : List ℕ}
variable {cell : ℕ → Stat} {started : List ℕ} {p q i left : ℕ} {t : Twok}

theorem untested_next (hsub : kept'.Sublist kept) (hq : q ∈ kept) (hnew : q ∉ started) :
    (untested kept' (started ++ [q])).length < (untested kept started).length := by
  have hfewer : (untested kept' (started ++ [q])).length ≤
      ((untested kept started).filter (· ≠ q)).length := by
    rw [untested, untested, List.filter_filter]
    refine ((hsub.filter _).trans ?_).length_le
    refine List.monotone_filter_right kept fun x hx => ?_
    simp only [List.mem_append, List.mem_singleton, not_or, decide_eq_true_eq] at hx
    simp [hx.1, hx.2]
  refine hfewer.trans_lt ?_
  have hmem : q ∈ untested kept started := List.mem_filter.mpr ⟨hq, by simpa using hnew⟩
  exact List.length_filter_lt_length_iff_exists.mpr ⟨q, hmem, by simp⟩

theorem started_next (hs : started.Nodup) (hlt : ∀ x ∈ started, x < f.maxnum)
    (hq : q < f.maxnum) (hnew : q ∉ started) :
    (started ++ [q]).Nodup ∧ ∀ x ∈ started ++ [q], x < f.maxnum := by
  refine ⟨List.nodup_append.mpr ⟨hs, List.nodup_singleton q, ?_⟩, ?_⟩
  · intro x hx y hy he
    rw [List.mem_singleton] at hy
    exact hnew (hy ▸ he ▸ hx)
  · intro x hx
    rcases List.mem_append.mp hx with hx | hx
    · exact hlt x hx
    · rw [List.mem_singleton.mp hx]
      exact hq

theorem loop_testing {stop : ℕ → Bool} {s : Request} (hstop : stop i = false)
    (hr : requestStart hypothesisGetNext (report i) r = .ok s)
    (hfun : s.function = some (functionAt f q)) (hst : s.emethod.state = .testing) :
    tuningLoop hypothesisGetNext stop report (left+1) i true r (started.map (testingStart f)) =
      tuningLoop hypothesisGetNext stop report left (i+1) true s
        ((started ++ [q]).map (testingStart f)) := by
  rw [tuningLoop_start hstop hr hfun, List.map_append, getState, hst]
  rfl

theorem loop_advances
    (h : Advances hypothesisGetNext f (report i) r kept started)
    (hkept : kept.Sublist (List.range f.maxnum)) (hs : started.Nodup)
    (hlt : ∀ x ∈ started, x < f.maxnum) (hleft : (untested kept started).length < left+1)
    (hrest : ∀ r' kept' cell' q, Progress f r' kept' cell' (started ++ [q]) q → Remaining r' →
      (started ++ [q]).Nodup → (∀ x ∈ started ++ [q], x < f.maxnum) →
      (untested kept' (started ++ [q])).length < left →
      Ends f (tuningLoop hypothesisGetNext (fun _ => false) report left (i+1) true r'
        ((started ++ [q]).map (testingStart f)))) :
    Ends f (tuningLoop hypothesisGetNext (fun _ => false) report (left+1) i true r
      (started.map (testingStart f))) := by
  rcases h with ⟨r', kept', cell', q, hr, hfun, hst, hnew, hq, hsub, hp, ht⟩ |
    ⟨r', g, hr, hfun, hst, hw⟩
  · have hqn : q < f.maxnum := List.mem_range.mp (hkept.subset hq)
    obtain ⟨hs', hlt'⟩ := started_next hs hlt hqn hnew
    have hless := untested_next hsub hq hnew
    rw [loop_testing rfl hr hfun hst]
    exact hrest r' kept' cell' q hp ht hs' hlt' (by omega)
  · refine ⟨r', g, started, ?_, hst, hw, hs, hlt⟩
    rw [tuningLoop_start rfl hr hfun, getState, hst]
    exact tuningLoop_done

theorem run_remaining (hc : ∀ i, Bounded f (report i)) (h : Progress f r kept cell started p)
    (ht : Remaining r) (hs : started.Nodup) (hlt : ∀ x ∈ started, x < f.maxnum)
    (hleft : (untested kept started).length < left) :
    Ends f (tuningLoop hypothesisGetNext (fun _ => false) report left i true r
      (started.map (testingStart f))) := by
  induction left generalizing i r kept cell started p with
  | zero => exact absurd hleft (Nat.not_lt_zero _)
  | succ left ih =>
    exact loop_advances (remaining_step (hc i) h ht) h.inside hs hlt hleft
      fun r' kept' cell' q hp ht' hs' hlt' hleft' => ih hp ht' hs' hlt' hleft'

/-- The loop over distinct corners. -/
theorem run_corners (hf : Cornered f) (hn : (cornerPos f).Nodup) (hc : ∀ i, Bounded f (report i))
    (h : Progress f r kept cell started p) (hcorner : AtCorner f r kept started t)
    (hlt : ∀ x ∈ started, x < f.maxnum) (hleft : (untested kept started).length < left) :
    Ends f (tuningLoop hypothesisGetNext (fun _ => false) report left i true r
      (started.map (testingStart f))) := by
  have hs : started.Nodup := hcorner.started ▸ hn.sublist (List.take_sublist _ _)
  induction left generalizing i r kept cell started p t with
  | zero => exact absurd hleft (Nat.not_lt_zero _)
  | succ left ih =>
    rcases Nat.lt_or_eq_of_le hcorner.bound with hbound | hend
    · have hq := List.getElem?_eq_getElem hbound
      have hqn := cornerPos_lt hf (List.getElem_mem hbound)
      have hnew := corner_new hn hcorner hq
      obtain ⟨r', cell', hr, hfun, hst, hp, hcorner'⟩ := corner_step hf (hc i) h hcorner hq hnew
      obtain ⟨hs', hlt'⟩ := started_next hs hlt hqn hnew
      have hkept := List.mem_of_getElem? (corner_kept hf hcorner hq)
      have hless := untested_next (List.Sublist.refl kept) hkept hnew
      rw [loop_testing rfl hr hfun hst]
      exact ih hp hcorner' hlt' (by omega) hs'
    · exact loop_advances (corner_end hf (hc i) h hcorner hend) h.inside hs hlt hleft
        fun r' kept' cell' q hp ht' hs' hlt' hleft' => run_remaining hc hp ht' hs' hlt' hleft'

/-- The loop over corners that repeat. -/
theorem run_repeated (hf : Cornered f) (hn : ¬ (cornerPos f).Nodup)
    (hc : ∀ i, Bounded f (report i)) (h : Progress f r kept cell started p)
    (hcorner : AtCorner f r kept started t) (hs : started.Nodup)
    (hleft : (untested kept started).length < left) :
    tuningLoop hypothesisGetNext (fun _ => false) report left i true r
      (started.map (testingStart f)) = .error .undefined := by
  induction left generalizing i r kept cell started p t with
  | zero => exact absurd hleft (Nat.not_lt_zero _)
  | succ left ih =>
    rcases Nat.lt_or_eq_of_le hcorner.bound with hbound | hend
    · have hq := List.getElem?_eq_getElem hbound
      by_cases hold : (cornerPos f)[t.nextPos] ∈ started
      · exact tuningLoop_fault rfl (corner_repeat hf h hcorner hq hold)
      · obtain ⟨r', cell', hr, hfun, hst, hp, hcorner'⟩ := corner_step hf (hc i) h hcorner hq hold
        have hkept := List.mem_of_getElem? (corner_kept hf hcorner hq)
        have hless := untested_next (List.Sublist.refl kept) hkept hold
        have hs' : (started ++ [(cornerPos f)[t.nextPos]]).Nodup :=
          List.nodup_append.mpr ⟨hs, List.nodup_singleton _, fun x hx y hy he =>
            hold (List.mem_singleton.mp hy ▸ he ▸ hx)⟩
        rw [loop_testing rfl hr hfun hst]
        exact ih hp hcorner' hs' (by omega)
    · refine absurd ?_ hn
      rw [hcorner.started, hend, List.take_length] at hs
      exact hs

end Loop

end Otpo.TwokRun
