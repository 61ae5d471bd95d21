import Otpo.HypothesisCall
import Otpo.RunMeasurements

/-!
# The search over hypotheses proposes fresh functions

Each start tests a function that waited. A run whose calls all meet the
condition therefore ends with a call that proposes nothing.
-/

set_option autoImplicit false

namespace Otpo.HypothesisRun
open Otpo.ParamList Otpo.Statistics Otpo.Adcl Otpo.Attribution Otpo.PerfHypothesis
open Otpo.AttributedRun Otpo.RunMeasurements Otpo.HypothesisOdometer Otpo.HypothesisFresh
open Otpo.HypothesisEvaluation Otpo.HypothesisCall

def reported (e : Emethod) (n : ℕ) (c : ℚ) : Emethod :=
  { e with last := n, stats := e.stats.modify n (recordTime c ∘ called) }

structure Between (f : Fnctset) (r : Request) : Prop where
  testing : r.emethod.state = .testing
  algo : r.emethod.searchAlgo = .perfHypo
  ran : ∃ s, r.emethod.stats[r.emethod.last]? = some s ∧ s.count = 1 ∧ s.time.length = 1
  search : ∃ hypo, Searching f (handed r.emethod) hypo

section Stats

variable {s : Stat} {c : ℚ} {l : List Stat} {n : ℕ}

theorem evaluated_reported (h : Waiting s) (hpos : 0 < c) (hlt : c < 999999) :
    Evaluated (globalMax (markTested (recordTime c (called s)))) := by
  have hfilter : markTested (recordTime c (called s)) =
      { recordTime c (called s) with tested := true, lpts := averages [c], filtered := true } := by
    rw [markTested, filterTimings, if_pos]
    · simp only [recordTime, called, h.time, List.nil_append]
    · exact ⟨h.filtered, by simp [recordTime]⟩
  rw [hfilter]
  exact ⟨rfl, c, hpos, hlt, averages_exact hpos hlt⟩

theorem waiting_modify {g : Stat → Stat} (hs : l[n]? = some s) (hw : s.tested = false)
    (hg : (g s).tested = true) :
    (l.modify n g).countP (!·.tested)+1 = l.countP (!·.tested) := by
  induction l generalizing n with
  | nil => cases hs
  | cons t l ih =>
    cases n with
    | zero =>
      cases hs
      simp [List.modify_zero_cons, hw, hg]
    | succ n =>
      rw [List.modify_succ_cons, List.countP_cons, List.countP_cons, ← ih hs]
      omega

end Stats

section Start

variable {f : Fnctset} {e d : Emethod} {r r' : Request} {hypo : Hypothesis} {fuel n : ℕ}
variable {s : Stat} {report : Function → ℚ} {c : ℚ}

theorem handed_reported (e : Emethod) (n : ℕ) (c : ℚ) :
    handed (reported e n c) = { e with
      last := n
      stats := e.stats.modify n (globalMax ∘ markTested ∘ recordTime c ∘ called) } := by
  simp only [handed, reported, List.modify_modify_eq]

/-- A function that waited has its average once it is marked. -/
theorem reported_searching (h : Searching f e hypo) (hs : e.stats[n]? = some s) (hw : Waiting s)
    (hpos : 0 < c) (hlt : c < 999999) :
    Searching f (handed (reported e n c)) hypo ∧
      waiting (handed (reported e n c))+1 = waiting e := by
  rw [handed_reported]
  refine ⟨⟨⟨h.sound.members, ?_, fun t ht => ?_, h.sound.formed, h.sound.bounded⟩, h.present,
    h.placed, h.active⟩, waiting_modify hs hw.tested (evaluated_reported hw hpos hlt).tested⟩
  · exact h.sound.length.trans (List.length_modify _ _ _).symm
  · rcases mem_modify ht with ⟨u, hu, rfl⟩ | ⟨k, _, hk⟩
    · rw [hs] at hu
      cases hu
      exact Or.inr (evaluated_reported hw hpos hlt)
    · exact h.sound.phased t (List.mem_of_getElem? hk)

/-- The start of a function that waits. -/
theorem start_waiting {function : Function} (hst : r.emethod.state = .testing)
    (hn : getNext (hypothesisGetNext fuel) r.emethod =
      .ok (some n, .perf, { e with last := n, stats := e.stats.modify n called }))
    (he : e.state = .testing) (hf : e.fnctset.functions[n]? = some function)
    (hs : e.stats[n]? = some s) (hw : Waiting s) (hpos : 0 < report function) :
    requestStart (hypothesisGetNext fuel) report r =
      .ok ⟨reported e n (report function), some function, n, .perf⟩ := by
  have hcalled : (e.stats.modify n called)[n]? = some (called s) := by
    rw [List.getElem?_modify_eq, hs]
    rfl
  have hlt : n < (e.stats.modify n called).length := (List.getElem?_eq_some_iff.mp hcalled).1
  have htime : (called s).time.length < 1 := by
    rw [called, hw.time]
    exact Nat.one_pos
  simp only [requestStart, getFunctionByState, hst, hn, hf, requestUpdate, he, emethodsUpdate,
    hcalled, emethodNumtests, if_pos htime, updateStat, if_pos hlt, timeDiff_pos hpos,
    List.modify_modify_eq, reported]

theorem reported_between (h : Searching f e hypo) (hst : e.state = .testing)
    (halgo : e.searchAlgo = .perfHypo) (hs : e.stats[n]? = some s) (hw : Waiting s)
    (hpos : 0 < c) (hlt : c < 999999) (function : Option Function) :
    Between f ⟨reported e n c, function, n, .perf⟩ := by
  refine ⟨hst, halgo, ⟨recordTime c (called s), ?_, ?_, ?_⟩,
    ⟨hypo, (reported_searching h hs hw hpos hlt).1⟩⟩
  · change (e.stats.modify n (recordTime c ∘ called))[n]? = _
    rw [List.getElem?_modify_eq, hs]
    rfl
  · change s.count+1 = 1
    rw [hw.count]
  · change (s.time ++ [c]).length = 1
    rw [hw.time]
    rfl

/-- Between two starts `ADCL_emethods_get_next` calls the search. -/
theorem get_next_handed (h : Between f r) {next : Option ℕ}
    (hn : hypothesisGetNext fuel (handed r.emethod) = .ok (next, d)) :
    getNext (hypothesisGetNext fuel) r.emethod =
      match advance next d with
      | .error fault => .error fault
      | .ok (next, e) => .ok (next, .perf, e) := by
  obtain ⟨s, hs, hcount, htime⟩ := h.ran
  have hcount : ¬ s.count < emethodNumtests := by rw [hcount]; exact Nat.lt_irrefl 1
  have htime : ¬ s.time.length < emethodNumtests := by rw [htime]; exact Nat.lt_irrefl 1
  have hget := get_next_search fuel h.algo hs hcount htime
  rw [hn] at hget
  exact hget

theorem decide_regular {function : Function} (h : decideWinner r = .ok (function, r')) :
    r'.emethod.state = .regular := by
  simp only [decideWinner] at h
  split at h
  · cases h
  · split at h
    · cases h
    · split at h
      · cases h
      · cases h
        rfl

theorem update_regular (hst : r.emethod.state = .regular) {x : ℚ}
    (h : requestUpdate r x = .ok r') : r'.emethod.state = .regular := by
  simp only [requestUpdate, hst] at h
  cases h
  exact hst

/-- Only a start while testing leaves the method testing, and only if a function
is proposed. -/
theorem start_proposes {search : Emethod → Except Fault (Option ℕ × Emethod)}
    (h : requestStart search report r = .ok r') (hst : r'.emethod.state = .testing) :
    r.emethod.state = .testing ∧
      ∀ flag e, getNext search r.emethod ≠ .ok (none, flag, e) := by
  have hnot : r'.emethod.state ≠ .regular := by
    rw [hst]
    decide
  rw [requestStart] at h
  cases hg : getFunctionByState search r with
  | error fault =>
    rw [hg] at h
    cases h
  | ok result =>
    obtain ⟨function, r₁⟩ := result
    rw [hg] at h
    have hr₁ : r₁.emethod.state ≠ .regular := fun hr =>
      hnot (update_regular (r := { r₁ with function := some function }) hr h)
    rw [getFunctionByState] at hg
    split at hg
    · next htesting =>
      refine ⟨htesting, fun flag e hn => ?_⟩
      simp only [hn] at hg
      exact hr₁ (decide_regular hg)
    · exact absurd (decide_regular hg) hr₁
    · next hregular =>
      split at hg
      · cases hg
      · cases hg
        exact absurd hregular hr₁

def Proposes (fuel : ℕ) (e : Emethod) : Prop :=
  ∃ next d, hypothesisGetNext fuel e = .ok (next, d) ∧
    ∀ n, next = some n → n < d.fnctset.maxnum ∧
      ∃ s, d.stats[n]? = some s ∧ s.tested = false ∧ s.count = 0

def Ends (fuel : ℕ) (e : Emethod) : Prop := ∃ d, hypothesisGetNext fuel e = .ok (none, d)

/-- What one start does: it ends the search, or tests one more function. -/
theorem start_step (h : Between f r) (hc : Bounded f report) (hfuel : 2*size f.attrset ≤ fuel)
    (hm : meets fuel (handed r.emethod) = true) :
    Proposes fuel (handed r.emethod) ∧
      (Ends fuel (handed r.emethod) ∧
          (∀ r', requestStart (hypothesisGetNext fuel) report r = .ok r' →
            r'.emethod.state ≠ .testing) ∨
        ∃ r', requestStart (hypothesisGetNext fuel) report r = .ok r' ∧ Between f r' ∧
          waiting (handed r'.emethod)+1 ≤ waiting (handed r.emethod)) := by
  obtain ⟨hypo, hsearch⟩ := h.search
  obtain ⟨next, d, hcall, hd, hkept, hnext⟩ := get_next_fresh hsearch hfuel hm
  have hget := get_next_handed h hcall
  cases next with
  | none =>
    refine ⟨⟨none, d, hcall, fun n hn => by cases hn⟩, Or.inl ⟨⟨d, hcall⟩, fun r' hr' hst => ?_⟩⟩
    exact (start_proposes hr' hst).2 _ _ hget
  | some n =>
    obtain ⟨⟨hypo', hd'⟩, s, hs, hw⟩ := hnext n rfl
    have hlt' : n < d.stats.length := (List.getElem?_eq_some_iff.mp hs).1
    have hlt : n < d.fnctset.functions.length := hd.length ▸ hlt'
    have hf : d.fnctset.functions[n]? = some d.fnctset.functions[n] := List.getElem?_eq_getElem hlt
    obtain ⟨hpos, hcost⟩ := hc _ (hd.members _ (List.getElem_mem hlt))
    have hadvance : advance (some n) d =
        .ok (some n, { d with last := n, stats := d.stats.modify n called }) := by
      simp only [advance, updateStat, if_pos hlt']
    rw [hadvance] at hget
    have hst : d.state = .testing := hkept.state.trans h.testing
    have halgo : d.searchAlgo = .perfHypo := hkept.algo.trans h.algo
    have hwaiting := (reported_searching hd' hs hw hpos hcost).2
    refine ⟨⟨some n, d, hcall, fun k hk => ?_⟩, Or.inr ⟨_,
      start_waiting h.testing hget hst hf hs hw hpos,
      reported_between hd' hst halgo hs hw hpos hcost _, hwaiting.trans_le hkept.waiting⟩⟩
    cases hk
    exact ⟨hlt, s, hs, hw.tested, hw.count⟩

end Start

section Run

variable {f : Fnctset} {threshold : ℤ} {fuel : ℕ} {report : ℕ → Function → ℚ} {r₀ : Request}

theorem fresh_waiting (pos : ℕ) : Waiting (freshStat pos) := ⟨rfl, rfl, rfl, rfl⟩

theorem created_searching (hf : Formed f.attrset) (hattrs : 0 < f.attrset.maxnum)
    (hr : requestCreate .perfHypo threshold f = .ok r₀) :
    (∃ hypo, Searching f r₀.emethod hypo) ∧ waiting r₀.emethod = f.maxnum ∧
      r₀.emethod.state = .testing ∧ r₀.emethod.searchAlgo = .perfHypo ∧ r₀.emethod.last = 0 ∧
      r₀.emethod.fnctset = f ∧ r₀.emethod.stats = (List.range f.maxnum).map freshStat := by
  cases hr
  have hphased : Phased ((List.range f.maxnum).map freshStat) := by
    intro s hs
    obtain ⟨p, _, rfl⟩ := List.mem_map.mp hs
    exact Or.inl (fresh_waiting p)
  have hlength : f.functions.length = ((List.range f.maxnum).map freshStat).length := by
    rw [List.length_map, List.length_range]
    rfl
  refine ⟨⟨_, ⟨fun g hg => hg, hlength, hphased, hf, le_rfl⟩, rfl, placed_base hf, hattrs⟩, ?_,
    rfl, rfl, rfl, rfl, rfl⟩
  change ((List.range f.maxnum).map freshStat).countP (!·.tested) = f.maxnum
  rw [List.countP_eq_length.mpr, ← hlength]
  · rfl
  · intro s hs
    obtain ⟨p, _, rfl⟩ := List.mem_map.mp hs
    rfl

/-- The first start tests the first function. -/
theorem first_between (fuel : ℕ) (hf : Formed f.attrset) (hattrs : 0 < f.attrset.maxnum)
    (hn : 0 < f.maxnum) (hc : Bounded f (report 0))
    (hr : requestCreate .perfHypo threshold f = .ok r₀) :
    ∃ r, requestStart (hypothesisGetNext fuel) (report 0) r₀ = .ok r ∧ Between f r ∧
      waiting (handed r.emethod)+1 = f.maxnum := by
  obtain ⟨⟨hypo, hsearch⟩, hwaiting, hst, halgo, hlast, hfnctset, hstats⟩ :=
    created_searching hf hattrs hr
  have hs : r₀.emethod.stats[0]? = some (freshStat 0) := by
    rw [hstats, List.getElem?_map, List.getElem?_range hn]
    rfl
  have hlt : 0 < r₀.emethod.stats.length := (List.getElem?_eq_some_iff.mp hs).1
  have hfunction : r₀.emethod.fnctset.functions[0]? = some (functionAt f 0) := by
    rw [hfnctset]
    exact functionAt_get hn
  obtain ⟨hpos, hcost⟩ := hc _ (List.mem_of_getElem? (functionAt_get hn))
  have hget : getNext (hypothesisGetNext fuel) r₀.emethod = .ok (some 0, .perf,
      { r₀.emethod with last := 0, stats := r₀.emethod.stats.modify 0 called }) := by
    have hcount : (freshStat 0).count < 1 := Nat.one_pos
    simp only [getNext, hlast, hs, emethodNumtests, if_pos hcount, updateStat, if_pos hlt]
  refine ⟨_, start_waiting hst hget hst hfunction hs (fresh_waiting 0) hpos,
    reported_between hsearch hst halgo hs (fresh_waiting 0) hpos hcost _, ?_⟩
  rw [← hwaiting]
  exact (reported_searching hsearch hs (fresh_waiting 0) hpos hcost).2

def Meets (f : Fnctset) (fuel : ℕ) (report : ℕ → Function → ℚ) (r₀ : Request) : Prop :=
  ∀ i r, 0 < i → i ≤ f.maxnum → before fuel report r₀ i = .ok r → r.emethod.state = .testing →
    meets fuel (handed r.emethod) = true

/-- Every start so far has tested another function. -/
theorem run_between (hf : Formed f.attrset) (hattrs : 0 < f.attrset.maxnum) (hn : 0 < f.maxnum)
    (hc : ∀ i, Bounded f (report i)) (hr : requestCreate .perfHypo threshold f = .ok r₀)
    (hfuel : 2*size f.attrset ≤ fuel) (hm : Meets f fuel report r₀) (i : ℕ) {r : Request}
    (hb : before fuel report r₀ (i+1) = .ok r) (hst : r.emethod.state = .testing) :
    Between f r ∧ waiting (handed r.emethod)+(i+1) ≤ f.maxnum := by
  induction i generalizing r with
  | zero =>
    obtain ⟨r₁, hr₁, hbetween, hwaiting⟩ := first_between fuel hf hattrs hn (hc 0) hr
    have hfirst : requestStart (hypothesisGetNext fuel) (report 0) r₀ = .ok r := hb
    rw [hr₁] at hfirst
    cases hfirst
    exact ⟨hbetween, hwaiting.le⟩
  | succ i ih =>
    obtain ⟨r₁, hr₁, hs⟩ := before_ok hb
    have hst₁ := (start_proposes hs hst).1
    obtain ⟨hbetween, hwaiting⟩ := ih hr₁ hst₁
    have hmeets := hm (i+1) r₁ i.succ_pos (by omega) hr₁ hst₁
    rcases (start_step hbetween (hc (i+1)) hfuel hmeets).2 with
      ⟨_, hends⟩ | ⟨r₂, hr₂, hbetween₂, hless⟩
    · exact absurd hst (hends r hs)
    · rw [hs] at hr₂
      cases hr₂
      exact ⟨hbetween₂, by omega⟩

/-- With every start one function less waits, so some call ends the search. -/
theorem run_ends (hc : ∀ i, Bounded f (report i)) (hfuel : 2*size f.attrset ≤ fuel)
    (hm : Meets f fuel report r₀) (left : ℕ) {i : ℕ} {r : Request} (hi : 0 < i)
    (hb : before fuel report r₀ i = .ok r) (h : Between f r)
    (hwaiting : waiting (handed r.emethod)+i ≤ f.maxnum)
    (hleft : waiting (handed r.emethod) ≤ left) :
    ∃ j r, before fuel report r₀ j = .ok r ∧ r.emethod.state = .testing ∧
      Ends fuel (handed r.emethod) := by
  induction left generalizing i r with
  | zero =>
    have hmeets := hm i r hi (by omega) hb h.testing
    rcases (start_step h (hc i) hfuel hmeets).2 with ⟨hends, _⟩ | ⟨r₁, _, _, hless⟩
    · exact ⟨i, r, hb, h.testing, hends⟩
    · omega
  | succ left ih =>
    have hmeets := hm i r hi (by omega) hb h.testing
    rcases (start_step h (hc i) hfuel hmeets).2 with ⟨hends, _⟩ | ⟨r₁, hr₁, hbetween, hless⟩
    · exact ⟨i, r, hb, h.testing, hends⟩
    · have hnext : before fuel report r₀ (i+1) = .ok r₁ := (before_succ hb).mpr hr₁
      exact ih i.succ_pos hnext hbetween (by omega) (by omega)

end Run

/-- If the attributes climb and every call of a run meets the condition, each call
returns no position or that of a function which was not tested, and after at
most as many tests as there are functions one returns none. -/
theorem search_fresh {f : Fnctset} {threshold : ℤ} {fuel : ℕ} {report : ℕ → Function → ℚ}
    {r₀ : Request} (hf : Formed f.attrset) (hattrs : 0 < f.attrset.maxnum) (hn : 0 < f.maxnum)
    (hc : ∀ i, Bounded f (report i)) (hr : requestCreate .perfHypo threshold f = .ok r₀)
    (hfuel : 2*size f.attrset ≤ fuel) (hm : Meets f fuel report r₀) :
    (∀ i r, before fuel report r₀ i = .ok r → r.emethod.state = .testing →
      i ≤ f.maxnum ∧ (0 < i → Proposes fuel (handed r.emethod))) ∧
    ∃ i r, before fuel report r₀ i = .ok r ∧ r.emethod.state = .testing ∧
      Ends fuel (handed r.emethod) := by
  refine ⟨fun i r hb hst => ?_, ?_⟩
  · cases i with
    | zero => exact ⟨Nat.zero_le _, fun hi => absurd hi (Nat.lt_irrefl 0)⟩
    | succ i =>
      obtain ⟨hbetween, hwaiting⟩ := run_between hf hattrs hn hc hr hfuel hm i hb hst
      have hi : i+1 ≤ f.maxnum := by omega
      have hmeets := hm (i+1) r i.succ_pos hi hb hst
      exact ⟨hi, fun _ => (start_step hbetween (hc (i+1)) hfuel hmeets).1⟩
  · obtain ⟨r, hr₁, hbetween, hwaiting⟩ := first_between fuel hf hattrs hn (hc 0) hr
    have hb : before fuel report r₀ 1 = .ok r := hr₁
    exact run_ends hc hfuel hm _ Nat.one_pos hb hbetween hwaiting.le le_rfl

def returned (fuel : ℕ) (e : Emethod) : Option (Option ℕ × List Bool) :=
  match hypothesisGetNext fuel e with
  | .ok (next, d) => some (next, d.stats.map Stat.tested)
  | .error _ => none

theorem not_proposes {fuel n : ℕ} {e : Emethod} {tested : List Bool}
    (h : returned fuel e = some (some n, tested)) (ht : tested[n]? = some true) :
    ¬ Proposes fuel e := by
  rintro ⟨next, d, hcall, hnext⟩
  rw [returned, hcall] at h
  cases h
  obtain ⟨_, s, hs, hfalse, _⟩ := hnext n rfl
  rw [List.getElem?_map, hs, Option.map_some, hfalse] at ht
  cases ht

theorem formed_of_climbs {attrs : List (List ℤ)} {numval : List ℕ}
    (h : ∀ attr ∈ attrs, attr ≠ [] ∧ Climbs attr) :
    Formed ⟨attrs, attrs.map (·.headD 0), attrs.map (·.getLastD 0), numval⟩ := ⟨rfl, rfl, h⟩

theorem climbs_two : Climbs [0, 1] := ⟨[0, 1], 0, .next rfl (.last rfl)⟩

theorem climbs_three : Climbs [0, 1, 2] := ⟨[0, 1, 2], 0, .next rfl (.next rfl (.last rfl))⟩

/-- A run that shrinks the set after four tests. -/
theorem search_fresh_six :
    let f : Fnctset := ⟨[⟨0, [0, 0]⟩, ⟨1, [1, 0]⟩, ⟨2, [0, 1]⟩, ⟨3, [1, 1]⟩, ⟨4, [0, 2]⟩,
      ⟨5, [1, 2]⟩], ⟨[[0, 1], [0, 1, 2]], [0, 0], [1, 2], [2, 3]⟩⟩
    let cost : Function → ℚ := fun g => if g.attrVals.getD 0 0 = 0 then 1 else 2
    ∃ r₀, requestCreate .perfHypo 50 f = .ok r₀ ∧
      (∀ i r, before 20 (fun _ => cost) r₀ i = .ok r → r.emethod.state = .testing →
        i ≤ 6 ∧ (0 < i → Proposes 20 (handed r.emethod))) ∧
      ∃ i r, before 20 (fun _ => cost) r₀ i = .ok r ∧ r.emethod.state = .testing ∧
        Ends 20 (handed r.emethod) := by
  intro f cost
  obtain ⟨r₀, hr⟩ : ∃ r₀, requestCreate .perfHypo 50 f = .ok r₀ := ⟨_, rfl⟩
  have hf : Formed f.attrset := formed_of_climbs (by
    simp only [List.forall_mem_cons]
    exact ⟨⟨by simp, climbs_two⟩, ⟨by simp, climbs_three⟩, by simp⟩)
  have hc : ∀ i : ℕ, Bounded f ((fun _ => cost) i) := fun _ => bounded_of_values fun g => by
    by_cases hg : g.attrVals.getD 0 0 = 0 <;> simp only [cost, hg] <;> simp
  have hmeets : ∀ i < 7, 0 < i → (match before 20 (fun _ => cost) r₀ i with
      | .ok r => r.emethod.state != .testing || meets 20 (handed r.emethod)
      | .error _ => true) = true := by
    cases hr
    decide +kernel
  have hm : Meets f 20 (fun _ => cost) r₀ := by
    intro i r hpos hi hb hst
    have hmeets := hmeets i (Nat.lt_succ_of_le hi) hpos
    rw [hb] at hmeets
    simpa [hst] using hmeets
  exact ⟨r₀, hr, search_fresh hf (by decide) (by decide) hc hr (by decide) hm⟩

/-- The first start tests the function with the last value. The next call comes to
that function again and returns its position. -/
theorem search_stale :
    let f : Fnctset := ⟨[⟨0, [1]⟩, ⟨1, [0]⟩], ⟨[[0, 1]], [0], [1], [2]⟩⟩
    Formed f.attrset ∧ Bounded f (fun _ => 1) ∧
      ∃ r₀ r, requestCreate .perfHypo 50 f = .ok r₀ ∧
        before 20 (fun _ _ => 1) r₀ 1 = .ok r ∧ r.emethod.state = .testing ∧
        ¬ Proposes 20 (handed r.emethod) := by
  intro f
  refine ⟨formed_of_climbs ?_, fun g _ => by norm_num, ?_⟩
  · simp only [List.forall_mem_cons]
    exact ⟨⟨by simp, climbs_two⟩, by simp⟩
  · refine ⟨_, _, rfl, rfl, rfl, @not_proposes 20 0 _ [true, false] ?_ rfl⟩
    decide +kernel

end Otpo.HypothesisRun
