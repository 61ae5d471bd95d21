import Otpo.AttributedRun
import Otpo.ResultBuckets

/-!
# The measurements of a whole run

Each start of a run pays for one more function, until one decides. The original
array then holds what each started function reported.
-/

set_option autoImplicit false

namespace Otpo.RunMeasurements
open Otpo.ParamList Otpo.Statistics Otpo.Adcl Otpo.Attribution Otpo.PerfHypothesis
open Otpo.AttributedSearch Otpo.AttributedRun Otpo.ResultBuckets

structure Decided (f : Fnctset) (paid : ℕ → Option ℚ) (e : Emethod) (g : Function) : Prop where
  state : e.state = .regular
  winner : e.wfunction = some g
  attributed : Attributed f paid e
  complete : Complete f paid e
  cheapest : ∃ w c, g = functionAt f w ∧ paid w = some c ∧
    ∀ s ∈ e.stats, ∀ x, paid s.pos = some x → c ≤ x

section Start

variable {f : Fnctset} {paid : ℕ → Option ℚ} {e d : Emethod} {r r' : Request} {fuel n : ℕ}
variable {s : Stat} {report : Function → ℚ}

theorem other_pos (h : Attributed f paid d) (hn : d.stats[n]? = some s) {k : ℕ} {t : Stat}
    (hk : d.stats[k]? = some t) (hne : k ≠ n) : t.pos ≠ s.pos := by
  intro hpos
  have hlt : k < (d.stats.map Stat.pos).length := by
    rw [List.length_map]
    exact (List.getElem?_eq_some_iff.mp hk).1
  refine hne ((List.getElem?_inj hlt (positions_nodup h)).mp ?_)
  rw [List.getElem?_map, List.getElem?_map, hk, hn, Option.map_some, Option.map_some, hpos]

/-- A first report is the cost of the function that reported it. -/
theorem attributed_report (h : Attributed f paid d) (hn : d.stats[n]? = some s)
    (htime : s.time = []) (c : ℚ) : Attributed f (Function.update paid s.pos (some c))
      { d with last := n, stats := (d.stats.modify n called).modify n (recordTime c) } := by
  rw [List.modify_modify_eq]
  have hpos : (d.stats.modify n (recordTime c ∘ called)).map Stat.pos = d.stats.map Stat.pos :=
    modify_pos (g := recordTime c ∘ called) (fun _ => rfl) _ _
  have hmem : s.pos ∈ d.stats.map Stat.pos := List.mem_map_of_mem (List.mem_of_getElem? hn)
  refine ⟨h.org, functions_positions h hpos, hpos ▸ h.positions, fun t ht => ?_, h.length,
    fun p hp hnone => ?_, fun p x hx hnot => ?_⟩
  · rcases mem_modify ht with ⟨u, hu, rfl⟩ | ⟨k, hk, hget⟩
    · rw [hn] at hu
      cases hu
      exact measured_reported (h.measured s (List.mem_of_getElem? hn)) htime
    · exact measured_other (h.measured t (List.mem_of_getElem? hget)) (other_pos h hn hget hk)
  · by_cases hps : p = s.pos
    · rw [hps, Function.update_self] at hnone
      cases hnone
    · exact h.untested p hp (by rwa [Function.update_of_ne hps] at hnone)
  · change p ∉ (d.stats.modify n (recordTime c ∘ called)).map Stat.pos at hnot
    rw [hpos] at hnot
    have hps : p ≠ s.pos := fun he => hnot (he ▸ hmem)
    exact h.removed p x (by rwa [Function.update_of_ne hps] at hx) hnot

/-- A new measurement leaves the other objects as they were. -/
theorem moved_report (h : Moved f paid e d n) (hn : d.stats[n]? = some s) (htime : s.time = [])
    (c : ℚ) {d' : Emethod}
    (hd : d' = { d with last := n, stats := (d.stats.modify n called).modify n (recordTime c) }) :
    Moved f (Function.update paid s.pos (some c)) d' d' n := by
  subst hd
  refine ⟨attributed_report h.attributed hn htime c, fun hp k t hk hget => ?_, rfl, rfl⟩
  change ((d.stats.modify n called).modify n (recordTime c))[k]? = some t at hget
  rw [List.modify_modify_eq, List.getElem?_modify_ne _ _ (Ne.symm hk)] at hget
  exact h.settled (h.algo ▸ hp) k t hk hget

theorem decide_winner_decided (hc : Affordable paid) (h : Attributed f paid r.emethod)
    (hs : r.emethod.searchAlgo = .perfHypo → ∀ s ∈ r.emethod.stats, Settled s) {g : Function}
    (hd : decideWinner r = .ok (g, r')) : Decided f paid r'.emethod g := by
  simp only [decideWinner, maxnum_stats h] at hd
  split at hd
  · cases hd
  · next winner d hw =>
    obtain ⟨hdecisive, _, _, _, _⟩ := decisive_winner hc h hs hw
    split at hd
    · cases hd
    · next w =>
      split at hd
      · cases hd
      · next function hf =>
        cases hd
        have ha := hdecisive.ready.attributed
        obtain ⟨t, c, ht, hpaid, hmin⟩ := hdecisive.cheapest w rfl
        rw [function_get ha ht] at hf
        cases hf
        have hd : Attributed f paid
            { d with last := w, wfunction := some (functionAt f t.pos), state := .regular } :=
          attributed_congr ha rfl rfl rfl rfl
        exact ⟨rfl, rfl, hd, hdecisive.complete, t.pos, c, rfl, hpaid, hmin⟩

/-- Only the first measurement of a called function is recorded. -/
theorem update_called (hn : d.stats[n]? = some s) (hst : d.state = .testing) {x : ℚ}
    (hx : 0 < x) {function : Option Function}
    (hu : requestUpdate
      { emethod := { d with last := n, stats := d.stats.modify n called }
        function, erlast := n, erflag := .perf } x = .ok r') :
    s.time = [] ∧ r' =
      { emethod :=
          { d with last := n, stats := (d.stats.modify n called).modify n (recordTime x) }
        function, erlast := n, erflag := .perf } := by
  have hcalled : (d.stats.modify n called)[n]? = some (called s) := by
    rw [List.getElem?_modify_eq, hn]
    rfl
  simp only [requestUpdate, hst, emethodsUpdate, hcalled, emethodNumtests, timeDiff_pos hx] at hu
  split at hu
  · cases hu
  · next e he =>
    cases hu
    split_ifs at he with htime
    have hlt : n < (d.stats.modify n called).length := (List.getElem?_eq_some_iff.mp hcalled).1
    simp only [updateStat, if_pos hlt] at he
    cases he
    exact ⟨List.eq_nil_of_length_eq_zero (Nat.lt_one_iff.mp htime), by rw [hst]⟩

/-- One start pays for a new function, or decides. -/
theorem start_step (hc : Affordable paid) (hreport : Bounded f report) (h : Paying f paid r)
    (hcopied : r.emethod.searchAlgo = .perfHypo → DropsCopied fuel r.emethod)
    (hs : requestStart (hypothesisGetNext fuel) report r = .ok r') :
    (∃ p, p < f.maxnum ∧ paid p = none ∧ r'.function = some (functionAt f p) ∧
      r'.emethod.searchAlgo = r.emethod.searchAlgo ∧
      Paying f (Function.update paid p (some (report (functionAt f p)))) r') ∨
    ∃ g, r'.function = some g ∧ Decided f paid r'.emethod g := by
  have hmoved := h.moved
  simp only [requestStart, getFunctionByState, h.testing] at hs
  cases hn : getNext (hypothesisGetNext fuel) r.emethod with
  | error fault =>
    rw [hn] at hs
    cases hs
  | ok result =>
    obtain ⟨next, flag, e⟩ := result
    obtain ⟨rfl, d, hcases⟩ := get_next_moved hc hmoved hcopied hn
    rw [hn] at hs
    rcases hcases with ⟨rfl, rfl, hm, hsettled⟩ | ⟨n, s, rfl, hget, hm, rfl⟩
    · have ha := (hm 0).attributed
      have hd : Attributed f paid { e with state := .decision } :=
        attributed_congr ha rfl rfl rfl rfl
      simp only at hs
      cases hw : decideWinner { r with emethod := { e with state := .decision } } with
      | error fault =>
        rw [hw] at hs
        cases hs
      | ok decision =>
        obtain ⟨g, r''⟩ := decision
        have hdecided := decide_winner_decided hc hd (fun hp => hsettled ((hm 0).algo ▸ hp)) hw
        rw [hw] at hs
        simp only [requestUpdate, hdecided.state] at hs
        cases hs
        exact Or.inr ⟨g, rfl, hdecided⟩
    · have hlt := pos_lt hm.attributed (List.mem_of_getElem? hget)
      have hcost := hreport _ (List.mem_of_getElem? (functionAt_get hlt))
      simp only [function_get hm.attributed hget] at hs
      obtain ⟨htime, rfl⟩ := update_called hget (hm.state.trans h.testing) hcost.1 hs
      have hpaid : paid s.pos = none := by
        have ht := (hm.attributed.measured s (List.mem_of_getElem? hget)).time
        rw [htime] at ht
        exact Option.toList_eq_nil_iff.mp ht.symm
      exact Or.inl ⟨s.pos, hlt, hpaid, rfl, hm.algo,
        moved_report hm hget htime _ rfl, hm.state.trans h.testing⟩

end Start

def before (fuel : ℕ) (report : ℕ → Function → ℚ) (r : Request) : ℕ → Except Fault Request
  | 0 => .ok r
  | i+1 =>
    match before fuel report r i with
    | .error fault => .error fault
    | .ok r => requestStart (hypothesisGetNext fuel) (report i) r

theorem before_succ {fuel : ℕ} {report : ℕ → Function → ℚ} {r₀ r r' : Request} {i : ℕ}
    (hb : before fuel report r₀ i = .ok r) :
    before fuel report r₀ (i+1) = .ok r' ↔
      requestStart (hypothesisGetNext fuel) (report i) r = .ok r' := by
  rw [before, hb]

theorem before_ok {fuel : ℕ} {report : ℕ → Function → ℚ} {r₀ r' : Request} {i : ℕ}
    (hb : before fuel report r₀ (i+1) = .ok r') : ∃ r, before fuel report r₀ i = .ok r ∧
      requestStart (hypothesisGetNext fuel) (report i) r = .ok r' := by
  cases hr : before fuel report r₀ i with
  | error fault =>
    rw [before, hr] at hb
    cases hb
  | ok r => exact ⟨r, rfl, (before_succ hr).mp hb⟩

structure Tally (f : Fnctset) (report : ℕ → Function → ℚ) (started : List ℕ)
    (paid : ℕ → Option ℚ) : Prop where
  nodup : started.Nodup
  inside : ∀ p ∈ started, p < f.maxnum
  own : ∀ i p, started[i]? = some p → paid p = some (report i (functionAt f p))
  other : ∀ p, p ∉ started → paid p = none

section Run

variable {f : Fnctset} {paid : ℕ → Option ℚ} {report : ℕ → Function → ℚ} {started : List ℕ}
variable {stop : ℕ → Bool} {fuel left p : ℕ} {r r' : Request} {log : List Start} {g : Function}

theorem tally_affordable (hc : ∀ i, Bounded f (report i)) (h : Tally f report started paid) :
    Affordable paid := by
  intro p c hp
  by_cases hin : p ∈ started
  · obtain ⟨i, hi⟩ := List.getElem?_of_mem hin
    rw [h.own i p hi] at hp
    cases hp
    exact hc i _ (List.mem_of_getElem? (functionAt_get (h.inside p hin)))
  · rw [h.other p hin] at hp
    cases hp

theorem tally_nil : Tally f report [] (fun _ => none) :=
  ⟨List.nodup_nil, fun p hp => (List.not_mem_nil hp).elim, fun i p hp => (by cases hp),
    fun _ _ => rfl⟩

theorem tally_next (h : Tally f report started paid) (hlt : p < f.maxnum) (hp : paid p = none) :
    Tally f report (started ++ [p])
      (Function.update paid p (some (report started.length (functionAt f p)))) := by
  have hnew : p ∉ started := fun hin => by
    obtain ⟨i, hi⟩ := List.getElem?_of_mem hin
    rw [h.own i p hi] at hp
    cases hp
  refine ⟨List.nodup_append.mpr ⟨h.nodup, List.nodup_singleton p, ?_⟩, fun q hq => ?_,
    fun i q hi => ?_, fun q hq => ?_⟩
  · rintro a ha b hb rfl
    exact hnew (List.mem_singleton.mp hb ▸ ha)
  · rcases List.mem_append.mp hq with hq | hq
    · exact h.inside q hq
    · exact List.mem_singleton.mp hq ▸ hlt
  · rcases Nat.lt_or_ge i started.length with hi' | hi'
    · rw [List.getElem?_append_left hi'] at hi
      have hne : q ≠ p := fun he => hnew (he ▸ List.mem_of_getElem? hi)
      rw [Function.update_of_ne hne]
      exact h.own i q hi
    · rw [List.getElem?_append_right hi', List.getElem?_singleton] at hi
      split_ifs at hi with hzero
      cases hi
      have hlen : i = started.length := Nat.le_antisymm (Nat.sub_eq_zero_iff_le.mp hzero) hi'
      rw [hlen, Function.update_self]
  · rw [List.mem_append, List.mem_singleton, not_or] at hq
    rw [Function.update_of_ne hq.2]
    exact h.other q hq.1

/-- Every run that comes to a decision has measured what it started. -/
theorem run_measured (started : List ℕ) {r₀ : Request} {algo : SearchAlgo}
    (hc : ∀ i, Bounded f (report i))
    (hcopied : algo = .perfHypo → ∀ i r, i < started.length+left →
      before fuel report r₀ i = .ok r → r.emethod.state = .testing → DropsCopied fuel r.emethod)
    (hbefore : before fuel report r₀ started.length = .ok r) (halgo : r.emethod.searchAlgo = algo)
    (h : Paying f paid r) (ht : Tally f report started paid)
    (hrun : tuningLoop (hypothesisGetNext fuel) stop report left started.length true r
      (started.map (testingStart f)) = .ok (.finished r', log))
    (hst : r'.emethod.state ≠ .testing) :
    ∃ started paid g, log = started.map (testingStart f) ++ [⟨g, .regular⟩] ∧
      Tally f report started paid ∧ Decided f paid r'.emethod g := by
  induction left generalizing started paid r with
  | zero =>
    cases hrun
    exact absurd h.testing hst
  | succ left ih =>
    rw [tuningLoop, if_pos rfl] at hrun
    split at hrun
    · split at hrun
      · split at hrun <;> cases hrun
      · cases hrun
    · cases hs : requestStart (hypothesisGetNext fuel) (report started.length) r with
      | error fault =>
        rw [hs] at hrun
        cases hrun
      | ok s =>
        have hnext : before fuel report r₀ (started.length+1) = .ok s :=
          (before_succ hbefore).mpr hs
        have hcopied' : r.emethod.searchAlgo = .perfHypo → DropsCopied fuel r.emethod :=
          fun hp => hcopied (halgo ▸ hp) started.length r (by omega) hbefore h.testing
        simp only [hs] at hrun
        rcases start_step (tally_affordable hc ht) (hc started.length) h hcopied' hs with
          ⟨p, hlt, hpaid, hfun, halgo', hp⟩ | ⟨g, hfun, hdecided⟩
        · have hstate : getState s = true := by
            rw [getState, hp.testing]
            rfl
          have hlen : (started ++ [p]).length = started.length+1 := List.length_append
          simp only [hfun, hp.testing, hstate] at hrun
          refine ih (started ++ [p]) ?_ (hlen ▸ hnext) (halgo'.trans halgo) hp
            (tally_next ht hlt hpaid) ?_
          · rw [hlen, Nat.add_right_comm]
            exact hcopied
          · rw [hlen, List.map_append]
            exact hrun
        · have hstate : getState s = false := by
            rw [getState, hdecided.state]
            rfl
          simp only [hfun, hdecided.state, hstate, tuningLoop_done] at hrun
          cases hrun
          exact ⟨started, paid, g, rfl, ht, hdecided⟩

end Run

section Created

variable {f : Fnctset} {algo : SearchAlgo} {threshold : ℤ} {r : Request}

/-- Nothing is paid for when the method is created. -/
theorem created_attributed {e : Emethod} (horg : e.orgfnctset = f) (hf : e.fnctset = f)
    (hs : e.stats = (List.range f.maxnum).map freshStat)
    (ho : e.orgstats = List.replicate f.maxnum noPoints) :
    Attributed f (fun _ => none) e := by
  have hpos : e.stats.map Stat.pos = List.range f.maxnum := by
    rw [hs, List.map_map]
    exact List.map_id _
  refine ⟨horg, ?_, by rw [hpos], fun s hmem => ?_, by rw [ho, List.length_replicate],
    fun p hp _ => ?_, fun p c hc => by cases hc⟩
  · refine List.ext_getElem? fun i => ?_
    rw [hf, hs, List.map_map, List.getElem?_map]
    rcases Nat.lt_or_ge i f.maxnum with hi | hi
    · rw [functionAt_get hi, List.getElem?_range hi]
      rfl
    · rw [List.getElem?_eq_none hi, List.getElem?_eq_none (by simpa using hi)]
      rfl
  · rw [hs] at hmem
    obtain ⟨p, _, rfl⟩ := List.mem_map.mp hmem
    exact ⟨rfl, rfl, fun hf => (by cases hf), rfl, Or.inl rfl⟩
  · rw [ho, List.getElem?_replicate, if_pos hp]

theorem created_paying (h : requestCreate algo threshold f = .ok r) :
    Paying f (fun _ => none) r ∧ r.emethod.searchAlgo = algo := by
  have hsettled : ∀ s ∈ (List.range f.maxnum).map freshStat, Settled s := fun s hs => by
    obtain ⟨p, _, rfl⟩ := List.mem_map.mp hs
    exact fun htime => absurd rfl htime
  rw [requestCreate] at h
  cases he : emethodInit algo threshold f with
  | error fault =>
    rw [he] at h
    cases h
  | ok e =>
    rw [he] at h
    cases h
    have hpaying : e.orgfnctset = f → e.fnctset = f →
        e.stats = (List.range f.maxnum).map freshStat →
        e.orgstats = List.replicate f.maxnum noPoints → e.state = .testing →
        Paying f (fun _ => none) ⟨e, none, 0, .noperf⟩ := fun horg hf hs ho hst =>
      ⟨⟨created_attributed horg hf hs ho,
        fun _ _ s _ hk => hsettled s (hs ▸ List.mem_of_getElem? hk), rfl, rfl⟩, hst⟩
    cases algo with
    | bruteForce =>
      cases he
      exact ⟨hpaying rfl rfl rfl rfl rfl, rfl⟩
    | perfHypo =>
      cases he
      exact ⟨hpaying rfl rfl rfl rfl rfl, rfl⟩
    | twokFactorial =>
      simp only [emethodInit, twokInit] at he
      split at he
      · cases he
      · split at he
        · cases he
        · cases he
          exact ⟨hpaying rfl rfl rfl rfl rfl, rfl⟩

end Created

/-- At the decision the original array holds what each started function has
reported and zeros for the others, unless the search over hypotheses has dropped
a measured function without a copy of its averages. -/
theorem measurements_kept {algo : SearchAlgo} {threshold : ℤ} {f : Fnctset} {fuel left : ℕ}
    {stop : ℕ → Bool} {report : ℕ → Function → ℚ} {r₀ r : Request} {log : List Start}
    (hc : ∀ i, Bounded f (report i)) (hr : requestCreate algo threshold f = .ok r₀)
    (hcopied : algo = .perfHypo → ∀ i r, i < left → before fuel report r₀ i = .ok r →
      r.emethod.state = .testing → DropsCopied fuel r.emethod)
    (hrun : tuningLoop (hypothesisGetNext fuel) stop report left 0 true r₀ [] =
      .ok (.finished r, log)) (hst : r.emethod.state ≠ .testing) :
    ∃ (started : List ℕ) (g : Function),
      log = started.map (testingStart f) ++ [⟨g, .regular⟩] ∧ started.Nodup ∧
      (∀ p ∈ started, p < f.maxnum) ∧
      (∀ i p, started[i]? = some p →
        r.emethod.orgstats[p]? = some (exact (report i (functionAt f p)))) ∧
      (∀ p, p < f.maxnum → p ∉ started → r.emethod.orgstats[p]? = some noPoints) ∧
      ∀ average, 0 < average → ∀ p, p ∈ (getFunctionsWithAverage r.emethod average).2 ↔
        ∃ i, started[i]? = some p ∧ average ≤ report i (functionAt f p) ∧
          report i (functionAt f p) < average+width := by
  obtain ⟨hpaying, halgo⟩ := created_paying hr
  obtain ⟨started, paid, g, hlog, ht, hd⟩ := run_measured [] hc
    (fun hp i r hi => hcopied hp i r (by simpa using hi)) rfl halgo hpaying tally_nil hrun hst
  have hown : ∀ i p, started[i]? = some p →
      r.emethod.orgstats[p]? = some (exact (report i (functionAt f p))) := fun i p hi => by
    rw [hd.complete p (ht.inside p (List.mem_of_getElem? hi)), ht.own i p hi]
    rfl
  have hother : ∀ p, p < f.maxnum → p ∉ started → r.emethod.orgstats[p]? = some noPoints :=
    fun p hp hnot => by
      rw [hd.complete p hp, ht.other p hnot]
      rfl
  refine ⟨started, g, hlog, ht.nodup, ht.inside, hown, hother, fun average haverage p => ?_⟩
  rw [with_average_iff, hd.attributed.org]
  constructor
  · rintro ⟨hp, points, a, hpoints, ha, hle, hlt⟩
    by_cases hin : p ∈ started
    · obtain ⟨i, hi⟩ := List.getElem?_of_mem hin
      rw [hown i p hi] at hpoints
      cases hpoints
      cases ha
      exact ⟨i, hi, hle, hlt⟩
    · rw [hother p hp hin] at hpoints
      cases hpoints
      cases ha
      exact absurd hle (not_le.mpr haverage)
  · rintro ⟨i, hi, hle, hlt⟩
    exact ⟨ht.inside p (List.mem_of_getElem? hi), _, _, hown i p hi, rfl, hle, hlt⟩

def decided (run : Except Fault (Outcome × List Start)) : Option (List Start × List Points) :=
  match run with
  | .ok (.finished r, log) =>
    if r.emethod.state = .regular then some (log, r.emethod.orgstats) else none
  | _ => none

theorem decided_run {run : Except Fault (Outcome × List Start)} {log : List Start}
    {points : List Points} (h : decided run = some (log, points)) :
    ∃ r, run = .ok (.finished r, log) ∧ r.emethod.state = .regular := by
  simp only [decided] at h
  split at h
  · split_ifs at h with hst
    cases h
    exact ⟨_, rfl, hst⟩
  · cases h

theorem bounded_of_values {f : Fnctset} {cost : Function → ℚ} (h : ∀ g, cost g = 1 ∨ cost g = 2) :
    Bounded f cost := by
  intro g _
  rcases h g with hg | hg <;> rw [hg] <;> constructor <;> norm_num

def grid : Fnctset :=
  ⟨[⟨0, [0, 0]⟩, ⟨1, [1, 0]⟩, ⟨2, [0, 1]⟩, ⟨3, [1, 1]⟩, ⟨4, [0, 2]⟩, ⟨5, [1, 2]⟩],
    ⟨[[0, 1], [0, 1, 2]], [0, 0], [1, 2], [2, 3]⟩⟩

def gridCost (g : Function) : ℚ := if g.attrVals.getD 1 0 = 0 then 1 else 2

def pairSet : Fnctset := ⟨[⟨0, [0]⟩, ⟨1, [1]⟩], ⟨[[0, 1]], [0], [1], [2]⟩⟩

def pairCost (g : Function) : ℚ := if g.attrVals = [0] then 1 else 2

def Kept (f : Fnctset) (cost : Function → ℚ) (r : Request) (log : List Start) : Prop :=
  ∃ (started : List ℕ) (g : Function), log = started.map (testingStart f) ++ [⟨g, .regular⟩] ∧
    (∀ i p : ℕ, started[i]? = some p →
      r.emethod.orgstats[p]? = some (exact (cost (functionAt f p)))) ∧
    ∀ p, p < f.maxnum → p ∉ started → r.emethod.orgstats[p]? = some noPoints

def workingIds (o : Outcome) : List ℕ :=
  match o with
  | .finished r => r.emethod.fnctset.functions.map Function.id
  | _ => []

/-- A search over hypotheses that drops nothing, and a 2k search that drops the
functions 1 and 5 behind their measurement and 3 before it. -/
theorem measurements_kept_reduced :
    (∃ (r : Request) (log : List Start),
      otpoMain (hypothesisGetNext 20) (fun _ => false) (fun _ => pairCost) .perfHypo 50 pairSet
        none = .ok (.finished r, log) ∧ Kept pairSet pairCost r log) ∧
    ∃ (r : Request) (log : List Start),
      otpoMain (hypothesisGetNext 20) (fun _ => false) (fun _ => gridCost) .twokFactorial 50 grid
        none = .ok (.finished r, log) ∧ Kept grid gridCost r log ∧
      r.emethod.fnctset.functions.map Function.id = [0, 2, 4] := by
  constructor
  · have hdecided : decided (otpoMain (hypothesisGetNext 20) (fun _ => false) (fun _ => pairCost)
        .perfHypo 50 pairSet none) = some ([0, 1].map (testingStart pairSet) ++
          [⟨functionAt pairSet 0, .regular⟩], [exact 1, exact 2]) := by decide +kernel
    obtain ⟨r, hrun, hst⟩ := decided_run hdecided
    obtain ⟨r₀, hr⟩ : ∃ r₀, requestCreate .perfHypo 50 pairSet = .ok r₀ := ⟨_, rfl⟩
    have hdrops : ∀ i < 3, (match before 20 (fun _ => pairCost) r₀ i with
        | .ok r => firstShrink 20 (handed r.emethod)
        | .error _ => none) = none := by
      cases hr
      decide +kernel
    obtain ⟨started, g, hlog, _, _, hown, hother, _⟩ := @measurements_kept .perfHypo 50 pairSet 20 3
      (fun _ => false) (fun _ => pairCost) r₀ r _ (fun _ => bounded_of_values fun g => by
        simp only [pairCost]
        split_ifs <;> simp) hr
      (fun _ i r hi hb _ a v hfirst => by
        have hnone := hdrops i hi
        rw [hb] at hnone
        exact absurd (hfirst.symm.trans hnone) (by simp))
      (by rw [otpoMain, hr] at hrun; exact hrun) (by rw [hst]; decide)
    exact ⟨r, _, hrun, started, g, hlog, hown, hother⟩
  · have hdecided : decided (otpoMain (hypothesisGetNext 20) (fun _ => false) (fun _ => gridCost)
        .twokFactorial 50 grid none) = some ([0, 1, 4, 5, 2].map (testingStart grid) ++
          [⟨functionAt grid 0, .regular⟩],
            [exact 1, exact 1, exact 2, noPoints, exact 2, exact 2]) := by decide +kernel
    have hkept : (otpoMain (hypothesisGetNext 20) (fun _ => false) (fun _ => gridCost)
        .twokFactorial 50 grid none).map (fun q => workingIds q.1) = .ok [0, 2, 4] := by
      decide +kernel
    obtain ⟨r, hrun, hst⟩ := decided_run hdecided
    obtain ⟨r₀, hr⟩ : ∃ r₀, requestCreate .twokFactorial 50 grid = .ok r₀ := ⟨_, rfl⟩
    rw [hrun] at hkept
    obtain ⟨started, g, hlog, _, _, hown, hother, _⟩ := @measurements_kept .twokFactorial 50 grid
      20 7 (fun _ => false) (fun _ => gridCost) r₀ r _ (fun _ => bounded_of_values fun g => by
        simp only [gridCost]
        split_ifs <;> simp) hr
      (fun h => by cases h) (by rw [otpoMain, hr] at hrun; exact hrun) (by rw [hst]; decide)
    exact ⟨r, _, hrun, ⟨started, g, hlog, hown, hother⟩, Except.ok.inj hkept⟩

/-- The first attribute is settled after two blocks. The set is compacted before
the averages are copied, so those of the functions 1 and 3 are gone. -/
theorem shrink_loses :
    let f : Fnctset := ⟨[⟨0, [0, 0]⟩, ⟨1, [1, 0]⟩, ⟨2, [0, 1]⟩, ⟨3, [1, 1]⟩, ⟨4, [0, 2]⟩,
      ⟨5, [1, 2]⟩], ⟨[[0, 1], [0, 1, 2]], [0, 0], [1, 2], [2, 3]⟩⟩
    let cost : Function → ℚ := fun g => if g.attrVals.getD 0 0 = 0 then 1 else 2
    Bounded f cost ∧
      decided (otpoMain (hypothesisGetNext 20) (fun _ => false) (fun _ => cost) .perfHypo 50 f
        none) = some ([0, 1, 2, 3, 4].map (testingStart f) ++ [⟨functionAt f 0, .regular⟩],
          [exact 1, noPoints, exact 1, noPoints, exact 1, noPoints]) := by
  intro f cost
  refine ⟨bounded_of_values fun g => ?_, by decide +kernel⟩
  by_cases hg : g.attrVals.getD 0 0 = 0 <;> simp only [cost, hg] <;> simp

end Otpo.RunMeasurements
