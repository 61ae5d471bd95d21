import Otpo.AttributedSearch

/-!
# Every measurement of a run

One start either pays for a function that was not paid for yet, or decides with
the original array complete. The only step that loses a measurement is a shrink
of the search over hypotheses that drops a function it has not copied.
-/

set_option autoImplicit false

namespace Otpo.AttributedRun
open Otpo.ParamList Otpo.Statistics Otpo.Adcl Otpo.Attribution Otpo.PerfHypothesis
open Otpo.AttributedSearch

def handed (e : Emethod) : Emethod :=
  { e with stats := (e.stats.modify e.last markTested).modify e.last globalMax }

/-- A function that has reported is marked, and the search is called. -/
theorem get_next_search {e : Emethod} (fuel : ℕ) (halgo : e.searchAlgo = .perfHypo) {s : Stat}
    (hs : e.stats[e.last]? = some s) (hcount : ¬ s.count < emethodNumtests)
    (htime : ¬ s.time.length < emethodNumtests) :
    getNext (hypothesisGetNext fuel) e =
      match hypothesisGetNext fuel (handed e) with
      | .error fault => .error fault
      | .ok (next, d) =>
        match advance next d with
        | .error fault => .error fault
        | .ok (next, d) => .ok (next, .perf, d) := by
  obtain ⟨state, last, algo, filtering, stats, orgfnctset, fnctset, twok, hypo, wfunction,
    orgstats⟩ := e
  simp only at halgo hs
  subst halgo
  have hlt : last < stats.length := (List.getElem?_eq_some_iff.mp hs).1
  have hlt' : last < (stats.modify last markTested).length := by rwa [List.length_modify]
  simp only [getNext, hs, if_neg hcount, if_neg htime, updateStat, if_pos hlt, searchNext,
    if_pos hlt', handed]
  cases hypothesisGetNext fuel _ with
  | error fault => rfl
  | ok result => rfl

def DropsCopied (fuel : ℕ) (e : Emethod) : Prop :=
  ∀ a v, firstShrink fuel (handed e) = some (a, v) →
    ∀ q ∈ (handed e).fnctset.functions.zip (handed e).stats, keeps a v q.1 = false →
      q.2.time ≠ [] → e.orgstats[q.2.pos]? = some q.2.gpts

structure Moved (f : Fnctset) (paid : ℕ → Option ℚ) (e d : Emethod) (n : ℕ) : Prop where
  attributed : Attributed f paid d
  settled : e.searchAlgo = .perfHypo → ∀ k s, k ≠ n → d.stats[k]? = some s → Settled s
  state : d.state = e.state
  algo : d.searchAlgo = e.searchAlgo

structure Paying (f : Fnctset) (paid : ℕ → Option ℚ) (r : Request) : Prop where
  moved : Moved f paid r.emethod r.emethod r.emethod.last
  testing : r.emethod.state = .testing

section Search

variable {f : Fnctset} {paid : ℕ → Option ℚ} {e d : Emethod} {next : Option ℕ} {fuel : ℕ}

theorem attributed_marked (h : Attributed f paid e) :
    Attributed f paid { e with stats := e.stats.modify e.last markTested } :=
  attributed_modify h marked_pos (fun _ => measured_marked) _

theorem handed_ready (h : Moved f paid e e e.last) (halgo : e.searchAlgo = .perfHypo) :
    Ready f paid (handed e) := by
  have ha : Attributed f paid (handed e) :=
    attributed_modify (g := globalMax) (attributed_marked h.attributed) (fun _ => rfl)
      (fun _ => measured_global) e.last
  refine ⟨ha, fun s hs => ?_⟩
  rcases mem_modify hs with ⟨t, ht, rfl⟩ | ⟨k, hk, hget⟩
  · rw [List.getElem?_modify, Option.map_eq_map, Option.map_eq_some_iff] at ht
    obtain ⟨u, _, hu⟩ := ht
    rw [if_pos rfl] at hu
    exact hu ▸ settled_marked u
  · rw [List.getElem?_modify, Option.map_eq_map, Option.map_eq_some_iff] at hget
    obtain ⟨u, hu, rfl⟩ := hget
    rw [if_neg (Ne.symm hk)]
    exact h.settled halgo k u hk hu

theorem handed_copied (hc : Affordable paid) (hr : Ready f paid (handed e))
    (h : DropsCopied fuel e) (heval : evaluates fuel (handed e) = true) {hypo : Hypothesis}
    (hh : (handed e).hypo = some hypo) : EvaluatesCopied f paid fuel (handed e) hypo := by
  intro b hb a v hhead s hs hkeeps c hpaid
  have hfirst : firstShrink fuel (handed e) = some (a, v) := by
    rw [firstShrink, if_pos heval]
    simp only [hh, hb, hhead]
  have hm := hr.attributed.measured s hs
  have hpoints := settled_points hm (hr.settled s hs) (hc s.pos)
  have hpair : (functionAt f s.pos, s) ∈ (handed e).fnctset.functions.zip (handed e).stats := by
    obtain ⟨i, hi⟩ := List.getElem?_of_mem hs
    refine List.mem_of_getElem? (i := i) ?_
    rw [List.getElem?_zip_eq_some]
    exact ⟨function_get hr.attributed hi, hi⟩
  have htime : s.time ≠ [] := by
    rw [hm.time, hpaid]
    exact List.cons_ne_nil _ _
  have hcopy := h a v hfirst _ hpair hkeeps htime
  rw [hpoints, hpaid] at hcopy
  exact hcopy

theorem reduce_column_ready (hc : Affordable paid) (t : Twok) (best : Function)
    (column : List ℤ × Double) (h : Ready f paid e ∧ Complete f paid e) :
    Ready f paid (reduceColumn t best e column) ∧ Complete f paid (reduceColumn t best e column) ∧
      (reduceColumn t best e column).state = e.state ∧
      (reduceColumn t best e column).searchAlgo = e.searchAlgo := by
  have hshrink : ∀ a v, Ready f paid (shrinklistByattr e a v) ∧
      Complete f paid (shrinklistByattr e a v) ∧ (shrinklistByattr e a v).state = e.state ∧
      (shrinklistByattr e a v).searchAlgo = e.searchAlgo := fun a v =>
    have hr := shrink_ready hc h.1 (copied_of_complete h.1.attributed h.2)
    ⟨hr.1, hr.2, rfl, rfl⟩
  rw [reduceColumn]
  split
  · split_ifs
    · exact hshrink _ _
    · exact hshrink _ _
    · exact ⟨h.1, h.2, rfl, rfl⟩
  · exact ⟨h.1, h.2, rfl, rfl⟩

theorem reduce_ready (hc : Affordable paid) (t : Twok) (best : Function)
    (columns : List (List ℤ × Double)) (h : Ready f paid e ∧ Complete f paid e) :
    Ready f paid (columns.foldl (reduceColumn t best) e) ∧
      (columns.foldl (reduceColumn t best) e).state = e.state ∧
      (columns.foldl (reduceColumn t best) e).searchAlgo = e.searchAlgo := by
  induction columns generalizing e with
  | nil => exact ⟨h.1, rfl, rfl⟩
  | cons column columns ih =>
    obtain ⟨hr, hcomplete, hst, halgo⟩ := reduce_column_ready hc t best column h
    obtain ⟨hd, hst', halgo'⟩ := ih ⟨hr, hcomplete⟩
    exact ⟨hd, hst'.trans hst, halgo'.trans halgo⟩

theorem twok_attributed (hc : Affordable paid) (h : Attributed f paid e)
    (halgo : e.searchAlgo = .twokFactorial) (hn : twokGetNext e = .ok (next, d)) :
    Attributed f paid d ∧ d.state = e.state ∧ d.searchAlgo = e.searchAlgo := by
  have htwok : ∀ {e' : Emethod}, Attributed f paid e' → ∀ t,
      Attributed f paid { e' with twok := t } := fun h t =>
    attributed_congr h rfl rfl rfl rfl
  simp only [twokGetNext] at hn
  split at hn
  · cases hn
  · next t _ =>
    split_ifs at hn
    · cases hn
      exact ⟨h, rfl, rfl⟩
    · simp only [finishCorners, maxnum_stats h] at hn
      split at hn
      · cases hn
      · next best e' hw =>
        have hnot : e.searchAlgo = .perfHypo → ∀ s ∈ e.stats, Settled s := fun hp => by
          rw [halgo] at hp
          cases hp
        obtain ⟨hd, _, _, hst, ha⟩ := decisive_winner hc h hnot hw
        split at hn
        · cases hn
        · cases hn
          obtain ⟨hr, hst', ha'⟩ := reduce_ready hc _ _ _ ⟨hd.ready, hd.complete⟩
          exact ⟨htwok hr.attributed _, hst'.trans hst, ha'.trans ha⟩
    · split at hn
      · cases hn
      · cases hn
        exact ⟨htwok h _, rfl, rfl⟩

theorem advance_cases {next' : Option ℕ} {e' : Emethod} (h : advance next d = .ok (next', e')) :
    next' = next ∧ (next = none ∧ e' = d ∨ ∃ n s, next = some n ∧ d.stats[n]? = some s ∧
      e' = { d with last := n, stats := d.stats.modify n called }) := by
  cases next with
  | none =>
    cases h
    exact ⟨rfl, Or.inl ⟨rfl, rfl⟩⟩
  | some n =>
    simp only [advance, updateStat] at h
    split_ifs at h with hlt
    cases h
    exact ⟨rfl, Or.inr ⟨n, _, rfl, List.getElem?_eq_getElem hlt, rfl⟩⟩

/-- What each search does, and where it went from. -/
theorem search_cases {e' : Emethod}
    (h : searchNext (hypothesisGetNext fuel) e = .ok (next, e')) :
    (e.searchAlgo = .bruteForce ∧ ∃ n, advance n e = .ok (next, e')) ∨
    (e.searchAlgo = .twokFactorial ∧ ∃ n d, twokGetNext e = .ok (n, d) ∧
      advance n d = .ok (next, e')) ∨
    (e.searchAlgo = .perfHypo ∧ ∃ n d,
      hypothesisGetNext fuel { e with stats := e.stats.modify e.last globalMax } = .ok (n, d) ∧
      advance n d = .ok (next, e')) := by
  rw [searchNext] at h
  split at h
  case h_1 halgo =>
    simp only [updateStat] at h
    split_ifs at h
    · simp only at h
      split at h
      · cases h
      · next n d hn => exact Or.inr (Or.inr ⟨halgo, n, d, hn, h⟩)
  case h_2 halgo =>
    split at h
    · cases h
    · next n d hn => exact Or.inr (Or.inl ⟨halgo, n, d, hn, h⟩)
  case h_3 halgo => exact Or.inl ⟨halgo, _, h⟩

/-- Each search hands on a method whose objects are attributed and settled. -/
theorem search_moved (hc : Affordable paid) (h : Moved f paid e e e.last)
    (hcopied : e.searchAlgo = .perfHypo → DropsCopied fuel e) {e' : Emethod}
    (hs : searchNext (hypothesisGetNext fuel)
      { e with stats := e.stats.modify e.last markTested } = .ok (next, e')) :
    ∃ d, Attributed f paid d ∧ (e.searchAlgo = .perfHypo → ∀ s ∈ d.stats, Settled s) ∧
      d.state = e.state ∧ d.searchAlgo = e.searchAlgo ∧ advance next d = .ok (next, e') := by
  have hm := attributed_marked h.attributed
  have hadvance : ∀ {n : Option ℕ} {d : Emethod}, advance n d = .ok (next, e') →
      advance next d = .ok (next, e') := fun ha => (advance_cases ha).1 ▸ ha
  rcases search_cases hs with ⟨halgo, n, hn⟩ | ⟨halgo, n, d, hn, had⟩ | ⟨halgo, n, d, hn, had⟩
  · exact ⟨_, hm, fun hp => absurd (hp.symm.trans halgo) (by decide), rfl, rfl, hadvance hn⟩
  · obtain ⟨ha, hst, hal⟩ := twok_attributed hc hm halgo hn
    exact ⟨d, ha, fun hp => absurd (hp.symm.trans halgo) (by decide), hst, hal, hadvance had⟩
  · have hr := handed_ready h halgo
    obtain ⟨hd, hst, hal⟩ := loop_ready hc hr
      (fun _ heval hypo hh => handed_copied hc hr (hcopied halgo) heval hh) hn
    exact ⟨d, hd.attributed, fun _ => hd.settled, hst, hal, hadvance had⟩

/-- `ADCL_emethods_get_next`: the set is exhausted, or a function is called. -/
theorem get_next_moved (hc : Affordable paid) (h : Moved f paid e e e.last)
    (hcopied : e.searchAlgo = .perfHypo → DropsCopied fuel e) {flag : Flag} {e' : Emethod}
    (hs : getNext (hypothesisGetNext fuel) e = .ok (next, flag, e')) :
    flag = .perf ∧ ∃ d,
      (next = none ∧ e' = d ∧ (∀ n, Moved f paid e d n) ∧
        (e.searchAlgo = .perfHypo → ∀ s ∈ d.stats, Settled s) ∨
      ∃ n s, next = some n ∧ d.stats[n]? = some s ∧ Moved f paid e d n ∧
        e' = { d with last := n, stats := d.stats.modify n called }) := by
  simp only [getNext] at hs
  split at hs
  · cases hs
  · next s hget =>
    have hcount := (h.attributed.measured s (List.mem_of_getElem? hget)).count
    split_ifs at hs with hfirst hwait
    · simp only [updateStat] at hs
      split_ifs at hs
      · cases hs
        exact ⟨rfl, e, Or.inr ⟨e.last, s, rfl, hget, h, rfl⟩⟩
    · exact absurd (hcount ▸ hwait) hfirst
    · simp only [updateStat] at hs
      split_ifs at hs
      · simp only at hs
        split at hs
        · cases hs
        · next n d hn =>
          cases hs
          obtain ⟨d', ha, hsettled, hst, halgo, hadv⟩ := search_moved hc h hcopied hn
          have hmoved : ∀ n, Moved f paid e d' n := fun n =>
            ⟨ha, fun hp k s _ hk => hsettled hp s (List.mem_of_getElem? hk), hst, halgo⟩
          refine ⟨rfl, d', ?_⟩
          rcases (advance_cases hadv).2 with ⟨rfl, rfl⟩ | ⟨m, s, rfl, hms, rfl⟩
          · exact Or.inl ⟨rfl, rfl, hmoved, hsettled⟩
          · exact Or.inr ⟨m, s, rfl, hms, hmoved m, rfl⟩

end Search

end Otpo.AttributedRun
