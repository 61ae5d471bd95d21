import Otpo.TwokFactorial
import Mathlib.Logic.Function.Basic
import Mathlib.Data.List.Nodup

/-!
# Starting and reporting tests

The state machine that hands out the next function, and the request around
it. Learning from history is off, as it is by default. The search over
performance hypotheses is a parameter here: it returns the position of the
next function and the changed method.
-/

set_option autoImplicit false

namespace Otpo.Adcl
open Otpo.ParamList Otpo.Statistics

inductive Flag
  | perf
  | noperf
  deriving DecidableEq, Repr

structure Request where
  emethod : Emethod
  function : Option Function
  erlast : ℕ
  erflag : Flag
  deriving DecidableEq, Repr

section Search

variable (hypothesisGetNext : Emethod → Except Fault (Option ℕ × Emethod))

def advance (next : Option ℕ) (e : Emethod) : Except Fault (Option ℕ × Emethod) :=
  match next with
  | none => .ok (none, e)
  | some n =>
    match updateStat { e with last := n } n called with
    | .error f => .error f
    | .ok e => .ok (some n, e)

def bruteGetNext (e : Emethod) : Option ℕ :=
  if e.last+1 < e.fnctset.maxnum then some (e.last+1) else none

def searchNext (e : Emethod) : Except Fault (Option ℕ × Emethod) :=
  match e.searchAlgo with
  | .perfHypo =>
    match updateStat e e.last globalMax with
    | .error f => .error f
    | .ok e =>
      match hypothesisGetNext e with
      | .error f => .error f
      | .ok (next, e) => advance next e
  | .twokFactorial =>
    match twokGetNext e with
    | .error f => .error f
    | .ok (next, e) => advance next e
  | .bruteForce => advance (bruteGetNext e) e

def getNext (e : Emethod) : Except Fault (Option ℕ × Flag × Emethod) :=
  match e.stats[e.last]? with
  | none => .error .undefined
  | some s =>
    if s.count < emethodNumtests then
      match updateStat e e.last called with
      | .error f => .error f
      | .ok e => .ok (some e.last, .perf, e)
    else if s.time.length < emethodNumtests then .ok (some e.last, .noperf, e)
    else
      match updateStat e e.last markTested with
      | .error f => .error f
      | .ok e =>
        match searchNext hypothesisGetNext e with
        | .error f => .error f
        | .ok (next, e) => .ok (next, .perf, e)

def decideWinner (r : Request) : Except Fault (Function × Request) :=
  match getWinner r.emethod r.emethod.fnctset.maxnum with
  | .error f => .error f
  | .ok (winner, e) =>
    match winner with
    | none => .error .undefined
    | some w =>
      match e.fnctset.functions[w]? with
      | none => .error .undefined
      | some function =>
        .ok (function, { r with
          emethod := { e with last := w, wfunction := some function, state := .regular } })

def getFunctionByState (r : Request) : Except Fault (Function × Request) :=
  match r.emethod.state with
  | .testing =>
    match getNext hypothesisGetNext r.emethod with
    | .error f => .error f
    | .ok (none, _, e) => decideWinner { r with emethod := { e with state := .decision } }
    | .ok (some pos, flag, e) =>
      match e.fnctset.functions[pos]? with
      | none => .error .undefined
      | some function =>
        .ok (function, { r with emethod := e, erlast := pos, erflag := flag })
  | .decision => decideWinner r
  | .regular =>
    match r.emethod.wfunction with
    | none => .error .undefined
    | some function => .ok (function, r)

/-- `ADCL_emethods_update`. The array of measurements holds the configured
number of tests; one more is written behind it. -/
def emethodsUpdate (e : Emethod) (pos : ℕ) (flag : Flag) (time : ℚ) : Except Fault Emethod :=
  match flag with
  | .noperf => .ok e
  | .perf =>
    match e.stats[pos]? with
    | none => .error .undefined
    | some s =>
      if s.time.length < emethodNumtests then
        updateStat e pos (recordTime (timeDiff 0 time))
      else .error .undefined

def requestUpdate (r : Request) (time : ℚ) : Except Fault Request :=
  match r.emethod.state with
  | .testing =>
    match emethodsUpdate r.emethod r.erlast r.erflag time with
    | .error f => .error f
    | .ok e => .ok { r with emethod := e }
  | .decision => .ok r
  | .regular => .ok r

def requestStart (report : Function → ℚ) (r : Request) : Except Fault Request :=
  match getFunctionByState hypothesisGetNext r with
  | .error f => .error f
  | .ok (function, r) => requestUpdate { r with function := some function } (report function)

theorem modify_map {α β : Type} [DecidableEq α] {l : List α} (hn : l.Nodup) (g : α → β)
    {i : ℕ} {a : α} (ha : l[i]? = some a) (h : β → β) :
    (l.map g).modify i h = l.map (Function.update g a (h (g a))) := by
  refine List.ext_getElem? fun k => ?_
  rw [List.getElem?_modify, List.getElem?_map, List.getElem?_map]
  cases hk : l[k]? with
  | none => simp
  | some b =>
    obtain ⟨hi, rfl⟩ := List.getElem?_eq_some_iff.mp ha
    obtain ⟨hk, rfl⟩ := List.getElem?_eq_some_iff.mp hk
    by_cases hik : i = k
    · subst hik
      simp
    · have hne : l[k] ≠ l[i] := fun he => hik ((hn.getElem_inj_iff).mp he.symm)
      simp [hik, Function.update_of_ne hne]

section Steps

variable {hypothesisGetNext}

theorem updateStat_ok {e : Emethod} {i : ℕ} (h : i < e.stats.length) (f : Stat → Stat) :
    updateStat e i f = .ok { e with stats := e.stats.modify i f } := if_pos h

structure Cells (e : Emethod) (kept : List ℕ) (cell : ℕ → Stat) : Prop where
  nodup : kept.Nodup
  stats : e.stats = kept.map cell

section Cells

variable {e : Emethod} {kept : List ℕ} {cell : ℕ → Stat} {i p : ℕ}

theorem cells_get (h : Cells e kept cell) (hp : kept[i]? = some p) :
    e.stats[i]? = some (cell p) := by
  rw [h.stats, List.getElem?_map, hp, Option.map_some]

theorem cells_lt (h : Cells e kept cell) (hp : kept[i]? = some p) : i < e.stats.length :=
  (List.getElem?_eq_some_iff.mp (cells_get h hp)).1

theorem cells_update (h : Cells e kept cell) (hp : kept[i]? = some p) (f : Stat → Stat) :
    updateStat e i f =
      .ok { e with stats := kept.map (Function.update cell p (f (cell p))) } := by
  rw [updateStat_ok (cells_lt h hp), h.stats, modify_map h.nodup cell hp]

def markedWith (e : Emethod) (kept : List ℕ) (cell : ℕ → Stat) (p : ℕ) : Emethod :=
  { e with stats := kept.map (Function.update cell p (markTested (cell p))) }

theorem getNext_first (h : Cells e kept cell) (hp : kept[e.last]? = some p)
    (hc : (cell p).count = 0) :
    getNext hypothesisGetNext e = .ok (some e.last, .perf,
      { e with stats := kept.map (Function.update cell p (called (cell p))) }) := by
  simp only [getNext, cells_get h hp, hc, emethodNumtests, Nat.zero_lt_one, if_true,
    cells_update h hp]

theorem getNext_reported (h : Cells e kept cell) (hp : kept[e.last]? = some p)
    (hc : (cell p).count = 1) (ht : (cell p).time.length = 1) {next : Option ℕ} {d : Emethod}
    (hn : searchNext hypothesisGetNext (markedWith e kept cell p) = .ok (next, d)) :
    getNext hypothesisGetNext e = .ok (next, .perf, d) := by
  rw [markedWith] at hn
  simp only [getNext, cells_get h hp, hc, ht, emethodNumtests, Nat.lt_irrefl, if_false,
    cells_update h hp, hn]

theorem advance_cells (h : Cells e kept cell) (hp : kept[i]? = some p) :
    advance (some i) e = .ok (some i, { e with
      last := i, stats := kept.map (Function.update cell p (called (cell p))) }) := by
  have hl : Cells { e with last := i } kept cell := ⟨h.nodup, h.stats⟩
  rw [advance, cells_update hl hp]

theorem requestStart_test {r : Request} {report : Function → ℚ} {function : Function}
    (hst : r.emethod.state = .testing)
    (hn : getNext hypothesisGetNext r.emethod = .ok (some i, .perf, e))
    (he : e.state = .testing) (h : Cells e kept cell) (hp : kept[i]? = some p)
    (hf : e.fnctset.functions[i]? = some function) (ht : (cell p).time = []) :
    requestStart hypothesisGetNext report r = .ok
      { emethod := { e with
          stats := kept.map (Function.update cell p
            (recordTime (timeDiff 0 (report function)) (cell p))) }
        function := some function, erlast := i, erflag := .perf } := by
  simp only [requestStart, getFunctionByState, hst, hn, hf, requestUpdate, he, emethodsUpdate,
    cells_get h hp, ht, emethodNumtests, List.length_nil, Nat.zero_lt_one, if_true,
    cells_update h hp]

/-- A function that has its one measurement writes the next behind the array. -/
theorem requestStart_overflow {r : Request} {report : Function → ℚ} {function : Function}
    (hst : r.emethod.state = .testing)
    (hn : getNext hypothesisGetNext r.emethod = .ok (some i, .perf, e))
    (he : e.state = .testing) (h : Cells e kept cell) (hp : kept[i]? = some p)
    (hf : e.fnctset.functions[i]? = some function) (ht : (cell p).time.length = 1) :
    requestStart hypothesisGetNext report r = .error .undefined := by
  simp only [requestStart, getFunctionByState, hst, hn, hf, requestUpdate, he, emethodsUpdate,
    cells_get h hp, ht, emethodNumtests, Nat.lt_irrefl, if_false]

/-- The very first start, or the first one after a resume. -/
theorem start_first {r : Request} {report : Function → ℚ} {function : Function}
    (h : Cells r.emethod kept cell) (hp : kept[r.emethod.last]? = some p)
    (hst : r.emethod.state = .testing)
    (hf : r.emethod.fnctset.functions[r.emethod.last]? = some function)
    (hc : (cell p).count = 0) (ht : (cell p).time = []) :
    requestStart hypothesisGetNext report r = .ok
      { emethod := { r.emethod with
          stats := kept.map (Function.update cell p
            (recordTime (timeDiff 0 (report function)) (called (cell p)))) }
        function := some function, erlast := r.emethod.last, erflag := .perf } := by
  have hd : Cells { r.emethod with
      stats := kept.map (Function.update cell p (called (cell p))) } kept
      (Function.update cell p (called (cell p))) := ⟨h.nodup, rfl⟩
  rw [requestStart_test hst (getNext_first h hp hc) hst hd hp hf
    (by rw [Function.update_self]; exact ht), Function.update_self, Function.update_idem]

theorem start_next {r : Request} {report : Function → ℚ} {function : Function} {d : Emethod}
    {kept' : List ℕ} {cell' : ℕ → Stat} {j q : ℕ}
    (h : Cells r.emethod kept cell) (hp : kept[r.emethod.last]? = some p)
    (hst : r.emethod.state = .testing) (hc : (cell p).count = 1)
    (ht : (cell p).time.length = 1)
    (hn : searchNext hypothesisGetNext (markedWith r.emethod kept cell p) = advance (some j) d)
    (hd : Cells d kept' cell') (hq : kept'[j]? = some q) (hdst : d.state = .testing)
    (hf : d.fnctset.functions[j]? = some function) (hqt : (cell' q).time = []) :
    requestStart hypothesisGetNext report r = .ok
      { emethod := { d with
          last := j
          stats := kept'.map (Function.update cell' q
            (recordTime (timeDiff 0 (report function)) (called (cell' q)))) }
        function := some function, erlast := j, erflag := .perf } := by
  rw [advance_cells hd hq] at hn
  have hd' : Cells { d with
      last := j, stats := kept'.map (Function.update cell' q (called (cell' q))) } kept'
      (Function.update cell' q (called (cell' q))) := ⟨hd.nodup, rfl⟩
  rw [requestStart_test hst (getNext_reported h hp hc ht hn) hdst hd' hq hf
    (by rw [Function.update_self]; exact hqt), Function.update_self, Function.update_idem]

theorem start_again {r : Request} {report : Function → ℚ} {function : Function} {d : Emethod}
    {kept' : List ℕ} {cell' : ℕ → Stat} {j q : ℕ}
    (h : Cells r.emethod kept cell) (hp : kept[r.emethod.last]? = some p)
    (hst : r.emethod.state = .testing) (hc : (cell p).count = 1)
    (ht : (cell p).time.length = 1)
    (hn : searchNext hypothesisGetNext (markedWith r.emethod kept cell p) = advance (some j) d)
    (hd : Cells d kept' cell') (hq : kept'[j]? = some q) (hdst : d.state = .testing)
    (hf : d.fnctset.functions[j]? = some function) (hqt : (cell' q).time.length = 1) :
    requestStart hypothesisGetNext report r = .error .undefined := by
  rw [advance_cells hd hq] at hn
  have hd' : Cells { d with
      last := j, stats := kept'.map (Function.update cell' q (called (cell' q))) } kept'
      (Function.update cell' q (called (cell' q))) := ⟨hd.nodup, rfl⟩
  exact requestStart_overflow hst (getNext_reported h hp hc ht hn) hdst hd' hq hf
    (by rw [Function.update_self]; exact hqt)

end Cells

section Decision

variable {r : Request} {report : Function → ℚ} {d d' : Emethod} {flag : Flag}

/-- The start after the last test decides and runs the winner without
recording its result. -/
theorem start_decide {w : ℕ} {function : Function} (hst : r.emethod.state = .testing)
    (hn : getNext hypothesisGetNext r.emethod = .ok (none, flag, d))
    (hw : getWinner { d with state := .decision } d.fnctset.maxnum = .ok (some w, d'))
    (hf : d'.fnctset.functions[w]? = some function) :
    requestStart hypothesisGetNext report r = .ok { r with
      emethod := { d' with last := w, wfunction := some function, state := .regular }
      function := some function } := by
  simp only [requestStart, getFunctionByState, hst, hn, decideWinner, hw, hf, requestUpdate]

theorem start_undecided (hst : r.emethod.state = .testing)
    (hn : getNext hypothesisGetNext r.emethod = .ok (none, flag, d))
    (hw : ∀ w d', getWinner { d with state := .decision } d.fnctset.maxnum ≠ .ok (some w, d')) :
    ∃ fault, requestStart hypothesisGetNext report r = .error fault := by
  have hd : ∃ fault, decideWinner { r with emethod := { d with state := .decision } } =
      .error fault := by
    cases hg : getWinner { d with state := .decision } d.fnctset.maxnum with
    | error fault => exact ⟨fault, by simp only [decideWinner, hg]⟩
    | ok result =>
      obtain ⟨_ | w, d'⟩ := result
      · exact ⟨.undefined, by simp only [decideWinner, hg]⟩
      · exact absurd hg (hw w d')
  obtain ⟨fault, hd⟩ := hd
  exact ⟨fault, by simp only [requestStart, getFunctionByState, hst, hn, hd]⟩

end Decision

end Steps

end Search

/-- What `ADCL_Request_save_status` hands out: the number of tested functions,
their unfiltered averages and the winner so far. -/
structure Saved where
  testedNum : ℕ
  results : List Double
  winnerSoFar : Option ℕ
  deriving DecidableEq, Repr

def saveStatus (r : Request) : Except Fault Saved :=
  match r.emethod.stats[r.erlast]? with
  | none => .error .undefined
  | some s =>
    let testedNum := if s.count = emethodNumtests then r.erlast+1 else r.erlast
    let e := if s.count = emethodNumtests then
        { r.emethod with
          stats := r.emethod.stats.modify r.erlast markTested }
      else r.emethod
    match getWinner e testedNum with
    | .error f => .error f
    | .ok (winnerSoFar, e) =>
      .ok { testedNum, winnerSoFar,
            results := (e.stats.take testedNum).map fun s => s.gpts.unfiltered }

theorem saveStatus_tested {r : Request} {s : Stat} {filtering : Filtering} {winner : Option ℕ}
    (halgo : r.emethod.searchAlgo ≠ .perfHypo) (hs : r.emethod.stats[r.erlast]? = some s)
    (hc : s.count = 1) {measured : List Stat}
    (hm : ((r.emethod.stats.modify r.erlast markTested).take (r.erlast+1)).map
      (fun s => globalMax (filterTimings s)) = measured)
    (hw : getWinnerV3 measured = .ok (filtering, winner)) :
    saveStatus r = .ok ⟨r.erlast+1, measured.map fun s => s.gpts.unfiltered, winner⟩ := by
  have hlt : r.erlast < r.emethod.stats.length := (List.getElem?_eq_some_iff.mp hs).1
  have hlen : r.erlast+1 ≤ (r.emethod.stats.modify r.erlast markTested).length := by
    rwa [List.length_modify]
  have hmeasured : measured.length = r.erlast+1 := by
    rw [← hm, List.length_map, List.length_take, Nat.min_eq_left hlen]
  have hwin := getWinner_take (e := { r.emethod with
    stats := r.emethod.stats.modify r.erlast markTested }) halgo hlen
  rw [hm, hw] at hwin
  simp only [saveStatus, hs, hc, emethodNumtests, if_true, hwin, syncStatobjects, hmeasured,
    List.take_left']

/-- A save holds at least one function: without any there is no winner so far. -/
theorem saveStatus_pos {r : Request} {s : Saved} (h : saveStatus r = .ok s) : 0 < s.testedNum := by
  have hnone : ∀ e, getWinner e 0 = .error .undefined := by
    intro e
    have hmeasured : (if e.searchAlgo = .perfHypo then (e.stats.take 0).map filterTimings
        else ((e.stats.take 0).map filterTimings).map globalMax) = [] := by
      split <;> rfl
    simp only [getWinner, Nat.not_lt_zero, if_false, hmeasured]
    rfl
  simp only [saveStatus] at h
  split at h
  · cases h
  · split at h
    · cases h
    · next hwin =>
      cases h
      refine Nat.pos_of_ne_zero fun hzero => ?_
      simp only at hzero
      rw [hzero, hnone] at hwin
      cases hwin

def restored (points : List Points) (s : Stat) (i : ℕ) : Stat :=
  match points[i]? with
  | some p => { s with lpts := p, filtered := true }
  | none => s

def restoreStatus (e : Emethod) (points : List Points) : Except Fault Emethod :=
  match e.searchAlgo with
  | .bruteForce =>
    if e.stats.length < points.length then .error .undefined
    else .ok { e with
      stats := e.stats.zipIdx.map fun q => restored points q.1 q.2
      last := points.length }
  | _ => .ok e

def emethodInit (algo : SearchAlgo) (threshold : ℤ) (f : Fnctset) : Except Fault Emethod :=
  let e : Emethod :=
    { state := .testing, last := 0, searchAlgo := algo, filtering := .unfiltered
      stats := (List.range f.maxnum).map freshStat, orgfnctset := f, fnctset := f
      twok := none, wfunction := none, orgstats := List.replicate f.maxnum noPoints
      hypo := none }
  match algo with
  | .bruteForce => .ok e
  | .perfHypo =>
    .ok { e with
      hypo := some
        { attrHypothesis := List.replicate f.attrset.maxnum (-1)
          attrConfidence := List.replicate f.attrset.maxnum 0
          currAttrvals := f.attrset.baseval, activeAttrpos := 0 } }
  | .twokFactorial => twokInit threshold e

def requestCreate (algo : SearchAlgo) (threshold : ℤ) (f : Fnctset) : Except Fault Request :=
  match emethodInit algo threshold f with
  | .error fault => .error fault
  | .ok e => .ok { emethod := e, function := none, erlast := 0, erflag := .noperf }

end Otpo.Adcl
