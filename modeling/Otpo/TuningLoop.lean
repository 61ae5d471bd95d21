import Otpo.Request
import Otpo.Combinations

/-!
# The main loop

One process: create the request, restore what an interrupt file holds, and
start tests until the method leaves its testing state, the bound is reached or
a signal is seen. The starts are recorded for the reader.
-/

set_option autoImplicit false

namespace Otpo.Adcl
open Otpo.ParamList Otpo.Statistics Otpo.Combinations

structure Start where
  function : Function
  state : State
  deriving DecidableEq, Repr

def testingStart (f : Fnctset) (i : ℕ) : Start := ⟨functionAt f i, .testing⟩

inductive Outcome
  | finished (r : Request)
  | saved (s : Saved)
  | stopped
  deriving DecidableEq, Repr

def getState (r : Request) : Bool := r.emethod.state == .testing

section Loop

variable (hypothesisGetNext : Emethod → Except Fault (Option ℕ × Emethod))
variable (stopSignal : ℕ → Bool) (report : ℕ → Function → ℚ)

def tuningLoop : ℕ → ℕ → Bool → Request → List Start → Except Fault (Outcome × List Start)
  | 0, _, _, r, log => .ok (.finished r, log)
  | left+1, i, testing, r, log =>
    if testing then
      if stopSignal i then
        if 1 < i then
          match saveStatus r with
          | .error f => .error f
          | .ok s => .ok (.saved s, log)
        else .ok (.stopped, log)
      else
        match requestStart hypothesisGetNext (report i) r with
        | .error f => .error f
        | .ok r =>
          match r.function with
          | none => .error .undefined
          | some function =>
            tuningLoop left (i+1) (getState r) r (log ++ [⟨function, r.emethod.state⟩])
    else .ok (.finished r, log)

section Iteration

variable {hypothesisGetNext stopSignal report}

theorem tuningLoop_start {left i : ℕ} {r s : Request} {log : List Start} {function : Function}
    (hstop : stopSignal i = false)
    (hs : requestStart hypothesisGetNext (report i) r = .ok s)
    (hf : s.function = some function) :
    tuningLoop hypothesisGetNext stopSignal report (left+1) i true r log =
      tuningLoop hypothesisGetNext stopSignal report left (i+1) (getState s) s
        (log ++ [⟨function, s.emethod.state⟩]) := by
  simp only [tuningLoop, hstop, if_true, Bool.false_eq_true, if_false, hs, hf]

theorem tuningLoop_fault {left i : ℕ} {r : Request} {log : List Start} {f : Fault}
    (hstop : stopSignal i = false)
    (hs : requestStart hypothesisGetNext (report i) r = .error f) :
    tuningLoop hypothesisGetNext stopSignal report (left+1) i true r log = .error f := by
  simp only [tuningLoop, hstop, if_true, Bool.false_eq_true, if_false, hs]

theorem tuningLoop_save {left i : ℕ} {r : Request} {log : List Start}
    (hstop : stopSignal i = true) (hi : 1 < i) :
    tuningLoop hypothesisGetNext stopSignal report (left+1) i true r log =
      match saveStatus r with
      | .error f => .error f
      | .ok s => .ok (.saved s, log) := by
  simp only [tuningLoop, hstop, if_true, hi]

theorem tuningLoop_extends {left i : ℕ} {testing : Bool} {r : Request} {log log' : List Start}
    {o : Outcome}
    (h : tuningLoop hypothesisGetNext stopSignal report left i testing r log = .ok (o, log')) :
    log <+: log' := by
  induction left generalizing i testing r log with
  | zero =>
    cases h
    exact List.prefix_rfl
  | succ left ih =>
    simp only [tuningLoop] at h
    split at h
    · split at h
      · split at h
        · split at h <;> cases h
          exact List.prefix_rfl
        · cases h
          exact List.prefix_rfl
      · split at h
        · cases h
        · split at h
          · cases h
          · exact (List.prefix_append log _).trans (ih h)
    · cases h
      exact List.prefix_rfl

/-- What a process has saved comes from one of its requests. -/
theorem tuningLoop_saved {left i : ℕ} {testing : Bool} {r : Request} {log log' : List Start}
    {s : Saved}
    (h : tuningLoop hypothesisGetNext stopSignal report left i testing r log =
      .ok (.saved s, log')) : ∃ r', saveStatus r' = .ok s := by
  induction left generalizing i testing r log with
  | zero => cases h
  | succ left ih =>
    simp only [tuningLoop] at h
    split at h
    · split at h
      · split at h
        · split at h
          · cases h
          · next hs =>
            cases h
            exact ⟨r, hs⟩
        · cases h
      · split at h
        · cases h
        · split at h
          · cases h
          · exact ih h
    · cases h

theorem tuningLoop_done {left i : ℕ} {r : Request} {log : List Start} :
    tuningLoop hypothesisGetNext stopSignal report left i false r log =
      .ok (.finished r, log) := by
  cases left <;> rfl

end Iteration

abbrev InterruptFile := Option (List Double)

def restoredPoints (results : List Double) : List Points :=
  results.map fun x => ⟨x, x, some 0⟩

def otpoMain (algo : SearchAlgo) (threshold : ℤ) (f : Fnctset) (file : InterruptFile) :
    Except Fault (Outcome × List Start) :=
  match requestCreate algo threshold f with
  | .error fault => .error fault
  | .ok r =>
    match file with
    | none => tuningLoop hypothesisGetNext stopSignal report (f.maxnum+1) 0 true r []
    | some results =>
      match restoreStatus r.emethod (restoredPoints results) with
      | .error fault => .error fault
      | .ok e =>
        tuningLoop hypothesisGetNext stopSignal report (f.maxnum+1-results.length)
          results.length true { r with emethod := e } []

end Loop

def Bounded (f : Fnctset) (cost : Function → ℚ) : Prop :=
  ∀ g ∈ f.functions, 0 < cost g ∧ cost g < 999999

def Outcome.winner : Outcome → Option Function
  | .finished r => r.emethod.wfunction
  | _ => none

def finalWinner (run : Except Fault (Outcome × List Start)) : Option Function :=
  match run with
  | .ok (outcome, _) => outcome.winner
  | .error _ => none

def attrsetOf (ps : List Param) : Attrset where
  attrs := ps.map Param.possibleValues
  baseval := ps.map Param.first
  maxval := ps.map Param.last
  numval := ps.map Param.numValues

def fnctsetOf (ps : List Param) (combinations : List (List ℤ)) : Fnctset where
  functions := combinations.zipIdx.map fun c => ⟨c.2, c.1⟩
  attrset := attrsetOf ps

theorem fnctset_values (ps : List Param) (cs : List (List ℤ)) :
    (fnctsetOf ps cs).functions.map Function.attrVals = cs := by
  rw [fnctsetOf, List.map_map]
  exact List.zipIdx_map_fst 0 cs

end Otpo.Adcl
