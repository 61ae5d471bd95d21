import Otpo.ParseLine
import Otpo.Library.RelatedResults

/-!
# The parameter list

Behind the lines come the values of ranges and the elements of conditions. The
loop over a range need not end, so it is run for a number of rounds.
-/

set_option autoImplicit false

namespace Otpo.InitializeList
open Otpo.ParamList Otpo.ParseLine

def nextNumber (operation : Option Operator) (increment : Option ℤ) (tmp : ℤ) :
    Except Fault (ℤ × Bool) :=
  match operation, increment with
  | some .add, some increment => (int32 (tmp+increment)).map (·, false)
  | some .subtract, some increment => (int32 (tmp-increment)).map (·, false)
  | some .multiply, some increment =>
    if tmp = 0 then .ok (1, true) else (int32 (tmp*increment)).map (·, false)
  | some .divide, some increment =>
    if tmp = 0 then .ok (1, true)
    else if increment = 0 then .error .undefined
    else (int32 (tmp.tdiv increment)).map (·, false)
  | some _, some _ => .ok (tmp, false)
  | _, _ => .error .undefined

def rangeLoop (operation : Option Operator) (increment : Option ℤ) (endValue : ℤ) :
    ℕ → ℤ → List ℤ → ℕ → Except Fault (Option (List ℤ × ℕ))
  | 0, _, _, _ => .ok none
  | fuel+1, tmp, values, num =>
    if endValue < tmp then .ok (some (values, num))
    else
      match nextNumber operation increment tmp with
      | .error f => .error f
      | .ok (tmp, true) => rangeLoop operation increment endValue fuel tmp values (num-1+1)
      | .ok (tmp, false) =>
        if endValue < tmp then rangeLoop operation increment endValue fuel tmp values num
        else rangeLoop operation increment endValue fuel tmp (values ++ [tmp]) (num+1)

def getPossibleValues (fuel : ℕ) (p : ListParam) : Except Fault (Option ListParam) :=
  if p.stringValues.length ≠ 0 then .ok (some p)
  else
    match p.startValue, p.endValue with
    | some startValue, some endValue =>
      match rangeLoop p.operation p.increment endValue fuel startValue [startValue] 1 with
      | .error f => .error f
      | .ok none => .ok none
      | .ok (some (values, num)) =>
        if values.length = num then .ok (some { p with possibleValues := some values })
        else .error .undefined
    | _, _ => .error .undefined

def getAllValues (fuel : ℕ) : List ListParam → Except Fault (Option (List ListParam))
  | [] => .ok (some [])
  | p::ps =>
    match getPossibleValues fuel p with
    | .error f => .error f
    | .ok none => .ok none
    | .ok (some p) =>
      match getAllValues fuel ps with
      | .error f => .error f
      | .ok none => .ok none
      | .ok (some ps) => .ok (some (p::ps))

def initializeList (fuel numParameters : ℕ) (lines : List Text) :
    Except Fault (Option (List ListParam × List (List RpnElement))) :=
  match parse numParameters lines [] with
  | .error f => .error f
  | .ok ps =>
    match getAllValues fuel ps with
    | .error f => .error f
    | .ok none => .ok none
    | .ok (some ps) =>
      match setAllElements ps with
      | .error f => .error f
      | .ok elements => .ok (some (ps, elements))

variable {fuel numParameters : ℕ} {lines : List Text} {ps : List ListParam}

/-- Listed parameters keep their values. -/
theorem all_values_listed (h : ∀ p ∈ ps, p.stringValues ≠ []) :
    getAllValues fuel ps = .ok (some ps) := by
  induction ps with
  | nil => rfl
  | cons p ps ih =>
    have hp : p.stringValues.length ≠ 0 := fun hl =>
      h p List.mem_cons_self (List.length_eq_zero_iff.mp hl)
    rw [getAllValues, getPossibleValues, if_pos hp]
    simp only [ih fun q hq => h q (List.mem_cons_of_mem p hq)]

theorem all_elements_absent (names : List Text) (h : ∀ p ∈ ps, p.condition = []) :
    (ps.mapM fun p => setRpnStackElements names p.condition) = .ok (ps.map fun _ => []) := by
  rw [RelatedResults.map_ok_iff, List.forall₂_map_right_iff, List.forall₂_same]
  intro p hp
  rw [h p hp]
  rfl

/-- A file of lists without conditions is initialized as it is parsed. -/
theorem initialize_listed (hparse : parse numParameters lines [] = .ok ps)
    (hlisted : ∀ p ∈ ps, p.stringValues ≠ []) (hcondition : ∀ p ∈ ps, p.condition = []) :
    initializeList fuel numParameters lines = .ok (some (ps, ps.map fun _ => [])) := by
  simp only [initializeList, hparse, all_values_listed hlisted, setAllElements,
    all_elements_absent _ hcondition]

end Otpo.InitializeList
