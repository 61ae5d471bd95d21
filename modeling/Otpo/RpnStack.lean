import Otpo.ParamList

/-!
# The condition check

Operands are stack elements holding one union. The member `integer_value`
shares its bytes with `param_index`, so reading it from a parameter operand
gives the parameter's index, and from a string operand some function of its
first bytes. The result element `e3` is one local variable: a branch which
does not write it pushes what the operator before left there.
-/

set_option autoImplicit false

namespace Otpo.RpnStack
open Otpo.ParamList

structure Machine where
  stack : List RpnElement
  e3 : ℤ
  deriving DecidableEq, Repr

def pop (m : Machine) : Except Fault (RpnElement × Machine) :=
  match m.stack with
  | e::s => .ok (e, { m with stack := s })
  | [] => .error (.exit "RPN Stack is EMPTY")

def push (e : RpnElement) (m : Machine) : Except Fault Machine :=
  if m.stack.length < rpnMaxElements then .ok { m with stack := e::m.stack }
  else .error (.exit "RPN Stack is FULL")

section Check

variable (bytes : Text → ℤ) (ps : List Param) (attrVals : List ℤ)

def integerValue : RpnElement → ℤ
  | .integer n => n
  | .param index => index
  | .string s => bytes s
  | .operator _ => 0

/-- `temp1` and `temp2`: a copied string, or null for an integer. The search
for a parameter's current code has no bound, and a range has no string to copy. -/
def operandString : RpnElement → Except Fault (Option Text)
  | .string s => .ok (some s)
  | .param index =>
    match ps[index]?, attrVals[index]? with
    | some p, some v =>
      match p.possibleValues.findIdx? (· == v) with
      | some k =>
        match p.stringValues[k]? with
        | some s => .ok (some s)
        | none => .error .undefined
      | none => .error .undefined
    | _, _ => .error .undefined
  | _ => .ok none

def truth (b : Bool) : ℤ := if b then 1 else 0

/-- The two guarded assignments of `=` and `!=`. Neither need happen. -/
def compareResult (same differ : ℤ) (temp1 temp2 : Option Text) (e1 e2 : RpnElement)
    (e3 : ℤ) : ℤ :=
  match e2, e1 with
  | .integer y, .integer x => if y = x then same else differ
  | _, _ =>
    match temp1, temp2 with
    | some a, some b => if b = a then same else differ
    | _, _ => e3

def result (type : Operator) (temp1 temp2 : Option Text) (e1 e2 : RpnElement) (e3 : ℤ) :
    Except Fault ℤ :=
  match type with
  | .equal => .ok (compareResult 1 0 temp1 temp2 e1 e2 e3)
  | .nequal => .ok (compareResult 0 1 temp1 temp2 e1 e2 e3)
  | .add => int32 (integerValue bytes e1+integerValue bytes e2)
  | .subtract => int32 (integerValue bytes e2-integerValue bytes e1)
  | .multiply => int32 (integerValue bytes e2*integerValue bytes e1)
  | .divide =>
    if integerValue bytes e1 = 0 then .error .undefined
    else int32 ((integerValue bytes e2).tdiv (integerValue bytes e1))
  | .greater => .ok (truth (integerValue bytes e2 > integerValue bytes e1))
  | .less => .ok (truth (integerValue bytes e2 < integerValue bytes e1))
  | .gequal => .ok (truth (integerValue bytes e2 ≥ integerValue bytes e1))
  | .lequal => .ok (truth (integerValue bytes e2 ≤ integerValue bytes e1))
  | .and => .ok (truth (integerValue bytes e2 = 1 ∧ integerValue bytes e1 = 1))
  | .or => .ok (truth (integerValue bytes e2 = 1 ∨ integerValue bytes e1 = 1))

def operate (type : Operator) (m : Machine) : Except Fault Machine := do
  let (e1, m) ← pop m
  let temp1 ← operandString ps attrVals e1
  let (e2, m) ← pop m
  let temp2 ← operandString ps attrVals e2
  let r ← result bytes type temp1 temp2 e1 e2 m.e3
  push (.integer r) { m with e3 := r }

def element (e : RpnElement) (m : Machine) : Except Fault Machine :=
  match e with
  | .operator type => operate bytes ps attrVals type m
  | e => push e m

def elements : List RpnElement → Machine → Except Fault Machine
  | [], m => .ok m
  | e::es, m => element bytes ps attrVals e m >>= elements es

def conditions : List (Param × ℤ) → ℤ → ℤ → Except Fault ℤ
  | [], _, ret => .ok ret
  | (p, v)::rest, e3, ret =>
    if ret = 0 then .ok ret
    else if p.rpnElements = [] then conditions rest e3 ret
    else
      match elements bytes ps attrVals p.rpnElements ⟨[], e3⟩ with
      | .error f => .error f
      | .ok m =>
        match m.stack with
        | [e] =>
          if integerValue bytes e = 0 ∧ v = p.first then conditions rest m.e3 1
          else conditions rest m.e3 (integerValue bytes e)
        | _ => .error (.exit "RPN Condition is not Valid")

def checkRpn (e3 : ℤ) : Except Fault ℤ := conditions bytes ps attrVals (ps.zip attrVals) e3 1

end Check

theorem conditions_unconditioned (bytes : Text → ℤ) (ps : List Param) (attrVals : List ℤ)
    {qs : List (Param × ℤ)} (h : ∀ q ∈ qs, q.1.rpnElements = []) (e3 : ℤ) :
    conditions bytes ps attrVals qs e3 1 = .ok 1 := by
  induction qs with
  | nil => rfl
  | cons q qs ih =>
    rw [conditions, if_neg (by decide), if_pos (h q (by simp))]
    exact ih fun r hr => h r (by simp [hr])

theorem check_rpn_unconditioned (bytes : Text → ℤ) {ps : List Param}
    (h : ∀ p ∈ ps, p.rpnElements = []) (attrVals : List ℤ) (e3 : ℤ) :
    checkRpn bytes ps attrVals e3 = .ok 1 :=
  conditions_unconditioned bytes ps attrVals (fun q hq => h q.1 (List.of_mem_zip hq).1) e3

/-- Whatever the conditions are, a check of the first values that returns accepts. -/
theorem conditions_first (bytes : Text → ℤ) (ps : List Param) (attrVals : List ℤ)
    (qs : List Param) (e3 ret : ℤ) (hret : ret ≠ 0) {r : ℤ}
    (h : conditions bytes ps attrVals (qs.map (fun q => (q, q.first))) e3 ret = .ok r) :
    r ≠ 0 := by
  induction qs generalizing e3 ret with
  | nil => cases h; exact hret
  | cons q qs ih =>
    simp only [List.map_cons, conditions, if_neg hret] at h
    split at h
    · exact ih e3 ret hret h
    · split at h
      · cases h
      · split at h
        · split at h
          · exact ih _ 1 (by decide) h
          · rename_i hz
            exact ih _ _ (fun h0 => hz ⟨h0, trivial⟩) h
        · cases h

theorem check_rpn_first (bytes : Text → ℤ) (ps : List Param) (e3 : ℤ) {r : ℤ}
    (h : checkRpn bytes ps (ps.map Param.first) e3 = .ok r) : r ≠ 0 := by
  unfold checkRpn at h
  have hz : ps.zip (ps.map Param.first) = ps.map (fun p => (p, p.first)) := by
    simpa using List.zip_map' (f := id) (g := Param.first) (l := ps)
  rw [hz] at h
  exact conditions_first bytes ps _ ps e3 1 (by decide) h

end Otpo.RpnStack
