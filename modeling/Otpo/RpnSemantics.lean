import Otpo.RpnStack
import Otpo.Library.Postfix

/-!
# What a condition says

The standard meaning of a condition, in which a parameter stands for its value
in the combination, and what of it the check can read. The check can read the
integer of an integer and the text of a string or of a listed parameter.
-/

set_option autoImplicit false

namespace Otpo.RpnSemantics
open Otpo.ParamList Otpo.RpnStack

inductive Operand
  | number (n : ℤ)
  | text (s : Text)
  | parameter (p : Param) (v : ℤ)

def numeral (v : ℤ) : Text := (toString v).toList

def valueText (p : Param) (v : ℤ) : Text :=
  ((p.possibleValues.findIdx? (· == v)).bind (p.stringValues[·]?)).getD (numeral v)

namespace Operand

def number? : Operand → Option ℤ
  | number n => some n
  | parameter _ v => some v
  | text _ => none

def toText : Operand → Text
  | number n => numeral n
  | text s => s
  | parameter p v => valueText p v

def same : Operand → Operand → Option Bool
  | number n, number m => some (n = m)
  | number n, parameter _ v => some (n = v)
  | parameter _ v, number n => some (v = n)
  | parameter p v, parameter q w =>
    if p.stringValues ≠ [] ∧ q.stringValues ≠ [] then some (valueText p v = valueText q w)
    else some (v = w)
  | number _, text _ => none
  | text _, number _ => none
  | a, b => some (a.toText = b.toText)

def isOne : Operand → Bool
  | number n => n = 1
  | text _ => false
  | parameter _ v => v = 1

end Operand

def fits (x : ℤ) : Option ℤ := if -2147483648 ≤ x ∧ x ≤ 2147483647 then some x else none

def arithmetic : Operator → ℤ → ℤ → Option ℤ
  | .add, a, b => fits (a+b)
  | .subtract, a, b => fits (a-b)
  | .multiply, a, b => fits (a*b)
  | .divide, a, b => if b = 0 then none else fits (a.tdiv b)
  | .greater, a, b => some (if a > b then 1 else 0)
  | .less, a, b => some (if a < b then 1 else 0)
  | .gequal, a, b => some (if a ≥ b then 1 else 0)
  | .lequal, a, b => some (if a ≤ b then 1 else 0)
  | _, _, _ => none

def standard : Operator → Operand → Operand → Option Operand
  | .equal, a, b => (a.same b).map (fun s => .number (if s then 1 else 0))
  | .nequal, a, b => (a.same b).map (fun s => .number (if s then 0 else 1))
  | .and, a, b => some (.number (if a.isOne ∧ b.isOne then 1 else 0))
  | .or, a, b => some (.number (if a.isOne ∨ b.isOne then 1 else 0))
  | o, a, b =>
    match a.number?, b.number? with
    | some x, some y => (arithmetic o x y).map .number
    | _, _ => none

section Condition

variable (ps : List Param) (attrVals : List ℤ)

def token : RpnElement → Option (Postfix.Token Operator Operand)
  | .operator o => some (.operator o)
  | .integer n => some (.operand (.number n))
  | .string s => some (.operand (.text s))
  | .param i =>
    match ps[i]?, attrVals[i]? with
    | some p, some v => some (.operand (.parameter p v))
    | _, _ => none

def conditionValue (es : List RpnElement) : Option ℤ :=
  ((es.mapM (token ps attrVals)).bind (Postfix.value standard)).bind Operand.number?

def Accepts (p : Param) (v : ℤ) : Prop :=
  p.rpnElements = [] ∨ v = p.first ∨
    ∃ n, conditionValue ps attrVals p.rpnElements = some n ∧ n ≠ 0

end Condition

inductive Shown
  | number (n : ℤ)
  | text (s : Text)
  | null
  deriving DecidableEq, Repr

/-- What an operator makes of what it can read. The second operand of `&&` and
`||` does not matter where the first one decides. -/
def reading : Operator → Shown → Shown → Option Shown
  | _, .null, _ => none
  | _, _, .null => none
  | .equal, .number n, .number m => some (.number (if n = m then 1 else 0))
  | .equal, .text s, .text t => some (.number (if s = t then 1 else 0))
  | .equal, _, _ => none
  | .nequal, .number n, .number m => some (.number (if n = m then 0 else 1))
  | .nequal, .text s, .text t => some (.number (if s = t then 0 else 1))
  | .nequal, _, _ => none
  | .and, .number n, .number m => some (.number (if n = 1 ∧ m = 1 then 1 else 0))
  | .and, .number n, .text _ => if n = 1 then none else some (.number 0)
  | .or, .number n, .number m => some (.number (if n = 1 ∨ m = 1 then 1 else 0))
  | .or, .number n, .text _ => if n = 1 then some (.number 1) else none
  | o, .number n, .number m => (arithmetic o n m).map .number
  | _, _, _ => none

theorem reading_null {o : Operator} {a b c : Shown} (h : reading o a b = some c) :
    a ≠ .null ∧ b ≠ .null := by
  constructor
  · rintro rfl
    cases o <;> cases h
  · rintro rfl
    cases a <;> cases o <;> cases h

section Reading

variable (ps : List Param) (attrVals : List ℤ)

def shown : RpnElement → Shown
  | .integer n => .number n
  | .string s => .text s
  | .param i =>
    match ps[i]?, attrVals[i]? with
    | some p, some v => if p.stringValues = [] then .null else .text (valueText p v)
    | _, _ => .null
  | .operator _ => .null

def readToken : RpnElement → Postfix.Token Operator Shown
  | .operator o => .operator o
  | e => .operand (shown ps attrVals e)

def readValue (es : List RpnElement) : Option ℤ :=
  match Postfix.run reading (es.map (readToken ps attrVals)) [] with
  | some [.number n] => some n
  | _ => none

end Reading

end Otpo.RpnSemantics
