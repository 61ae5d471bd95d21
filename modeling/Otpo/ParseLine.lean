import Otpo.ResultFile

/-!
# The parameter file

One line gives a parameter its name and its options. The scanner keeps one
cursor and changes the set of delimiters in front of lists, formats and
conditions; a list is taken apart only at the end of its line.
-/

set_option autoImplicit false

namespace Otpo.ParseLine
open Otpo.ParamList Otpo.ResultFile

def conditionLength : ℕ := 500

inductive Traverse
  | increment
  deriving DecidableEq, Repr

/-- `otpo_param_list_t` as `parse` leaves it; what it has not set is absent.
The strings are the non-null prefix of `string_values`, `num_values` in number. -/
structure ListParam where
  name : Text
  isVirtual : Bool
  isAggregate : Bool
  stringValues : List Text
  defaultValue : Option Text
  possibleValues : Option (List ℤ)
  startValue : Option ℤ
  endValue : Option ℤ
  traverse : Option Traverse
  operation : Option Operator
  increment : Option ℤ
  condition : Text
  deriving DecidableEq, Repr

def newParam (name : Text) : ListParam where
  name := name
  isVirtual := false
  isAggregate := false
  stringValues := []
  defaultValue := none
  possibleValues := none
  startValue := none
  endValue := none
  traverse := none
  operation := none
  increment := none
  condition := []

def isBlank (c : Char) : Bool := c == ' ' || c == '\t'
def isBrace (c : Char) : Bool := c == '{' || c == '}'
def isQuote (c : Char) : Bool := c == '\"'

def nextToken (d : Char → Bool) (rest : Text) : Except Fault (Text × Text) :=
  match Tokenizer.next d rest with
  | none => .error .undefined
  | some q => .ok q

def readInteger (message : String) (token : Text) : Except Fault ℤ :=
  if token.head? ≠ some '0' ∧ atoi token = 0 then .error (.exit message) else .ok (atoi token)

def operationOf (c : Char) : Option Operator :=
  if c = '+' then some .add
  else if c = '*' then some .multiply
  else if c = '-' then some .subtract
  else if c = '/' then some .divide
  else none

structure Scan where
  param : ListParam
  valuesString : Option Text
  deriving DecidableEq, Repr

section Options

variable (rest : Text) (s : Scan)

def parseDefault : Except Fault (Text × Scan) := do
  let (token, rest) ← nextToken isConditionDelimiter rest
  .ok (rest, { s with param := { s.param with defaultValue := some token } })

def parseValues : Except Fault (Text × Scan) := do
  let (token, rest) ← nextToken isBrace rest
  .ok (rest, { s with valuesString := some token })

def parseAggregate : Except Fault (Text × Scan) := do
  let (token, rest) ← nextToken isQuote rest
  .ok (rest, { s with param :=
    { s.param with isAggregate := true, stringValues := [token], possibleValues := some [0] } })

def parseRange : Except Fault (Text × Scan) := do
  let (token, rest) ← nextToken isBlank rest
  let startValue ← readInteger "Invalid Start Value" token
  let (token, rest) ← nextToken isBlank rest
  let endValue ← readInteger "Invalid End Value" token
  .ok (rest, { s with param :=
    { s.param with startValue := some startValue, endValue := some endValue } })

def parseTraversal : Except Fault (Text × Scan) := do
  let (token, rest) ← nextToken isConditionDelimiter rest
  if token = "increment".toList then
    let (token, rest) ← nextToken isBlank rest
    match token.head?.bind operationOf with
    | none => .error (.exit "Invalid operation")
    | some operation =>
      let (token, rest) ← nextToken isBlank rest
      let increment ← readInteger "Invalid End Value" token
      .ok (rest, { s with param := { s.param with
        traverse := some .increment, operation := some operation, increment := some increment } })
  else .error (.exit "Invalid traversal method")

/-- A condition in quotes is put together from its first token and the rest up
to the closing quote. It has to leave room for the terminating null; one that
is longer than the buffer is reported and not evaluated. -/
def parseCondition : Except Fault (Text × Scan) := do
  let (token, rest) ← nextToken isConditionDelimiter rest
  if startsWith '\"' token then
    let condName := token.tail
    let (token, rest) ← nextToken isQuote rest
    if conditionLength < token.length+condName.length+1 then .ok (rest, s)
    else if conditionLength = token.length+condName.length+1 then .error .undefined
    else .ok (rest, { s with param := { s.param with condition := condName ++ ' '::token } })
  else if conditionLength ≤ token.length then .error .undefined
  else .ok (rest, { s with param := { s.param with condition := token } })

def parseOption (token : Text) : Except Fault (Text × Scan) :=
  if token = "-v".toList then .ok (rest, { s with param := { s.param with isVirtual := true } })
  else if token = "-d".toList then parseDefault rest s
  else if token = "-p".toList then parseValues rest s
  else if token = "-a".toList then parseAggregate rest s
  else if token = "-r".toList then parseRange rest s
  else if token = "-t".toList then parseTraversal rest s
  else if token = "-i".toList then parseCondition rest s
  else .error (.exit "Invalid Option")

end Options

def setValues (p : ListParam) (values : Text) : Except Fault ListParam :=
  let ss := p.stringValues ++ strtok isListDelimiter values
  if maxValues < ss.length then
    .error (.exit "You have reached the limit of possible string values (100)")
  else .ok { p with stringValues := ss, possibleValues := some (codes ss) }

def finishLine (s : Scan) : Except Fault ListParam :=
  match s.valuesString with
  | none => .ok s.param
  | some values => setValues s.param values

/-- The loop over the options. Each round takes a token, so the length of the
line bounds their number. -/
def parseLoop : ℕ → Text → Scan → Except Fault ListParam
  | 0, _, _ => .error .undefined
  | fuel+1, rest, s =>
    match Tokenizer.next isConditionDelimiter rest with
    | none => finishLine s
    | some (token, rest) =>
      match parseOption rest s token with
      | .error f => .error f
      | .ok (rest, s) => parseLoop fuel rest s

def lineName (line : Text) : Except Fault (Option (Text × Text)) :=
  match Tokenizer.next isBlank line with
  | none => .error .undefined
  | some (name, rest) => if startsWith '#' name then .ok none else .ok (some (name, rest))

def parseOptions (name rest : Text) : Except Fault ListParam :=
  parseLoop (rest.length+1) rest ⟨newParam name, none⟩

def parse (numParameters : ℕ) : List Text → List ListParam → Except Fault (List ListParam)
  | [], ps => .ok ps
  | l::ls, ps =>
    if startsWith '\n' l then parse numParameters ls ps
    else
      match lineName l with
      | .error f => .error f
      | .ok none => parse numParameters ls ps
      | .ok (some (name, rest)) =>
        if numParameters ≤ ps.length then .error .undefined
        else
          match parseOptions name rest with
          | .error f => .error f
          | .ok p => parse numParameters ls (ps ++ [p])

def countParameters : List Text → ℕ → Except Fault ℕ
  | [], count => .ok count
  | l::ls, count =>
    if startsWith '\n' l then countParameters ls count
    else
      match Tokenizer.next (· == ' ') l with
      | none => .error .undefined
      | some (token, _) =>
        if startsWith '#' token then countParameters ls count else countParameters ls (count+1)

def setAllElements (ps : List ListParam) : Except Fault (List (List RpnElement)) :=
  ps.mapM fun p => setRpnStackElements (ps.map ListParam.name) p.condition

end Otpo.ParseLine
