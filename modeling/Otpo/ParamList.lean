import Mathlib.Data.List.Basic
import Mathlib.Data.Int.Basic
import Mathlib.Algebra.Order.Ring.Int

/-!
# Parameters and their values

The record of one parameter, as the parser leaves it, the integer codes it
gives to listed values, and the elements it makes of a condition. A range has
codes without value strings; an aggregate has its text and the code 0. A
parameter always has a value: a list that yields none is read as a range from
uninitialised bounds, which the model rejects.
-/

set_option autoImplicit false

namespace Otpo.ParamList

/-- The ways a process stops other than by returning. Reading past an array,
a null string, signed overflow and division by zero are all `undefined`. -/
inductive Fault
  | exit (message : String)
  | undefined
  deriving DecidableEq, Repr

abbrev Text := List Char

def maxValues : ℕ := 100
def rpnMaxElements : ℕ := 100

inductive Operator
  | add | subtract | multiply | divide
  | equal | nequal | greater | less | gequal | lequal
  | and | or
  deriving DecidableEq, Repr

inductive RpnElement
  | operator (type : Operator)
  | param (index : ℕ)
  | integer (value : ℤ)
  | string (value : Text)
  deriving DecidableEq, Repr

/-- `otpo_param_list_t`. The value strings are the non-null prefix of
`string_values`; a range has none. -/
structure Param where
  name : Text
  stringValues : List Text
  possibleValues : List ℤ
  rpnElements : List RpnElement
  nonempty : possibleValues ≠ []
  strings : stringValues = [] ∨ stringValues.length = possibleValues.length
  bounded : rpnElements.length ≤ rpnMaxElements
  deriving DecidableEq

namespace Param

def numValues (p : Param) : ℕ := p.possibleValues.length

def first (p : Param) : ℤ := p.possibleValues.head p.nonempty

def last (p : Param) : ℤ := p.possibleValues.getLast p.nonempty

theorem numValues_pos (p : Param) : 0 < p.numValues :=
  List.length_pos_iff.mpr p.nonempty

theorem first_mem (p : Param) : p.first ∈ p.possibleValues := List.head_mem p.nonempty

theorem last_mem (p : Param) : p.last ∈ p.possibleValues := List.getLast_mem p.nonempty

end Param

def int32 (x : ℤ) : Except Fault ℤ :=
  if -2147483648 ≤ x ∧ x ≤ 2147483647 then .ok x else .error .undefined

def isSpace (c : Char) : Bool := c == ' ' || 9 ≤ c.toNat && c.toNat ≤ 13

def digits : Text → ℕ → ℕ
  | c::cs, n => if c.isDigit then digits cs (10*n+(c.toNat - '0'.toNat)) else n
  | [], n => n

def decimal (s : Text) : ℤ :=
  match s.dropWhile isSpace with
  | '-'::cs => -(digits cs 0:ℤ)
  | '+'::cs => digits cs 0
  | cs => digits cs 0

def atoi (s : Text) : ℤ := (max (-2^63) (min (decimal s) (2^63-1))).bmod (2^32)

theorem atoi_of_int {s : Text} (h : -2147483648 ≤ decimal s ∧ decimal s ≤ 2147483647) :
    atoi s = decimal s := by
  have hheld : max (-2^63) (min (decimal s) (2^63-1)) = decimal s := by omega
  rw [atoi, hheld]
  exact Int.bmod_eq_of_le (by omega) (by omega)

def strtok (delim : Char → Bool) (s : Text) : List Text :=
  (s.splitOnP delim).filter (· ≠ [])

def isNumber (s : Text) : Bool := s.head? == some '0' || atoi s != 0

def codes (ss : List Text) : List ℤ :=
  if ss.all isNumber then ss.map atoi else (List.range ss.length).map (fun j => (j:ℤ))

@[simp] theorem codes_length (ss : List Text) : (codes ss).length = ss.length := by
  unfold codes
  split <;> simp

namespace Param

def listed (name s : Text) (ss : List Text) : Param where
  name
  stringValues := s::ss
  possibleValues := codes (s::ss)
  rpnElements := []
  nonempty := by
    rw [ne_eq, ← List.length_eq_zero_iff, codes_length, List.length_eq_zero_iff]
    exact List.cons_ne_nil s ss
  strings := Or.inr (codes_length _).symm
  bounded := Nat.zero_le _

def range (name : Text) (v : ℤ) (vs : List ℤ) : Param where
  name
  stringValues := []
  possibleValues := v::vs
  rpnElements := []
  nonempty := List.cons_ne_nil v vs
  strings := Or.inl rfl
  bounded := Nat.zero_le _

def withElements (p : Param) (es : List RpnElement) (h : es.length ≤ rpnMaxElements) : Param :=
  { p with rpnElements := es, bounded := h }

end Param

def isListDelimiter (c : Char) : Bool := c == ' ' || c == ',' || c == '\t' || c == '\n'

def setStringValues (name values : Text) : Except Fault Param :=
  let ss := strtok isListDelimiter values
  if maxValues < ss.length then
    .error (.exit "You have reached the limit of possible string values (100)")
  else
    match ss with
    | [] => .error .undefined
    | s::ss => .ok (Param.listed name s ss)

def Listed (p : Param) : Prop := p.stringValues ≠ [] ∧ p.possibleValues = codes p.stringValues

theorem set_string_values_listed {name values : Text} {p : Param}
    (h : setStringValues name values = .ok p) : Listed p := by
  simp only [setStringValues] at h
  split at h
  · cases h
  · split at h
    · cases h
    · cases h
      exact ⟨List.cons_ne_nil _ _, rfl⟩

def operators : List (Text × Operator) :=
  [("+".toList, .add), ("-".toList, .subtract), ("*".toList, .multiply), ("/".toList, .divide),
    ("=".toList, .equal), ("!=".toList, .nequal), (">".toList, .greater), ("<".toList, .less),
    (">=".toList, .gequal), ("<=".toList, .lequal), ("&&".toList, .and), ("||".toList, .or)]

def rpnElement (names : List Text) (token : Text) : RpnElement :=
  match operators.lookup token with
  | some o => .operator o
  | none =>
    if atoi token ≠ 0 ∨ token = "0".toList then .integer (atoi token)
    else
      match names.findIdx? (· == token) with
      | some j => .param j
      | none => .string token

def isConditionDelimiter (c : Char) : Bool := c == ' ' || c == '\t' || c == '\n'

/-- `set_rpn_stack_elements` on one condition. The element past the limit is
written behind the array before the limit is tested. -/
def setRpnStackElements (names : List Text) (condition : Text) :
    Except Fault (List RpnElement) :=
  let tokens := strtok isConditionDelimiter condition
  if rpnMaxElements < tokens.length then .error .undefined
  else .ok (tokens.map (rpnElement names))

theorem set_rpn_stack_elements_bounded {names : List Text} {condition : Text}
    {es : List RpnElement} (h : setRpnStackElements names condition = .ok es) :
    es.length ≤ rpnMaxElements := by
  simp only [setRpnStackElements] at h
  split_ifs at h with hlen
  cases h
  rw [List.length_map]
  omega

def withCondition (names : List Text) (condition : Text) (p : Param) : Except Fault Param :=
  match h : setRpnStackElements names condition with
  | .error f => .error f
  | .ok es => .ok (p.withElements es (set_rpn_stack_elements_bounded h))

end Otpo.ParamList
