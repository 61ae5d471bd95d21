import Otpo.ResultFile

/-!
# The environment of the test

The child exports the current value of each parameter. The buffer of the value
is uninitialized at first and is never cleared; a format is taken apart in
place, so that later parameters find it cut behind its first word.
-/

set_option autoImplicit false

namespace Otpo.Environment
open Otpo.ParamList Otpo.ResultFile

inductive Kind
  | ordinary
  | isVirtual
  | aggregate
  deriving DecidableEq, Repr

structure Attribute where
  name : Text
  isVirtual : Bool
  isAggregate : Bool
  values : List ℤ
  valuesNames : List Text
  attrval : ℤ
  named : valuesNames.length = values.length
  current : attrval ∈ values

namespace Attribute

theorem index_lt (c : Attribute) : c.values.idxOf c.attrval < c.valuesNames.length := by
  rw [c.named]
  exact List.idxOf_lt_length_of_mem c.current

def valueName (c : Attribute) : Text := c.valuesNames.get ⟨c.values.idxOf c.attrval, c.index_lt⟩

def kind (c : Attribute) : Kind :=
  if c.isVirtual then .isVirtual else if c.isAggregate then .aggregate else .ordinary

end Attribute

section Child

def lookupKind (cs : List Attribute) (name : Text) : Kind :=
  match cs.find? fun c => c.name == name && (c.isVirtual || c.isAggregate) with
  | none => .ordinary
  | some c => c.kind

def env (name : Text) : Text := "OMPI_MCA_".toList ++ name

def isDollar (c : Char) : Bool := c == '$'

def cut (s : Text) : Text :=
  s.takeWhile isDollar ++ (s.dropWhile isDollar).takeWhile (!isDollar ·)

def strcat (envValue : Option Text) (s : Text) : Except Fault (Option Text) :=
  match envValue with
  | none => .error .undefined
  | some v => if lineSize ≤ v.length+s.length then .error .undefined else .ok (some (v ++ s))

def strcpy (s : Text) : Except Fault (Option Text) :=
  if lineSize ≤ s.length then .error .undefined else .ok (some s)

def unresolved (name : Text) : Fault := .exit ("Can't resolve " ++ String.ofList name ++ " value")

def valueOf (cs : List Attribute) (valuesNames : List Text) (name : Text) : Option Text :=
  ((cs.zip valuesNames).find? (·.1.name == name)).map Prod.snd

def expandLoop (fault : Fault) (lookup : Text → Option Text) :
    Bool → List Text → Option Text → Except Fault (Option Text)
  | _, [], e => .ok e
  | true, t::ts, e =>
    match lookup t with
    | none => .error fault
    | some v =>
      match strcat e v with
      | .error f => .error f
      | .ok e => expandLoop fault lookup false ts e
  | false, t::ts, e =>
    match strcat e t with
    | .error f => .error f
    | .ok e => expandLoop fault lookup true ts e

def expand (fault : Fault) (lookup : Text → Option Text) (s : Text) (e : Option Text) :
    Except Fault (Option Text) :=
  if startsWith '$' s then expandLoop fault lookup true (strtok isDollar s) e
  else
    match strtok isDollar s with
    | [] => .error .undefined
    | t::ts => expandLoop fault lookup false (t::ts) e

structure Child where
  envValue : Option Text
  valuesNames : List Text
  exported : List (Text × Text)

def setenv (name : Text) (s : Child) : Except Fault Child :=
  if '=' ∈ name then .error (.exit "SETENV Failed")
  else
    match s.envValue with
    | none => .error .undefined
    | some v => .ok { s with exported := s.exported ++ [(name, v)] }

def exportOne (cs : List Attribute) (c : Attribute) (i : ℕ) (s : Child) : Except Fault Child :=
  if lineSize ≤ (env c.name).length then .error .undefined
  else
    let value := (s.valuesNames[i]?).getD []
    match lookupKind cs c.name with
    | .isVirtual => .ok s
    | .aggregate =>
      let valuesNames := s.valuesNames.set i (cut value)
      match expand (unresolved c.name) (valueOf cs valuesNames) value s.envValue with
      | .error f => .error f
      | .ok e => setenv (env c.name) { s with envValue := e, valuesNames }
    | .ordinary =>
      match strcpy value with
      | .error f => .error f
      | .ok e => setenv (env c.name) { s with envValue := e }

def exportAll (cs : List Attribute) :
    List (Attribute × ℕ) → Child → List (Text × Text) × Option Fault
  | [], s => (s.exported, none)
  | (c, i)::rest, s =>
    match exportOne cs c i s with
    | .error f => (s.exported, some f)
    | .ok s => exportAll cs rest s

def testFunc (cs : List Attribute) : List (Text × Text) × Option Fault :=
  exportAll cs cs.zipIdx ⟨none, cs.map Attribute.valueName, []⟩

end Child

section Meaning

/-- A format, split at its dollar signs, with the values in place of the names. A
dollar sign without a second one stands for itself. -/
def expansion (lookup : Text → Option Text) : List Text → Option Text
  | [] => some []
  | [p] => some p
  | [p, q] => some (p ++ '$'::q)
  | p::name::q::rest =>
    match lookup name, expansion lookup (q::rest) with
    | some v, some s => some (p ++ (v ++ s))
    | _, _ => none

def placeholders : List Text → List Text
  | _::name::q::rest => name::placeholders (q::rest)
  | _ => []

def currentValue (cs : List Attribute) (name : Text) : Option Text :=
  (cs.find? (·.name == name)).map Attribute.valueName

def expected (cs : List Attribute) : List Attribute → List (Text × Text) × Option Fault
  | [] => ([], none)
  | c::rest =>
    let (exported, stop) := expected cs rest
    match c.kind with
    | .isVirtual => (exported, stop)
    | .aggregate =>
      match expansion (currentValue cs) (c.valueName.splitOn '$') with
      | none => ([], some (unresolved c.name))
      | some v => ((env c.name, v)::exported, stop)
    | .ordinary => ((env c.name, c.valueName)::exported, stop)

def ExportsCombination (cs : List Attribute) : Prop :=
  ∀ qs, qs.Perm cs → testFunc qs = expected qs qs ∧ ((testFunc qs).1.map Prod.fst).Nodup

theorem expansion_none {lookup : Text → Option Text} :
    ∀ ps, expansion lookup ps = none ↔ ∃ n ∈ placeholders ps, lookup n = none
  | [] => by simp [expansion, placeholders]
  | [p] => by simp [expansion, placeholders]
  | [p, q] => by simp [expansion, placeholders]
  | p::name::q::rest => by
    rw [expansion, placeholders, List.exists_mem_cons_iff, ← expansion_none (q::rest)]
    cases lookup name <;> cases expansion lookup (q::rest) <;> simp

theorem current_value_none {cs : List Attribute} {n : Text} :
    currentValue cs n = none ↔ n ∉ cs.map Attribute.name := by
  rw [currentValue, Option.map_eq_none_iff, List.find?_eq_none]
  simp [List.mem_map]

end Meaning

end Otpo.Environment
