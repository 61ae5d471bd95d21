import Mathlib.Data.List.Basic

/-!
# Postfix evaluation

A postfix program is a list of operands and binary operators. The meaning of
an operator is a partial function of the second popped and the first popped
operand. Two meanings of one program over different kinds of operand are
compared through a relation between the operands.
-/

set_option autoImplicit false

namespace Postfix

inductive Token (O V : Type*)
  | operand (value : V)
  | operator (type : O)

variable {O V W : Type*}

def step (apply : O → V → V → Option V) : Token O V → List V → Option (List V)
  | .operand v, s => some (v::s)
  | .operator o, b::a::s => (apply o a b).map (· :: s)
  | .operator _, _ => none

def run (apply : O → V → V → Option V) : List (Token O V) → List V → Option (List V)
  | [], s => some s
  | t::ts, s => (step apply t s).bind (run apply ts)

def value (apply : O → V → V → Option V) (ts : List (Token O V)) : Option V :=
  match run apply ts [] with
  | some [v] => some v
  | _ => none

def depthStep : Token O V → ℕ → Option ℕ
  | .operand _, n => some (n+1)
  | .operator _, n+2 => some (n+1)
  | .operator _, _ => none

def depth : List (Token O V) → ℕ → Option ℕ
  | [], n => some n
  | t::ts, n => (depthStep t n).bind (depth ts)

def Balanced (ts : List (Token O V)) : Prop := depth ts 0 = some 1

instance (ts : List (Token O V)) : Decidable (Balanced ts) :=
  inferInstanceAs (Decidable (depth ts 0 = some 1))

theorem depth_cons {t : Token O V} {n m : ℕ} (h : depthStep t n = some m)
    (ts : List (Token O V)) : depth (t::ts) n = depth ts m := by
  rw [depth, h, Option.bind_some]

theorem depth_stopped {t : Token O V} {n : ℕ} (h : depthStep t n = none)
    (ts : List (Token O V)) : depth (t::ts) n = none := by
  rw [depth, h, Option.bind_none]

theorem depth_step_le {t : Token O V} {n m : ℕ} (h : depthStep t n = some m) : m ≤ n+1 := by
  match t, n, h with
  | .operand _, n, h =>
    cases h
    exact Nat.le_refl _
  | .operator _, n+2, h =>
    cases h
    omega

variable {apply : O → V → V → Option V}

theorem step_operator {o : O} {s r : List V} (h : step apply (.operator o) s = some r) :
    ∃ a b c rest, s = b::a::rest ∧ apply o a b = some c ∧ r = c::rest := by
  match s, h with
  | b::a::rest, h =>
    obtain ⟨c, hc, rfl⟩ := Option.map_eq_some_iff.mp h
    exact ⟨a, b, c, rest, rfl, hc, rfl⟩

theorem run_cons {t : Token O V} {ts : List (Token O V)} {s r : List V}
    (h : run apply (t::ts) s = some r) :
    ∃ m, step apply t s = some m ∧ run apply ts m = some r :=
  Option.bind_eq_some_iff.mp h

end Postfix
