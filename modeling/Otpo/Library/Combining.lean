import Mathlib.Data.List.Perm.Basic

/-!
# Combining values in any order

An associative and commutative operation combines the values of a list. Which
order they have and how they are grouped makes no difference.
-/

set_option autoImplicit false

namespace Combining

variable {A : Type} (op : A → A → A)

def combine : List A → Option A
  | [] => none
  | a::l => some (l.foldl op a)

variable {op} [Std.Associative op] {l l' : List A} {a b : A}

theorem combine_append (hl : combine op l = some a) (hl' : combine op l' = some b) :
    combine op (l++l') = some (op a b) := by
  cases l with
  | nil => cases hl
  | cons x l =>
    cases l' with
    | nil => cases hl'
    | cons y l' =>
      simp only [combine, Option.some.injEq] at hl hl'
      simp only [List.cons_append, combine, List.foldl_append, List.foldl_cons, hl]
      rw [List.foldl_assoc, hl']

theorem combine_perm [Std.Commutative op] (h : l.Perm l') : combine op l = combine op l' := by
  induction h with
  | nil => rfl
  | cons a h _ =>
    have hassoc (a b c : A) : op (op a b) c = op a (op b c) := Std.Associative.assoc a b c
    have hcomm (a b : A) : op a b = op b a := Std.Commutative.comm a b
    have : RightCommutative op :=
      ⟨fun a b c => by rw [hassoc, hcomm b c, ← hassoc]⟩
    simp only [combine, h.foldl_eq]
  | swap a b l =>
    have hcomm : op a b = op b a := Std.Commutative.comm a b
    simp only [combine, List.foldl_cons, hcomm]
  | trans _ _ h h' => rw [h, h']

end Combining
