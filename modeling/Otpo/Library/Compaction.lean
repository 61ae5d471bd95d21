import Mathlib.Data.List.Basic

/-!
# Compaction of an array in place

A cursor goes over the array and what is kept moves to a second cursor behind
it. Behind the second cursor old elements stay where they are.
-/

set_option autoImplicit false

namespace Compaction

variable {A : Type*} (keep : A → Bool)

def compact : ℕ → ℕ → ℕ → List A → ℕ × List A
  | 0, _, count, a => (count, a)
  | left+1, i, count, a =>
    match a[i]? with
    | none => (count, a)
    | some x =>
      if keep x then compact left (i+1) (count+1) (a.set count x)
      else compact left (i+1) count a

variable {keep} {left i count : ℕ} {a : List A} {x : A}

theorem take_set_succ (h : count < a.length) : (a.set count x).take (count+1) =
    a.take count ++ [x] := by
  rw [List.take_add_one, List.getElem?_set_self h, List.take_set_of_le (Nat.le_refl _)]
  rfl

theorem drop_take_succ (h : i < a.length) :
    (a.drop i).take (left+1) = a[i]::(a.drop (i+1)).take left := by
  rw [List.drop_eq_getElem_cons h, List.take_succ_cons]

/-- What is kept stands in front, in its order. -/
theorem compact_spec (hcount : count ≤ i) (hleft : i+left ≤ a.length) :
    (compact keep left i count a).1 = count+(((a.drop i).take left).filter keep).length ∧
      (compact keep left i count a).2.take (compact keep left i count a).1 =
        a.take count ++ ((a.drop i).take left).filter keep := by
  induction left generalizing i count a with
  | zero => simp [compact]
  | succ left ih =>
    have hi : i < a.length := by omega
    rw [compact, List.getElem?_eq_getElem hi, drop_take_succ hi]
    by_cases hkeep : keep a[i] = true
    · have hlength : i+1+left ≤ (a.set count a[i]).length := by
        rw [List.length_set]
        omega
      have hset := ih (show count+1 ≤ i+1 from Nat.succ_le_succ hcount) hlength
      rw [List.drop_set_of_lt (by omega), take_set_succ (by omega)] at hset
      simp only [hkeep, if_true, List.filter_cons_of_pos, List.length_cons]
      refine ⟨hset.1.trans (by omega), hset.2.trans ?_⟩
      rw [List.append_assoc, List.singleton_append]
    · have hlength : i+1+left ≤ a.length := by omega
      have hskip := ih (show count ≤ i+1 from Nat.le_succ_of_le hcount) hlength
      simp only [hkeep, Bool.false_eq_true, if_false, not_false_eq_true, List.filter_cons_of_neg]
      exact hskip

/-- The whole array of `n` elements. -/
theorem compact_all (keep : A → Bool) {n : ℕ} (hn : n ≤ a.length) :
    (compact keep n 0 0 a).1 = ((a.take n).filter keep).length ∧
      (compact keep n 0 0 a).2.take (compact keep n 0 0 a).1 = (a.take n).filter keep := by
  have hlength : 0+n ≤ a.length := by omega
  have hspec := @compact_spec A keep n 0 0 a (Nat.le_refl 0) hlength
  rw [List.drop_zero, Nat.zero_add, List.take_zero, List.nil_append] at hspec
  exact hspec

end Compaction
