import Mathlib.Data.List.Perm.Basic
import Mathlib.Tactic.Ring

/-!
# Sorting by exchange

Each place in turn is compared with the places behind it and takes over what is
greater there. Elements with one key may change their order.
-/

set_option autoImplicit false

namespace ExchangeSort

variable {A K : Type*} [LinearOrder K] (key : A → K)

def pass : A → List A → A × List A
  | x, [] => (x, [])
  | x, y::ys =>
    if key x < key y then ((pass y ys).1, x::(pass y ys).2)
    else ((pass x ys).1, y::(pass x ys).2)

def passes : ℕ → List A → List A
  | _, [] => []
  | 0, l => l
  | n+1, x::xs => (pass key x xs).1::passes n (pass key x xs).2

def sort (l : List A) : List A := passes key l.length l

variable {key}

theorem pass_perm (x : A) (l : List A) : ((pass key x l).1::(pass key x l).2).Perm (x::l) := by
  induction l generalizing x with
  | nil => exact List.Perm.refl _
  | cons y l ih =>
    rw [pass]
    split_ifs with h
    · exact (List.Perm.swap x _ _).trans ((ih y).cons x)
    · exact (List.Perm.swap y _ _).trans (((ih x).cons y).trans (List.Perm.swap x y l))

theorem pass_length (x : A) (l : List A) : (pass key x l).2.length = l.length :=
  Nat.succ_inj.mp (pass_perm x l).length_eq

theorem pass_first (x : A) (l : List A) : key x ≤ key (pass key x l).1 := by
  induction l generalizing x with
  | nil => exact le_rfl
  | cons y l ih =>
    rw [pass]
    split_ifs with h
    · exact h.le.trans (ih y)
    · exact ih x

/-- The place takes over the greatest element. -/
theorem pass_greatest (x : A) (l : List A) :
    ∀ y ∈ (pass key x l).2, key y ≤ key (pass key x l).1 := by
  induction l generalizing x with
  | nil => exact List.forall_mem_nil _
  | cons y l ih =>
    intro z hz
    rw [pass] at hz ⊢
    split_ifs at hz ⊢ with h
    · rcases List.mem_cons.mp hz with rfl | hz
      · exact h.le.trans (pass_first y l)
      · exact ih y z hz
    · rcases List.mem_cons.mp hz with rfl | hz
      · exact (not_lt.mp h).trans (pass_first x l)
      · exact ih x z hz

theorem passes_perm (n : ℕ) (l : List A) : (passes key n l).Perm l := by
  induction n generalizing l with
  | zero => cases l <;> exact List.Perm.refl _
  | succ n ih =>
    cases l with
    | nil => exact List.Perm.refl _
    | cons x xs => exact ((ih (pass key x xs).2).cons _).trans (pass_perm x xs)

theorem passes_sorted {n : ℕ} {l : List A} (h : l.length ≤ n) :
    (passes key n l).Pairwise fun a b => key b ≤ key a := by
  induction n generalizing l with
  | zero =>
    rw [List.length_eq_zero_iff.mp (Nat.le_zero.mp h)]
    exact List.Pairwise.nil
  | succ n ih =>
    cases l with
    | nil => exact List.Pairwise.nil
    | cons x xs =>
      have hlength : (pass key x xs).2.length ≤ n := by
        rw [pass_length]
        exact Nat.le_of_succ_le_succ h
      refine List.Pairwise.cons (fun y hy => ?_) (ih hlength)
      exact pass_greatest x xs y ((passes_perm n _).mem_iff.mp hy)

theorem sort_perm (l : List A) : (sort key l).Perm l := passes_perm l.length l

theorem sort_sorted (l : List A) : (sort key l).Pairwise fun a b => key b ≤ key a :=
  passes_sorted (Nat.le_refl _)

/-- What is left in front of the first element without a property, where no
element with the property is behind one without it. -/
theorem take_while_filter {l : List A} {p : A → Bool}
    (h : l.Pairwise fun a b => p b = true → p a = true) : l.takeWhile p = l.filter p := by
  induction l with
  | nil => rfl
  | cons a l ih =>
    obtain ⟨ha, hl⟩ := List.pairwise_cons.mp h
    by_cases hp : p a = true
    · rw [List.takeWhile_cons_of_pos hp, List.filter_cons_of_pos hp, ih hl]
    · have hnone : l.filter p = [] :=
        List.filter_eq_nil_iff.mpr fun b hb hpb => hp (ha b hb hpb)
      rw [List.takeWhile_cons_of_neg hp, List.filter_cons_of_neg hp, hnone]

end ExchangeSort
