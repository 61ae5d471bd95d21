import Mathlib.Algebra.BigOperators.Group.Finset.Sigma
import Mathlib.Algebra.BigOperators.Ring.Finset
import Mathlib.Tactic.Ring

/-!
# Characters of sign vectors

The character of a set of coordinates is the product of the signs there. The
characters of all subsets are orthogonal, over the sets as over the vectors,
so that what they weigh can be recovered.
-/

set_option autoImplicit false

namespace SignCharacters

variable {ι : Type*} {s S T : Finset ι} {x y : ι → ℤ}

def character (S : Finset ι) (x : ι → ℤ) : ℤ := ∏ m ∈ S, x m

def Signs (s : Finset ι) (x : ι → ℤ) : Prop := ∀ m ∈ s, x m = 1 ∨ x m = -1

theorem character_mul (S : Finset ι) (x y : ι → ℤ) :
    character S x * character S y = character S fun m => x m*y m :=
  Finset.prod_mul_distrib.symm

theorem sum_characters (s : Finset ι) (x y : ι → ℤ) :
    ∑ S ∈ s.powerset, character S x * character S y = ∏ m ∈ s, (1+x m*y m) := by
  rw [Finset.prod_one_add]
  apply Finset.sum_congr rfl
  intro S _
  exact character_mul S x y

/-- Two sign vectors are orthogonal over the subsets, unless they are the same. -/
theorem sum_characters_eq (hx : Signs s x) (hy : Signs s y) [Decidable (∀ m ∈ s, x m = y m)] :
    ∑ S ∈ s.powerset, character S x * character S y =
      if ∀ m ∈ s, x m = y m then 2^s.card else 0 := by
  rw [sum_characters]
  split_ifs with h
  · rw [← Finset.prod_const]
    apply Finset.prod_congr rfl
    intro m hm
    rw [← h m hm]
    rcases hx m hm with h | h <;> rw [h] <;> rfl
  · push Not at h
    obtain ⟨m, hm, hne⟩ := h
    apply Finset.prod_eq_zero hm
    rcases hx m hm with h | h <;> rcases hy m hm with h' | h' <;> rw [h, h'] at hne ⊢
    · exact absurd rfl hne
    · rfl
    · rfl
    · exact absurd rfl hne

/-- What is weighed with all characters at distinct sign vectors is recovered. -/
theorem recover {κ R : Type*} [DecidableEq κ] [CommRing R] {k : Finset κ} {v : κ → ι → ℤ}
    (hv : ∀ i ∈ k, Signs s (v i)) (hne : ∀ i ∈ k, ∀ j ∈ k, (∀ m ∈ s, v j m = v i m) → i = j)
    (w : κ → R) {j : κ} (hj : j ∈ k) :
    ∑ S ∈ s.powerset, (character S (v j):R) * ∑ i ∈ k, (character S (v i):R) * w i =
      2^s.card * w j := by
  have hrow : ∀ i ∈ k, ∑ S ∈ s.powerset, (character S (v j):R) * ((character S (v i):R) * w i) =
      if i = j then 2^s.card * w j else 0 := by
    intro i hi
    classical
    have hsum := congrArg (Int.cast : ℤ → R) (sum_characters_eq (hv j hj) (hv i hi))
    rw [Int.cast_sum] at hsum
    have hassoc : ∀ S ∈ s.powerset, (character S (v j):R) * ((character S (v i):R) * w i) =
        ((character S (v j) * character S (v i):ℤ):R) * w i := by
      intro S _
      rw [Int.cast_mul, mul_assoc]
    rw [Finset.sum_congr rfl hassoc, ← Finset.sum_mul, hsum]
    by_cases h : i = j
    · subst h
      simp
    · rw [if_neg h, if_neg fun heq => h (hne i hi j hj heq), Int.cast_zero, zero_mul]
  simp only [Finset.mul_sum]
  rw [Finset.sum_comm, Finset.sum_congr rfl hrow, Finset.sum_ite_eq' k j, if_pos hj]

variable [DecidableEq ι]

def factor (S T : Finset ι) (m : ι) (sign : ℤ) : ℤ :=
  (if m ∈ S then sign else 1) * if m ∈ T then sign else 1

theorem character_factors (hS : S ⊆ s) (hT : T ⊆ s) (x : ι → ℤ) :
    character S x * character T x = ∏ m ∈ s, factor S T m (x m) := by
  have hsplit : ∀ U : Finset ι, U ⊆ s → character U x = ∏ m ∈ s, if m ∈ U then x m else 1 := by
    intro U hU
    rw [Finset.prod_ite_mem, Finset.inter_eq_right.mpr hU, character]
  rw [hsplit S hS, hsplit T hT, ← Finset.prod_mul_distrib]
  rfl

/-- Two characters are orthogonal over all sign vectors, unless they are the same. -/
theorem prod_factors (hS : S ⊆ s) (hT : T ⊆ s) :
    ∏ m ∈ s, (factor S T m (-1) + factor S T m 1) = if S = T then 2^s.card else 0 := by
  split_ifs with h
  · subst h
    rw [← Finset.prod_const]
    apply Finset.prod_congr rfl
    intro m _
    by_cases hm : m ∈ S <;> simp [factor, hm]
  · obtain ⟨m, hm⟩ : ∃ m, ¬ (m ∈ S ↔ m ∈ T) := by
      by_contra hall
      push Not at hall
      exact h (Finset.ext hall)
    by_cases hmS : m ∈ S
    · have hmT : m ∉ T := fun hmT => hm (iff_of_true hmS hmT)
      apply Finset.prod_eq_zero (hS hmS)
      simp [factor, hmS, hmT]
    · have hmT : m ∈ T := by
        by_contra hmT
        exact hm (iff_of_false hmS hmT)
      apply Finset.prod_eq_zero (hT hmT)
      simp [factor, hmS, hmT]

end SignCharacters
