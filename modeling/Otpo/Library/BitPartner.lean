import Mathlib.Data.Nat.Bitwise

/-!
# The number that differs in one bit
-/

set_option autoImplicit false

namespace BitPartner

variable {x r i : ℕ}

theorem xor_one (x : ℕ) : x ^^^ 1 = if x%2 = 1 then x-1 else x+1 := by
  have hdiv : (x ^^^ 1)/2 = x/2 := by
    rw [Nat.xor_div_two]
    simp
  have hmod := Nat.xor_mod_two_eq_one (a := x) (b := 1)
  split <;> grind

theorem partner_div (r i : ℕ) : (r ^^^ 2^i)/2^i = r/2^i ^^^ 1 := by
  rw [Nat.xor_div_two_pow, Nat.div_self (Nat.two_pow_pos i)]

theorem partner_mod (r i : ℕ) : (r ^^^ 2^i)%2^i = r%2^i := by
  rw [Nat.xor_mod_two_pow, Nat.mod_self, Nat.xor_zero]

theorem partner_set (h : r/2^i%2 = 1) : (r ^^^ 2^i)+2^i = r := by
  have hdiv := partner_div r i
  rw [xor_one, if_pos h] at hdiv
  have hmod := partner_mod r i
  have hr := Nat.div_add_mod r (2^i)
  have hp := Nat.div_add_mod (r ^^^ 2^i) (2^i)
  rw [hdiv, hmod] at hp
  obtain ⟨k, hk⟩ : ∃ k, r/2^i = k+1 := Nat.exists_eq_succ_of_ne_zero (by
    intro hzero
    simp [hzero] at h)
  rw [hk, Nat.add_sub_cancel] at hp
  rw [hk, Nat.mul_add] at hr
  omega

theorem partner_clear (h : ¬ r/2^i%2 = 1) : r ^^^ 2^i = r+2^i := by
  have hdiv := partner_div r i
  rw [xor_one, if_neg h] at hdiv
  have hmod := partner_mod r i
  have hr := Nat.div_add_mod r (2^i)
  have hp := Nat.div_add_mod (r ^^^ 2^i) (2^i)
  rw [hdiv, hmod, Nat.mul_add] at hp
  omega

end BitPartner
