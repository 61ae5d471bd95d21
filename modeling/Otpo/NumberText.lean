import Otpo.ParamList
import Mathlib.Data.Nat.Cast.Order.Field
import Mathlib.Data.Rat.Floor
import Mathlib.Tactic.NormNum
import Mathlib.Tactic.Linarith

/-!
# Numbers as text

What `printf` writes for an `int` and for a `double`, and that `atoi` reads the
first of them back.
-/

set_option autoImplicit false

namespace Otpo.NumberText
open Otpo.ParamList

def printD (n : ℕ) : Text := Nat.toDigits 10 n

def printInt (z : ℤ) : Text := if z < 0 then '-'::printD z.natAbs else printD z.natAbs

def roundEven (x : ℚ) : ℕ :=
  let q := x.num.natAbs/x.den
  let r := x.num.natAbs%x.den
  if 2*r < x.den ∨ 2*r = x.den ∧ q%2 = 0 then q else q+1

def printF (x : ℚ) : Text :=
  let n := roundEven (|x| * 1000000)
  let fraction := printD (n%1000000)
  let magnitude :=
    printD (n/1000000) ++ '.'::(List.replicate (6-fraction.length) '0' ++ fraction)
  if x < 0 then '-'::magnitude else magnitude

def Finite (x : ℚ) : Prop := |x| < 2^1024

variable {n : ℕ} {c : Char} {x : ℚ}

theorem digit_not_space (h : c.isDigit = true) : isSpace c = false := by
  simp only [Char.isDigit, Bool.and_eq_true, decide_eq_true_eq, UInt32.le_iff_toNat_le] at h
  have hlow : 48 ≤ c.toNat := h.1
  have hhigh : c.toNat ≤ 57 := h.2
  have hne : c ≠ ' ' := by
    rintro rfl
    exact absurd hlow (by decide)
  simp only [isSpace, Bool.or_eq_false_iff, beq_eq_false_iff_ne, Bool.and_eq_false_iff,
    decide_eq_false_iff_not]
  exact ⟨hne, Or.inr (by omega)⟩

theorem print_digits (h : c ∈ printD n) : c.isDigit = true :=
  Nat.isDigit_of_mem_toDigits (by decide) (by decide) h

theorem print_ne_nil (n : ℕ) : printD n ≠ [] := Nat.toDigits_ne_nil

theorem print_length_le {k : ℕ} (hk : 0 < k) (h : n < 10^k) : (printD n).length ≤ k :=
  (Nat.length_toDigits_le_iff (by decide) hk).mpr h

theorem digits_all {s rest : Text} (h : ∀ c ∈ s, c.isDigit = true)
    (hrest : ∀ c ∈ rest.head?, c.isDigit = false) (m : ℕ) :
    digits (s ++ rest) m = Nat.ofDigitChars 10 s m := by
  induction s generalizing m with
  | nil =>
    cases rest with
    | nil => rfl
    | cons c rest =>
      rw [List.nil_append, digits, hrest c rfl]
      rfl
  | cons c s ih =>
    rw [List.cons_append, digits, if_pos (h c List.mem_cons_self),
      ih fun d hd => h d (List.mem_cons_of_mem c hd)]
    rfl

theorem digits_print {rest : Text} (hrest : ∀ c ∈ rest.head?, c.isDigit = false) (n : ℕ) :
    digits (printD n ++ rest) 0 = n := by
  rw [digits_all (fun c => print_digits) hrest]
  exact Nat.ofDigitChars_ten_toDigits

theorem decimal_digit {s : Text} (h : c.isDigit = true) : decimal (c::s) = digits (c::s) 0 := by
  have hdrop : (c::s).dropWhile isSpace = c::s := by
    refine List.dropWhile_cons_of_neg ?_
    rw [digit_not_space h]
    exact Bool.false_ne_true
  rw [decimal, hdrop]
  split
  · next heq =>
    cases heq
    exact absurd h (by decide)
  · next heq =>
    cases heq
    exact absurd h (by decide)
  · rfl

/-- A number is read up to what follows it. -/
theorem decimal_print_append {rest : Text} (hrest : ∀ c ∈ rest.head?, c.isDigit = false) (n : ℕ) :
    decimal (printD n ++ rest) = n := by
  have hdigits := digits_print hrest n
  obtain ⟨c, s, heq⟩ := List.exists_cons_of_ne_nil (print_ne_nil n)
  have hc : c.isDigit = true := print_digits (n := n) (by rw [heq]; exact List.mem_cons_self)
  rw [heq, List.cons_append] at hdigits
  rw [heq, List.cons_append, decimal_digit hc, hdigits]

theorem atoi_print {n : ℕ} (hn : n < 2^31) : atoi (printD n) = n := by
  have h : decimal (printD n ++ []) = n := decimal_print_append (fun c hc => by cases hc) n
  rw [List.append_nil] at h
  rw [atoi_of_int (by omega), h]

theorem decimal_print_int {rest : Text} (hrest : ∀ c ∈ rest.head?, c.isDigit = false) (z : ℤ) :
    decimal (printInt z ++ rest) = z := by
  rw [printInt]
  split_ifs with hz
  · have hdrop : ('-'::(printD z.natAbs ++ rest)).dropWhile isSpace =
        '-'::(printD z.natAbs ++ rest) := List.dropWhile_cons_of_neg (by decide)
    rw [List.cons_append, decimal, hdrop]
    simp only [digits_print hrest]
    omega
  · rw [decimal_print_append hrest]
    omega

theorem atoi_print_int {rest : Text} (hrest : ∀ c ∈ rest.head?, c.isDigit = false) {z : ℤ}
    (hz : -2147483648 ≤ z ∧ z ≤ 2147483647) : atoi (printInt z ++ rest) = z := by
  have h := decimal_print_int hrest z
  rw [atoi_of_int (by omega), h]

theorem mem_print_int {z : ℤ} (h : c ∈ printInt z) : c.isDigit = true ∨ c = '-' := by
  rw [printInt] at h
  split_ifs at h
  · rcases List.mem_cons.mp h with rfl | h
    · exact Or.inr rfl
    · exact Or.inl (print_digits h)
  · exact Or.inl (print_digits h)

theorem print_int_ne_nil (z : ℤ) : printInt z ≠ [] := by
  rw [printInt]
  split_ifs
  · exact List.cons_ne_nil _ _
  · exact print_ne_nil _

theorem print_int_one_line (z : ℤ) : '\n' ∉ printInt z := fun h => by
  rcases mem_print_int h with h | h
  · exact absurd h (by decide)
  · exact absurd h (by decide)

theorem mem_print_f (h : c ∈ printF x) : c.isDigit = true ∨ c = '.' ∨ c = '-' := by
  have hmagnitude : ∀ n m, c ∈ printD n ++ '.'::(List.replicate (6-(printD m).length) '0' ++
      printD m) → c.isDigit = true ∨ c = '.' ∨ c = '-' := by
    intro n m hc
    rcases List.mem_append.mp hc with hc | hc
    · exact Or.inl (print_digits hc)
    · rcases List.mem_cons.mp hc with rfl | hc
      · exact Or.inr (Or.inl rfl)
      · rcases List.mem_append.mp hc with hc | hc
        · rw [List.eq_of_mem_replicate hc]
          exact Or.inl rfl
        · exact Or.inl (print_digits hc)
  rw [printF] at h
  split_ifs at h
  · rcases List.mem_cons.mp h with rfl | h
    · exact Or.inr (Or.inr rfl)
    · exact hmagnitude _ _ h
  · exact hmagnitude _ _ h

theorem print_f_ne_nil (x : ℚ) : printF x ≠ [] := by
  rw [printF]
  split_ifs
  · exact List.cons_ne_nil _ _
  · exact List.append_ne_nil_of_left_ne_nil (print_ne_nil _) _

theorem round_even_le (h : 0 ≤ x) : (roundEven x:ℚ) ≤ x+1 := by
  have hfloor : ((x.num.natAbs/x.den : ℕ):ℚ) ≤ x := by
    have hnum : (x.num.natAbs:ℚ) = x*x.den := by
      have habs : (x.num.natAbs:ℤ) = x.num := Int.natAbs_of_nonneg (Rat.num_nonneg.mpr h)
      rw [← Int.cast_natCast, habs, Rat.mul_den_eq_num]
    have hden : (0:ℚ) < x.den := Nat.cast_pos.mpr x.den_pos
    calc ((x.num.natAbs/x.den : ℕ):ℚ) ≤ (x.num.natAbs:ℚ)/x.den := Nat.cast_div_le
      _ = x := by rw [hnum, mul_div_assoc, div_self hden.ne', mul_one]
  rw [roundEven]
  split_ifs
  · linarith
  · push_cast
    linarith

/-- A finite number is written in a short text. -/
theorem print_f_length (h : Finite x) : (printF x).length ≤ 317 := by
  have hround : (roundEven (|x| * 1000000):ℚ) ≤ |x| * 1000000+1 :=
    round_even_le (mul_nonneg (abs_nonneg x) (by norm_num))
  have hbound : (roundEven (|x| * 1000000):ℚ) < 10^309*1000000 := by
    have hx : |x| * 1000000 < 2^1024*1000000 := mul_lt_mul_of_pos_right h (by norm_num)
    have hnum : 2^1024*1000000+1 < 10^309*1000000 := by decide +kernel
    exact (hround.trans_lt (add_lt_add_left hx 1)).trans (by exact_mod_cast hnum)
  have hnat : roundEven (|x| * 1000000) < 10^309*1000000 := by exact_mod_cast hbound
  have hwhole : (printD (roundEven (|x| * 1000000)/1000000)).length ≤ 309 :=
    print_length_le (by decide) (Nat.div_lt_of_lt_mul (by rwa [Nat.mul_comm]))
  have hfraction : (printD (roundEven (|x| * 1000000)%1000000)).length ≤ 6 :=
    print_length_le (by decide) (Nat.mod_lt _ (by decide))
  rw [printF]
  split_ifs <;> simp only [List.length_cons, List.length_append, List.length_replicate] <;> omega

end Otpo.NumberText
