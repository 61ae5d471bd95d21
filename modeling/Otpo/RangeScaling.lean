import Otpo.RangeOutcome

/-!
# Ranges of products and quotients

Zero is passed over and the loop goes on with one, so that a progression that
comes to zero in front of the end never leaves it again. What it then yields is
settled by the sign of the operand.
-/

set_option autoImplicit false

namespace Otpo.RangeScaling
open Otpo.ParamList Otpo.ParseLine Otpo.InitializeList Otpo.RangeTraversal Otpo.RangeOutcome

section Product

variable {k s e : ℤ}

theorem multiply_scales : Scales .multiply := Or.inl rfl

theorem multiply_step {x t : ℤ} (h : Steps .multiply k x t) : x*k = t :=
  Option.some.inj h.combined

/-- Zero is followed by zero, which nothing leads out of. -/
theorem zero_trapped (he : 1 ≤ e) {x : ℤ} {vs : List ℤ} (hx : x = 0 ∨ x = 1) :
    ¬ Visits .multiply 0 e x vs := by
  refine visits_trapped (P := fun x => x = 0 ∨ x = 1) (fun x hx => by omega)
    (fun _ _ => Or.inr rfl) (fun x t _ hs => Or.inl ?_) hx
  rw [← multiply_step hs, mul_zero]

/-- A number and its negative are visited in turn. -/
theorem negation_trapped {o : Operator} (hcombine : ∀ x, combine o k x = some (-x)) {x : ℤ}
    {vs : List ℤ} (hx : x ≠ 0) (hle : x ≤ e) (hneg : -x ≤ e) : ¬ Visits o k e x vs := by
  refine visits_trapped (P := fun y => y = x ∨ y = -x) (fun y hy => by omega)
    (fun _ h0 => by omega) (fun y t hy hs => ?_) (Or.inl rfl)
  have ht : -y = t := Option.some.inj ((hcombine y).symm.trans hs.combined)
  omega

theorem power_leaves (hk : 2 ≤ k) {x : ℤ} {vs : List ℤ} (h : Visits .multiply k e x vs)
    (hx : 0 < x) (hle : x ≤ e) : ∃ n, e < x*k^n ∧ x*k^n ≤ 2147483647 := by
  induction h with
  | stop h => exact absurd h (not_lt.mpr hle)
  | skip => exact absurd hx (lt_irrefl 0)
  | pass h hs ht =>
    refine ⟨1, ?_⟩
    rw [pow_one, multiply_step hs]
    exact ⟨ht, hs.fits.2⟩
  | @keep x t vs h hs ht _ ih =>
    have hpos : 0 < t := multiply_step hs ▸ mul_pos hx (by omega)
    obtain ⟨n, hn⟩ := ih hpos ht
    refine ⟨n+1, ?_⟩
    rw [pow_succ', ← mul_assoc, multiply_step hs]
    exact hn

theorem power_bound (hk : 2 ≤ k) (hs : 0 < s) {n : ℕ} (h : s*k^n ≤ 2147483647) : n < 32 := by
  by_contra hn
  have hpower : (2:ℤ)^32 ≤ k^n := by
    calc (2:ℤ)^32 ≤ 2^n := pow_le_pow_right₀ (by norm_num) (not_lt.mp hn)
      _ ≤ k^n := pow_le_pow_left₀ (by norm_num) hk n
  have hle : k^n ≤ s*k^n := le_mul_of_one_le_left (by positivity) hs
  have hnum : (2147483647:ℤ) < 2^32 := by norm_num
  linarith

theorem product_visited (hk : 2 ≤ k) (hs : 0 < s) (hle : s ≤ e)
    (h : ∃ n, e < s*k^n ∧ s*k^n ≤ 2147483647) : Covered .multiply k s e := by
  have hrise : ∀ x, (0 < x ∧ ∃ n, e < x*k^n ∧ x*k^n ≤ 2147483647) → x ≤ e →
      (Visits .multiply k e x [] ∧ ∀ b, combine .multiply k x = some b → b = x ∨ e < b) ∨
        ∃ y, Steps .multiply k x y ∧ x < y ∧ y ≤ e ∧
          0 < y ∧ ∃ n, e < y*k^n ∧ y*k^n ≤ 2147483647 := by
    rintro x ⟨hx, n, hn, hfit⟩ hxe
    have hgrows : x < x*k := lt_mul_of_one_lt_right hx (by omega)
    have hpos : 0 < x*k := hx.trans hgrows
    cases n with
    | zero =>
      rw [pow_zero, mul_one] at hn
      exact absurd hn (not_lt.mpr hxe)
    | succ n =>
      rw [pow_succ', ← mul_assoc] at hn hfit
      have hone : 1 ≤ k^n := one_le_pow₀ (by omega)
      have hfirst : x*k ≤ 2147483647 := (le_mul_of_one_le_right hpos.le hone).trans hfit
      have hstep : Steps .multiply k x (x*k) :=
        ⟨rfl, ⟨by omega, hfirst⟩, fun _ => hx.ne'⟩
      rcases lt_or_ge e (x*k) with hlt | hge
      · refine Or.inl ⟨.pass hxe hstep hlt, fun b hb => Or.inr ?_⟩
        cases hb
        exact hlt
      · exact Or.inr ⟨x*k, hstep, hgrows, hge, hpos, n, hn, hfit⟩
  obtain ⟨vs, hv, hr⟩ := visits_rising hrise ⟨hs, h⟩ hle
  exact covered_rising hle hv hr

/-- From zero the loop goes on with one, which is not visited itself. -/
theorem covered_zero {o : Operator} (hscales : Scales o) (he : 0 ≤ e)
    (hone : Visits o k e 1 []) (hfixed : ∀ b, combine o k 0 = some b → b = 0) :
    Covered o k 0 e :=
  covered_rising he (.skip he hscales hone) (.done fun b hb => Or.inl (hfixed b hb))

/-- One step to zero, which is the end. -/
theorem covered_to_zero {o : Operator} (hscales : Scales o) (hs : s < 0)
    (hstep : Steps o k s 0) (hfixed : ∀ b, combine o k 0 = some b → b = 0) :
    Covered o k s 0 :=
  covered_rising hs.le
    (.keep hs.le hstep (le_refl 0) (.skip (le_refl 0) hscales (.stop Int.zero_lt_one)))
    (.step hstep.combined hs (le_refl 0) (.done fun b hb => Or.inl (hfixed b hb)))

theorem multiplies_covered (hstart : Int32 s) (hk : Int32 k) (h : Multiplies s e k) :
    Covered .multiply k s e := by
  rw [Multiplies] at h
  split_ifs at h with hfall
  · refine (covered_falling hfall).mpr fun v hv => ?_
    cases hv
    exact h
  · have hle : s ≤ e := not_lt.mp hfall
    have hfixed : ∀ b, combine .multiply k 0 = some b → b = 0 := fun b hb => by
      rw [← Option.some.inj hb, zero_mul]
    rcases h with ⟨hs, hk2, n, -, hn⟩ | ⟨hs, ⟨hlt, hfit⟩ | ⟨rfl, rfl⟩⟩ | ⟨rfl, he | hlt⟩
    · exact product_visited hk2 hs hle ⟨n, hn⟩
    · exact covered_leaving hle ⟨rfl, ⟨hstart.1.trans (hle.trans hlt.le), hfit⟩, fun _ => hs.ne⟩ hlt
    · refine covered_to_zero multiply_scales hs ⟨?_, by decide, fun _ => hs.ne⟩ hfixed
      rw [combine, mul_zero]
    · exact covered_zero multiply_scales hle (.stop (by omega)) hfixed
    · refine covered_zero multiply_scales hle ?_ hfixed
      rcases lt_or_ge e 1 with he | he
      · exact .stop he
      · exact .pass he ⟨by rw [combine, one_mul], hk, fun _ => one_ne_zero⟩ hlt

/-- The product of one is the operand, and that of zero is zero. -/
theorem zero_leaves {vs : List ℤ} (he : 1 ≤ e) (hone : Visits .multiply k e 1 vs)
    (hcovers : Progression.Covers (combine .multiply k) 0 e (0::vs)) : e < k := by
  rcases visits_step hone he with ⟨h0, -, -⟩ | ⟨t, hs, hlt | ⟨rest, rfl, -, -⟩⟩
  · exact absurd h0 one_ne_zero
  · have ht := multiply_step hs
    rw [one_mul] at ht
    exact ht ▸ hlt
  · have hzero : 0*k = t := Option.some.inj (List.isChain_cons_cons.mp hcovers.steps).1
    have ht := multiply_step hs
    have hk : k = 0 := by omega
    subst hk
    exact absurd hone (zero_trapped he (Or.inr rfl))

/-- The product of a number below zero is above zero or zero itself, and the
product of that comes below the start. -/
theorem negative_leaves {t : ℤ} {vs : List ℤ} (hle : s ≤ e) (hneg : s < 0) (hk1 : k ≠ 1)
    (hm : k ≠ -1) (ht : s*k = t) (hst : s ≤ t) (hte : t ≤ e) (hv : Visits .multiply k e t vs)
    (hcovers : Progression.Covers (combine .multiply k) s e (s::t::vs)) : e = 0 ∧ k = 0 := by
  have hk : k < 1 := by
    by_contra hk
    have hlt : s*k < s*1 := mul_lt_mul_of_neg_left (by omega) hneg
    omega
  rcases eq_or_ne k 0 with rfl | hk0
  · refine ⟨?_, rfl⟩
    rw [mul_zero] at ht
    subst ht
    by_contra he
    exact zero_trapped (by omega) (Or.inl rfl) hv
  · have hk2 : k ≤ -2 := by omega
    have htpos : 0 < t := ht ▸ mul_pos_of_neg_of_neg hneg (by omega)
    have hback : t*k < s := by
      rw [← ht]
      nlinarith
    rcases visits_step hv hte with ⟨h0, -, -⟩ | ⟨u, hu, hlt | ⟨rest, rfl, -, -⟩⟩
    · exact absurd h0 htpos.ne'
    · have huk := multiply_step hu
      omega
    · have huk := multiply_step hu
      have hb := hcovers.within u (List.mem_cons_of_mem _ List.mem_cons_self)
      rw [Progression.between_rising hle] at hb
      omega

theorem covered_multiplies (h : Covered .multiply k s e) : Multiplies s e k := by
  rw [Multiplies]
  split_ifs with hfall
  · exact (covered_falling hfall).mp h (s*k) rfl
  · have hle : s ≤ e := not_lt.mp hfall
    obtain ⟨all, hall, -⟩ := id h
    rcases covered_first hle h with ⟨rfl, -, vs, hone, hcovers⟩ | ⟨t, hs, hout⟩
    · refine Or.inr (Or.inr ⟨rfl, ?_⟩)
      rcases lt_or_ge e 1 with he | he
      · exact Or.inl (by omega)
      · exact Or.inr (zero_leaves he hone hcovers)
    · have ht := multiply_step hs
      have hne := hs.nonzero multiply_scales
      have hone : k ≠ 1 := by
        rintro rfl
        exact not_visits_fixed hle (fun _ => hne) (by rw [combine, mul_one]) hall
      have hminus : t ≤ e → k ≠ -1 := by
        rintro hte rfl
        exact negation_trapped (fun x => by rw [combine, mul_neg_one]) hne hle (by omega) hall
      rcases lt_or_gt_of_ne hne with hneg | hpos
      · refine Or.inr (Or.inl ⟨hneg, ?_⟩)
        rcases hout with hlt | ⟨hst, hte, vs, hv, hcovers⟩
        · exact Or.inl ⟨ht ▸ hlt, ht ▸ hs.fits.2⟩
        · exact Or.inr (negative_leaves hle hneg hone (hminus hte) ht hst hte hv hcovers)
      · have hk2 : 2 ≤ k := by
          by_contra hk
          have hsk : s*k ≤ s*0 := mul_le_mul_of_nonneg_left (by omega) hpos.le
          omega
        obtain ⟨n, hn⟩ := power_leaves hk2 hall hpos hle
        exact Or.inl ⟨hpos, hk2, n, power_bound hk2 hpos hn.2, hn⟩

end Product

section Quotient

variable {k s e : ℤ}

theorem divide_scales : Scales .divide := Or.inr rfl

theorem divide_step {x t : ℤ} (h : Steps .divide k x t) : k ≠ 0 ∧ x.tdiv k = t := by
  have hcombined := h.combined
  rw [combine] at hcombined
  split_ifs at hcombined with hk
  exact ⟨hk, Option.some.inj hcombined⟩

theorem combine_divide (hk : k ≠ 0) (x : ℤ) : combine .divide k x = some (x.tdiv k) := if_neg hk

theorem combine_minus_one (x : ℤ) : combine .divide (-1) x = some (-x) := by
  rw [combine_divide (by decide), Int.tdiv_neg, Int.tdiv_one]

theorem operand_cases (hk : k ≠ 0) : k = 1 ∨ k = -1 ∨ 2 ≤ k ∨ k ≤ -2 := by omega

theorem divide_zero {b : ℤ} (h : combine .divide k 0 = some b) : b = 0 := by
  rw [combine] at h
  split_ifs at h
  rw [← Option.some.inj h, Int.zero_tdiv]

theorem quotient_rises {x : ℤ} (hk : 2 ≤ k) (hx : x < 0) : x < x.tdiv k ∧ x.tdiv k ≤ 0 := by
  have hneg : x.tdiv k = -((-x)/k) := by
    rw [← Int.tdiv_eq_ediv_of_nonneg (by omega), Int.neg_tdiv, neg_neg]
  have hlt : (-x)/k < -x := Int.ediv_lt_of_lt_mul (by omega) (by nlinarith)
  have hnonneg : 0 ≤ (-x)/k := Int.ediv_nonneg (by omega) (by omega)
  omega

theorem one_quotient (hk : 2 ≤ k ∨ k ≤ -2) : (1:ℤ).tdiv k = 0 := by
  have habs := Int.natAbs_tdiv 1 k
  have hzero : Nat.div 1 k.natAbs = 0 := Nat.div_eq_of_lt (by omega)
  rw [Int.natAbs_one, hzero] at habs
  exact Int.natAbs_eq_zero.mp habs

/-- With an operand of two or more, an end above zero is never passed again. -/
theorem quotient_trapped (hk : 2 ≤ k ∨ k ≤ -2) (he : 1 ≤ e) {x : ℤ} {vs : List ℤ} (hx : x ≤ e)
    (hnext : x.tdiv k ≤ e) : ¬ Visits .divide k e x vs := by
  refine visits_trapped (P := fun x => x ≤ e ∧ x.tdiv k ≤ e) (fun x hx => hx.1)
    (fun _ _ => ⟨he, by rw [one_quotient hk]; omega⟩) (fun x t hx hs => ?_) ⟨hx, hnext⟩
  obtain ⟨-, rfl⟩ := divide_step hs
  refine ⟨hx.2, ?_⟩
  have hsmall := Int.natAbs_tdiv_le_natAbs (x.tdiv k) k
  have hsmaller := Int.natAbs_tdiv_le_natAbs x k
  rcases hk with hk | hk
  · rcases lt_or_ge (x.tdiv k) 0 with hneg | hpos
    · have hrise := (quotient_rises hk hneg).2
      omega
    · have := hx.2
      omega
  · rcases lt_or_ge (x.tdiv k) 0 with hneg | hpos
    · have hx0 : 0 ≤ x := by
        by_contra hx0
        have h := Int.tdiv_nonneg_of_nonpos_of_nonpos (a := x) (b := k) (by omega) (by omega)
        omega
      have := hx.1
      omega
    · have := hx.2
      omega

theorem one_fixed {x : ℤ} {vs : List ℤ} (hx : x ≠ 0) (hle : x ≤ e) :
    ¬ Visits .divide 1 e x vs :=
  not_visits_fixed hle (fun _ => hx) (by rw [combine_divide one_ne_zero, Int.tdiv_one])

/-- No operand leads from a number and its quotient to an end above zero. -/
theorem division_trapped (hk : k ≠ 0) (he : 1 ≤ e) {x : ℤ} {vs : List ℤ} (hx : x ≠ 0)
    (hle : x ≤ e) (hnext : x.tdiv k ≤ e) : ¬ Visits .divide k e x vs := by
  rcases operand_cases hk with rfl | rfl | hk
  · exact one_fixed hx hle
  · rw [Int.tdiv_neg, Int.tdiv_one] at hnext
    exact negation_trapped combine_minus_one hx hle hnext
  · exact quotient_trapped hk he hle hnext

theorem quotient_visited (hk : 2 ≤ k) (hstart : Int32 s) (hs : s < 0) (he : e ≤ 0)
    (hle : s ≤ e) : Covered .divide k s e := by
  have hrise : ∀ x, (s ≤ x ∧ x ≤ 0) → x ≤ e →
      (Visits .divide k e x [] ∧ ∀ b, combine .divide k x = some b → b = x ∨ e < b) ∨
        ∃ y, Steps .divide k x y ∧ x < y ∧ y ≤ e ∧ s ≤ y ∧ y ≤ 0 := by
    rintro x ⟨hsx, hx⟩ hxe
    rcases hx.eq_or_lt with rfl | hneg
    · exact Or.inl ⟨.skip hxe divide_scales (.stop (by omega)), fun b hb =>
        Or.inl (divide_zero hb)⟩
    · obtain ⟨hlt, hle⟩ := quotient_rises hk hneg
      have hstep : Steps .divide k x (x.tdiv k) :=
        ⟨combine_divide (by omega) x, ⟨by have := hstart.1; omega, by omega⟩, fun _ => hneg.ne⟩
      rcases lt_or_ge e (x.tdiv k) with hout | hin
      · refine Or.inl ⟨.pass hxe hstep hout, fun b hb => Or.inr ?_⟩
        rw [hstep.combined, Option.some.injEq] at hb
        exact hb ▸ hout
      · exact Or.inr ⟨_, hstep, hlt, hin, by omega, hle⟩
  obtain ⟨vs, hv, hr⟩ := visits_rising hrise ⟨le_refl s, hs.le⟩ hle
  exact covered_rising hle hv hr

theorem divides_covered (hstart : Int32 s) (h : Divides s e k) : Covered .divide k s e := by
  rw [Divides] at h
  split_ifs at h with hfall
  · refine (covered_falling hfall).mpr fun v hv => ?_
    rw [combine] at hv
    split_ifs at hv with hk
    rw [← Option.some.inj hv]
    exact h.resolve_left hk
  · have hle : s ≤ e := not_lt.mp hfall
    rcases h with ⟨hs, ⟨hk, he⟩ | ⟨hk, hfit, hlt | ⟨rfl, hzero⟩⟩⟩ | ⟨rfl, rfl⟩
    · exact quotient_visited hk hstart hs he hle
    · have hstep : Steps .divide k s (s.tdiv k) :=
        ⟨combine_divide hk.ne s, ⟨hstart.1.trans (hle.trans hlt.le), hfit⟩, fun _ => hs.ne⟩
      exact covered_leaving hle hstep hlt
    · have hstep : Steps .divide k s 0 :=
        ⟨by rw [combine_divide hk.ne, hzero], by decide, fun _ => hs.ne⟩
      exact covered_to_zero divide_scales hs hstep fun b => divide_zero
    · exact covered_zero divide_scales hle (.stop Int.zero_lt_one) fun b => divide_zero

theorem covered_divides (h : Covered .divide k s e) : Divides s e k := by
  rw [Divides]
  split_ifs with hfall
  · rcases eq_or_ne k 0 with hk | hk
    · exact Or.inl hk
    · exact Or.inr ((covered_falling hfall).mp h _ (combine_divide hk s))
  · have hle : s ≤ e := not_lt.mp hfall
    obtain ⟨all, hall, -⟩ := id h
    rcases covered_first hle h with ⟨rfl, -, vs, hone, -⟩ | ⟨t, hs, hout⟩
    · refine Or.inr ⟨rfl, ?_⟩
      by_contra he
      have he1 : 1 ≤ e := by omega
      rcases visits_step hone he1 with ⟨h0, -, -⟩ | ⟨t, hs, -⟩
      · exact absurd h0 one_ne_zero
      · have hsmall := Int.natAbs_tdiv_le_natAbs 1 k
        exact division_trapped (divide_step hs).1 he1 one_ne_zero he1 (by omega) hone
    · obtain ⟨hk, rfl⟩ := divide_step hs
      have hne := hs.nonzero divide_scales
      have htrapped : 1 ≤ e → ¬ s.tdiv k ≤ e := fun he hte =>
        division_trapped hk he hne hle hte hall
      have hsmall := Int.natAbs_tdiv_le_natAbs s k
      rcases lt_or_gt_of_ne hne with hneg | hpos
      · refine Or.inl ⟨hneg, ?_⟩
        rcases lt_or_ge 0 k with hkpos | hkneg
        · have hk2 : 2 ≤ k := by
            have hk1 : k ≠ 1 := by
              rintro rfl
              exact one_fixed hne hle hall
            omega
          refine Or.inl ⟨hk2, ?_⟩
          by_contra he
          have hnonpos := (quotient_rises hk2 hneg).2
          exact htrapped (by omega) (by omega)
        · refine Or.inr ⟨by omega, hs.fits.2, ?_⟩
          rcases lt_or_ge e (s.tdiv k) with hlt | hge
          · exact Or.inl hlt
          · have hnonneg := Int.tdiv_nonneg_of_nonpos_of_nonpos hneg.le hkneg
            have he : ¬ 1 ≤ e := fun he => htrapped he hge
            exact Or.inr ⟨by omega, by omega⟩
      · exact absurd (show s.tdiv k ≤ e by omega) (htrapped (by omega))

end Quotient

/-- A range is traversed exactly under these conditions. -/
theorem traverses_iff (r : Range) (p : ListParam) :
    Traverses r p ↔ RangeTraversal.Traversable r := by
  rw [traverses_covered, RangeTraversal.Traversable]
  obtain ⟨s, e, o, k, hs, he, ho, hk⟩ := r
  simp only [List.mem_cons, List.not_mem_nil, or_false] at ho
  rcases ho with rfl | rfl | rfl | rfl
  · exact covered_sum (fun _ => rfl) (by rintro (h | h) <;> cases h) hs
  · exact covered_sum (fun _ => rfl) (by rintro (h | h) <;> cases h) hs
  · exact ⟨covered_multiplies, multiplies_covered hs hk⟩
  · exact ⟨covered_divides, divides_covered hs⟩

/-- The line `a -r 10 1 -t increment - 3` is accepted with the value 10 alone,
but 7, 4 and 1 are in the range. -/
theorem falling_range_stops :
    let line := "a -r 10 1 -t increment - 3 \n".toList
    initializeList 5 1 [line] = .ok (some ([{ newParam "a".toList with
      possibleValues := some [10], startValue := some 10, endValue := some 1,
      traverse := some .increment, operation := some .subtract, increment := some 3 }], [[]])) ∧
    combine .subtract 3 10 = some 7 ∧ Progression.Between 10 1 (7:ℤ) ∧
    ¬ Traverses ⟨10, 1, .subtract, 3, by decide, by decide, by decide, by decide⟩
      (newParam "a".toList) := by
  refine ⟨by decide +kernel, rfl, by decide, fun h => ?_⟩
  have hout : (7:ℤ) < 1 ∨ (10:ℤ) ≤ 7 :=
    (covered_falling (by decide)).mp ((traverses_covered _ _).mp h) 7 rfl
  exact absurd hout (by decide)

end Otpo.RangeScaling
