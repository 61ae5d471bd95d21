import Otpo.RangeTraversal

/-!
# What a range yields

Downwards nothing is visited behind the start; upwards the progression has to
rise until it is above the end. For sums that is a condition on the first
number above the end.
-/

set_option autoImplicit false

namespace Otpo.RangeOutcome
open Otpo.ParamList Otpo.ParseLine Otpo.InitializeList Otpo.RangeTraversal

section Covered

variable {o : Operator} {k s e : ℤ}

def Covered (o : Operator) (k s e : ℤ) : Prop :=
  ∃ vs, Visits o k e s vs ∧ Progression.Covers (combine o k) s e (s::vs)

theorem traverses_covered (r : Range) (p : ListParam) :
    Traverses r p ↔ Covered r.operation r.increment r.startValue r.endValue := by
  constructor
  · rintro ⟨fuel, values, num, hloop, -, -, hcovers⟩
    obtain ⟨vs, hv, rfl⟩ := loop_visits r.arithmetic hloop
    exact ⟨vs, hv, hcovers⟩
  · rintro ⟨vs, hv, hcovers⟩
    obtain ⟨fuel, hf⟩ := visits_loop r.arithmetic hv
    have hloop := hf [r.startValue] 1 Nat.one_pos
    have hlength : ([r.startValue] ++ vs).length = 1+vs.length := by
      rw [List.length_append, List.length_singleton]
    refine ⟨fuel, _, _, hloop, hlength, ?_, hcovers⟩
    have hunlisted : ¬ (withRange r p).stringValues.length ≠ 0 := fun h => h rfl
    have hrange : rangeLoop (withRange r p).operation (withRange r p).increment r.endValue fuel
        r.startValue [r.startValue] 1 = _ := hloop
    have hstart : (withRange r p).startValue = some r.startValue := rfl
    have hend : (withRange r p).endValue = some r.endValue := rfl
    rw [getPossibleValues, if_neg hunlisted, hstart, hend]
    simp only [hrange, if_pos hlength]
    rfl

/-- Nothing follows a start that is above the end. -/
theorem covered_falling (h : e < s) :
    Covered o k s e ↔ ∀ v, combine o k s = some v → v < e ∨ s ≤ v := by
  constructor
  · rintro ⟨vs, hv, hcovers⟩ v hcombine
    cases hv with
    | stop =>
      by_contra hout
      rw [not_or, not_lt, not_le] at hout
      have hb := (Progression.between_falling h).mpr ⟨hout.1, hout.2.le⟩
      exact absurd (Progression.single_covers hcovers hcombine hb) hout.2.ne
    | skip hle => exact absurd h (not_lt.mpr hle)
    | pass hle => exact absurd h (not_lt.mpr hle)
    | keep hle => exact absurd h (not_lt.mpr hle)
  · intro hout
    refine ⟨[], .stop h, Progression.covers_single fun v hv hb => ?_⟩
    rw [Progression.between_falling h] at hb
    rcases hout v hv with hlt | hle
    · exact absurd hlt (not_lt.mpr hb.1)
    · exact le_antisymm hb.2 hle

theorem covered_rising {vs : List ℤ} (hle : s ≤ e) (hv : Visits o k e s vs)
    (hr : Progression.Rises (combine o k) e s vs) : Covered o k s e :=
  ⟨vs, hv, Progression.rises_covers hle hr⟩

/-- The first round: zero is passed over, or the step leaves, or it does not
fall and is visited. -/
theorem covered_first (hle : s ≤ e) (h : Covered o k s e) :
    s = 0 ∧ Scales o ∧ (∃ vs, Visits o k e 1 vs ∧
        Progression.Covers (combine o k) 0 e (0::vs)) ∨
      ∃ t, Steps o k s t ∧ (e < t ∨ s ≤ t ∧ t ≤ e ∧ ∃ vs, Visits o k e t vs ∧
        Progression.Covers (combine o k) s e (s::t::vs)) := by
  obtain ⟨vs, hv, hcovers⟩ := h
  rcases visits_step hv hle with ⟨rfl, hscales, hrest⟩ | ⟨t, hs, ht | ⟨rest, rfl, ht, hrest⟩⟩
  · exact Or.inl ⟨rfl, hscales, vs, hrest, hcovers⟩
  · exact Or.inr ⟨t, hs, Or.inl ht⟩
  · have hb := hcovers.within t List.mem_cons_self
    rw [Progression.between_rising hle] at hb
    exact Or.inr ⟨t, hs, Or.inr ⟨hb.1, ht, rest, hrest, hcovers⟩⟩

/-- One step beyond the end. -/
theorem covered_leaving {t : ℤ} (hle : s ≤ e) (hs : Steps o k s t) (ht : e < t) :
    Covered o k s e := by
  refine covered_rising hle (.pass hle hs ht) (.done fun b hb => Or.inr ?_)
  rw [hs.combined, Option.some.injEq] at hb
  exact hb ▸ ht

theorem not_visits_fixed {vs : List ℤ} (hle : s ≤ e) (hzero : Scales o → s ≠ 0)
    (hfixed : combine o k s = some s) : ¬ Visits o k e s vs := by
  refine visits_trapped (P := (· = s)) (fun x hx => hx.trans_le hle)
    (fun hscales h0 => absurd h0.symm (hzero hscales)) (fun x t hx hs => ?_) rfl
  have hcombined := hs.combined
  rw [hx, hfixed, Option.some.injEq] at hcombined
  exact hcombined.symm

end Covered

section Sum

variable {o : Operator} {k d s e : ℤ}

theorem quotient_step (hd : 0 < d) (x : ℤ) : (e-x)/d = (e-(x+d))/d+1 := by
  have hsplit : e-x = e-(x+d)+1*d := by ring
  rw [hsplit, Int.add_mul_ediv_right _ _ hd.ne']

theorem sum_fits (hd : 0 < d) (hcombine : ∀ x, combine o k x = some (x+d))
    (hscales : ¬ Scales o) {x : ℤ} {vs : List ℤ} (h : Visits o k e x vs) (hx : x ≤ e) :
    x+d*((e-x)/d+1) ≤ 2147483647 := by
  induction h with
  | stop h => exact absurd h (not_lt.mpr hx)
  | skip _ hs => exact absurd hs hscales
  | @pass x t h hs ht =>
    have ht' : x+d = t := Option.some.inj ((hcombine x).symm.trans hs.combined)
    have hzero : (e-x)/d = 0 := Int.ediv_eq_zero_of_lt (by omega) (by omega)
    rw [hzero, zero_add, mul_one, ht']
    exact hs.fits.2
  | @keep x t vs h hs ht _ ih =>
    have ht' : x+d = t := Option.some.inj ((hcombine x).symm.trans hs.combined)
    have hnext := ih ht
    rw [quotient_step hd]
    rw [← ht'] at hnext
    linarith

theorem sum_visited (hd : 0 < d) (hcombine : ∀ x, combine o k x = some (x+d))
    (hscales : ¬ Scales o) (hs : Int32 s) (hle : s ≤ e)
    (hfits : s+d*((e-s)/d+1) ≤ 2147483647) : Covered o k s e := by
  have hstep : ∀ x, (s ≤ x ∧ x+d*((e-x)/d+1) ≤ 2147483647) → x ≤ e → Steps o k x (x+d) := by
    rintro x ⟨hsx, hx⟩ hxe
    have hquotient : 0 ≤ (e-x)/d := Int.ediv_nonneg (by omega) hd.le
    have hsum : d ≤ d*((e-x)/d+1) := le_mul_of_one_le_right hd.le (by omega)
    exact ⟨hcombine x, ⟨by have := hs.1; omega, by omega⟩, fun h => absurd h hscales⟩
  have hrise : ∀ x, (s ≤ x ∧ x+d*((e-x)/d+1) ≤ 2147483647) → x ≤ e →
      (Visits o k e x [] ∧ ∀ b, combine o k x = some b → b = x ∨ e < b) ∨
        ∃ y, Steps o k x y ∧ x < y ∧ y ≤ e ∧ s ≤ y ∧ y+d*((e-y)/d+1) ≤ 2147483647 := by
    intro x hx hxe
    rcases lt_or_ge e (x+d) with hlt | hge
    · refine Or.inl ⟨.pass hxe (hstep x hx hxe) hlt, fun b hb => Or.inr ?_⟩
      rw [hcombine, Option.some.injEq] at hb
      exact hb ▸ hlt
    · refine Or.inr ⟨x+d, hstep x hx hxe, by omega, hge, by omega, ?_⟩
      have hfit := hx.2
      rw [quotient_step hd] at hfit
      linarith
  obtain ⟨vs, hv, hr⟩ := visits_rising hrise ⟨le_refl s, hfits⟩ hle
  exact covered_rising hle hv hr

theorem covered_sum (hcombine : ∀ x, combine o k x = some (x+d)) (hscales : ¬ Scales o)
    (hs : Int32 s) : Covered o k s e ↔ Ascends s e d := by
  rw [Ascends]
  split_ifs with h
  · rw [covered_falling h, hcombine]
    constructor
    · intro hout
      rcases hout (s+d) rfl with hlt | hle
      · exact Or.inr hlt
      · exact Or.inl (by omega)
    · rintro hout v hv
      cases hv
      rcases hout with hd | hlt
      · exact Or.inr (by omega)
      · exact Or.inl hlt
  · have hle : s ≤ e := not_lt.mp h
    refine ⟨fun hc => ?_, fun hc => sum_visited hc.1 hcombine hscales hs hle hc.2⟩
    obtain ⟨vs, hv, hcovers⟩ := id hc
    have hd : 0 < d := by
      rcases covered_first hle hc with ⟨-, hsc, -⟩ | ⟨t, hstep, hout⟩
      · exact absurd hsc hscales
      · have ht : s+d = t := Option.some.inj ((hcombine s).symm.trans hstep.combined)
        rcases hout with hlt | ⟨hst, -, -⟩
        · omega
        · have hne : d ≠ 0 := by
            rintro rfl
            exact not_visits_fixed hle (fun hsc => absurd hsc hscales)
              ((hcombine s).trans (by rw [add_zero])) hv
          omega
    exact ⟨hd, sum_fits hd hcombine hscales hv hle⟩

end Sum

end Otpo.RangeOutcome
