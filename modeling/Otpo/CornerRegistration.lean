import Otpo.DefaultSearch
import Otpo.ValueOrder

/-!
# Registered corners

The corner construction looks up every combination of first and last values.
The population registers what the conditions accept of the values it shows.
-/

set_option autoImplicit false

namespace Otpo.CornerRegistration
open Otpo.ParamList Otpo.Adcl Otpo.Combinations Otpo.RpnStack Otpo.Enumeration
open Otpo.ValueOrder Otpo.TwokCorners Otpo.DefaultSearch

def EndsAtLast (p : Param) : Prop := p.possibleValues.find? (fun v => p.last ≤ v) = some p.last

instance (p : Param) : Decidable (EndsAtLast p) := inferInstanceAs (Decidable (_ = _))

section Shown

variable {p : Param} {ps : List Param}

theorem shown_last (p : Param) : ∃ x, p.possibleValues.find? (fun v => p.last ≤ v) = some x ∧
    shown p = front p ++ [x] ∧ p.last ≤ x := by
  obtain ⟨x, post, hv, hx⟩ := values_split p
  refine ⟨x, ?_, shown_split hv, hx⟩
  have hfront : (front p).find? (fun v => p.last ≤ v) = none := by
    rw [List.find?_eq_none]
    intro v hm
    simpa using front_below hm
  rw [hv, List.find?_append, hfront, List.find?_cons_of_pos (by simpa using hx)]
  rfl

theorem ends_at_last_iff : EndsAtLast p ↔ p.last ∈ shown p := by
  obtain ⟨x, hx, hs, _⟩ := shown_last p
  rw [EndsAtLast, hx, hs, Option.some.injEq, List.mem_append, List.mem_singleton]
  constructor
  · exact fun he => Or.inr he.symm
  · rintro (hm | he)
    · exact absurd (front_below hm) (lt_irrefl _)
    · exact he.symm

theorem first_shown (p : Param) : p.first ∈ shown p := by
  have hf := first_head p
  obtain ⟨x, post, hv, _⟩ := values_split p
  rw [shown_split hv]
  rw [hv] at hf
  cases hfr : front p with
  | nil => simpa [hfr, eq_comm] using hf
  | cons v vs =>
    rw [hfr, List.cons_append, List.head?_cons, Option.some.injEq] at hf
    simp [hf]

theorem returning_shown (hn : ∀ p ∈ ps, (front p).Nodup) (h : ∀ p ∈ ps, EndsAtLast p) :
    Odometer.Returning (ps.map wheel) (firstCombination ps) (ps.map shown) := by
  induction ps with
  | nil => exact .nil
  | cons p ps ih =>
    refine .cons ?_ (ih (fun q hq => hn q (by simp [hq])) fun q hq => h q (by simp [hq]))
    obtain ⟨x, post, hv, hle, ht⟩ := turn_of_nodup (hn p (by simp))
    have hlast := ends_at_last_iff.mp (h p (by simp))
    rw [shown_split hv, List.mem_append, List.mem_singleton] at hlast
    have hx : p.last = x := hlast.resolve_left fun hm => lt_irrefl _ (front_below hm)
    subst hx
    rw [shown_split hv]
    simpa [wheel] using ht

theorem mem_sections_shown {c : List ℤ} :
    c ∈ (ps.map shown).sections ↔ List.Forall₂ (fun p v => v ∈ shown p) ps c := by
  rw [List.mem_sections, List.forall₂_map_right_iff]
  exact ⟨List.Forall₂.flip, List.Forall₂.flip⟩

end Shown

section Corners

variable {ps : List Param} {c : List ℤ}

theorem attrset_maxnum (ps : List Param) : (attrsetOf ps).maxnum = ps.length := List.length_map ..

theorem corner_values (hc : c ∈ corners (attrsetOf ps)) :
    List.Forall₂ (fun p v => v = p.first ∨ v = p.last) ps c := by
  obtain ⟨s, hs, rfl⟩ := List.mem_map.mp hc
  have hlen := length_sign hs
  rw [List.length_replicate, attrset_maxnum] at hlen
  have hcorner : (cornerVals (attrsetOf ps) s).length = ps.length := by
    rw [cornerVals, List.length_zipWith, List.length_zip, hlen]
    simp [attrsetOf]
  rw [List.forall₂_iff_get]
  refine ⟨hcorner.symm, fun i hi hi' => ?_⟩
  have hget : (cornerVals (attrsetOf ps) s)[i]? =
      some ((cornerVals (attrsetOf ps) s).get ⟨i, hi'⟩) := List.getElem?_eq_getElem hi'
  refine (corner_value_cases hget).imp (fun hb => ?_) fun hx => ?_
  · rw [baseval_at, List.getElem?_eq_getElem hi, Option.map_some, Option.some.injEq] at hb
    exact hb.symm
  · rw [maxval_at, List.getElem?_eq_getElem hi, Option.map_some, Option.some.injEq] at hx
    exact hx.symm

/-- The sign vector of ones. -/
theorem signs_ones {l : ℕ} (av : List ℤ) (hl : l < av.length) :
    ∃ s ∈ signs l av, ∀ m, m ≤ l → s[m]? = some 1 := by
  induction l generalizing av with
  | zero =>
    refine ⟨av.set 0 1, by simp [signs], fun m hm => ?_⟩
    rw [Nat.le_zero.mp hm, List.getElem?_set_self hl]
  | succ l ih =>
    obtain ⟨s, hs, hones⟩ := ih (av.set (l+1) 1) (by rw [List.length_set]; omega)
    refine ⟨s, by rw [signs_succ]; exact List.mem_append_right _ hs, fun m hm => ?_⟩
    rcases Nat.lt_or_eq_of_le hm with hlt | rfl
    · exact hones m (by omega)
    · rw [sign_above hs (Nat.lt_succ_self l), List.getElem?_set_self hl]

/-- One corner has the last value of every parameter. -/
theorem last_corner (hne : ps ≠ []) : ps.map Param.last ∈ corners (attrsetOf ps) := by
  have hpos := List.length_pos_iff.mpr hne
  have hmax := attrset_maxnum ps
  obtain ⟨s, hs, hones⟩ := signs_ones (l := (attrsetOf ps).maxnum-1)
    (List.replicate (attrsetOf ps).maxnum 0) (by rw [List.length_replicate]; omega)
  refine List.mem_map.mpr ⟨s, hs, List.ext_getElem? fun m => ?_⟩
  rw [corner_value, List.getElem?_map]
  by_cases hm : m < ps.length
  · rw [hones m (by omega), baseval_at, maxval_at, List.getElem?_eq_getElem hm]
    rfl
  · rw [baseval_at, List.getElem?_eq_none (Nat.not_lt.mp hm)]
    cases s[m]? <;> rfl

theorem fnctset_nodup (ps : List Param) (cs : List (List ℤ)) :
    (fnctsetOf ps cs).functions.Nodup := by
  refine List.Nodup.of_map Function.id ?_
  have hids : (fnctsetOf ps cs).functions.map Function.id = List.range cs.length := by
    rw [fnctsetOf, List.map_map, List.range_eq_range', ← List.zipIdx_map_snd]
    rfl
  rw [hids]
  exact List.nodup_range

theorem fnctset_mem {cs : List (List ℤ)} :
    (∃ g ∈ (fnctsetOf ps cs).functions, g.attrVals = c) ↔ c ∈ cs := by
  rw [← List.mem_map, fnctset_values]

theorem cornered_of_registered (hne : ps ≠ []) {cs : List (List ℤ)}
    (h : ∀ c ∈ corners (attrsetOf ps), c ∈ cs) : Cornered (fnctsetOf ps cs) where
  attrs := by simpa [fnctsetOf, attrset_maxnum] using List.length_pos_iff.mpr hne
  base_length := by simp [fnctsetOf, attrsetOf, Attrset.maxnum]
  max_length := by simp [fnctsetOf, attrsetOf, Attrset.maxnum]
  corner c hc := fnctset_mem.mpr (h c hc)
  distinct := fnctset_nodup ps cs

theorem mapM_absent {α : Type} {l : List (Option α)} (h : none ∈ l) : l.mapM id = none := by
  induction l with
  | nil => cases h
  | cons o l ih =>
    cases o with
    | none => rfl
    | some a => simp [ih (by simpa using h)]

/-- A request comes about only if each corner was registered. -/
theorem registered_of_created {threshold : ℤ} {f : Fnctset} {r : Request}
    (h : requestCreate .twokFactorial threshold f = .ok r) :
    ∀ c ∈ corners f.attrset, ∃ g ∈ f.functions, g.attrVals = c := by
  intro c hc
  cases hk : f.attrset.maxnum with
  | zero =>
    simp only [requestCreate, emethodInit, twokInit, hk] at h
    cases h
  | succ k =>
    obtain ⟨s, hs, rfl⟩ := List.mem_map.mp hc
    rw [hk, Nat.add_sub_cancel] at hs
    have hmem := List.mem_map_of_mem (f := fun s => f.getFnctByAttrs (cornerVals f.attrset s)) hs
    rw [← get_twok_functions_signs] at hmem
    cases hfind : f.getFnctByAttrs (cornerVals f.attrset s) with
    | some i =>
      obtain ⟨hi, he, _⟩ := List.findIdx?_eq_some_iff_getElem.mp hfind
      exact ⟨f.functions[i], List.getElem_mem hi, by simpa using he⟩
    | none =>
      rw [hfind] at hmem
      simp only [requestCreate, emethodInit, twokInit, hk, mapM_absent hmem] at h
      cases h

end Corners

def CornersRegistered (threshold : ℤ) (ps : List Param) (f : Fnctset) : Prop :=
  ∃ r t, requestCreate .twokFactorial threshold f = .ok r ∧ r.emethod.twok = some t ∧
    t.fnctsPos.length = 2^ps.length ∧
    ∀ pos ∈ t.fnctsPos, ∃ g, f.functions[pos]? = some g ∧
      List.Forall₂ (fun p v => v = p.first ∨ v = p.last) ps g.attrVals

section Registered

variable {threshold : ℤ} {ps : List Param}

theorem registered_cornered {cs : List (List ℤ)} (hf : Cornered (fnctsetOf ps cs)) :
    CornersRegistered threshold ps (fnctsetOf ps cs) := by
  refine ⟨_, _, twok_created hf, rfl, ?_, fun pos hpos => ?_⟩
  · exact (length_cornerPos hf).trans (congrArg (2^·) (attrset_maxnum ps))
  · obtain ⟨c, hc, rfl⟩ := List.mem_map.mp hpos
    obtain ⟨g, hg, rfl⟩ := corner_found hf hc
    exact ⟨g, hg, corner_values hc⟩

/-- What the population registers, of the values that it shows. -/
theorem registered_shown {check : List ℤ → Except Fault ℤ} {n : ℕ} {t : Population}
    (ht : populateFunctionSet check ps n = some (.ok t)) :
    (∀ p ∈ ps, (front p).Nodup) ∧ t.functions = t.visited.filter (accepts check) ∧
      (∀ c ∈ t.visited, c ∈ (ps.map shown).sections) ∧
      ((∀ p ∈ ps, EndsAtLast p) → t.visited = (ps.map shown).sections) := by
  obtain ⟨l, e, hr, hv⟩ := run_of_populateLoop check n ht
  have hn := nodup_of_run hr
  have hvisited : t.visited = l := hv
  refine ⟨hn, populateLoop_sound check ht rfl, fun c hc => ?_, fun hlast => ?_⟩
  · obtain ⟨l', e', hr', _, hin⟩ := Odometer.run_settling (settling_of_nodup hn)
    obtain ⟨rfl, _⟩ := Odometer.run_unique hr hr'
    exact hin c (hvisited ▸ hc)
  · obtain ⟨hl, _⟩ := Odometer.run_unique hr (Odometer.run_sections (returning_shown hn hlast))
    rw [hvisited, hl]

theorem shown_corner {c : List ℤ} (hlast : ∀ p ∈ ps, EndsAtLast p)
    (hc : c ∈ corners (attrsetOf ps)) : c ∈ (ps.map shown).sections := by
  rw [mem_sections_shown]
  have h := corner_values hc
  clear hc
  induction h with
  | nil => exact .nil
  | @cons p v ps c hv _ ih =>
    rw [List.forall_mem_cons] at hlast
    refine .cons ?_ (ih hlast.2)
    rcases hv with rfl | rfl
    · exact first_shown p
    · exact ends_at_last_iff.mp hlast.1

end Registered

/-- Every corner exists exactly when each parameter shows its last value and
the conditions accept every combination of first and last values. -/
theorem corners_registered_iff (threshold : ℤ) (bytes : Text → ℤ) (leftover : List ℤ → ℤ)
    (ps : List Param) (hne : ps ≠ []) (n : ℕ) (t : Population)
    (ht : populateFunctionSet (fun v => checkRpn bytes ps v (leftover v)) ps n = some (.ok t)) :
    CornersRegistered threshold ps (fnctsetOf ps t.functions) ↔
      (∀ p ∈ ps, EndsAtLast p) ∧ ∀ c ∈ corners (attrsetOf ps),
        accepts (fun v => checkRpn bytes ps v (leftover v)) c = true := by
  obtain ⟨hn, hfunctions, hin, hall⟩ := registered_shown ht
  constructor
  · rintro ⟨r, _, hr, _⟩
    have hreg : ∀ c ∈ corners (attrsetOf ps), c ∈ t.functions := fun c hc =>
      fnctset_mem.mp (registered_of_created hr c hc)
    rw [hfunctions] at hreg
    refine ⟨fun p hp => ?_, fun c hc => (List.mem_filter.mp (hreg c hc)).2⟩
    have hlast := mem_sections_shown.mp (hin _ (List.mem_of_mem_filter
      (hreg _ (last_corner hne))))
    rw [List.forall₂_map_right_iff, List.forall₂_same] at hlast
    exact ends_at_last_iff.mpr (hlast p hp)
  · rintro ⟨hlast, haccept⟩
    refine registered_cornered (cornered_of_registered hne fun c hc => ?_)
    rw [hfunctions, List.mem_filter, hall hlast]
    exact ⟨shown_corner hlast hc, haccept c hc⟩

def letters : Param := Param.listed "a".toList "x".toList ["y".toList]

def dependent : Param := (Param.listed "b".toList "x".toList ["y".toList]).withElements
  [.param 0, .string "x".toList, .operator .equal] (by decide)

def threeLetters : Param := Param.listed "a".toList "x".toList ["y".toList, "z".toList]

/-- `b -p {x y} -i "a x = a z = ||"`. -/
def atEnds : Param := (Param.listed "b".toList "x".toList ["y".toList]).withElements
  [.param 0, .string "x".toList, .operator .equal, .param 0, .string "z".toList,
    .operator .equal, .operator .or] (by decide)

/-- The condition leaves out a function that is no corner. -/
theorem corners_registered_ends :
    CornersRegistered 50 [threeLetters, atEnds]
      (fnctsetOf [threeLetters, atEnds] [[0, 0], [1, 0], [2, 0], [0, 1], [2, 1]]) :=
  (corners_registered_iff 50 (fun _ => 0) (fun _ => 0) [threeLetters, atEnds] (by decide) 6
    ⟨_, _, [[0, 0], [1, 0], [2, 0], [0, 1], [2, 1]]⟩ rfl).mpr ⟨by decide, by decide⟩

/-- The condition leaves out the corner of both second values. -/
theorem corner_missing :
    (populateFunctionSet (fun v => checkRpn (fun _ => 0) [letters, dependent] v 0)
        [letters, dependent] 4).map (fun r => r.map Population.functions) =
          some (.ok [[0, 0], [1, 0], [0, 1]]) ∧
      requestCreate .twokFactorial 50 (fnctsetOf [letters, dependent] [[0, 0], [1, 0], [0, 1]]) =
        .error .undefined ∧
      ¬ CornersRegistered 50 [letters, dependent]
        (fnctsetOf [letters, dependent] [[0, 0], [1, 0], [0, 1]]) := by
  have hnone : requestCreate .twokFactorial 50
      (fnctsetOf [letters, dependent] [[0, 0], [1, 0], [0, 1]]) = .error .undefined := by
    decide +kernel
  refine ⟨by decide, hnone, ?_⟩
  rintro ⟨r, _, hr, _⟩
  rw [hnone] at hr
  cases hr

end Otpo.CornerRegistration
