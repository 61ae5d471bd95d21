import Otpo.PerfHypothesis
import Otpo.Library.Odometer
import Otpo.Library.RelatedLists
import Mathlib.Data.List.Perm.Subperm

/-!
# The odometer of the search over hypotheses

An attribute is a wheel that advances while its value lies below the last one
listed. If every attribute comes so far from its first value, the combinations
come to an end, whichever attribute is the active one.
-/

set_option autoImplicit false

namespace Otpo.HypothesisOdometer
open Otpo.Adcl Otpo.PerfHypothesis

def wheel (attr : List ℤ) : Odometer.Wheel ℤ where
  advance v := if v < attr.getLastD 0 then some (attributeGetNextval attr v) else none
  carry v := if v = attr.getLastD 0 then attr.headD 0 else v

def Climbs (attr : List ℤ) : Prop := ∃ o e, Odometer.Turn (wheel attr) (attr.headD 0) o e

structure Formed (a : Attrset) : Prop where
  base : a.baseval = a.attrs.map (·.headD 0)
  max : a.maxval = a.attrs.map (·.getLastD 0)
  attrs : ∀ attr ∈ a.attrs, attr ≠ [] ∧ Climbs attr

section Attribute

variable {attr : List ℤ} {v u : ℤ}

theorem next_val_mem (hv : v ∈ attr) (hlt : v < attr.getLastD 0) :
    attributeGetNextval attr v ∈ attr := by
  rw [attributeGetNextval]
  cases hf : attr.findIdx? (· == v) with
  | none =>
    rw [List.findIdx?_eq_none_iff] at hf
    simpa using hf v hv
  | some i =>
    obtain ⟨hi, hiv, _⟩ := List.findIdx?_eq_some_iff_getElem.mp hf
    by_cases hlast : i = attr.length-1
    · subst hlast
      have hne : attr ≠ [] := List.ne_nil_of_mem hv
      rw [beq_iff_eq] at hiv
      rw [List.getLastD_eq_getLast?, List.getLast?_eq_getLast_of_ne_nil hne, Option.getD_some,
        List.getLast_eq_getElem, hiv] at hlt
      exact absurd hlt (lt_irrefl v)
    · simp only [if_pos hlast]
      rw [List.getD_eq_getElem?_getD, List.getElem?_eq_getElem (by omega), Option.getD_some]
      exact List.getElem_mem _

theorem wheel_advance : (wheel attr).advance v = some u ↔
    v < attr.getLastD 0 ∧ attributeGetNextval attr v = u := by
  simp only [wheel, Option.ite_none_right_eq_some, Option.some.injEq]

def Shows (attr : List ℤ) (v : ℤ) : Prop :=
  v ∈ attr ∧ (∃ o e, Odometer.Turn (wheel attr) v o e) ∧ attr.headD 0 ∈ attr ∧ Climbs attr

theorem shows_advance (h : Shows attr v) (ha : (wheel attr).advance v = some u) :
    Shows attr u := by
  obtain ⟨hv, ⟨o, e, ht⟩, hbase⟩ := h
  obtain ⟨hlt, rfl⟩ := wheel_advance.mp ha
  refine ⟨next_val_mem hv hlt, ?_, hbase⟩
  cases ht with
  | last hn => rw [hn] at ha; cases ha
  | next hn t =>
    rw [hn] at ha
    cases ha
    exact ⟨_, _, t⟩

theorem shows_base (h : Shows attr v) : Shows attr (attr.headD 0) := ⟨h.2.2.1, h.2.2.2, h.2.2⟩

theorem shows_turn (h : Shows attr v) :
    ∃ o e, Odometer.Turn (wheel attr) v o e ∧ o.length ≤ attr.length := by
  obtain ⟨o, e, ht⟩ := h.2.1
  have hsubset : ∀ x ∈ o, x ∈ attr := fun x hx =>
    (Odometer.turn_subset (fun _ _ => shows_advance) ht h x hx).1
  exact ⟨o, e, ht, ((Odometer.turn_nodup ht).subperm hsubset).length_le⟩

def gear (attr : List ℤ) : Odometer.Gear ℤ where
  toWheel := wheel attr
  faces := attr.length
  shows := Shows attr
  turn _ := shows_turn
  shows_advance _ _ := shows_advance
  shows_carry v h := by
    simp only [wheel]
    split
    · exact shows_base h
    · exact h

def still (attr : List ℤ) : Odometer.Gear ℤ where
  advance _ := none
  carry v := v
  faces := 1
  shows := Shows attr
  turn v _ := ⟨[v], v, .last rfl, le_rfl⟩
  shows_advance _ _ _ h := by cases h
  shows_carry _ h := h

theorem still_left (attr : List ℤ) (v : ℤ) : Odometer.left (still attr).toWheel v = 0 := by
  have ht : Odometer.Turn (still attr).toWheel v [v] v := .last rfl
  exact Nat.succ_injective (Odometer.left_turn ht)

end Attribute

def gears (active : ℕ) : ℕ → List (List ℤ) → List (Odometer.Gear ℤ)
  | _, [] => []
  | i, attr::attrs => (if i = active then still attr else gear attr) :: gears active (i+1) attrs

def Placed (a : Attrset) (vals : List ℤ) : Prop := List.Forall₂ Shows a.attrs vals

def size (a : Attrset) : ℕ := (a.attrs.map List.length).prod

noncomputable def total (a : Attrset) (active : ℕ) (vals : List ℤ) : ℕ :=
  Odometer.left (wheel (a.attrs.getD active [])) (vals.getD active 0) +
    (a.attrs.getD active []).length*Odometer.weight (gears active 0 a.attrs) vals

section Gears

variable {active : ℕ}

theorem reading_gears (active i : ℕ) (attrs : List (List ℤ)) (vals : List ℤ) :
    Odometer.Reading (gears active i attrs) vals ↔ List.Forall₂ Shows attrs vals := by
  induction attrs generalizing i vals with
  | nil => simp [gears, Odometer.Reading]
  | cons attr attrs ih =>
    cases vals with
    | nil => simp [gears, Odometer.Reading]
    | cons v vals =>
      have ih := ih (i+1) vals
      rw [Odometer.Reading] at ih ⊢
      rw [gears, List.forall₂_cons, List.forall₂_cons, ih]
      split <;> rfl

theorem weight_set (active i : ℕ) (attrs : List (List ℤ)) (vals : List ℤ) (x : ℤ) :
    Odometer.weight (gears (i+active) i attrs) (vals.set active x) =
      Odometer.weight (gears (i+active) i attrs) vals := by
  induction attrs generalizing i active vals with
  | nil => cases vals <;> rfl
  | cons attr attrs ih =>
    cases vals with
    | nil => rfl
    | cons v vals =>
      cases active with
      | zero => simp only [gears, Nat.add_zero, if_true, List.set_cons_zero, Odometer.weight,
          still_left]
      | succ active =>
        have hne : i ≠ i+(active+1) := by omega
        have ih := ih active (i+1) vals
        rw [Nat.add_right_comm, Nat.add_assoc] at ih
        simp only [gears, if_neg hne, List.set_cons_succ, Odometer.weight, ih]

theorem faces_behind {i : ℕ} (h : active < i) (attrs : List (List ℤ)) :
    ((gears active i attrs).map Odometer.Gear.faces).prod = (attrs.map List.length).prod := by
  induction attrs generalizing i with
  | nil => rfl
  | cons attr attrs ih =>
    rw [gears, if_neg h.ne', List.map_cons, List.prod_cons, ih (Nat.lt_succ_of_lt h),
      List.map_cons, List.prod_cons]
    rfl

theorem faces_gears (i : ℕ) {attrs : List (List ℤ)} (h : active < attrs.length) :
    (attrs.getD active []).length*((gears (i+active) i attrs).map Odometer.Gear.faces).prod =
      (attrs.map List.length).prod := by
  induction attrs generalizing i active with
  | nil => cases h
  | cons attr attrs ih =>
    cases active with
    | zero =>
      rw [gears, Nat.add_zero, if_pos rfl, List.map_cons, List.prod_cons,
        faces_behind (Nat.lt_succ_self i)]
      simp [still]
    | succ active =>
      have hne : i ≠ i+(active+1) := by omega
      have ih := ih (i+1) (Nat.lt_of_succ_lt_succ h)
      rw [Nat.add_right_comm, Nat.add_assoc] at ih
      rw [gears, if_neg hne, List.map_cons, List.prod_cons, List.map_cons, List.prod_cons, ← ih,
        List.getD_cons_succ]
      exact Nat.mul_left_comm _ _ _

end Gears

section Steps

variable {a : Attrset} {active : ℕ} {vals : List ℤ}

theorem attr_get {i : ℕ} (hi : i < a.maxnum) : a.attrs[i]? = some (a.attrs.getD i []) := by
  rw [List.getD_eq_getElem?_getD, List.getElem?_eq_getElem hi, Option.getD_some]

theorem max_get (h : Formed a) {i : ℕ} (hi : i < a.maxnum) :
    a.maxval.getD i 0 = (a.attrs.getD i []).getLastD 0 := by
  rw [h.max, List.getD_eq_getElem?_getD, List.getElem?_map, attr_get hi]
  rfl

theorem base_get (h : Formed a) {i : ℕ} (hi : i < a.maxnum) :
    a.baseval.getD i 0 = (a.attrs.getD i []).headD 0 := by
  rw [h.base, List.getD_eq_getElem?_getD, List.getElem?_map, attr_get hi]
  rfl

theorem placed_get (h : Placed a vals) {i : ℕ} (hi : i < a.maxnum) :
    Shows (a.attrs.getD i []) (vals.getD i 0) := by
  obtain ⟨v, hv, hs⟩ := RelatedLists.related_get h (attr_get hi)
  have hget : vals.getD i 0 = v := by rw [List.getD_eq_getElem?_getD, hv, Option.getD_some]
  rw [hget]
  exact hs

theorem placed_set (h : Placed a vals) {i : ℕ} {v : ℤ} (hv : Shows (a.attrs.getD i []) v) :
    Placed a (vals.set i v) := by
  refine RelatedLists.related_set h fun attr ha => ?_
  rwa [List.getD_eq_getElem?_getD, ha] at hv

theorem placed_base (h : Formed a) : Placed a a.baseval := by
  rw [Placed, h.base, List.forall₂_map_right_iff, List.forall₂_same]
  intro attr hattr
  obtain ⟨hne, hclimbs⟩ := h.attrs attr hattr
  have hmem : attr.headD 0 ∈ attr := by
    cases attr with
    | nil => exact absurd rfl hne
    | cons v vs => exact List.mem_cons_self
  exact ⟨hmem, hclimbs, hmem, hclimbs⟩

theorem step_attr (h : Formed a) {i : ℕ} (hi : i < a.maxnum) (v : ℤ) :
    stepAttr a i v =
      match (wheel (a.attrs.getD i [])).advance v with
      | some u => (true, u)
      | none => (false, (wheel (a.attrs.getD i [])).carry v) := by
  rw [stepAttr, max_get h hi, base_get h hi]
  simp only [wheel]
  by_cases hlt : v < (a.attrs.getD i []).getLastD 0
  · rw [if_pos hlt, if_pos hlt]
  · rw [if_neg hlt, if_neg hlt]
    by_cases heq : v = (a.attrs.getD i []).getLastD 0
    · simp only [if_pos heq]
    · simp only [if_neg heq]

/-- The carry loop is a tick of the attributes other than the active one. -/
theorem next_excluding_tick (h : Formed a) {i : ℕ} {attrs : List (List ℤ)}
    (hdrop : a.attrs.drop i = attrs) (hvals : List.Forall₂ Shows attrs vals) :
    nextExcluding a active i vals =
      Odometer.tick ((gears active i attrs).map Odometer.Gear.toWheel) vals := by
  induction hvals generalizing i with
  | nil => rfl
  | @cons attr v attrs vals hv _ ih =>
    have hi : i < a.attrs.length := by
      by_contra hge
      rw [List.drop_eq_nil_of_le (not_lt.mp hge)] at hdrop
      cases hdrop
    rw [List.drop_eq_getElem_cons hi, List.cons.injEq] at hdrop
    have hattr : a.attrs.getD i [] = attr := by
      rw [List.getD_eq_getElem?_getD, List.getElem?_eq_getElem hi, Option.getD_some, hdrop.1]
    rw [nextExcluding, ih hdrop.2, gears]
    by_cases hactive : i = active
    · rw [if_pos hactive, if_pos hactive]
      rfl
    · rw [if_neg hactive, if_neg hactive, step_attr h hi, hattr]
      cases ha : (wheel attr).advance v with
      | some u => exact (Odometer.tick_advance ha _ _).symm
      | none => exact (Odometer.tick_spent ha _ _).symm

theorem excluding_tick (h : Formed a) (hv : Placed a vals) :
    nextExcluding a active 0 vals =
      Odometer.tick ((gears active 0 a.attrs).map Odometer.Gear.toWheel) vals :=
  next_excluding_tick h List.drop_zero hv

theorem excluding_placed (active : ℕ) (h : Formed a) (hv : Placed a vals) :
    Placed a (nextExcluding a active 0 vals).2 := by
  rw [excluding_tick h hv, Placed, ← reading_gears active 0]
  exact Odometer.tick_reading ((reading_gears active 0 _ _).mpr hv)

theorem excluding_weight (active : ℕ) (h : Formed a) (hv : Placed a vals)
    (hmore : (nextExcluding a active 0 vals).1 = true) :
    Odometer.weight (gears active 0 a.attrs) (nextExcluding a active 0 vals).2 <
      Odometer.weight (gears active 0 a.attrs) vals := by
  rw [excluding_tick h hv] at hmore ⊢
  exact Odometer.tick_weight ((reading_gears active 0 _ _).mpr hv) hmore

theorem weight_lt (active : ℕ) (hv : Placed a vals) :
    Odometer.weight (gears active 0 a.attrs) vals <
      ((gears active 0 a.attrs).map Odometer.Gear.faces).prod :=
  Odometer.weight_lt ((reading_gears active 0 _ _).mpr hv)

theorem weight_set_active (x : ℤ) : Odometer.weight (gears active 0 a.attrs) (vals.set active x) =
    Odometer.weight (gears active 0 a.attrs) vals := by
  have h := weight_set active 0 a.attrs vals x
  rwa [Nat.zero_add] at h

theorem total_lt (hv : Placed a vals) (ha : active < a.maxnum) : total a active vals < size a := by
  have hfaces := faces_gears 0 ha
  have hdigit := Odometer.digit_lt (b := 0) (Odometer.left_lt (gear _) (placed_get hv ha))
    (weight_lt active hv)
  rw [Nat.zero_add] at hfaces hdigit
  rw [size, ← hfaces]
  exact hdigit

/-- Each step leaves fewer combinations to come. -/
theorem combination_step (h : Formed a) (hv : Placed a vals) (ha : active < a.maxnum)
    (hstep : (nextAttrCombination a active vals).1 ≠ .evalDone) :
    Placed a (nextAttrCombination a active vals).2 ∧
      total a active (nextAttrCombination a active vals).2 < total a active vals := by
  have hshows := placed_get hv ha
  simp only [nextAttrCombination, max_get h ha, base_get h ha] at hstep ⊢
  by_cases hlt : vals.getD active 0 < (a.attrs.getD active []).getLastD 0
  · have hadvance := wheel_advance.mpr ⟨hlt, rfl⟩
    have hnext := shows_advance hshows hadvance
    have hplaced := placed_set hv hnext
    have hlength : active < vals.length := by
      rw [← hv.length_eq]
      exact ha
    have hget : ∀ u, (vals.set active u).getD active 0 = u := fun u => by
      rw [List.getD_eq_getElem?_getD, List.getElem?_set_self hlength, Option.getD_some]
    simp only [if_pos hlt]
    refine ⟨hplaced, ?_⟩
    rw [total, total, weight_set_active, hget]
    exact Nat.add_lt_add_right (Odometer.left_decreases (gear _) hshows hadvance) _
  · rw [if_neg hlt] at hstep ⊢
    by_cases heq : vals.getD active 0 = (a.attrs.getD active []).getLastD 0
    · rw [if_pos heq] at hstep ⊢
      have hplaced := placed_set hv (shows_base hshows)
      have hweight := excluding_weight active h hplaced
      have hresult := excluding_placed active h hplaced
      generalize nextExcluding a active 0 (vals.set active ((a.attrs.getD active []).headD 0)) =
        next at hstep hweight hresult ⊢
      obtain ⟨more, vals'⟩ := next
      cases more with
      | false => exact absurd rfl hstep
      | true =>
        refine ⟨hresult, ?_⟩
        rw [weight_set_active] at hweight
        exact Odometer.digit_lt (Odometer.left_lt (gear _) (placed_get hresult ha)) (hweight rfl)
    · rw [if_neg heq] at hstep
      exact absurd rfl hstep

end Steps

section Shrinking

variable {i : ℕ} {v : ℤ}

theorem climbs_single (v : ℤ) : Climbs [v] := by
  refine ⟨[v], v, ?_⟩
  have hcarry : (wheel [v]).carry v = v := by simp [wheel]
  have ht : Odometer.Turn (wheel [v]) v [v] ((wheel [v]).carry v) := .last (by simp [wheel])
  rwa [hcarry] at ht

theorem size_set {attrs : List (List ℤ)} (h : ∀ attr ∈ attrs, attr ≠ []) :
    ((attrs.set i [v]).map List.length).prod ≤ (attrs.map List.length).prod := by
  induction attrs generalizing i with
  | nil => rfl
  | cons attr attrs ih =>
    rw [List.forall_mem_cons] at h
    have hpos : 1 ≤ attr.length := List.length_pos_iff.mpr h.1
    cases i with
    | zero =>
      simp only [List.set_cons_zero, List.map_cons, List.prod_cons]
      exact Nat.mul_le_mul_right _ hpos
    | succ i =>
      simp only [List.set_cons_succ, List.map_cons, List.prod_cons]
      exact Nat.mul_le_mul_left _ (ih h.2)

theorem formed_shrink {e : Emethod} (h : Formed e.fnctset.attrset) (i : ℕ) (v : ℤ) :
    Formed (shrinklistByattr e i v).fnctset.attrset := by
  refine ⟨?_, ?_, fun attr hattr => ?_⟩
  · change e.fnctset.attrset.baseval.set i v = (e.fnctset.attrset.attrs.set i [v]).map _
    rw [h.base, List.map_set]
    rfl
  · change e.fnctset.attrset.maxval.set i v = (e.fnctset.attrset.attrs.set i [v]).map _
    rw [h.max, List.map_set]
    rfl
  · rcases List.mem_or_eq_of_mem_set hattr with hattr | rfl
    · exact h.attrs attr hattr
    · exact ⟨List.cons_ne_nil _ _, climbs_single v⟩

theorem size_shrink {e : Emethod} (h : Formed e.fnctset.attrset) (i : ℕ) (v : ℤ) :
    size (shrinklistByattr e i v).fnctset.attrset ≤ size e.fnctset.attrset :=
  size_set fun attr hattr => (h.attrs attr hattr).1

end Shrinking

end Otpo.HypothesisOdometer
