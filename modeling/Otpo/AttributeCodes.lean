import Otpo.HypothesisOdometer
import Otpo.Library.AlignedLists

/-!
# Attribute sets with other codes

Two attribute sets list strictly ascending values, the same number for each
attribute. A value of one corresponds to that at the same place of the other,
and every step on the combinations leads to corresponding values again.
-/

set_option autoImplicit false

namespace Otpo.AttributeCodes
open AlignedLists RelatedLists Otpo.Adcl Otpo.PerfHypothesis Otpo.HypothesisOdometer

structure Ascending (a : Attrset) : Prop where
  base : a.baseval = a.attrs.map (·.headD 0)
  max : a.maxval = a.attrs.map (·.getLastD 0)
  attrs : ∀ attr ∈ a.attrs, attr ≠ [] ∧ attr.Pairwise (· < ·)

structure Matching (a a' : Attrset) : Prop where
  left : Ascending a
  right : Ascending a'
  lengths : a.attrs.map List.length = a'.attrs.map List.length

def Codes (a a' : Attrset) (m : ℕ) : ℤ → ℤ → Prop :=
  Aligned (a.attrs.getD m []) (a'.attrs.getD m [])

structure Valued (a a' : Attrset) (vals vals' : List ℤ) : Prop where
  length : vals.length = a.maxnum
  codes : Indexed (Codes a a') 0 vals vals'

section Values

variable {a a' : Attrset} {m : ℕ} {v v' w w' : ℤ}

theorem maxnum_eq (h : Matching a a') : a.maxnum = a'.maxnum := by
  have hlength := congrArg List.length h.lengths
  rwa [List.length_map, List.length_map] at hlength

theorem lengths_get (h : Matching a a') (m : ℕ) :
    (a.attrs.getD m []).length = (a'.attrs.getD m []).length := by
  have hget := congrArg (·[m]?) h.lengths
  simp only [List.getElem?_map] at hget
  rw [List.getD_eq_getElem?_getD, List.getD_eq_getElem?_getD]
  cases hl : a.attrs[m]? <;> cases hl' : a'.attrs[m]? <;> rw [hl, hl'] at hget <;>
    simp_all

theorem ascending_get (h : Ascending a) (m : ℕ) : (a.attrs.getD m []).Pairwise (· < ·) := by
  rw [List.getD_eq_getElem?_getD]
  cases hget : a.attrs[m]? with
  | none => exact .nil
  | some attr => exact (h.attrs attr (List.mem_of_getElem? hget)).2

theorem codes_lt (h : Matching a a') (hv : Codes a a' m v w) (hv' : Codes a a' m v' w') :
    v < v' ↔ w < w' :=
  aligned_lt (ascending_get h.left m) (ascending_get h.right m) hv hv'

theorem codes_eq (h : Matching a a') (hv : Codes a a' m v w) (hv' : Codes a a' m v' w') :
    v = v' ↔ w = w' :=
  aligned_eq (ascending_get h.left m) (ascending_get h.right m) hv hv'

theorem ascending_ne_nil (h : Ascending a) (hm : m < a.maxnum) : a.attrs.getD m [] ≠ [] :=
  (h.attrs _ (List.mem_of_getElem? (attr_get hm))).1

theorem ascending_base (h : Ascending a) (hm : m < a.maxnum) :
    (a.attrs.getD m [])[0]? = some (a.baseval.getD m 0) := by
  obtain ⟨v, attr, hattr⟩ := List.exists_cons_of_ne_nil (ascending_ne_nil h hm)
  rw [h.base, List.getD_eq_getElem?_getD (l := a.attrs.map _), List.getElem?_map, attr_get hm,
    hattr]
  rfl

theorem ascending_max (h : Ascending a) (hm : m < a.maxnum) :
    (a.attrs.getD m [])[(a.attrs.getD m []).length-1]? = some (a.maxval.getD m 0) := by
  rw [← List.getLast?_eq_getElem?, List.getLast?_eq_getLast_of_ne_nil (ascending_ne_nil h hm),
    h.max, List.getD_eq_getElem?_getD (l := a.attrs.map _), List.getElem?_map, attr_get hm,
    Option.map_some, Option.getD_some, List.getLastD_eq_getLast?,
    List.getLast?_eq_getLast_of_ne_nil (ascending_ne_nil h hm), Option.getD_some]

theorem codes_base (h : Matching a a') (hm : m < a.maxnum) :
    Codes a a' m (a.baseval.getD m 0) (a'.baseval.getD m 0) :=
  ⟨0, ascending_base h.left hm, ascending_base h.right (maxnum_eq h ▸ hm)⟩

theorem codes_max (h : Matching a a') (hm : m < a.maxnum) :
    Codes a a' m (a.maxval.getD m 0) (a'.maxval.getD m 0) :=
  ⟨_, ascending_max h.left hm, lengths_get h m ▸ ascending_max h.right (maxnum_eq h ▸ hm)⟩

/-- Only the attributes of the set have values. -/
theorem codes_lt_maxnum (h : Codes a a' m v w) : m < a.maxnum := by
  obtain ⟨j, hj, _⟩ := h
  by_contra hge
  rw [List.getD_eq_getElem?_getD, List.getElem?_eq_none (not_lt.mp hge)] at hj
  cases hj

theorem next_val_get {attr : List ℤ} (h : attr.Pairwise (· < ·)) {j : ℕ} (hj : attr[j]? = some v)
    (hlast : j+1 < attr.length) : attr[j+1]? = some (attributeGetNextval attr v) := by
  have hne : j ≠ attr.length-1 := by omega
  simp only [attributeGetNextval, ascending_find_idx h hj, if_pos hne]
  rw [List.getD_eq_getElem?_getD, List.getElem?_eq_getElem hlast, Option.getD_some]

theorem codes_next (h : Matching a a') (hv : Codes a a' m v w) (hlt : v < a.maxval.getD m 0) :
    Codes a a' m (attributeGetNextval (a.attrs.getD m []) v)
      (attributeGetNextval (a'.attrs.getD m []) w) := by
  have hm := codes_lt_maxnum hv
  obtain ⟨j, hj, hj'⟩ := hv
  rw [ascending_lt (ascending_get h.left m) hj (ascending_max h.left hm)] at hlt
  have hlast : j+1 < (a.attrs.getD m []).length := by omega
  exact ⟨j+1, next_val_get (ascending_get h.left m) hj hlast,
    next_val_get (ascending_get h.right m) hj' (lengths_get h m ▸ hlast)⟩

end Values

section Steps

variable {a a' : Attrset} {m active : ℕ} {v w : ℤ} {vals vals' : List ℤ}

theorem step_attr_codes (h : Matching a a') (hv : Codes a a' m v w) :
    (stepAttr a m v).1 = (stepAttr a' m w).1 ∧
      Codes a a' m (stepAttr a m v).2 (stepAttr a' m w).2 := by
  have hm := codes_lt_maxnum hv
  have hlt := codes_lt h hv (codes_max h hm)
  have heq := codes_eq h hv (codes_max h hm)
  rw [stepAttr, stepAttr]
  by_cases hbelow : v < a.maxval.getD m 0
  · rw [if_pos hbelow, if_pos (hlt.mp hbelow)]
    exact ⟨rfl, codes_next h hv hbelow⟩
  · rw [if_neg hbelow, if_neg (mt hlt.mpr hbelow)]
    by_cases hlast : v = a.maxval.getD m 0
    · rw [if_pos hlast, if_pos (heq.mp hlast)]
      exact ⟨rfl, codes_base h hm⟩
    · rw [if_neg hlast, if_neg (mt heq.mpr hlast)]
      exact ⟨rfl, hv⟩

theorem next_excluding_codes (active : ℕ) (h : Matching a a') {i : ℕ}
    (hv : Indexed (Codes a a') i vals vals') :
    (nextExcluding a active i vals).1 = (nextExcluding a' active i vals').1 ∧
      Indexed (Codes a a') i (nextExcluding a active i vals).2
        (nextExcluding a' active i vals').2 := by
  induction hv with
  | nil i => exact ⟨rfl, .nil i⟩
  | @cons i v w vals vals' hvw ht ih =>
    rw [nextExcluding, nextExcluding]
    by_cases hactive : i = active
    · rw [if_pos hactive, if_pos hactive]
      exact ⟨ih.1, .cons hvw ih.2⟩
    · rw [if_neg hactive, if_neg hactive]
      obtain ⟨hmore, hcodes⟩ := step_attr_codes h hvw
      generalize stepAttr a i v = s at hmore hcodes
      generalize stepAttr a' i w = s' at hmore hcodes
      obtain ⟨more, u⟩ := s
      obtain ⟨more', u'⟩ := s'
      cases hmore
      cases more with
      | true => exact ⟨rfl, .cons hcodes ht⟩
      | false => exact ⟨ih.1, .cons hcodes ih.2⟩

theorem next_excluding_length (a : Attrset) (active i : ℕ) (vals : List ℤ) :
    (nextExcluding a active i vals).2.length = vals.length := by
  induction vals generalizing i with
  | nil => rfl
  | cons v vals ih =>
    rw [nextExcluding]
    split
    · exact congrArg (·+1) (ih (i+1))
    · split
      · rfl
      · exact congrArg (·+1) (ih (i+1))

theorem valued_set (h : Valued a a' vals vals') (hv : Codes a a' m v w) :
    Valued a a' (vals.set m v) (vals'.set m w) := by
  refine ⟨(List.length_set ..).trans h.length, indexed_set h.codes ?_⟩
  rwa [Nat.zero_add]

theorem valued_excluding (active : ℕ) (h : Matching a a') (hv : Valued a a' vals vals') :
    (nextExcluding a active 0 vals).1 = (nextExcluding a' active 0 vals').1 ∧
      Valued a a' (nextExcluding a active 0 vals).2 (nextExcluding a' active 0 vals').2 := by
  obtain ⟨hmore, hcodes⟩ := next_excluding_codes active h hv.codes
  exact ⟨hmore, (next_excluding_length ..).trans hv.length, hcodes⟩

theorem valued_get (h : Valued a a' vals vals') (hm : m < a.maxnum) :
    Codes a a' m (vals.getD m 0) (vals'.getD m 0) := by
  have hget := indexed_get_default h.codes (h.length.symm ▸ hm) 0 0
  rwa [Nat.zero_add] at hget

theorem indexed_of_get {R : ℕ → ℤ → ℤ → Prop} {i : ℕ} (hlength : vals.length = vals'.length)
    (h : ∀ k, k < vals.length → R (i+k) (vals.getD k 0) (vals'.getD k 0)) :
    Indexed R i vals vals' := by
  induction vals generalizing i vals' with
  | nil =>
    rw [List.eq_nil_of_length_eq_zero hlength.symm]
    exact .nil i
  | cons v vals ih =>
    cases vals' with
    | nil => cases hlength
    | cons w vals' =>
      refine .cons (h 0 (Nat.succ_pos _)) (ih (Nat.succ.inj hlength) fun k hk => ?_)
      have hnext := h (k+1) (Nat.succ_lt_succ hk)
      rw [Nat.add_right_comm, Nat.add_assoc]
      exact hnext

theorem valued_base (h : Matching a a') : Valued a a' a.baseval a'.baseval := by
  have hlength : a.baseval.length = a.maxnum := by rw [h.left.base, List.length_map]; rfl
  have hlength' : a'.baseval.length = a'.maxnum := by rw [h.right.base, List.length_map]; rfl
  have hsame : a.baseval.length = a'.baseval.length := by rw [hlength, hlength', maxnum_eq h]
  refine ⟨hlength, indexed_of_get hsame fun k hk => ?_⟩
  rw [Nat.zero_add]
  exact codes_base h (hlength ▸ hk)

/-- Corresponding combinations are followed by corresponding ones. -/
theorem combination_codes (h : Matching a a') (hv : Valued a a' vals vals')
    (ha : active < a.maxnum) :
    (nextAttrCombination a active vals).1 = (nextAttrCombination a' active vals').1 ∧
      Valued a a' (nextAttrCombination a active vals).2
        (nextAttrCombination a' active vals').2 := by
  have hval := valued_get hv ha
  have hlt := codes_lt h hval (codes_max h ha)
  have heq := codes_eq h hval (codes_max h ha)
  simp only [nextAttrCombination]
  by_cases hbelow : vals.getD active 0 < a.maxval.getD active 0
  · rw [if_pos hbelow, if_pos (hlt.mp hbelow)]
    exact ⟨rfl, valued_set hv (codes_next h hval hbelow)⟩
  · rw [if_neg hbelow, if_neg (mt hlt.mpr hbelow)]
    by_cases hlast : vals.getD active 0 = a.maxval.getD active 0
    · rw [if_pos hlast, if_pos (heq.mp hlast)]
      obtain ⟨hmore, hnext⟩ := valued_excluding active h
        (valued_set hv (codes_base h ha))
      generalize nextExcluding a active 0 (vals.set active (a.baseval.getD active 0)) = s
        at hmore hnext
      generalize nextExcluding a' active 0 (vals'.set active (a'.baseval.getD active 0)) = s'
        at hmore hnext
      obtain ⟨more, vals₁⟩ := s
      obtain ⟨more', vals₁'⟩ := s'
      cases hmore
      cases more with
      | true => exact ⟨rfl, hnext⟩
      | false => exact ⟨rfl, hnext⟩
    · rw [if_neg hlast, if_neg (mt heq.mpr hlast)]
      exact ⟨rfl, hv⟩

end Steps

section Shrinking

variable {a a' : Attrset} {m : ℕ} {v w : ℤ}

def fixed (a : Attrset) (m : ℕ) (v : ℤ) : Attrset where
  attrs := a.attrs.set m [v]
  baseval := a.baseval.set m v
  maxval := a.maxval.set m v
  numval := a.numval.set m 1

theorem ascending_fixed (h : Ascending a) (m : ℕ) (v : ℤ) : Ascending (fixed a m v) := by
  refine ⟨?_, ?_, fun attr hattr => ?_⟩
  · rw [fixed, h.base, List.map_set]
    rfl
  · rw [fixed, h.max, List.map_set]
    rfl
  · rcases List.mem_or_eq_of_mem_set hattr with hattr | rfl
    · exact h.attrs attr hattr
    · exact ⟨List.cons_ne_nil _ _, List.pairwise_singleton _ _⟩

theorem matching_fixed (h : Matching a a') (m : ℕ) (v w : ℤ) :
    Matching (fixed a m v) (fixed a' m w) := by
  refine ⟨ascending_fixed h.left m v, ascending_fixed h.right m w, ?_⟩
  rw [fixed, fixed, List.map_set, List.map_set, h.lengths]
  rfl

/-- What corresponds in the fixed sets is the fixed value, or corresponded before. -/
theorem codes_fixed {k : ℕ} {x y : ℤ} (h : Codes (fixed a m v) (fixed a' m w) k x y) :
    k = m ∧ x = v ∧ y = w ∨ Codes a a' k x y := by
  obtain ⟨j, hj, hj'⟩ := h
  rw [fixed, List.getD_eq_getElem?_getD, List.getElem?_set] at hj hj'
  by_cases hk : m = k
  · rw [if_pos hk] at hj hj'
    split at hj
    · split at hj'
      · rw [Option.getD_some] at hj hj'
        cases j with
        | zero =>
          cases hj
          cases hj'
          exact Or.inl ⟨hk.symm, rfl, rfl⟩
        | succ j => cases hj
      · cases hj'
    · cases hj
  · rw [if_neg hk, ← List.getD_eq_getElem?_getD] at hj hj'
    exact Or.inr ⟨j, hj, hj'⟩

end Shrinking

end Otpo.AttributeCodes
