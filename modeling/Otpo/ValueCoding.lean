import Otpo.Environment

/-!
# The coding of listed values

A combination holds integer codes. The name that the test gets for a code is
that of the first value with it, so a code has to stand for one string only.
-/

set_option autoImplicit false

namespace Otpo.ValueCoding
open Otpo.ParamList Otpo.Environment

structure ValueList where
  name : Text
  values : Text
  param : Param
  accepted : setStringValues name values = .ok param
  distinct : param.stringValues.Nodup

def valueName (p : Param) (v : ℤ) : Option Text := p.stringValues[p.possibleValues.idxOf v]?

def getCurrFunction (ps : List Param) (attrvals : List ℤ) : List (Option Text) :=
  List.zipWith valueName ps attrvals

def combination (ps : List Param) (positions : List ℕ) : List ℤ :=
  List.zipWith (fun p j => p.possibleValues.getD j 0) ps positions

def strings (ps : List Param) (positions : List ℕ) : List (Option Text) :=
  List.zipWith (fun p j => p.stringValues[j]?) ps positions

def Faithful (ps : List Param) : Prop :=
  (∀ p ∈ ps, p.possibleValues.Nodup) ∧
    ∀ positions, List.Forall₂ (fun p j => j < p.numValues) ps positions →
      getCurrFunction ps (combination ps positions) = strings ps positions

def Codable (ss : List Text) : Prop :=
  (∃ s ∈ ss, isNumber s = false) ∨ ∀ s ∈ ss, ∀ t ∈ ss, atoi s = atoi t → s = t

section Attribute

variable {p : Param} {v : ℤ}

def listAttribute (p : Param) (v : ℤ) (hs : p.stringValues ≠ []) (hv : v ∈ p.possibleValues) :
    Attribute where
  name := p.name
  isVirtual := false
  isAggregate := false
  values := p.possibleValues
  valuesNames := p.stringValues
  attrval := v
  named := p.strings.resolve_left hs
  current := hv

theorem value_name_attribute (hs : p.stringValues ≠ []) (hv : v ∈ p.possibleValues) :
    valueName p v = some (listAttribute p v hs hv).valueName := by
  have hlt := (listAttribute p v hs hv).index_lt
  exact List.getElem?_eq_getElem hlt

end Attribute

section Codes

variable {p : Param} {ss : List Text} {j : ℕ}

theorem codes_positions (h : ¬ ss.all isNumber = true) :
    codes ss = (List.range ss.length).map fun (j : ℕ) => (j:ℤ) := by
  rw [codes, if_neg h, List.map_id', List.map_eq_flatMap]
  rfl

theorem codes_nodup_iff (h : ss.Nodup) : (codes ss).Nodup ↔ Codable ss := by
  by_cases hall : ss.all isNumber = true
  · have hnumbers : ¬ ∃ s ∈ ss, isNumber s = false := by
      rintro ⟨s, hs, hfalse⟩
      rw [List.all_eq_true.mp hall s hs] at hfalse
      cases hfalse
    rw [codes, if_pos hall, Codable, or_iff_right hnumbers]
    exact ⟨fun hnodup s hs t ht heq => List.inj_on_of_nodup_map hnodup hs ht heq,
      fun hinj => h.map_on fun s hs t ht => hinj s hs t ht⟩
  · refine iff_of_true ?_ (Or.inl ?_)
    · rw [codes_positions hall]
      exact List.nodup_range.map fun a b hab => Int.ofNat_inj.mp hab
    · rw [List.all_eq_true] at hall
      push Not at hall
      obtain ⟨s, hs, hfalse⟩ := hall
      exact ⟨s, hs, Bool.eq_false_iff.mpr hfalse⟩

theorem value_name_position (h : p.possibleValues.Nodup) (hj : j < p.numValues) :
    valueName p (p.possibleValues.getD j 0) = p.stringValues[j]? := by
  have hj' : j < p.possibleValues.length := hj
  rw [valueName, List.getD_eq_getElem?_getD, List.getElem?_eq_getElem hj', Option.getD_some,
    h.idxOf_getElem]

theorem curr_function_strings {ps : List Param} (h : ∀ p ∈ ps, p.possibleValues.Nodup)
    {positions : List ℕ} (hpos : List.Forall₂ (fun p j => j < p.numValues) ps positions) :
    getCurrFunction ps (combination ps positions) = strings ps positions := by
  induction hpos with
  | nil => rfl
  | @cons p j ps positions hj _ ih =>
    rw [List.forall_mem_cons] at h
    have hfirst := value_name_position h.1 hj
    simp only [getCurrFunction, combination, strings, List.zipWith_cons_cons] at ih ⊢
    rw [hfirst, ih h.2]

theorem faithful_nodup {ps : List Param} :
    Faithful ps ↔ ∀ p ∈ ps, p.possibleValues.Nodup :=
  ⟨And.left, fun h => ⟨h, fun _ => curr_function_strings h⟩⟩

end Codes

/-- Lists of distinct strings are coded faithfully exactly if each has a string
that is no number, or has no number twice. -/
theorem faithful_iff (ls : List ValueList) :
    Faithful (ls.map ValueList.param) ↔ ∀ l ∈ ls, Codable l.param.stringValues := by
  rw [faithful_nodup, List.forall_mem_map]
  refine forall₂_congr fun l _ => ?_
  rw [(set_string_values_listed l.accepted).2]
  exact codes_nodup_iff l.distinct

example : ¬ Codable ["1".toList, "4294967297".toList] := by
  unfold Codable
  decide

/-- The sizes `4k` and `4m` have one code, and the test never gets `4m`. -/
theorem suffixes_confused :
    let p := Param.listed "size".toList "4k".toList ["4m".toList]
    setStringValues "size".toList "4k 4m".toList = .ok p ∧ p.stringValues.Nodup ∧
      p.possibleValues = [4, 4] ∧
      getCurrFunction [p] (combination [p] [1]) = [some "4k".toList] ∧
      strings [p] [1] = [some "4m".toList] ∧ ¬ Faithful [p] := by
  intro p
  refine ⟨by decide +kernel, by decide +kernel, by decide +kernel, by decide +kernel,
    by decide +kernel, fun h => ?_⟩
  have hnodup : ¬ p.possibleValues.Nodup := by decide +kernel
  exact hnodup (h.1 p List.mem_cons_self)

end Otpo.ValueCoding
