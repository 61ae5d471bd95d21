import Otpo.InitializeTrace
import Otpo.NumberText
import Otpo.Library.TextBuffer
import Otpo.Library.RelatedResults
import Mathlib.Analysis.SpecialFunctions.Log.Base
import Mathlib.Data.List.GetD

/-!
# The names of values

Each value of an attribute has a name: the string of a list, or the number of a
range in decimals. The digits of a number are counted by its logarithm. Their
count is the size of the buffer, and the print into it is bounded by one more.
-/

set_option autoImplicit false

namespace Otpo.ValueNames
open TextBuffer Otpo.ParamList Otpo.NumberText Otpo.ParseLine Otpo.InitializeList
open Otpo.RangeTraversal Otpo.InitializeTrace

section Program

def null : Char := Char.ofNat 0

def absInt (v : ℤ) : Except Fault ℕ := (int32 v.natAbs).map Int.toNat

def floorLog10 (x : ℕ) : ℕ := Nat.log 10 x

def digits (v : ℤ) : Except Fault ℕ :=
  if 0 < v then (absInt v).map fun x => floorLog10 x+1
  else if 0 = v then .ok 1
  else (absInt v).map fun x => floorLog10 x+2

def numberName (v : ℤ) : Except Fault (Buffer Char) :=
  (digits v).map fun digits => ⟨digits, printed null (digits+1) (printInt v)⟩

def attrValName (p : ListParam) (j : ℕ) : Except Fault (Buffer Char) :=
  if maxValues ≤ j then .error .undefined
  else
    match p.stringValues[j]? with
    | some s => .ok (copied null s)
    | none =>
      match (p.possibleValues.getD [])[j]? with
      | some v => numberName v
      | none => .error .undefined

def attrValNames (p : ListParam) : Except Fault (List (Buffer Char)) :=
  (List.range (numValues p)).mapM (attrValName p)

def populateAttributes (ps : List ListParam) : Except Fault (List (List (Buffer Char))) :=
  ps.mapM attrValNames

end Program

section Purpose

def Contained (v : ℤ) : Prop :=
  ∃ (r : Range) (p p' : ListParam) (fuel : ℕ),
    getPossibleValues fuel (withRange r p) = .ok (some p') ∧ v ∈ p'.possibleValues.getD []

def Named (v : ℤ) : Prop := ∃ b, numberName v = .ok b ∧ Holds null b (printInt v)

def names (p : ListParam) : List Text :=
  if p.stringValues = [] then (p.possibleValues.getD []).map printInt else p.stringValues

end Purpose

section Digits

variable {n : ℕ} {v : ℤ}

/-- The count in the model is that of the logarithm. -/
theorem floor_log10 (x : ℕ) : ⌊Real.logb 10 x⌋₊ = floorLog10 x :=
  Real.natFloor_logb_natCast 10 x

theorem print_length (hn : 0 < n) : (printD n).length = floorLog10 n+1 := by
  apply Nat.le_antisymm
  · apply print_length_le (Nat.succ_pos _)
    exact Nat.lt_pow_succ_log_self (by decide) n
  · have hpos : 0 < (printD n).length := List.length_pos_iff.mpr (print_ne_nil n)
    have hlt : n < 10^(printD n).length :=
      (Nat.length_toDigits_le_iff (by decide) hpos).mp (Nat.le_refl _)
    exact Nat.log_lt_of_lt_pow (by omega) hlt

theorem abs_int (h : Int32 v) (hne : v ≠ -2147483648) : absInt v = .ok v.natAbs := by
  obtain ⟨hlow, hhigh⟩ := h
  have hfit : int32 v.natAbs = .ok v.natAbs := if_pos (by omega)
  rw [absInt, hfit]
  rfl

/-- The count is right, a sign included. -/
theorem digits_length (h : Int32 v) (hne : v ≠ -2147483648) :
    digits v = .ok (printInt v).length := by
  rw [digits, abs_int h hne, printInt]
  by_cases hpos : 0 < v
  · rw [if_pos hpos, if_neg (by omega), print_length (by omega)]
    rfl
  · rw [if_neg hpos]
    by_cases hzero : 0 = v
    · subst hzero
      rfl
    · rw [if_neg hzero, if_pos (by omega), List.length_cons, print_length (by omega)]
      rfl

theorem digits_least : digits (-2147483648) = .error .undefined := rfl

theorem print_no_null (v : ℤ) : null ∉ printInt v := by
  have hdigits : ∀ n, null ∉ printD n := by
    intro n hmem
    exact absurd (print_digits hmem) (by decide)
  rw [printInt]
  split_ifs
  · rw [List.mem_cons, not_or]
    exact ⟨by decide, hdigits _⟩
  · exact hdigits _

end Digits

section Names

variable {v : ℤ}

theorem number_name (h : Int32 v) (hne : v ≠ -2147483648) : numberName v =
    .ok ⟨(printInt v).length, printed null ((printInt v).length+1) (printInt v)⟩ := by
  rw [numberName, digits_length h hne]
  rfl

theorem number_name_fault (h : Int32 v) :
    numberName v = .error .undefined ↔ v = -2147483648 := by
  constructor
  · intro hfault
    by_contra hne
    rw [number_name h hne] at hfault
    cases hfault
  · rintro rfl
    rw [numberName, digits_least]
    rfl

theorem number_name_ok (h : Int32 v) :
    (∃ b, numberName v = .ok b) ↔ v ≠ -2147483648 := by
  constructor
  · rintro ⟨b, hb⟩ rfl
    rw [(number_name_fault h).mpr rfl] at hb
    cases hb
  · exact fun hne => ⟨_, number_name h hne⟩

/-- A name that is made has its text, and its null behind the buffer. -/
theorem number_name_made (h : Int32 v) {b : Buffer Char} (hb : numberName v = .ok b) :
    text null b = printInt v ∧ b.room = (printInt v).length ∧ ¬ Inside b := by
  rw [number_name h ((number_name_ok h).mp ⟨b, hb⟩)] at hb
  cases hb
  have hlt := Nat.lt_succ_self (printInt v).length
  refine ⟨(printed_text_iff (print_no_null v) (Nat.succ_pos _)).mpr hlt, rfl, ?_⟩
  rw [printed_inside_iff hlt]
  exact Nat.lt_irrefl _

end Names

section Ranges

variable {o : Operator} {k e tmp v : ℤ} {vs : List ℤ} {p p' : ListParam} {r : Range} {fuel : ℕ}

theorem visits_int (h : Visits o k e tmp vs) : ∀ v ∈ vs, Int32 v := by
  induction h with
  | stop h => exact List.forall_mem_nil _
  | skip h scales rest ih => exact ih
  | pass h hs ht => exact List.forall_mem_nil _
  | keep h hs ht rest ih => exact List.forall_mem_cons.mpr ⟨hs.fits, ih⟩

/-- The values of a range are those that its loop comes to. -/
theorem range_values (h : getPossibleValues fuel (withRange r p) = .ok (some p')) :
    p'.stringValues = [] ∧ ∀ v ∈ p'.possibleValues.getD [], Int32 v := by
  rw [getPossibleValues, if_neg (by simp [withRange])] at h
  simp only [withRange] at h
  cases hloop : rangeLoop (some r.operation) (some r.increment) r.endValue fuel r.startValue
      [r.startValue] 1 with
  | error fault =>
    rw [hloop] at h
    cases h
  | ok result =>
    rw [hloop] at h
    cases result with
    | none => cases h
    | some q =>
      obtain ⟨values, num⟩ := q
      simp only at h
      split_ifs at h
      cases h
      obtain ⟨vs, hvisits, rfl⟩ := loop_visits r.arithmetic hloop
      refine ⟨rfl, ?_⟩
      rw [Option.getD_some, List.singleton_append, List.forall_mem_cons]
      exact ⟨r.start_int, visits_int hvisits⟩

/-- A range from a number on that has no other value. -/
theorem single_contained (h : Visits .add 1 e v []) (hv : Int32 v) (he : Int32 e) :
    Contained v := by
  let r : Range := ⟨v, e, .add, 1, hv, he, by simp, by decide⟩
  obtain ⟨fuel, hloop⟩ := visits_loop (by simp) h
  have hresult := hloop [v] 1 Nat.one_pos
  rw [List.append_nil] at hresult
  refine ⟨r, newParam [], { withRange r (newParam []) with possibleValues := some [v] }, fuel,
    ?_, List.mem_singleton_self v⟩
  rw [getPossibleValues, if_neg (by simp [withRange])]
  simp only [withRange, r, hresult]
  rfl

/-- Every `int` is a value of some range. -/
theorem contained_iff : Contained v ↔ Int32 v := by
  constructor
  · rintro ⟨r, p, p', fuel, hvalues, hv⟩
    exact (range_values hvalues).2 v hv
  · intro hv
    by_cases hleast : v = -2147483648
    · subst hleast
      have hsteps : Steps .add 1 (-2147483648) (-2147483647) := ⟨rfl, by decide, by simp⟩
      exact single_contained (.pass (Int.le_refl _) hsteps (by decide)) hv hv
    · obtain ⟨hlow, hhigh⟩ := hv
      exact single_contained (.stop (show -2147483648 < v by omega)) ⟨hlow, hhigh⟩ (by decide)

end Ranges

/-- No name of a number fits its buffer. That of the least `int` has no size,
and any other is complete, with its null one place behind the buffer. -/
theorem range_names_overrun {v : ℤ} (h : Contained v) :
    ¬ Named v ∧ (numberName v = .error .undefined ↔ v = -2147483648) ∧
      ∀ b, numberName v = .ok b → text null b = printInt v ∧ b.room = (printInt v).length := by
  have hv := contained_iff.mp h
  have hmade : ∀ b, numberName v = .ok b →
      text null b = printInt v ∧ b.room = (printInt v).length := by
    intro b hb
    obtain ⟨htext, hroom, -⟩ := number_name_made hv hb
    exact ⟨htext, hroom⟩
  refine ⟨?_, number_name_fault hv, hmade⟩
  rintro ⟨b, hb, hholds⟩
  have hroom := hholds.room
  rw [(hmade b hb).2] at hroom
  exact Nat.not_succ_le_self _ hroom

theorem range_names_overrun_ten :
    Contained (-10) ∧ ¬ Named (-10) ∧ ∃ b, numberName (-10) = .ok b ∧
      text null b = "-10".toList ∧ b.room = 3 := by
  have h : Contained (-10) := contained_iff.mpr (by decide)
  have hb : numberName (-10) = .ok ⟨3, "-10".toList ++ [null]⟩ := by decide +kernel
  obtain ⟨hnot, -, hname⟩ := range_names_overrun h
  exact ⟨h, hnot, _, hb, hname _ hb⟩

/-- The buffer for one digit has no room for the null behind it. -/
theorem range_name_zero : Contained 0 ∧ numberName 0 = .ok ⟨1, ['0', null]⟩ ∧ ¬ Named 0 := by
  have hb : numberName 0 = .ok ⟨1, ['0', null]⟩ := by decide +kernel
  refine ⟨contained_iff.mpr (by decide), hb, ?_⟩
  rintro ⟨b, hname, hholds⟩
  rw [hb] at hname
  cases hname
  exact absurd hholds.room (by decide)

section Attributes

variable {p : ListParam} {ps : List ListParam} {bs : List (Buffer Char)}
variable {bss : List (List (Buffer Char))} {j : ℕ}

structure Proper (p : ListParam) : Prop where
  strings : ∀ s ∈ p.stringValues, null ∉ s
  numbers : ∀ v ∈ p.possibleValues.getD [], Int32 v

theorem range_proper {r : Range} {p p' : ListParam} {fuel : ℕ}
    (h : getPossibleValues fuel (withRange r p) = .ok (some p')) : Proper p' := by
  obtain ⟨hstrings, hnumbers⟩ := range_values h
  constructor
  · rw [hstrings]
    exact List.forall_mem_nil _
  · exact hnumbers

/-- The numbers of a range have names of their own, the strings of a list are copied. -/
theorem attr_val_name (hj : j < numValues p) : attrValName p j =
    if maxValues ≤ j then .error .undefined
    else if p.stringValues = [] then numberName ((p.possibleValues.getD []).getD j 0)
    else .ok (copied null (p.stringValues.getD j [])) := by
  rw [numValues] at hj
  rw [attrValName]
  by_cases hmax : maxValues ≤ j
  · rw [if_pos hmax, if_pos hmax]
  · rw [if_neg hmax, if_neg hmax]
    by_cases hs : p.stringValues = []
    · rw [if_pos hs] at hj
      rw [if_pos hs, hs, List.getElem?_nil, List.getElem?_eq_getElem hj,
        List.getD_eq_getElem _ _ hj]
    · rw [if_neg hs] at hj
      rw [if_neg hs, List.getElem?_eq_getElem hj, List.getD_eq_getElem _ _ hj]

theorem number_mem (hj : j < numValues p) (hs : p.stringValues = []) :
    (p.possibleValues.getD []).getD j 0 ∈ p.possibleValues.getD [] := by
  rw [numValues, if_pos hs] at hj
  rw [List.getD_eq_getElem _ _ hj]
  exact List.getElem_mem hj

/-- All names of a parameter are made unless there are too many, or the least
`int` is one of its numbers. -/
theorem names_returned_iff (hp : Proper p) :
    (∃ bs, attrValNames p = .ok bs) ↔ numValues p ≤ maxValues ∧
      (p.stringValues = [] → -2147483648 ∉ p.possibleValues.getD []) := by
  rw [attrValNames, RelatedResults.map_returns_iff]
  simp only [List.mem_range]
  constructor
  · intro h
    have hmax : ∀ j < numValues p, ¬ maxValues ≤ j := by
      intro j hj hmax
      obtain ⟨b, hb⟩ := h j hj
      rw [attr_val_name hj, if_pos hmax] at hb
      cases hb
    constructor
    · by_contra hlt
      exact hmax maxValues (by omega) (Nat.le_refl _)
    · intro hs hmem
      obtain ⟨j, hj, hget⟩ := List.mem_iff_getElem.mp hmem
      have hlt : j < numValues p := by
        rw [numValues, if_pos hs]
        exact hj
      have hname := h j hlt
      rw [attr_val_name hlt, if_neg (hmax j hlt), if_pos hs, List.getD_eq_getElem _ _ hj, hget,
        number_name_ok (by decide)] at hname
      exact hname rfl
  · rintro ⟨hmax, hleast⟩ j hj
    rw [attr_val_name hj, if_neg (by omega)]
    by_cases hs : p.stringValues = []
    · have hmem := number_mem hj hs
      rw [if_pos hs, number_name_ok (hp.numbers _ hmem)]
      exact fun heq => hleast hs (heq ▸ hmem)
    · rw [if_neg hs]
      exact ⟨_, rfl⟩

/-- The name of one value. -/
theorem name_text (hp : Proper p) (hj : j < numValues p) {b : Buffer Char}
    (hb : attrValName p j = .ok b) : (names p)[j]? = some (text null b) ∧
      (Inside b ↔ p.stringValues ≠ []) := by
  rw [attr_val_name hj] at hb
  rw [numValues] at hj
  split_ifs at hb with hmax hs
  · rw [if_pos hs] at hj
    have hint := hp.numbers _ (List.getElem_mem hj)
    rw [List.getD_eq_getElem _ _ hj] at hb
    obtain ⟨htext, -, hinside⟩ := number_name_made hint hb
    rw [names, if_pos hs, List.getElem?_map, List.getElem?_eq_getElem hj, htext]
    exact ⟨rfl, iff_of_false hinside fun hne => hne hs⟩
  · rw [if_neg hs] at hj
    have hnull := hp.strings _ (List.getElem_mem hj)
    rw [List.getD_eq_getElem _ _ hj] at hb
    cases hb
    rw [names, if_neg hs, List.getElem?_eq_getElem hj, (copied_holds hnull).text]
    exact ⟨rfl, iff_of_true (copied_inside _) hs⟩

theorem names_length (p : ListParam) : (names p).length = numValues p := by
  rw [names, numValues]
  split_ifs
  · exact List.length_map _
  · rfl

/-- The names are those of the values, and those of a range leave their buffers. -/
theorem names_made (hp : Proper p) (h : attrValNames p = .ok bs) :
    bs.map (text null) = names p ∧ ((∀ b ∈ bs, Inside b) ↔ p.stringValues ≠ [] ∨ bs = []) := by
  have hall := RelatedResults.map_ok_iff.mp h
  have hlength := hall.length_eq
  rw [List.length_range] at hlength
  have hget : ∀ (j : ℕ) (b : Buffer Char), bs[j]? = some b → (names p)[j]? = some (text null b) ∧
      (Inside b ↔ p.stringValues ≠ []) := by
    intro j b hb
    have hj : j < numValues p := hlength ▸ (List.getElem?_eq_some_iff.mp hb).1
    obtain ⟨b', hb', hname⟩ := RelatedLists.related_get hall (List.getElem?_range hj)
    rw [hb] at hb'
    cases hb'
    exact name_text hp hj hname
  constructor
  · apply List.ext_getElem?
    intro j
    rw [List.getElem?_map]
    cases hb : bs[j]? with
    | none =>
      rw [List.getElem?_eq_none_iff, ← hlength, ← names_length] at hb
      exact (List.getElem?_eq_none hb).symm
    | some b => exact (hget j b hb).1.symm
  · constructor
    · intro hinside
      by_cases hbs : bs = []
      · exact Or.inr hbs
      · obtain ⟨b, rest, rfl⟩ := List.exists_cons_of_ne_nil hbs
        exact Or.inl ((hget 0 b rfl).2.mp (hinside b List.mem_cons_self))
    · rintro (hs | rfl)
      · intro b hb
        obtain ⟨j, hj⟩ := List.mem_iff_getElem?.mp hb
        exact (hget j b hj).2.mpr hs
      · exact List.forall_mem_nil _

/-- `otpo_populate_attributes` returns with the names of all values. -/
theorem populate_names (hp : ∀ p ∈ ps, Proper p) (h : populateAttributes ps = .ok bss) :
    bss.map (List.map (text null)) = ps.map names := by
  have hall := RelatedResults.map_ok_iff.mp h
  rw [← List.forall₂_eq_eq_eq, List.forall₂_map_left_iff, List.forall₂_map_right_iff]
  have hmade := (List.forall₂_and_left _ _).mpr ⟨hp, hall⟩
  exact (hmade.imp fun _ _ hq => (names_made hq.1 hq.2).1).flip

theorem populate_returns_iff (hp : ∀ p ∈ ps, Proper p) :
    (∃ bss, populateAttributes ps = .ok bss) ↔ ∀ p ∈ ps, numValues p ≤ maxValues ∧
      (p.stringValues = [] → -2147483648 ∉ p.possibleValues.getD []) := by
  rw [populateAttributes, RelatedResults.map_returns_iff]
  exact forall₂_congr fun p hmem => names_returned_iff (hp p hmem)

/-- It stays in its buffers if and only if no parameter is a range. -/
theorem populate_inside_iff (hp : ∀ p ∈ ps, Proper p) (hvalues : ∀ p ∈ ps, 0 < numValues p)
    (h : populateAttributes ps = .ok bss) :
    (∀ bs ∈ bss, ∀ b ∈ bs, Inside b) ↔ ∀ p ∈ ps, p.stringValues ≠ [] := by
  have hall := RelatedResults.map_ok_iff.mp h
  clear h
  induction hall with
  | nil => exact iff_of_true (List.forall_mem_nil _) (List.forall_mem_nil _)
  | @cons p bs ps bss hbs _ ih =>
    rw [List.forall_mem_cons] at hp hvalues
    obtain ⟨hnames, hinside⟩ := names_made hp.1 hbs
    have hne : bs ≠ [] := by
      rintro rfl
      have hlength := congrArg List.length hnames
      rw [names_length] at hlength
      exact absurd hlength (Nat.ne_of_lt hvalues.1)
    rw [List.forall_mem_cons, List.forall_mem_cons, hinside, or_iff_left hne]
    exact and_congr_right fun _ => ih hp.2 hvalues.2

end Attributes

end Otpo.ValueNames
