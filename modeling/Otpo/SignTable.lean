import Otpo.SignSubsets
import Otpo.Library.SignCharacters
import Mathlib.Data.List.GetD

/-!
# The sign table of the 2k search

A row of the table is a corner and a column a subset of the attributes; the
entry is the character of the subset at the signs of the corner.
-/

set_option autoImplicit false

namespace Otpo.SignTable
open Otpo.ParamList Otpo.Statistics Otpo.Adcl Otpo.TwokCorners Otpo.SignSubsets
open SignCharacters

section Purpose

def entry (t : Twok) (j c : ℕ) : ℤ := (t.signTable.getD j []).getD c 0

def labelled (t : Twok) (c : ℕ) : Finset ℕ := ones (t.labels.getD c [])

def average (filtering : Filtering) (time : List ℚ) : Double :=
  match filtering with
  | .unfiltered => quotient time.sum time.length
  | .filtered => quotient (sumFiltered time) (time.length-numOutliers time)

/-- The statistics hold these measurements of the functions, and no other
averages than theirs. -/
def Measured (times : ℕ → List ℚ) (e : Emethod) : Prop :=
  ∀ (pos : ℕ) (s : Stat), e.stats[pos]? = some s →
    s.time = times pos ∧ (s.filtered = true → s.lpts = averages s.time)

def CornerAverage (f : Fnctset) (t : Twok) (filtering : Filtering) (times : ℕ → List ℚ) (j : ℕ)
    (y : ℚ) : Prop :=
  ∃ pos g, t.functions[j]? = some g ∧ f.functions[pos]? = some g ∧
    average filtering (times pos) = some y

def cornerSign (a : Attrset) (g : Function) (m : ℕ) : ℤ :=
  if g.attrVals[m]? = a.baseval[m]? then -1 else 1

/-- The table over `k` attributes: the labels are the subsets, each nonempty
one once; the entries are products of signs; different columns are orthogonal;
behind the evaluation of the measurements the averages of the corners are
recovered from the sums of the columns. -/
structure Recovers (f : Fnctset) (k : ℕ) (t : Twok) : Prop where
  labels : Set.BijOn (labelled t) (Set.Ioo 0 (2^k)) {S | S.Nonempty ∧ S ⊆ Finset.range k}
  label_entries : ∀ c < 2^k, ∀ m < k,
    (t.labels.getD c [])[m]? = some (if m ∈ labelled t c then 1 else 0)
  first_column : labelled t 0 = ∅
  corner : ∀ j < 2^k, ∃ pos g, t.fnctsPos[j]? = some pos ∧ f.functions[pos]? = some g ∧
    t.functions[j]? = some g ∧
    (∀ m < k, g.attrVals[m]? = f.attrset.baseval[m]? ∨ g.attrVals[m]? = f.attrset.maxval[m]?) ∧
    ∀ c < 2^k, entry t j c = ∏ m ∈ labelled t c, cornerSign f.attrset g m
  orthogonal : ∀ c < 2^k, ∀ d < 2^k, c ≠ d →
    ∑ j ∈ Finset.range (2^k), entry t j c * entry t j d = 0
  recovered : ∀ (e e' : Emethod) (w : Option ℕ) (times : ℕ → List ℚ) (y : ℕ → ℚ),
    e.searchAlgo = .twokFactorial → Measured times e → getWinner e f.maxnum = .ok (w, e') →
    (∀ j < 2^k, CornerAverage f t e'.filtering times j (y j)) →
    ∃ q : ℕ → ℚ, (∀ c < 2^k, (computeQs e' t)[c]? = some (some (q c))) ∧
      ∀ j < 2^k, 2^k * y j = ∑ c ∈ Finset.range (2^k), (entry t j c : ℚ) * q c

end Purpose

section Lists

variable {A : Type} {M : Type} [AddCommMonoid M]

theorem sum_map_range (F : A → M) (l : List A) (d : A) :
    (l.map F).sum = ∑ c ∈ Finset.range l.length, F (l.getD c d) := by
  induction l with
  | nil => rfl
  | cons x l ih =>
    rw [List.map_cons, List.sum_cons, List.length_cons, Finset.sum_range_succ', ih, add_comm]
    rfl

/-- What a flip for each element makes of a sign. -/
theorem foldl_sign (P : A → Bool) (l : List A) (v : ℤ) :
    l.foldl (fun val q => if P q then -val else val) v =
      v * (l.map fun q => if P q then -1 else 1).prod := by
  induction l generalizing v with
  | nil => simp
  | cons q l ih =>
    rw [List.foldl_cons, ih, List.map_cons, List.prod_cons]
    split_ifs <;> ring

theorem prod_map_range (F : A → ℤ) (l : List A) (d : A) :
    (l.map F).prod = ∏ c ∈ Finset.range l.length, F (l.getD c d) := by
  induction l with
  | nil => rfl
  | cons x l ih =>
    rw [List.map_cons, List.prod_cons, List.length_cons, Finset.prod_range_succ', ih, mul_comm]
    rfl

end Lists

section Entries

variable {a : Attrset} {flag : List ℤ} {g : Function}

theorem sign_value (hflag : flag.length = a.baseval.length)
    (hvals : g.attrVals.length = a.baseval.length) :
    signValue a flag g = ∏ m ∈ ones flag, cornerSign a g m := by
  have hfold := foldl_sign (fun q : ℤ × ℤ × ℤ => decide (q.1 = 1 ∧ q.2.1 = q.2.2))
    (flag.zip (g.attrVals.zip a.baseval)) 1
  simp only [decide_eq_true_eq, one_mul] at hfold
  have hlength : (flag.zip (g.attrVals.zip a.baseval)).length = flag.length := by
    simp [hflag, hvals]
  rw [signValue, hfold, prod_map_range _ _ (0, 0, 0), hlength, ones, Finset.prod_filter]
  apply Finset.prod_congr rfl
  intro m hm
  have hm := Finset.mem_range.mp hm
  have hget : (flag.zip (g.attrVals.zip a.baseval)).getD m (0, 0, 0) =
      (flag[m], g.attrVals[m], a.baseval[m]) := by
    rw [List.getD_eq_getElem _ _ (by omega)]
    simp
  rw [hget, List.getElem?_eq_getElem hm, cornerSign, List.getElem?_eq_getElem (by omega),
    List.getElem?_eq_getElem (by omega)]
  simp only [Option.some.injEq]
  by_cases h1 : flag[m] = 1 <;> by_cases h2 : g.attrVals[m] = a.baseval[m] <;> simp [h1, h2]

end Entries

section Rows

variable {a : Attrset} {l m : ℕ} {av s : List ℤ}

def signAt (s : List ℤ) (m : ℕ) : ℤ := s.getD m 0

theorem sign_at_cases (hl : l < av.length) (hs : s ∈ signs l av) (hm : m ≤ l) :
    signAt s m = 1 ∨ signAt s m = -1 := by
  induction l generalizing av with
  | zero =>
    obtain rfl := Nat.le_zero.mp hm
    obtain ⟨i, hi, rfl⟩ := List.mem_map.mp hs
    rw [signAt, List.getD_eq_getElem?_getD, List.getElem?_set_self hl, Option.getD_some]
    simpa [or_comm] using hi
  | succ l ih =>
    obtain ⟨i, hi, hs⟩ := List.mem_flatMap.mp hs
    by_cases heq : m = l+1
    · rw [signAt, List.getD_eq_getElem?_getD, sign_above hs (by omega), heq,
        List.getElem?_set_self hl, Option.getD_some]
      simpa [or_comm] using hi
    · exact ih (by rw [List.length_set]; omega) hs (by omega)

/-- The sum of products over all sign vectors is the product of the sums. -/
theorem sum_signs (g : ℕ → ℤ → ℤ) (hl : l < av.length) :
    ((signs l av).map fun s => ∏ m ∈ Finset.range (l+1), g m (signAt s m)).sum =
      ∏ m ∈ Finset.range (l+1), (g m (-1) + g m 1) := by
  induction l generalizing av with
  | zero =>
    simp [signs, signAt, List.getD_eq_getElem?_getD, List.getElem?_set_self hl]
  | succ l ih =>
    have hlevel : ∀ i : ℤ, ((signs l (av.set (l+1) i)).map
        fun s => ∏ m ∈ Finset.range (l+1+1), g m (signAt s m)).sum =
          (∏ m ∈ Finset.range (l+1), (g m (-1) + g m 1)) * g (l+1) i := by
      intro i
      have hlength : l < (av.set (l+1) i).length := by
        rw [List.length_set]
        omega
      rw [← ih hlength, ← List.sum_map_mul_right]
      apply congrArg List.sum
      apply List.map_congr_left
      intro s hs
      rw [Finset.prod_range_succ _ (l+1)]
      congr 2
      rw [signAt, List.getD_eq_getElem?_getD, sign_above hs (Nat.lt_succ_self l),
        List.getElem?_set_self hl, Option.getD_some]
    rw [signs_succ, List.map_append, List.sum_append, hlevel, hlevel, ← mul_add,
      ← Finset.prod_range_succ]

/-- At a corner the sign tells the first value from the last one. -/
theorem corner_sign (hl : l < av.length) (hs : s ∈ signs l av) (hm : m ≤ l) {b x : ℤ}
    (hb : a.baseval[m]? = some b) (hx : a.maxval[m]? = some x) (hne : b ≠ x) {g : Function}
    (hg : g.attrVals = cornerVals a s) : cornerSign a g m = signAt s m := by
  have hlength := length_sign hs
  have hget : s[m]? = some (signAt s m) := by
    rw [signAt, List.getD_eq_getElem?_getD, List.getElem?_eq_getElem (by omega), Option.getD_some]
  rw [cornerSign, hg, corner_value, hget, hb, hx]
  rcases sign_at_cases hl hs hm with h | h <;> rw [h]
  · simp [Ne.symm hne]
  · simp

end Rows

section Table

variable {f : Fnctset} {t : Twok} {k j c d : ℕ}

def column (k c : ℕ) : Finset ℕ := (∅::subsets k 0).getD c ∅

structure Tabled (f : Fnctset) (k : ℕ) (t : Twok) : Prop where
  num : t.num = 2^k
  functions : t.functions = (cornerPos f).map (functionAt f)
  fnctsPos : t.fnctsPos = cornerPos f
  labels : t.labels = (∅::subsets k 0).map (indicator k)
  signTable : t.signTable = t.functions.map fun g =>
    (∅::subsets k 0).map fun S => ∏ m ∈ S, cornerSign f.attrset g m

theorem length_columns (k : ℕ) : (∅::subsets k 0).length = 2^k := length_subsets k 0

theorem column_get (hc : c < 2^k) : (∅::subsets k 0)[c]? = some (column k c) := by
  rw [column, List.getD_eq_getElem?_getD,
    List.getElem?_eq_getElem (by rw [length_columns]; exact hc), Option.getD_some]

theorem column_subset (hc : c < 2^k) : column k c ⊆ Finset.range k := by
  have hmem := List.mem_of_getElem? (column_get hc)
  rw [← List.mem_toFinset, (all_subsets k).1] at hmem
  exact Finset.mem_powerset.mp hmem

theorem column_injective (hc : c < 2^k) (hd : d < 2^k) (h : column k c = column k d) : c = d := by
  have hget := column_get hc
  rw [h, ← column_get hd] at hget
  exact (List.getElem?_inj (by rw [length_columns]; exact hc) (all_subsets k).2).mp hget

theorem column_mem (hpos : 0 < c) (hc : c < 2^k) : column k c ∈ subsets k 0 := by
  obtain ⟨n, rfl⟩ : ∃ n, c = n+1 := ⟨c-1, by omega⟩
  have hget := column_get hc
  rw [List.getElem?_cons_succ] at hget
  exact List.mem_of_getElem? hget

theorem exists_column {S : Finset ℕ} (hS : S ∈ subsets k 0) :
    ∃ c, 0 < c ∧ c < 2^k ∧ column k c = S := by
  obtain ⟨n, hn⟩ := List.mem_iff_getElem?.mp hS
  have hlt := (List.getElem?_eq_some_iff.mp hn).1
  have hlength := length_subsets k 0
  refine ⟨n+1, Nat.succ_pos n, by omega, ?_⟩
  rw [column, List.getD_eq_getElem?_getD, List.getElem?_cons_succ, hn, Option.getD_some]

theorem functions_found (h : Cornered f) :
    (cornerPos f).filterMap (f.functions[·]?) = (cornerPos f).map (functionAt f) := by
  rw [← List.filterMap_eq_map]
  apply List.filterMap_congr
  intro q hq
  exact functionAt_get (cornerPos_lt h hq)

def rows (k : ℕ) : List (List ℤ) := signs (k-1) (List.replicate k 0)

theorem row_length {s : List ℤ} (hs : s ∈ rows k) : s.length = k := by
  rw [length_sign hs, List.length_replicate]

theorem length_rows (hk : 0 < k) : (rows k).length = 2^k := by
  rw [rows, length_signs, Nat.sub_add_cancel hk]

/-- The function at a corner has the values that the signs stand for. -/
theorem corner_function (h : Cornered f) (hk : f.attrset.maxnum = k) {s : List ℤ}
    (hs : (rows k)[j]? = some s) : ∃ g, ((cornerPos f).map (functionAt f))[j]? = some g ∧
      g.attrVals = cornerVals f.attrset s := by
  have hcorner : (corners f.attrset)[j]? = some (cornerVals f.attrset s) := by
    rw [corners, hk, List.getElem?_map]
    exact congrArg (Option.map (cornerVals f.attrset)) hs
  obtain ⟨g, hg, hv⟩ := corner_found h (List.mem_of_getElem? hcorner)
  refine ⟨g, ?_, hv⟩
  rw [cornerPos, List.getElem?_map, List.getElem?_map, hcorner, Option.map_some, Option.map_some,
    functionAt, List.getD_eq_getElem?_getD, hg, Option.getD_some]

theorem corner_length (h : Cornered f) {g : Function}
    (hg : g ∈ (cornerPos f).map (functionAt f)) : g.attrVals.length = f.attrset.baseval.length := by
  obtain ⟨j, hj⟩ := List.mem_iff_getElem?.mp hg
  have hlt := (List.getElem?_eq_some_iff.mp hj).1
  rw [List.length_map, length_cornerPos h, ← length_rows h.attrs] at hlt
  have hs := List.getElem?_eq_getElem hlt
  obtain ⟨g', hg', hv⟩ := corner_function h rfl hs
  rw [hj, Option.some.injEq] at hg'
  rw [hg', hv, cornerVals, List.length_zipWith, List.length_zip, h.base_length, h.max_length,
    row_length (List.mem_of_getElem? hs), Nat.min_self, Nat.min_self]

theorem init_tabled (h : Cornered f) (hk : f.attrset.maxnum = k) (threshold : ℤ) {e : Emethod}
    (hf : e.fnctset = f) (horg : e.orgfnctset = f) :
    ∃ e' t, twokInit threshold e = .ok e' ∧ e'.twok = some t ∧ Tabled f k t := by
  obtain ⟨l, rfl⟩ : ∃ l, k = l+1 := ⟨k-1, by have := h.attrs; omega⟩
  obtain ⟨columns, hones, htable, hlengths⟩ :=
    sign_table_subsets f.attrset ((cornerPos f).map (functionAt f))
  have hcorners := corners_found h hk
  have hinit := twokInit.eq_1 threshold e
  simp only [hf, horg, hk, hcorners, functions_found h, htable] at hinit
  refine ⟨_, _, hinit, rfl, rfl, rfl, rfl, rfl, ?_⟩
  rw [hk] at hones
  apply List.map_congr_left
  intro g hg
  have hvals := corner_length h hg
  rw [← hones, List.map_cons, List.map_map, Finset.prod_empty]
  congr 1
  apply List.map_congr_left
  intro flag hflag
  exact sign_value ((hlengths flag hflag).trans h.base_length.symm) hvals

end Table

section Sums

variable {f : Fnctset} {t : Twok} {k j c d : ℕ}

theorem labelled_column (ht : Tabled f k t) (hc : c < 2^k) :
    t.labels.getD c [] = indicator k (column k c) ∧ labelled t c = column k c := by
  have hlabel : t.labels.getD c [] = indicator k (column k c) := by
    rw [ht.labels, List.getD_eq_getElem?_getD, List.getElem?_map, column_get hc]
    rfl
  refine ⟨hlabel, ?_⟩
  ext m
  rw [labelled, hlabel, mem_ones]
  by_cases hm : m < k
  · rw [indicator_get _ hm]
    by_cases h : m ∈ column k c <;> simp [h]
  · refine iff_of_false ?_ fun h => hm (Finset.mem_range.mp (column_subset hc h))
    rw [List.getElem?_eq_none (by simp [indicator]; omega)]
    exact fun h => by cases h

/-- An entry is the character of the column at the signs of the corner. -/
theorem entry_character (h : Cornered f) (hk : f.attrset.maxnum = k)
    (hne : ∀ m < k, f.attrset.baseval[m]? ≠ f.attrset.maxval[m]?) (ht : Tabled f k t)
    {s : List ℤ} (hs : (rows k)[j]? = some s) :
    ∃ g, t.functions[j]? = some g ∧ g.attrVals = cornerVals f.attrset s ∧
      (∀ m < k, cornerSign f.attrset g m = signAt s m) ∧ ∀ c < 2^k,
        entry t j c = (∏ m ∈ column k c, cornerSign f.attrset g m) ∧
          entry t j c = character (column k c) (signAt s) := by
  obtain ⟨g, hg, hv⟩ := corner_function h hk hs
  rw [← ht.functions] at hg
  have hpos : 0 < k := hk ▸ h.attrs
  have hsign : ∀ m < k, cornerSign f.attrset g m = signAt s m := by
    intro m hm
    have hb := List.getElem?_eq_getElem (show m < f.attrset.baseval.length by
      rw [h.base_length, hk]; exact hm)
    have hx := List.getElem?_eq_getElem (show m < f.attrset.maxval.length by
      rw [h.max_length, hk]; exact hm)
    apply corner_sign (by rw [List.length_replicate]; omega) (List.mem_of_getElem? hs)
      (show m ≤ k-1 by omega) hb hx _ hv
    intro heq
    exact hne m hm (by rw [hb, hx, heq])
  refine ⟨g, hg, hv, hsign, fun c hc => ?_⟩
  have hentry : entry t j c = ∏ m ∈ column k c, cornerSign f.attrset g m := by
    simp only [entry, ht.signTable, List.getD_eq_getElem?_getD, List.getElem?_map, hg,
      Option.map_some, Option.getD_some, column_get hc]
  refine ⟨hentry, hentry.trans ?_⟩
  apply Finset.prod_congr rfl
  intro m hm
  exact hsign m (Finset.mem_range.mp (column_subset hc hm))

theorem row_get (hk : 0 < k) (hj : j < 2^k) : (rows k)[j]? = some ((rows k).getD j []) := by
  rw [List.getD_eq_getElem?_getD,
    List.getElem?_eq_getElem (by rw [length_rows hk]; exact hj), Option.getD_some]

theorem row_signs (hk : 0 < k) (hj : j < 2^k) :
    Signs (Finset.range k) (signAt ((rows k).getD j [])) := by
  intro m hm
  have hm := Finset.mem_range.mp hm
  exact sign_at_cases (by rw [List.length_replicate]; omega) (List.mem_of_getElem? (row_get hk hj))
    (show m ≤ k-1 by omega)

theorem rows_distinct (hk : 0 < k) (hnodup : (rows k).Nodup) {i : ℕ} (hi : i < 2^k)
    (hj : j < 2^k)
    (h : ∀ m ∈ Finset.range k, signAt ((rows k).getD j []) m = signAt ((rows k).getD i []) m) :
    i = j := by
  have hgeti := row_get hk hi
  have hgetj := row_get hk hj
  have hleni := row_length (List.mem_of_getElem? hgeti)
  have hlenj := row_length (List.mem_of_getElem? hgetj)
  have heq : (rows k).getD i [] = (rows k).getD j [] := by
    apply List.ext_getElem (hleni.trans hlenj.symm)
    intro m hm hm'
    have hsame := h m (Finset.mem_range.mpr (by omega))
    rw [signAt, signAt, List.getD_eq_getElem _ _ hm', List.getD_eq_getElem _ _ hm] at hsame
    exact hsame.symm
  rw [heq, ← hgetj] at hgeti
  exact (List.getElem?_inj (by rw [length_rows hk]; exact hi) hnodup).mp hgeti

theorem columns_orthogonal (hk : 0 < k) (hc : c < 2^k) (hd : d < 2^k) (hne : c ≠ d) :
    ∑ j ∈ Finset.range (2^k), character (column k c) (signAt ((rows k).getD j [])) *
      character (column k d) (signAt ((rows k).getD j [])) = 0 := by
  have hsum := sum_map_range (fun s => character (column k c) (signAt s) *
    character (column k d) (signAt s)) (rows k) []
  rw [length_rows hk] at hsum
  rw [← hsum]
  simp only [character_factors (column_subset hc) (column_subset hd)]
  have hsigns := @sum_signs (k-1) (List.replicate k 0) (factor (column k c) (column k d))
    (by rw [List.length_replicate]; omega)
  rw [Nat.sub_add_cancel hk] at hsigns
  rw [rows, hsigns, prod_factors (column_subset hc) (column_subset hd),
    if_neg fun heq => hne (column_injective hc hd heq)]

theorem sum_columns (F : Finset ℕ → ℚ) :
    ∑ c ∈ Finset.range (2^k), F (column k c) = ∑ S ∈ (Finset.range k).powerset, F S := by
  have hsum := sum_map_range F (∅::subsets k 0) ∅
  rw [length_columns, ← List.sum_toFinset _ (all_subsets k).2, (all_subsets k).1] at hsum
  exact hsum.symm

theorem foldl_plus (l : List ℚ) (v : ℚ) : (l.map some).foldl plus (some v) = some (v+l.sum) := by
  induction l generalizing v with
  | nil => simp
  | cons x l ih =>
    rw [List.map_cons, List.foldl_cons, List.sum_cons, ← add_assoc, ← ih]
    rfl

def cornerResult (e : Emethod) (t : Twok) (j : ℕ) : Double :=
  t.fnctsPos[j]?.bind fun pos =>
    e.stats[pos]?.bind fun s => filteringPoint e.filtering s.gpts

/-- A sum over a column of the table with the results. -/
theorem compute_qs (h : Cornered f) (hk : f.attrset.maxnum = k) (ht : Tabled f k t)
    {e : Emethod} {y : ℕ → ℚ} (hy : ∀ j < 2^k, cornerResult e t j = some (y j)) (hc : c < 2^k) :
    (computeQs e t)[c]? = some (some (∑ j ∈ Finset.range (2^k), (entry t j c : ℚ) * y j)) := by
  have hlengths : t.signTable.length = 2^k ∧ t.fnctsPos.length = 2^k := by
    rw [ht.signTable, ht.functions, ht.fnctsPos, List.length_map, List.length_map,
      length_cornerPos h, hk]
    exact ⟨rfl, rfl⟩
  have hterms : ((t.signTable.zip t.fnctsPos).map fun q =>
      (((e.stats[q.2]?).bind fun s => filteringPoint e.filtering s.gpts).map
        fun x => (q.1.getD c 0 : ℚ)*x)) =
      ((List.range (2^k)).map fun j => (entry t j c : ℚ) * y j).map some := by
    apply List.ext_getElem?
    intro j
    rw [List.getElem?_map, List.getElem?_map, List.getElem?_map]
    by_cases hj : j < 2^k
    · have hrow := List.getElem?_eq_getElem (hlengths.1.symm ▸ hj)
      have hpos := List.getElem?_eq_getElem (hlengths.2.symm ▸ hj)
      have hresult := hy j hj
      rw [cornerResult, hpos, Option.bind_some] at hresult
      have hpair : (t.signTable.zip t.fnctsPos)[j]? = some (t.signTable[j], t.fnctsPos[j]) :=
        List.getElem?_zip_eq_some.mpr ⟨hrow, hpos⟩
      have hgetD : t.signTable.getD j [] = t.signTable[j] := by
        rw [List.getD_eq_getElem?_getD, hrow, Option.getD_some]
      have hentry : t.signTable[j].getD c 0 = entry t j c := by
        rw [entry, hgetD]
      rw [hpair, List.getElem?_range hj, Option.map_some, hresult, hentry]
      rfl
    · rw [List.getElem?_eq_none (by rw [List.length_zip]; omega),
        List.getElem?_eq_none (by rw [List.length_range]; omega)]
      rfl
  rw [computeQs, List.getElem?_map, ht.num, List.getElem?_range hc, Option.map_some, hterms,
    foldl_plus, zero_add, sum_map_range _ _ 0, List.length_range]
  congr 2
  apply Finset.sum_congr rfl
  intro j hj
  have hj := Finset.mem_range.mp hj
  rw [List.getD_eq_getElem?_getD, List.getElem?_range hj, Option.getD_some]

/-- The labels behind the first one are the nonempty subsets, each of them once. -/
theorem labelled_bijective (ht : Tabled f k t) :
    Set.BijOn (labelled t) (Set.Ioo 0 (2^k)) {S | S.Nonempty ∧ S ⊆ Finset.range k} := by
  refine ⟨?_, ?_, ?_⟩
  · intro c hc
    obtain ⟨hnonempty, hsub⟩ := mem_subsets.mp (column_mem hc.1 hc.2)
    rw [Nat.zero_add, Nat.Ico_zero_eq_range] at hsub
    rw [(labelled_column ht hc.2).2]
    exact ⟨hnonempty, hsub⟩
  · intro c hc d hd heq
    rw [(labelled_column ht hc.2).2, (labelled_column ht hd.2).2] at heq
    exact column_injective hc.2 hd.2 heq
  · rintro S ⟨hnonempty, hsub⟩
    rw [← Nat.Ico_zero_eq_range] at hsub
    obtain ⟨c, hlow, hc, rfl⟩ := exists_column (mem_subsets.mpr
      ⟨hnonempty, by rwa [Nat.zero_add]⟩)
    exact ⟨c, ⟨hlow, hc⟩, (labelled_column ht hc).2⟩

/-- A corner has the first or the last value of each attribute. -/
theorem corner_ends (h : Cornered f) (hk : f.attrset.maxnum = k) {s : List ℤ} {g : Function}
    (hg : g ∈ (cornerPos f).map (functionAt f)) (hv : g.attrVals = cornerVals f.attrset s)
    {m : ℕ} (hm : m < k) : g.attrVals[m]? = f.attrset.baseval[m]? ∨
      g.attrVals[m]? = f.attrset.maxval[m]? := by
  have hlength := corner_length h hg
  obtain ⟨v, hget⟩ : ∃ v, g.attrVals[m]? = some v :=
    ⟨_, List.getElem?_eq_getElem (by rw [hlength, h.base_length, hk]; exact hm)⟩
  have hcases := hget
  rw [hv] at hcases
  rw [hget]
  rcases corner_value_cases hcases with hb | hx
  · exact Or.inl hb.symm
  · exact Or.inr hx.symm

/-- A result is recovered from the sums over the columns. -/
theorem sums_recovered (h : Cornered f) (hk : f.attrset.maxnum = k)
    (hne : ∀ m < k, f.attrset.baseval[m]? ≠ f.attrset.maxval[m]?) (ht : Tabled f k t)
    (y : ℕ → ℚ) (hj : j < 2^k) : 2^k * y j = ∑ c ∈ Finset.range (2^k), (entry t j c : ℚ) *
      ∑ i ∈ Finset.range (2^k), (entry t i c : ℚ) * y i := by
  subst hk
  have hpos := h.attrs
  have hnodup : (rows f.attrset.maxnum).Nodup := List.Nodup.of_map _
    ((corners_nodup_iff hpos h.base_length h.max_length).mpr hne)
  have hrecover := recover (R := ℚ)
    (fun i hi => row_signs hpos (Finset.mem_range.mp hi))
    (fun i hi j hj => rows_distinct hpos hnodup (Finset.mem_range.mp hi)
      (Finset.mem_range.mp hj)) y (Finset.mem_range.mpr hj)
  rw [Finset.card_range, ← sum_columns] at hrecover
  rw [← hrecover]
  apply Finset.sum_congr rfl
  intro c hc
  have hc := Finset.mem_range.mp hc
  obtain ⟨g, -, -, -, hentry⟩ := entry_character h rfl hne ht (row_get hpos hj)
  rw [(hentry c hc).2]
  congr 1
  apply Finset.sum_congr rfl
  intro i hi
  obtain ⟨g, -, -, -, hentry⟩ :=
    entry_character h rfl hne ht (row_get hpos (Finset.mem_range.mp hi))
  rw [(hentry c hc).2]

theorem average_nonempty {filtering : Filtering} {time : List ℚ} {y : ℚ}
    (h : average filtering time = some y) : time ≠ [] := by
  rintro rfl
  cases filtering <;> cases h

theorem average_point (filtering : Filtering) (time : List ℚ) :
    filteringPoint filtering (averages time) = average filtering time := by
  cases filtering <;> rfl

/-- The evaluation leaves the averages of the measurements. -/
theorem average_left {e e' : Emethod} {w : Option ℕ} {times : ℕ → List ℚ} {n pos : ℕ} {y : ℚ}
    (halgo : e.searchAlgo = .twokFactorial) (hm : Measured times e)
    (hw : getWinner e n = .ok (w, e')) (hpos : pos < n)
    (hy : average e'.filtering (times pos) = some y) :
    (e'.stats[pos]?.bind fun s => filteringPoint e'.filtering s.gpts) = some y := by
  by_cases hlen : e.stats.length < n
  · rw [getWinner, if_pos hlen] at hw
    cases hw
  · rw [getWinner_take (by rw [halgo]; decide) (not_lt.mp hlen)] at hw
    split at hw
    · cases hw
    · cases hw
      obtain ⟨htime, hfiltered⟩ := hm pos _ (List.getElem?_eq_getElem (by omega))
      have hpoints : (filterTimings e.stats[pos]).lpts = averages (times pos) := by
        rw [filterTimings, ← htime]
        split_ifs with hfresh
        · rfl
        · refine hfiltered (Bool.eq_true_of_not_eq_false fun hnew => hfresh ⟨hnew, ?_⟩)
          exact htime ▸ average_nonempty hy
      have hget : ((e.stats.take n).map (fun s => globalMax (filterTimings s)) ++
          e.stats.drop n)[pos]? = some (globalMax (filterTimings e.stats[pos])) := by
        rw [List.getElem?_append_left (by rw [List.length_map, List.length_take]; omega),
          List.getElem?_map, List.getElem?_take_of_lt hpos, List.getElem?_eq_getElem (by omega)]
        rfl
      simp only [syncStatobjects] at hy ⊢
      rw [hget, Option.bind_some, ← hy, ← average_point, ← hpoints]
      rfl

/-- The corner that `compute_Qs` reads is the corner that was measured. -/
theorem corner_average (h : Cornered f) (ht : Tabled f k t) {e e' : Emethod} {w : Option ℕ}
    {times : ℕ → List ℚ} {y : ℚ} (halgo : e.searchAlgo = .twokFactorial)
    (hm : Measured times e) (hw : getWinner e f.maxnum = .ok (w, e'))
    (hy : CornerAverage f t e'.filtering times j y) : cornerResult e' t j = some y := by
  obtain ⟨pos, g, hg, hpos, hy⟩ := hy
  rw [ht.functions, List.getElem?_map] at hg
  obtain ⟨q, hq, rfl⟩ := Option.map_eq_some_iff.mp hg
  have hlt := cornerPos_lt h (List.mem_of_getElem? hq)
  have hsame : pos = q := (List.getElem?_inj (List.getElem?_eq_some_iff.mp hpos).1
    h.distinct).mp (hpos.trans (functionAt_get hlt).symm)
  rw [cornerResult, ht.fnctsPos, hq, Option.bind_some]
  exact average_left halgo hm hw hlt (hsame ▸ hy)

end Sums

/-- The sign table over a function set that holds its corners, each attribute
with two values or more. -/
theorem sign_table_recovers (f : Fnctset) (h : Cornered f)
    (hne : ∀ m < f.attrset.maxnum, f.attrset.baseval[m]? ≠ f.attrset.maxval[m]?)
    (threshold : ℤ) (e : Emethod) (hf : e.fnctset = f) (horg : e.orgfnctset = f) :
    ∃ e' t, twokInit threshold e = .ok e' ∧ e'.twok = some t ∧
      Recovers f f.attrset.maxnum t := by
  obtain ⟨e', t, hinit, htwok, ht⟩ := init_tabled h rfl threshold hf horg
  refine ⟨e', t, hinit, htwok, ?_⟩
  have hpos := h.attrs
  have hcorner := fun j hj => entry_character h rfl hne ht (row_get (j := j) hpos hj)
  constructor
  · exact labelled_bijective ht
  · intro c hc m hm
    obtain ⟨hlabel, hset⟩ := labelled_column ht hc
    rw [hlabel, hset]
    exact indicator_get _ hm
  · rw [(labelled_column ht (Nat.two_pow_pos _)).2]
    rfl
  · intro j hj
    obtain ⟨g, hg, hv, -, hentry⟩ := hcorner j hj
    have hget := hg
    rw [ht.functions, List.getElem?_map] at hget
    obtain ⟨pos, hpos, rfl⟩ := Option.map_eq_some_iff.mp hget
    refine ⟨pos, _, ht.fnctsPos ▸ hpos, functionAt_get (cornerPos_lt h (List.mem_of_getElem? hpos)),
      hg, fun m hm => ?_, fun c hc => ?_⟩
    · exact corner_ends h rfl (ht.functions ▸ List.mem_of_getElem? hg) hv hm
    · rw [(labelled_column ht hc).2, (hentry c hc).1]
  · intro c hc d hd hcd
    rw [← columns_orthogonal hpos hc hd hcd]
    apply Finset.sum_congr rfl
    intro j hj
    obtain ⟨g, -, -, -, hentry⟩ := hcorner j (Finset.mem_range.mp hj)
    rw [(hentry c hc).2, (hentry d hd).2]
  · intro e e' w times y halgo hm hw hy
    have hresult := fun j hj => corner_average h ht halgo hm hw (hy j hj)
    exact ⟨_, fun c hc => compute_qs h rfl ht hresult hc,
      fun j hj => sums_recovered h rfl hne ht y hj⟩

def sixFunctions : Fnctset :=
  ⟨[⟨0, [4, 1]⟩, ⟨1, [6, 1]⟩, ⟨2, [4, 2]⟩, ⟨3, [6, 2]⟩, ⟨4, [4, 3]⟩, ⟨5, [6, 3]⟩],
    ⟨[[4, 6], [1, 2, 3]], [4, 1], [6, 3], [2, 3]⟩⟩

def sixTimes (pos : ℕ) : List ℚ := [[10], [20], [15], [25], [30], [40]].getD pos []

def sixMeasured : Emethod :=
  ⟨.testing, 0, .twokFactorial, .unfiltered,
    (List.range 6).map fun i => { freshStat i with time := sixTimes i },
    sixFunctions, sixFunctions, none, none, none, List.replicate 6 noPoints⟩

theorem sign_table_six : ∃ e' t, twokInit 10 sixMeasured = .ok e' ∧ e'.twok = some t ∧
    Recovers sixFunctions 2 t ∧ ∃ (w : Option ℕ) (d : Emethod) (q : ℕ → ℚ),
      getWinner sixMeasured 6 = .ok (w, d) ∧
      (∀ c < 4, (computeQs d t)[c]? = some (some (q c))) ∧ ∀ j < 4,
        4 * [10, 20, 30, 40].getD j 0 = ∑ c ∈ Finset.range 4, (entry t j c : ℚ) * q c := by
  have h : Cornered sixFunctions := ⟨by decide, rfl, rfl, by decide, by decide⟩
  obtain ⟨e', t, hinit, htwok, hr⟩ :=
    sign_table_recovers sixFunctions h (by decide) 10 sixMeasured rfl rfl
  have hfiltering : (getWinner sixMeasured 6).map (fun q => q.2.filtering) = .ok .filtered := by
    decide +kernel
  have hfncts : (twokInit 10 sixMeasured).map (fun e => e.twok.map Twok.fnctsPos) =
      .ok (some [0, 1, 4, 5]) := by decide +kernel
  cases hw : getWinner sixMeasured 6 with
  | error fault =>
    rw [hw] at hfiltering
    cases hfiltering
  | ok wd =>
    rw [hw] at hfiltering
    have hd : wd.2.filtering = .filtered := Except.ok.inj hfiltering
    rw [hinit] at hfncts
    have hpositions : e'.twok.map Twok.fnctsPos = some [0, 1, 4, 5] := Except.ok.inj hfncts
    rw [htwok, Option.map_some, Option.some.injEq] at hpositions
    have hmeasured : Measured sixTimes sixMeasured := by
      intro pos s hs
      obtain ⟨i, hi, rfl⟩ := Option.map_eq_some_iff.mp ((List.getElem?_map ..).symm.trans hs)
      obtain ⟨hlt, rfl⟩ := List.getElem?_eq_some_iff.mp hi
      refine ⟨?_, Bool.noConfusion⟩
      rw [List.getElem_range]
    obtain ⟨q, hq, hy⟩ := hr.recovered sixMeasured wd.2 wd.1 sixTimes
      (fun j => [10, 20, 30, 40].getD j 0) rfl hmeasured hw fun j hj => by
        obtain ⟨pos, g, hpos, hg, hfunction, -⟩ := hr.corner j hj
        refine ⟨pos, g, hfunction, hg, ?_⟩
        rw [hd]
        rw [hpositions] at hpos
        have hlt : j < 4 := hj
        have hcases : j = 0 ∨ j = 1 ∨ j = 2 ∨ j = 3 := by omega
        rcases hcases with rfl | rfl | rfl | rfl <;> cases hpos <;> decide +kernel
    exact ⟨e', t, hinit, htwok, hr, wd.1, wd.2, q, rfl, hq, hy⟩

end Otpo.SignTable
