import Otpo.TwokCorners
import Mathlib.Order.Interval.Finset.Nat
import Mathlib.Data.Finset.Powerset

/-!
# The subsets behind the sign table

Two recursions go over the attributes, one to compute the columns and one to
label them. Both come to the nonempty subsets of the attributes in the same
order, whatever the array holds that the first one leaves to the second one.
-/

set_option autoImplicit false

namespace Otpo.SignSubsets
open Otpo.Adcl

def subsets : ℕ → ℕ → List (Finset ℕ)
  | 0, _ => []
  | r+1, i => {i} :: (subsets r (i+1)).map (insert i) ++ subsets r (i+1)

section Subsets

variable {r i : ℕ} {S : Finset ℕ}

theorem length_subsets (r i : ℕ) : (subsets r i).length+1 = 2^r := by
  induction r generalizing i with
  | zero => rfl
  | succ r ih =>
    have hnext := ih (i+1)
    simp only [subsets, List.length_append, List.length_cons, List.length_map, pow_succ]
    omega

theorem mem_subsets : S ∈ subsets r i ↔ S.Nonempty ∧ S ⊆ Finset.Ico i (i+r) := by
  induction r generalizing i S with
  | zero =>
    rw [Nat.add_zero, Finset.Ico_self, Finset.subset_empty, subsets]
    constructor
    · exact fun h => absurd h List.not_mem_nil
    · rintro ⟨hne, rfl⟩
      exact absurd hne Finset.not_nonempty_empty
  | succ r ih =>
    have hsplit : Finset.Ico i (i+(r+1)) = insert i (Finset.Ico (i+1) (i+1+r)) := by
      ext m
      simp only [Finset.mem_insert, Finset.mem_Ico]
      omega
    simp only [subsets, List.cons_append, List.mem_cons, List.mem_append, List.mem_map]
    rw [hsplit]
    constructor
    · rintro (rfl | ⟨T, hT, rfl⟩ | hS)
      · exact ⟨Finset.singleton_nonempty i, by simp⟩
      · exact ⟨Finset.insert_nonempty i T, Finset.insert_subset_insert i (ih.mp hT).2⟩
      · obtain ⟨hne, hsub⟩ := ih.mp hS
        exact ⟨hne, hsub.trans (Finset.subset_insert _ _)⟩
    · rintro ⟨hne, hsub⟩
      by_cases hi : i ∈ S
      · have herase : S.erase i ⊆ Finset.Ico (i+1) (i+1+r) := by
          rwa [← Finset.subset_insert_iff]
        by_cases hempty : S.erase i = ∅
        · left
          rw [← Finset.insert_erase hi, hempty]
          rfl
        · right
          left
          exact ⟨S.erase i, ih.mpr ⟨Finset.nonempty_iff_ne_empty.mpr hempty, herase⟩,
            Finset.insert_erase hi⟩
      · right
        right
        exact ih.mpr ⟨hne, (Finset.subset_insert_iff_of_notMem hi).mp hsub⟩

theorem not_mem_later (hS : S ∈ subsets r (i+1)) : i ∉ S := by
  intro hi
  have hlow := Finset.mem_Ico.mp ((mem_subsets.mp hS).2 hi)
  omega

theorem nodup_subsets (r i : ℕ) : (subsets r i).Nodup := by
  induction r generalizing i with
  | zero => exact List.nodup_nil
  | succ r ih =>
    have hinsert : ((subsets r (i+1)).map (insert i)).Nodup := by
      apply List.Nodup.map_on _ (ih (i+1))
      intro S hS T hT heq
      rw [← Finset.erase_insert (not_mem_later hS), heq, Finset.erase_insert (not_mem_later hT)]
    rw [subsets, List.cons_append, List.nodup_cons, List.nodup_append]
    refine ⟨?_, hinsert, ih (i+1), ?_⟩
    · intro hmem
      rcases List.mem_append.mp hmem with h | h
      · obtain ⟨S, hS, heq⟩ := List.mem_map.mp h
        have hempty : S = ∅ := by
          rw [← Finset.erase_insert (not_mem_later hS), heq]
          simp
        exact absurd (mem_subsets.mp hS).1 (Finset.not_nonempty_iff_eq_empty.mpr hempty)
      · exact not_mem_later h (Finset.mem_singleton_self i)
    · intro S hS T hT heq
      obtain ⟨U, _, rfl⟩ := List.mem_map.mp hS
      rw [heq] at hS
      exact not_mem_later hT (heq ▸ Finset.mem_insert_self i U)

/-- With the empty one in front, all the subsets of the attributes. -/
theorem all_subsets (k : ℕ) :
    (∅::subsets k 0).toFinset = (Finset.range k).powerset ∧ (∅::subsets k 0).Nodup := by
  have hnot : (∅ : Finset ℕ) ∉ subsets k 0 :=
    fun h => Finset.not_nonempty_empty (mem_subsets.mp h).1
  constructor
  · ext S
    rw [List.mem_toFinset, List.mem_cons, mem_subsets, Nat.zero_add, Finset.mem_powerset,
      ← Nat.Ico_zero_eq_range]
    by_cases hS : S = ∅
    · simp [hS]
    · simp [hS, Finset.nonempty_iff_ne_empty]
  · exact List.nodup_cons.mpr ⟨hnot, nodup_subsets k 0⟩

end Subsets

section Columns

variable {r i : ℕ} {flag : List ℤ}

def ones (flag : List ℤ) : Finset ℕ := (Finset.range flag.length).filter fun m => flag[m]? = some 1

theorem mem_ones {m : ℕ} : m ∈ ones flag ↔ flag[m]? = some 1 := by
  rw [ones, Finset.mem_filter, Finset.mem_range]
  constructor
  · exact fun h => h.2
  · exact fun h => ⟨(List.getElem?_eq_some_iff.mp h).1, h⟩

theorem ones_set_one (hi : i < flag.length) : ones (flag.set i 1) = insert i (ones flag) := by
  ext m
  rw [Finset.mem_insert, mem_ones, mem_ones]
  by_cases hm : m = i
  · simp [hm, hi]
  · rw [List.getElem?_set_ne (Ne.symm hm)]
    simp [hm]

theorem column_length (r i : ℕ) (flag : List ℤ) :
    (∀ column ∈ (signColumns r i flag).1, column.length = flag.length) ∧
      (signColumns r i flag).2.length = flag.length := by
  induction r generalizing i flag with
  | zero => exact ⟨List.forall_mem_nil _, rfl⟩
  | succ r ih =>
    obtain ⟨hinner, hlen⟩ := ih (i+1) (flag.set i 1)
    obtain ⟨hrest, hlen'⟩ := ih (i+1) ((signColumns r (i+1) (flag.set i 1)).2.set i (-1))
    rw [List.length_set] at hinner hlen hlen' hrest
    refine ⟨?_, hlen'.trans hlen⟩
    intro column hcolumn
    simp only [signColumns, List.cons_append, List.mem_cons, List.mem_append] at hcolumn
    rcases hcolumn with rfl | h | h
    · exact List.length_set
    · exact hinner column h
    · exact (hrest column h).trans hlen

/-- A flag that is taken back leaves what was flagged before. -/
theorem ones_unset {flags : List ℤ} (hi : i < flags.length)
    (hlow : ∀ m, i ≤ m → flag[m]? ≠ some 1) (hbelow : ∀ m < i, flags[m]? = flag[m]?)
    (hunset : ∀ m, i+1 ≤ m → flags[m]? ≠ some 1) : ones (flags.set i (-1)) = ones flag := by
  ext m
  rw [mem_ones, mem_ones]
  by_cases hm : m = i
  · subst hm
    rw [List.getElem?_set_self hi]
    simp [hlow m (Nat.le_refl m)]
  · rw [List.getElem?_set_ne (Ne.symm hm)]
    by_cases hlt : m < i
    · rw [hbelow m hlt]
    · exact iff_of_false (hunset m (by omega)) (hlow m (by omega))

/-- The columns stand for the subsets together with what is flagged before, and
the flags from `i` on are left unset. -/
theorem columns_subsets (hlength : flag.length = i+r) (hlow : ∀ m, i ≤ m → flag[m]? ≠ some 1) :
    (signColumns r i flag).1.map ones = (subsets r i).map (· ∪ ones flag) ∧
      (∀ m < i, (signColumns r i flag).2[m]? = flag[m]?) ∧
      ∀ m, i ≤ m → (signColumns r i flag).2[m]? ≠ some 1 := by
  induction r generalizing i flag with
  | zero => exact ⟨rfl, fun _ _ => rfl, hlow⟩
  | succ r ih =>
    have hi : i < flag.length := by omega
    have hnext : ∀ m, i+1 ≤ m → (flag.set i 1)[m]? ≠ some 1 := by
      intro m hm
      rw [List.getElem?_set_ne (by omega)]
      exact hlow m (by omega)
    obtain ⟨hinner, hkeep, hunset⟩ :=
      ih (by rw [List.length_set]; omega : (flag.set i 1).length = i+1+r) hnext
    have hlen := (column_length r (i+1) (flag.set i 1)).2
    rw [List.length_set] at hlen
    have hrest : ∀ m, i+1 ≤ m →
        ((signColumns r (i+1) (flag.set i 1)).2.set i (-1))[m]? ≠ some 1 := by
      intro m hm
      rw [List.getElem?_set_ne (by omega)]
      exact hunset m hm
    have hbelow : ∀ m < i, (signColumns r (i+1) (flag.set i 1)).2[m]? = flag[m]? := by
      intro m hm
      rw [hkeep m (by omega), List.getElem?_set_ne (by omega)]
    have hones : ones ((signColumns r (i+1) (flag.set i 1)).2.set i (-1)) = ones flag :=
      ones_unset (by omega) hlow hbelow hunset
    obtain ⟨houter, hkeep', hunset'⟩ :=
      ih (by rw [List.length_set]; omega :
        ((signColumns r (i+1) (flag.set i 1)).2.set i (-1)).length = i+1+r) hrest
    refine ⟨?_, ?_, ?_⟩
    · simp only [signColumns, subsets, List.map_cons, List.map_append, List.cons_append, houter,
        hinner, hones, ones_set_one hi, List.map_map]
      congr 2
      apply List.map_congr_left
      intro S _
      rw [Function.comp_apply, Finset.insert_union, Finset.union_insert]
    · intro m hm
      simp only [signColumns]
      rw [hkeep' m (by omega), List.getElem?_set_ne (by omega), hbelow m hm]
    · intro m hm
      simp only [signColumns]
      by_cases heq : m = i
      · subst heq
        rw [hkeep' m (by omega), List.getElem?_set_self (by omega)]
        decide
      · exact hunset' m (by omega)

end Columns

section Labels

variable {length r i : ℕ} {temp : List ℤ}

def indicator (length : ℕ) (S : Finset ℕ) : List ℤ :=
  (List.range length).map fun m => if m ∈ S then 1 else 0

theorem indicator_get (S : Finset ℕ) {m : ℕ} (hm : m < length) :
    (indicator length S)[m]? = some (if m ∈ S then 1 else 0) := by
  rw [indicator, List.getElem?_map, List.getElem?_range hm]
  rfl

/-- A label that is written: what is below `i`, then `i` itself. -/
theorem label_indicator (hi : i < length) (hlength : temp.length = length)
    (hlow : ∀ m < i, temp[m]? = some 0 ∨ temp[m]? = some 1) :
    temp.take i ++ 1::List.replicate (length-i-1) 0 =
      indicator length (insert i (ones (temp.take i))) := by
  apply List.ext_getElem?
  intro m
  have htake : (temp.take i).length = i := by
    rw [List.length_take]
    omega
  by_cases hm : m < length
  · rw [indicator_get _ hm, List.getElem?_append, htake]
    by_cases hlt : m < i
    · rw [if_pos hlt, List.getElem?_take_of_lt hlt]
      have hmem : m ∈ ones (temp.take i) ↔ temp[m]? = some 1 := by
        rw [mem_ones, List.getElem?_take_of_lt hlt]
      have hne : m ≠ i := by omega
      rcases hlow m hlt with h | h <;> simp [hmem, h, hne]
    · rw [if_neg hlt]
      by_cases heq : m = i
      · simp [heq]
      · have hnot : m ∉ ones (temp.take i) := by
          rw [mem_ones, List.getElem?_take_eq_none (by omega)]
          exact fun h => by cases h
        obtain ⟨n, hn⟩ : ∃ n, m-i = n+1 := ⟨m-i-1, by omega⟩
        rw [hn, List.getElem?_cons_succ, List.getElem?_replicate, if_pos (by omega)]
        simp [heq, hnot]
  · rw [List.getElem?_eq_none, List.getElem?_eq_none]
    · simp only [indicator, List.length_map, List.length_range]
      omega
    · rw [List.length_append, htake, List.length_cons, List.length_replicate]
      omega

theorem ones_take_set (hi : i < temp.length) (v : ℤ) :
    ones ((temp.set i v).take (i+1)) =
      if v = 1 then insert i (ones (temp.take i)) else ones (temp.take i) := by
  have hmem : ∀ m, m ∈ ones ((temp.set i v).take (i+1)) ↔
      m = i ∧ v = 1 ∨ m ∈ ones (temp.take i) := by
    intro m
    rw [mem_ones, mem_ones]
    by_cases hm : m = i
    · subst hm
      rw [List.getElem?_take_of_lt (Nat.lt_succ_self m), List.getElem?_set_self hi,
        List.getElem?_take_eq_none (Nat.le_refl m)]
      simp
    · by_cases hlt : m < i
      · rw [List.getElem?_take_of_lt (by omega), List.getElem?_set_ne (Ne.symm hm),
          List.getElem?_take_of_lt hlt]
        simp [hm]
      · rw [List.getElem?_take_eq_none (by omega), List.getElem?_take_eq_none (by omega)]
        simp [hm]
  ext m
  rw [hmem]
  by_cases hv : v = 1 <;> simp [hv]

/-- The labels are those of the subsets together with what is set below `i`;
what the array holds from `i` on does not matter. -/
theorem labels_subsets (hi : i+r = length) (hlength : temp.length = length)
    (hlow : ∀ m < i, temp[m]? = some 0 ∨ temp[m]? = some 1) :
    (signLabels length r i temp).1 =
        (subsets r i).map (fun S => indicator length (S ∪ ones (temp.take i))) ∧
      (signLabels length r i temp).2.length = length ∧
      ∀ m < i, (signLabels length r i temp).2[m]? = temp[m]? := by
  induction r generalizing i temp with
  | zero => exact ⟨rfl, hlength, fun _ _ => rfl⟩
  | succ r ih =>
    have hlt : i < temp.length := by omega
    have hset : ∀ v : ℤ, v = 0 ∨ v = 1 → ∀ u : List ℤ, u.length = length →
        (∀ m < i, u[m]? = temp[m]?) →
        ∀ m < i+1, (u.set i v)[m]? = some 0 ∨ (u.set i v)[m]? = some 1 := by
      intro v hv u hu hsame m hm
      by_cases heq : m = i
      · subst heq
        rw [List.getElem?_set_self (by omega)]
        rcases hv with rfl | rfl
        · exact Or.inl rfl
        · exact Or.inr rfl
      · rw [List.getElem?_set_ne (Ne.symm heq), hsame m (by omega)]
        exact hlow m (by omega)
    obtain ⟨hinner, hlen, hkeep⟩ := ih (show i+1+r = length by omega)
      (by rw [List.length_set, hlength]) (hset 1 (Or.inr rfl) temp hlength fun _ _ => rfl)
    have hsame : ∀ m < i, (signLabels length r (i+1) (temp.set i 1)).2[m]? = temp[m]? := by
      intro m hm
      rw [hkeep m (by omega), List.getElem?_set_ne (by omega)]
    obtain ⟨hrest, hlen', hkeep'⟩ := ih (show i+1+r = length by omega)
      (by rw [List.length_set, hlen]) (hset 0 (Or.inl rfl) _ hlen hsame)
    have htake : (signLabels length r (i+1) (temp.set i 1)).2.take i = temp.take i := by
      apply List.ext_getElem?
      intro m
      by_cases hm : m < i
      · rw [List.getElem?_take_of_lt hm, List.getElem?_take_of_lt hm, hsame m hm]
      · rw [List.getElem?_take_eq_none (by omega), List.getElem?_take_eq_none (by omega)]
    refine ⟨?_, hlen', ?_⟩
    · simp only [signLabels, subsets, List.map_cons, List.map_append, List.cons_append, hinner,
        hrest, List.map_map]
      rw [label_indicator (by omega) hlength hlow, ones_take_set hlt, if_pos rfl,
        ones_take_set (by omega), if_neg (by decide), htake]
      congr 2
      apply List.map_congr_left
      intro S _
      rw [Function.comp_apply, Finset.insert_union, Finset.union_insert]
    · intro m hm
      simp only [signLabels]
      rw [hkeep' m (by omega), List.getElem?_set_ne (by omega), hsame m hm]

end Labels

/-- Both recursions over all the attributes: a column for each nonempty subset
and behind the empty label one label for each. -/
theorem sign_table_subsets (a : Attrset) (functions : List Function) :
    ∃ columns : List (List ℤ), columns.map ones = subsets a.maxnum 0 ∧
      generateSignTable a functions =
        (functions.map fun f => 1::columns.map fun flag => signValue a flag f,
          (∅::subsets a.maxnum 0).map (indicator a.maxnum)) ∧
      ∀ flag ∈ columns, flag.length = a.maxnum := by
  have hunset : ∀ m, 0 ≤ m → (List.replicate a.maxnum (-1:ℤ))[m]? ≠ some 1 := by
    intro m _
    rw [List.getElem?_replicate]
    split_ifs <;> decide
  have hones : ones (List.replicate a.maxnum (-1:ℤ)) = ∅ := by
    ext m
    rw [mem_ones]
    exact iff_of_false (hunset m (Nat.zero_le m)) (Finset.notMem_empty m)
  obtain ⟨hcolumns, -, -⟩ := columns_subsets
    (show (List.replicate a.maxnum (-1:ℤ)).length = 0+a.maxnum by simp) hunset
  obtain ⟨hcolumn, hlength⟩ := column_length a.maxnum 0 (List.replicate a.maxnum (-1))
  rw [List.length_replicate] at hcolumn hlength
  obtain ⟨hlabels, -, -⟩ := labels_subsets (Nat.zero_add a.maxnum) hlength
    fun m hm => absurd hm (Nat.not_lt_zero m)
  have hzero : List.replicate a.maxnum 0 = indicator a.maxnum ∅ := by
    simp [indicator, List.map_const']
  refine ⟨(signColumns a.maxnum 0 (List.replicate a.maxnum (-1))).1, ?_, ?_, hcolumn⟩
  · rw [hcolumns, hones]
    simp
  · simp [generateSignTable, hlabels, hzero, ones]

end Otpo.SignSubsets
