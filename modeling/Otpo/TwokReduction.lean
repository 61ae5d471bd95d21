import Otpo.Request
import Otpo.TwokCorners

/-!
# Reducing the function set

The working set holds some of the original functions, in their order, each
with its statistics object. Reducing it for an attribute of little impact
keeps the best corner, whose values it reduces to.
-/

set_option autoImplicit false

namespace Otpo.TwokReduction
open Otpo.ParamList Otpo.Statistics Otpo.Adcl Otpo.TwokCorners

section Labels

variable {length r i : ℕ} {temp : List ℤ}

theorem labels_length (temp : List ℤ) (hi : i+r = length) (ht : temp.length = length) :
    (∀ label ∈ (signLabels length r i temp).1, label.length = length) ∧
      (signLabels length r i temp).2.length = length := by
  induction r generalizing i temp with
  | zero => exact ⟨fun label h => absurd h List.not_mem_nil, ht⟩
  | succ r ih =>
    have hnext : i+1+r = length := by omega
    have hinner := ih (temp.set i 1) hnext (by rw [List.length_set, ht])
    have hrest := ih ((signLabels length r (i+1) (temp.set i 1)).2.set i 0) hnext
      (by rw [List.length_set, hinner.2])
    refine ⟨fun label h => ?_, hrest.2⟩
    simp only [signLabels, List.cons_append, List.mem_cons, List.mem_append] at h
    rcases h with rfl | h | h
    · simp only [List.length_append, List.length_take, ht, List.length_cons, List.length_replicate]
      omega
    · exact hinner.1 label h
    · exact hrest.1 label h

theorem columns_length (temp : List ℤ) (hi : i+r = length) (ht : temp.length = length) :
    (signColumns r i temp).2.length = length := by
  induction r generalizing i temp with
  | zero => exact ht
  | succ r ih =>
    have hnext : i+1+r = length := by omega
    have hinner := ih (temp.set i 1) hnext (by rw [List.length_set, ht])
    exact ih _ hnext (by rw [List.length_set, hinner])

theorem sign_table_labels (a : Attrset) (functions : List Function) :
    ∀ label ∈ (generateSignTable a functions).2, label.length = a.maxnum := by
  intro label h
  have htmp : (signColumns a.maxnum 0 (List.replicate a.maxnum (-1))).2.length = a.maxnum :=
    columns_length _ (Nat.zero_add _) List.length_replicate
  rcases List.mem_cons.mp h with rfl | h
  · exact List.length_replicate
  · exact (labels_length _ (Nat.zero_add _) htmp).1 label h

theorem single_factor_lt {label : List ℤ} {attr : ℕ} (h : singleFactor label = some attr) :
    attr < label.length := by
  rw [singleFactor] at h
  split at h
  · exact (List.findIdx?_eq_some_iff_findIdx_eq.mp h).1
  · cases h

end Labels

structure Working (f : Fnctset) (e : Emethod) (kept : List ℕ) (cell : ℕ → Stat) : Prop where
  cells : Cells e kept cell
  functions : e.fnctset.functions = kept.map (functionAt f)
  org : e.orgfnctset = f
  algo : e.searchAlgo = .twokFactorial
  testing : e.state = .testing

section Shrinking

variable {f : Fnctset} {e : Emethod} {kept : List ℕ} {cell : ℕ → Stat}

/-- The objects may change while the set and the search stay. -/
theorem working_recell (h : Working f e kept cell) {d : Emethod} {cell' : ℕ → Stat}
    (hstats : d.stats = kept.map cell')
    (hfunctions : d.fnctset.functions = e.fnctset.functions)
    (horg : d.orgfnctset = e.orgfnctset) (halgo : d.searchAlgo = e.searchAlgo)
    (hst : d.state = e.state) : Working f d kept cell' where
  cells := ⟨h.cells.nodup, hstats⟩
  functions := hfunctions.trans h.functions
  org := horg.trans h.org
  algo := halgo.trans h.algo
  testing := hst.trans h.testing

theorem shrink_working (h : Working f e kept cell) (attr : ℕ) (v : ℤ) :
    Working f (shrinklistByattr e attr v)
      (kept.filter fun q => keeps attr v (functionAt f q)) cell := by
  have hzip : (e.fnctset.functions.zip e.stats).filter (fun q => keeps attr v q.1) =
      (kept.filter fun q => keeps attr v (functionAt f q)).map
        fun q => (functionAt f q, cell q) := by
    rw [h.functions, h.cells.stats, List.zip_map', List.filter_map]
    rfl
  refine ⟨⟨h.cells.nodup.filter _, ?_⟩, ?_, h.org, h.algo, h.testing⟩
  · change ((e.fnctset.functions.zip e.stats).filter (fun q => keeps attr v q.1)).map Prod.snd = _
    rw [hzip, List.map_map]
    rfl
  · change ((e.fnctset.functions.zip e.stats).filter (fun q => keeps attr v q.1)).map Prod.fst = _
    rw [hzip, List.map_map]
    rfl

variable {t : Twok} {w : ℕ}

theorem reduce_column_keeps (h : Working f e kept cell) (hw : w ∈ kept)
    {column : List ℤ × Double}
    (hbest : ∀ m, m < column.1.length → ∃ v, (functionAt f w).attrVals[m]? = some v ∧
      (t.attrset.baseval[m]? = some v ∨ t.attrset.maxval[m]? = some v)) :
    ∃ kept', Working f (reduceColumn t (functionAt f w) e column) kept' cell ∧
      kept'.Sublist kept ∧ w ∈ kept' := by
  unfold reduceColumn
  split
  case h_2 => exact ⟨kept, h, List.Sublist.refl kept, hw⟩
  case h_1 attr hattr =>
    obtain ⟨v, hv, hcase⟩ := hbest attr (single_factor_lt hattr)
    have hvalue : (functionAt f w).attrVals.getD attr 0 = v := by
      rw [List.getD_eq_getElem?_getD, hv, Option.getD_some]
    have hkeeps : ∀ x, x = v → w ∈ kept.filter fun q => keeps attr x (functionAt f q) := by
      rintro x rfl
      rw [List.mem_filter, keeps, hv]
      exact ⟨hw, by simp⟩
    split
    case isFalse => exact ⟨kept, h, List.Sublist.refl kept, hw⟩
    case isTrue =>
      split
      case isTrue hbase =>
        exact ⟨_, shrink_working h attr _, List.filter_sublist, hkeeps _ (hbase ▸ hvalue)⟩
      case isFalse hbase =>
        have hmax : t.attrset.maxval.getD attr 0 = v := by
          rcases hcase with hb | hx
          · rw [hvalue, List.getD_eq_getElem?_getD, hb, Option.getD_some] at hbase
            exact absurd rfl hbase
          · rw [List.getD_eq_getElem?_getD, hx, Option.getD_some]
        exact ⟨_, shrink_working h attr _, List.filter_sublist, hkeeps _ hmax⟩

/-- The whole reduction keeps the best corner. -/
theorem reduce_keeps {k : ℕ} (hbest : ∀ m, m < k → ∃ v, (functionAt f w).attrVals[m]? = some v ∧
      (t.attrset.baseval[m]? = some v ∨ t.attrset.maxval[m]? = some v))
    (columns : List (List ℤ × Double)) (hlabels : ∀ c ∈ columns, c.1.length = k)
    (h : Working f e kept cell) (hw : w ∈ kept) :
    ∃ kept', Working f (columns.foldl (reduceColumn t (functionAt f w)) e) kept' cell ∧
      kept'.Sublist kept ∧ w ∈ kept' := by
  induction columns generalizing e kept with
  | nil => exact ⟨kept, h, List.Sublist.refl kept, hw⟩
  | cons column columns ih =>
    have hlen : column.1.length = k := hlabels column (by simp)
    obtain ⟨kept₁, h₁, hsub₁, hw₁⟩ := reduce_column_keeps (t := t) h hw (hlen ▸ hbest)
    obtain ⟨kept₂, h₂, hsub₂, hw₂⟩ := ih (fun c hc => hlabels c (by simp [hc])) h₁ hw₁
    exact ⟨kept₂, h₂, hsub₂.trans hsub₁, hw₂⟩

end Shrinking

end Otpo.TwokReduction
