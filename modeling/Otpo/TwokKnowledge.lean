import Otpo.TuningLoop
import Otpo.TwokReduction
import Mathlib.Tactic.NormNum

/-!
# What the 2k search knows

Every function of the working set has been tested, is running or was never
handed out. One start moves one function on; the search ends when none is left
in the working set.
-/

set_option autoImplicit false

namespace Otpo.TwokKnowledge
open Otpo.ParamList Otpo.Statistics Otpo.Adcl Otpo.TwokCorners Otpo.TwokReduction

structure Fresh (s : Stat) : Prop where
  count : s.count = 0
  time : s.time = []
  tested : s.tested = false
  filtered : s.filtered = false
  lpts : s.lpts = noPoints

structure Running (s : Stat) : Prop where
  count : s.count = 1
  time : ∃ c, 0 < c ∧ c < 999999 ∧ s.time = [c]
  filtered : s.filtered = false

structure Done (s : Stat) : Prop where
  tested : s.tested = true
  filtered : s.filtered = true
  time : s.time.length = 1
  lpts : ∃ c, 0 < c ∧ c < 999999 ∧ s.lpts = ⟨some c, some c, some 0⟩

section Statistics

variable {s : Stat}

theorem fresh_filtered (h : Fresh s) : filterTimings s = s := by
  rw [filterTimings, if_neg (fun hn => hn.2 h.time)]

theorem done_filtered (h : Done s) : filterTimings s = s := by
  rw [filterTimings, if_neg (fun hn => by rw [h.filtered] at hn; cases hn.1)]

theorem fresh_global (h : Fresh s) : Fresh (globalMax (filterTimings s)) := by
  rw [fresh_filtered h]
  exact ⟨h.count, h.time, h.tested, h.filtered, h.lpts⟩

theorem done_global (h : Done s) : Done (globalMax (filterTimings s)) := by
  rw [done_filtered h]
  exact ⟨h.tested, h.filtered, h.time, h.lpts⟩

theorem fresh_started (h : Fresh s) {c : ℚ} (hpos : 0 < c) (hlt : c < 999999) :
    Running (recordTime c (called s)) := by
  refine ⟨?_, ⟨c, hpos, hlt, ?_⟩, h.filtered⟩
  · change s.count+1 = 1
    rw [h.count]
  · change s.time ++ [c] = [c]
    rw [h.time, List.nil_append]

theorem running_marked (h : Running s) : Done (markTested s) := by
  obtain ⟨c, hpos, hlt, htime⟩ := h.time
  have hmark : markTested s =
      { s with tested := true, lpts := averages s.time, filtered := true } := by
    rw [markTested, filterTimings, if_pos ⟨h.filtered, by rw [htime]; exact List.cons_ne_nil _ _⟩]
  rw [hmark]
  refine ⟨rfl, rfl, by rw [htime]; rfl, c, hpos, hlt, ?_⟩
  change averages s.time = _
  rw [htime, averages_single, if_pos ⟨hpos, hlt.trans (by norm_num)⟩]

theorem fresh_points (h : Fresh s) :
    (globalMax (filterTimings s)).gpts = ⟨some 0, some 0, some 0⟩ := by
  rw [fresh_filtered h]
  exact h.lpts

theorem done_points (h : Done s) : ∃ c, 0 < c ∧ c < 999999 ∧
    (globalMax (filterTimings s)).gpts = ⟨some c, some c, some 0⟩ := by
  rw [done_filtered h]
  exact h.lpts

end Statistics

structure Marked (f : Fnctset) (e : Emethod) (kept : List ℕ) (cell : ℕ → Stat)
    (started : List ℕ) : Prop where
  working : Working f e kept cell
  inside : kept.Sublist (List.range f.maxnum)
  fresh : ∀ q ∈ kept, q ∉ started → Fresh (cell q)
  done : ∀ q ∈ kept, q ∈ started → Done (cell q)

structure Progress (f : Fnctset) (r : Request) (kept : List ℕ) (cell : ℕ → Stat)
    (started : List ℕ) (p : ℕ) : Prop where
  working : Working f r.emethod kept cell
  inside : kept.Sublist (List.range f.maxnum)
  last : kept[r.emethod.last]? = some p
  running : Running (cell p)
  current : p ∈ started
  fresh : ∀ q ∈ kept, q ∉ started → Fresh (cell q)
  done : ∀ q ∈ kept, q ∈ started → q ≠ p → Done (cell q)

section Invariant

variable {f : Fnctset} {e : Emethod} {r : Request} {kept : List ℕ} {cell : ℕ → Stat}
variable {started : List ℕ} {p q : ℕ}

theorem marked_of_progress (h : Progress f r kept cell started p) :
    Marked f (markedWith r.emethod kept cell p) kept
      (Function.update cell p (markTested (cell p))) started := by
  refine ⟨working_recell h.working rfl rfl rfl rfl rfl, h.inside, ?_, ?_⟩
  · intro q hq hn
    have hne : q ≠ p := fun he => hn (he ▸ h.current)
    rw [Function.update_of_ne hne]
    exact h.fresh q hq hn
  · intro q hq hs
    by_cases he : q = p
    · subst he
      rw [Function.update_self]
      exact running_marked h.running
    · rw [Function.update_of_ne he]
      exact h.done q hq hs he

theorem kept_lt (h : Marked f e kept cell started) (hq : q ∈ kept) : q < f.maxnum :=
  List.mem_range.mp (h.inside.subset hq)

theorem kept_function (h : Marked f e kept cell started) {i : ℕ} (hi : kept[i]? = some q) :
    e.fnctset.functions[i]? = some (functionAt f q) := by
  rw [h.working.functions, List.getElem?_map, hi, Option.map_some]

theorem length_kept (h : Marked f e kept cell started) : e.stats.length = kept.length := by
  rw [h.working.cells.stats, List.length_map]

theorem maxnum_kept (h : Marked f e kept cell started) : e.fnctset.maxnum = e.stats.length := by
  rw [Fnctset.maxnum, h.working.functions, List.length_map, length_kept h]

theorem next_remaining (h : Marked f e kept cell started) {i : ℕ}
    (hi : getFromRemaining e = some i) : ∃ q, kept[i]? = some q ∧ q ∉ started := by
  obtain ⟨hlt, hp, _⟩ := List.findIdx?_eq_some_iff_getElem.mp hi
  have hik : i < kept.length := length_kept h ▸ hlt
  refine ⟨kept[i], List.getElem?_eq_getElem hik, fun hs => ?_⟩
  have hcell : e.stats[i] = cell kept[i] := by
    have := cells_get h.working.cells (List.getElem?_eq_getElem hik)
    rw [List.getElem?_eq_getElem hlt] at this
    exact Option.some_injective _ this
  rw [hcell, (h.done _ (List.getElem_mem hik) hs).tested] at hp
  cases hp

theorem none_remaining (h : Marked f e kept cell started) (hi : getFromRemaining e = none) :
    ∀ q ∈ kept, q ∈ started := by
  intro q hq
  by_contra hn
  have hall := List.findIdx?_eq_none_iff.mp hi (cell q)
    (h.working.cells.stats ▸ List.mem_map_of_mem hq)
  rw [(h.fresh q hq hn).tested] at hall
  cases hall

def measuredWith (e : Emethod) (kept : List ℕ) (cell : ℕ → Stat) : Emethod :=
  syncStatobjects
    { e with
      stats := kept.map fun q => globalMax (filterTimings (cell q))
      filtering := .filtered }

theorem measured_marked (h : Marked f e kept cell started) :
    Marked f (measuredWith e kept cell) kept (fun q => globalMax (filterTimings (cell q)))
      started := by
  exact ⟨working_recell h.working rfl rfl rfl rfl rfl, h.inside,
    fun q hq hn => fresh_global (h.fresh q hq hn), fun q hq hs => done_global (h.done q hq hs)⟩

theorem measured_points (h : Marked f e kept cell started) :
    (kept.map fun q => globalMax (filterTimings (cell q))).map Stat.gpts =
      (kept.map fun q => (globalMax (filterTimings (cell q))).gpts.filtered).map
        fun x => ⟨x, x, some 0⟩ := by
  rw [List.map_map, List.map_map]
  refine List.map_congr_left fun q hq => ?_
  rw [Function.comp_apply, Function.comp_apply]
  by_cases hs : q ∈ started
  · obtain ⟨c, _, _, hc⟩ := done_points (h.done q hq hs)
    rw [hc]
  · rw [fresh_points (h.fresh q hq hs)]

/-- Only a tested function has an average to compare. -/
theorem measured_key (h : Marked f e kept cell started) {i : ℕ} {y : ℚ}
    (hi : (keys (kept.map fun q => (globalMax (filterTimings (cell q))).gpts.filtered))[i]? =
      some (some y)) : ∃ q, kept[i]? = some q ∧ q ∈ started := by
  obtain ⟨hpoint, hne⟩ := keys_getElem.mp hi
  rw [List.getElem?_map, Option.map_eq_some_iff] at hpoint
  obtain ⟨q, hq, hy⟩ := hpoint
  refine ⟨q, hq, ?_⟩
  by_contra hs
  rw [fresh_points (h.fresh q (List.mem_of_getElem? hq) hs)] at hy
  cases hy
  exact hne rfl

/-- The winner over the working set is one of the tested functions. -/
theorem measured_winner (h : Marked f e kept cell started) (hex : ∃ q ∈ kept, q ∈ started) :
    ∃ w q, getWinner e e.fnctset.maxnum = .ok (some w, measuredWith e kept cell) ∧
      kept[w]? = some q ∧ q ∈ started := by
  have hstats : e.stats.map (fun s => globalMax (filterTimings s)) =
      kept.map fun q => globalMax (filterTimings (cell q)) := by
    rw [h.working.cells.stats, List.map_map]
    rfl
  obtain ⟨q, hq, hs⟩ := hex
  obtain ⟨c, hpos, hlt, hc⟩ := done_points (h.done q hq hs)
  obtain ⟨i, hi⟩ := List.getElem?_of_mem hq
  have hpresent : (keys (kept.map fun q =>
      (globalMax (filterTimings (cell q))).gpts.filtered))[i]? = some (some c) := by
    rw [keys_getElem, List.getElem?_map, hi, Option.map_some, hc]
    exact ⟨rfl, hpos.ne'⟩
  obtain ⟨w, x, hl⟩ := FirstMinimum.exists_least ⟨i, c, hpresent⟩
  have hx : x < 999999999999/100 := by
    refine (hl.2 i c hpresent).1.trans_lt (hlt.trans ?_)
    norm_num
  obtain ⟨v, hv, hvs⟩ := measured_key h hl.1
  have hall := getWinner_all (e := e) (by rw [h.working.algo]; rintro ⟨⟩)
  rw [hstats, get_winner_exact (measured_points h) hl hx, ← maxnum_kept h] at hall
  exact ⟨w, v, hall, hv, hvs⟩

end Invariant

end Otpo.TwokKnowledge
