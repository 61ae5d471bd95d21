import Otpo.TuningLoop
import Mathlib.Tactic.NormNum

/-!
# Whose measurement it is

What was paid for each original function is kept in the statistics object that
names its position, and in the original array once the function has left the
working set. Filtering, comparing, copying and shrinking keep it so.
-/

set_option autoImplicit false

namespace Otpo.Attribution
open Otpo.ParamList Otpo.Statistics Otpo.Adcl

def exact (c : ℚ) : Points := ⟨some c, some c, some 0⟩

theorem averages_exact {c : ℚ} (hpos : 0 < c) (hlt : c < 999999) : averages [c] = exact c := by
  rw [averages_single, if_pos ⟨hpos, hlt.trans (by norm_num)⟩]
  rfl

def recorded (paid : Option ℚ) : Points :=
  match paid with
  | some c => exact c
  | none => noPoints

structure Measured (paid : ℕ → Option ℚ) (s : Stat) : Prop where
  time : s.time = (paid s.pos).toList
  count : s.count = s.time.length
  filtered : s.filtered = true → s.time ≠ []
  lpts : s.lpts = if s.filtered then averages s.time else noPoints
  gpts : s.gpts = noPoints ∨ s.filtered = true ∧ s.gpts = s.lpts

def Settled (s : Stat) : Prop := s.time ≠ [] → s.filtered = true ∧ s.gpts = s.lpts

section Objects

variable {paid : ℕ → Option ℚ} {s : Stat} {p : ℕ} {c : ℚ}

theorem filter_timings_pos (s : Stat) : (filterTimings s).pos = s.pos := by
  rw [filterTimings]
  split <;> rfl

theorem filter_timings_time (s : Stat) : (filterTimings s).time = s.time := by
  rw [filterTimings]
  split <;> rfl

theorem measured_filter (h : Measured paid s) : Measured paid (filterTimings s) := by
  rw [filterTimings]
  split
  case isFalse => exact h
  case isTrue hf =>
    refine ⟨h.time, h.count, fun _ => hf.2, rfl, Or.inl ?_⟩
    exact h.gpts.resolve_right fun hg => by rw [hf.1] at hg; cases hg.1

theorem filtered_filter (h : s.time ≠ []) : (filterTimings s).filtered = true := by
  rw [filterTimings]
  split
  case isTrue => rfl
  case isFalse hf => exact Bool.of_not_eq_false fun he => hf ⟨he, h⟩

theorem measured_global (h : Measured paid s) : Measured paid (globalMax s) := by
  refine ⟨h.time, h.count, h.filtered, h.lpts, ?_⟩
  cases hf : s.filtered with
  | true => exact Or.inr ⟨hf, rfl⟩
  | false =>
    refine Or.inl (h.lpts.trans ?_)
    rw [hf]
    rfl

theorem measured_marked (h : Measured paid s) : Measured paid (markTested s) :=
  measured_filter ⟨h.time, h.count, h.filtered, h.lpts, h.gpts⟩

theorem marked_pos (s : Stat) : (markTested s).pos = s.pos := filter_timings_pos _

theorem settled_global (s : Stat) : Settled (globalMax (filterTimings s)) := by
  intro h
  have htime : s.time ≠ [] := filter_timings_time s ▸ h
  exact ⟨filtered_filter htime, rfl⟩

theorem settled_marked (s : Stat) : Settled (globalMax (markTested s)) :=
  settled_global { s with tested := true }

theorem settled_filter (h : Settled s) : Settled (filterTimings s) := by
  rw [filterTimings]
  split
  case isFalse => exact h
  case isTrue hf => exact fun _ => absurd ((h hf.2).1) (by rw [hf.1]; exact Bool.false_ne_true)

theorem measured_other (h : Measured paid s) (hne : s.pos ≠ p) :
    Measured (Function.update paid p (some c)) s :=
  ⟨by rw [Function.update_of_ne hne]; exact h.time, h.count, h.filtered, h.lpts, h.gpts⟩

/-- A first call, and what it reports. -/
theorem measured_reported (h : Measured paid s) (htime : s.time = []) :
    Measured (Function.update paid s.pos (some c)) (recordTime c (called s)) := by
  have hfiltered : s.filtered = false := Bool.eq_false_iff.mpr fun hf => h.filtered hf htime
  refine ⟨?_, ?_, fun hf => absurd hf (by simp [recordTime, called, hfiltered]), ?_, ?_⟩
  · change s.time ++ [c] = (Function.update paid s.pos (some c) s.pos).toList
    rw [Function.update_self, htime]
    rfl
  · change s.count+1 = (s.time ++ [c]).length
    rw [h.count, List.length_append]
    rfl
  · have hlpts := h.lpts
    rw [hfiltered] at hlpts
    change s.lpts = if s.filtered then averages (s.time ++ [c]) else noPoints
    rw [hfiltered]
    exact hlpts
  · exact h.gpts

/-- The points that are copied are those of what was paid. -/
theorem settled_points (h : Measured paid s) (hs : Settled s)
    (hc : ∀ c, paid s.pos = some c → 0 < c ∧ c < 999999) : s.gpts = recorded (paid s.pos) := by
  have htime := h.time
  cases hp : paid s.pos with
  | none =>
    rw [hp] at htime
    exact h.gpts.resolve_right fun hg => h.filtered hg.1 htime
  | some c =>
    rw [hp] at htime
    obtain ⟨hf, hg⟩ := hs (by rw [htime]; exact List.cons_ne_nil _ _)
    rw [hg, h.lpts, if_pos hf, htime]
    exact averages_exact (hc c hp).1 (hc c hp).2

end Objects

section Copying

variable {stats : List Stat} {o : List Points} {p : ℕ} {s : Stat}

theorem length_copied (stats : List Stat) (o : List Points) :
    (stats.foldl (fun o s => o.set s.pos s.gpts) o).length = o.length := by
  induction stats generalizing o with
  | nil => rfl
  | cons s stats ih => rw [List.foldl_cons, ih, List.length_set]

theorem copied_other (h : p ∉ stats.map Stat.pos) :
    (stats.foldl (fun o s => o.set s.pos s.gpts) o)[p]? = o[p]? := by
  induction stats generalizing o with
  | nil => rfl
  | cons s stats ih =>
    rw [List.map_cons, List.mem_cons, not_or] at h
    rw [List.foldl_cons, ih h.2, List.getElem?_set_ne (Ne.symm h.1)]

theorem copied_own (hn : (stats.map Stat.pos).Nodup) (hs : s ∈ stats) (hlt : s.pos < o.length) :
    (stats.foldl (fun o s => o.set s.pos s.gpts) o)[s.pos]? = some s.gpts := by
  induction stats generalizing o with
  | nil => cases hs
  | cons t stats ih =>
    rw [List.map_cons, List.nodup_cons] at hn
    rw [List.foldl_cons]
    rcases List.mem_cons.mp hs with rfl | hs
    · rw [copied_other hn.1, List.getElem?_set_self hlt]
    · exact ih hn.2 hs (by rw [List.length_set]; exact hlt)

end Copying

structure Attributed (f : Fnctset) (paid : ℕ → Option ℚ) (e : Emethod) : Prop where
  org : e.orgfnctset = f
  functions : e.fnctset.functions = e.stats.map fun s => functionAt f s.pos
  positions : (e.stats.map Stat.pos).Sublist (List.range f.maxnum)
  measured : ∀ s ∈ e.stats, Measured paid s
  length : e.orgstats.length = f.maxnum
  untested : ∀ p, p < f.maxnum → paid p = none → e.orgstats[p]? = some noPoints
  removed : ∀ p c, paid p = some c → p ∉ e.stats.map Stat.pos → e.orgstats[p]? = some (exact c)

section Method

variable {f : Fnctset} {paid : ℕ → Option ℚ} {e : Emethod} {s : Stat} {p : ℕ}

theorem pos_lt (h : Attributed f paid e) (hs : s ∈ e.stats) : s.pos < f.maxnum :=
  List.mem_range.mp (h.positions.subset (List.mem_map_of_mem hs))

theorem positions_nodup (h : Attributed f paid e) : (e.stats.map Stat.pos).Nodup :=
  List.nodup_range.sublist h.positions

theorem maxnum_stats (h : Attributed f paid e) : e.fnctset.maxnum = e.stats.length := by
  rw [Fnctset.maxnum, h.functions, List.length_map]

theorem function_get (h : Attributed f paid e) {i : ℕ} (hi : e.stats[i]? = some s) :
    e.fnctset.functions[i]? = some (functionAt f s.pos) := by
  rw [h.functions, List.getElem?_map, hi]
  rfl

theorem functions_positions (h : Attributed f paid e) {stats : List Stat}
    (hpos : stats.map Stat.pos = e.stats.map Stat.pos) :
    e.fnctset.functions = stats.map fun s => functionAt f s.pos := by
  have hmap : ∀ l : List Stat,
      l.map (fun s => functionAt f s.pos) = (l.map Stat.pos).map (functionAt f) := fun l => by
    rw [List.map_map]
    rfl
  rw [hmap, hpos, ← hmap]
  exact h.functions

/-- Only the sets and the two arrays matter. -/
theorem attributed_congr {d : Emethod} (h : Attributed f paid e)
    (horg : d.orgfnctset = e.orgfnctset) (hfunctions : d.fnctset.functions = e.fnctset.functions)
    (hstats : d.stats = e.stats) (horgstats : d.orgstats = e.orgstats) : Attributed f paid d where
  org := horg.trans h.org
  functions := by rw [hfunctions, hstats, h.functions]
  positions := hstats ▸ h.positions
  measured := hstats ▸ h.measured
  length := horgstats ▸ h.length
  untested := horgstats ▸ h.untested
  removed := by
    rw [hstats, horgstats]
    exact h.removed

/-- Objects may change while they keep to their function. -/
theorem attributed_stats (h : Attributed f paid e) {stats : List Stat}
    (hpos : stats.map Stat.pos = e.stats.map Stat.pos) (hm : ∀ s ∈ stats, Measured paid s) :
    Attributed f paid { e with stats } :=
  ⟨h.org, functions_positions h hpos, hpos ▸ h.positions, hm, h.length, h.untested,
    hpos ▸ h.removed⟩

theorem modify_pos {g : Stat → Stat} (hg : ∀ s, (g s).pos = s.pos) (l : List Stat) (i : ℕ) :
    (l.modify i g).map Stat.pos = l.map Stat.pos := by
  refine List.ext_getElem? fun k => ?_
  rw [List.getElem?_map, List.getElem?_map, List.getElem?_modify]
  cases l[k]? with
  | none => rfl
  | some s => by_cases hi : i = k <;> simp [hi, hg]

theorem mem_modify {g : Stat → Stat} {l : List Stat} {i : ℕ} (hs : s ∈ l.modify i g) :
    (∃ t, l[i]? = some t ∧ s = g t) ∨ ∃ k, k ≠ i ∧ l[k]? = some s := by
  obtain ⟨k, hk⟩ := List.getElem?_of_mem hs
  rw [List.getElem?_modify, Option.map_eq_map, Option.map_eq_some_iff] at hk
  obtain ⟨t, ht, hst⟩ := hk
  by_cases hi : i = k
  · rw [if_pos hi] at hst
    exact Or.inl ⟨t, hi ▸ ht, hst.symm⟩
  · rw [if_neg hi] at hst
    exact Or.inr ⟨k, Ne.symm hi, hst ▸ ht⟩

theorem attributed_modify (h : Attributed f paid e) {g : Stat → Stat}
    (hg : ∀ s, (g s).pos = s.pos) (hm : ∀ s, Measured paid s → Measured paid (g s)) (i : ℕ) :
    Attributed f paid { e with stats := e.stats.modify i g } := by
  refine attributed_stats h (modify_pos hg _ _) fun s hs => ?_
  rcases mem_modify hs with ⟨t, ht, rfl⟩ | ⟨k, _, hk⟩
  · exact hm t (h.measured t (List.mem_of_getElem? ht))
  · exact h.measured s (List.mem_of_getElem? hk)

theorem attributed_sync (h : Attributed f paid e) : Attributed f paid (syncStatobjects e) := by
  refine ⟨h.org, h.functions, h.positions, h.measured, ?_, fun p hp hn => ?_, fun p c hc hp => ?_⟩
  · exact (length_copied _ _).trans h.length
  · by_cases hin : p ∈ e.stats.map Stat.pos
    · obtain ⟨s, hs, rfl⟩ := List.mem_map.mp hin
      have hm := h.measured s hs
      have hlt : s.pos < e.orgstats.length := h.length ▸ hp
      have htime : s.time = [] := by rw [hm.time, hn]; rfl
      have hgpts : s.gpts = noPoints := hm.gpts.resolve_right fun hg => hm.filtered hg.1 htime
      exact (copied_own (positions_nodup h) hs hlt).trans (congrArg some hgpts)
    · exact (copied_other hin).trans (h.untested p hp hn)
  · exact (copied_other hp).trans (h.removed p c hc hp)

/-- After a copy of settled objects the original array is complete. -/
theorem sync_complete (h : Attributed f paid e) (hs : ∀ s ∈ e.stats, Settled s)
    (hc : ∀ p c, paid p = some c → 0 < c ∧ c < 999999) {p : ℕ} (hp : p < f.maxnum) :
    (syncStatobjects e).orgstats[p]? = some (recorded (paid p)) := by
  by_cases hin : p ∈ e.stats.map Stat.pos
  · obtain ⟨s, hmem, rfl⟩ := List.mem_map.mp hin
    have hlt : s.pos < e.orgstats.length := h.length ▸ hp
    have hpoints := settled_points (h.measured s hmem) (hs s hmem) (hc s.pos)
    exact (copied_own (positions_nodup h) hmem hlt).trans (congrArg some hpoints)
  · refine (copied_other hin).trans ?_
    cases hpaid : paid p with
    | none => exact h.untested p hp hpaid
    | some c => exact h.removed p c hpaid hin

def Copied (f : Fnctset) (paid : ℕ → Option ℚ) (e : Emethod) (attr : ℕ) (v : ℤ) : Prop :=
  ∀ s ∈ e.stats, keeps attr v (functionAt f s.pos) = false →
    ∀ c, paid s.pos = some c → e.orgstats[s.pos]? = some (exact c)

theorem shrink_stats (h : Attributed f paid e) (attr : ℕ) (v : ℤ) :
    (e.fnctset.functions.zip e.stats).filter (fun q => keeps attr v q.1) =
      (e.stats.filter fun s => keeps attr v (functionAt f s.pos)).map
        fun s => (functionAt f s.pos, s) := by
  have hzip : e.fnctset.functions.zip e.stats =
      e.stats.map fun s => (functionAt f s.pos, s) := by
    rw [h.functions]
    nth_rewrite 2 [← List.map_id e.stats]
    exact List.zip_map'
  rw [hzip, List.filter_map]
  rfl

theorem attributed_shrink (h : Attributed f paid e) {attr : ℕ} {v : ℤ}
    (hcopied : Copied f paid e attr v) : Attributed f paid (shrinklistByattr e attr v) := by
  have hshrunk : Attributed f paid { e with
      fnctset := { e.fnctset with
        functions := ((e.fnctset.functions.zip e.stats).filter
          fun q => keeps attr v q.1).map Prod.fst }
      stats := ((e.fnctset.functions.zip e.stats).filter
        fun q => keeps attr v q.1).map Prod.snd } := by
    have hstats : ((e.fnctset.functions.zip e.stats).filter
        fun q => keeps attr v q.1).map Prod.snd =
          e.stats.filter fun s => keeps attr v (functionAt f s.pos) := by
      rw [shrink_stats h, List.map_map]
      exact List.map_id _
    refine ⟨h.org, ?_, ?_, ?_, h.length, h.untested, ?_⟩
    · simp only [shrink_stats h, List.map_map]
      rfl
    · rw [hstats]
      exact (List.filter_sublist.map _).trans h.positions
    · rw [hstats]
      exact fun s hs => h.measured s (List.mem_of_mem_filter hs)
    · rw [hstats]
      intro p c hc hp
      by_cases hin : p ∈ e.stats.map Stat.pos
      · obtain ⟨s, hs, rfl⟩ := List.mem_map.mp hin
        refine hcopied s hs (Bool.eq_false_iff.mpr fun hk => hp ?_) c hc
        exact List.mem_map_of_mem (List.mem_filter.mpr ⟨hs, hk⟩)
      · exact h.removed p c hc hin
  exact attributed_congr (attributed_sync hshrunk) rfl rfl rfl rfl

end Method

end Otpo.Attribution
