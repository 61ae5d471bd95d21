import Otpo.HypothesisFresh

/-!
# The evaluation of the hypotheses comes to its end

Every function of the working set either waits for its test or has its average,
so each block with two averages has a winner. The blocks of an attribute end
with the combinations of the others.
-/

set_option autoImplicit false

namespace Otpo.HypothesisEvaluation
open Otpo.ParamList Otpo.Statistics Otpo.Adcl Otpo.Attribution Otpo.PerfHypothesis
open Otpo.HypothesisOdometer Otpo.HypothesisFresh

structure Waiting (s : Stat) : Prop where
  count : s.count = 0
  time : s.time = []
  tested : s.tested = false
  filtered : s.filtered = false

structure Evaluated (s : Stat) : Prop where
  tested : s.tested = true
  points : ∃ c, 0 < c ∧ c < 999999 ∧ s.gpts = exact c

def Phased (stats : List Stat) : Prop := ∀ s ∈ stats, Waiting s ∨ Evaluated s

/-- Among functions with averages there is a winner. -/
theorem winner_found {stats : List Stat} (h : ∀ s ∈ stats, Evaluated s) (hne : stats ≠ []) :
    ∃ w, getWinnerV3 stats = .ok (.filtered, some w) ∧ w < stats.length := by
  have hpoints : stats.map Stat.gpts =
      (stats.map fun s => s.gpts.filtered).map fun x => ⟨x, x, some 0⟩ := by
    rw [List.map_map]
    refine List.map_congr_left fun s hs => ?_
    obtain ⟨c, _, _, hc⟩ := (h s hs).points
    simp only [Function.comp_apply, hc, exact]
  have hkey : ∀ (j : ℕ) (y : ℚ),
      (keys (stats.map fun s => s.gpts.filtered))[j]? = some (some y) → y < 999999999999/100 := by
    intro j y hj
    rw [keys_getElem, List.getElem?_map, Option.map_eq_some_iff] at hj
    obtain ⟨⟨s, hs, hy⟩, _⟩ := hj
    obtain ⟨c, _, hlt, hc⟩ := (h s (List.mem_of_getElem? hs)).points
    rw [hc] at hy
    cases hy
    exact hlt.trans (by norm_num)
  have hex : ∃ (j : ℕ) (y : ℚ),
      (keys (stats.map fun s => s.gpts.filtered))[j]? = some (some y) := by
    obtain ⟨s, stats, rfl⟩ := List.exists_cons_of_ne_nil hne
    obtain ⟨c, hpos, _, hc⟩ := (h s List.mem_cons_self).points
    refine ⟨0, c, keys_getElem.mpr ⟨?_, hpos.ne'⟩⟩
    rw [List.map_cons, hc]
    rfl
  obtain ⟨w, x, hl⟩ := FirstMinimum.exists_least hex
  have hw := get_winner_exact hpoints hl (hkey w x hl.1)
  exact ⟨w, hw, get_winner_lt hw⟩

section Blocks

variable {functions : List (Function × Stat)} {a : Attrset} {vals : List ℤ} {attrPos fuel : ℕ}

theorem block_stats_mem {attr : List ℤ} {qs : List (Function × Stat)}
    (h : blockStats functions vals attrPos attr = some qs) :
    ∀ q ∈ qs, q ∈ functions ∧ q.2.filtered = true := by
  induction attr generalizing qs with
  | nil =>
    cases h
    exact fun q hq => by cases hq
  | cons v attr ih =>
    rw [blockStats] at h
    split at h
    · exact ih h
    · next q hq =>
      split at h
      · next hfiltered =>
        rw [Option.map_eq_some_iff] at h
        obtain ⟨qs, hqs, rfl⟩ := h
        exact List.forall_mem_cons.mpr ⟨⟨List.mem_of_find?_eq_some hq, hfiltered⟩, ih hqs⟩
      · cases h

theorem eval_one_ok (h : ∀ q ∈ functions, Waiting q.2 ∨ Evaluated q.2) (vals : List ℤ)
    (attrPos : ℕ) (attr : List ℤ) : ∃ w, evalOneAttr functions vals attrPos attr = .ok w := by
  rw [evalOneAttr]
  cases hblock : blockStats functions vals attrPos attr with
  | none => exact ⟨none, rfl⟩
  | some qs =>
    by_cases hlen : qs.length < 2
    · exact ⟨none, if_pos hlen⟩
    · have hevaluated : ∀ s ∈ qs.map Prod.snd, Evaluated s := by
        intro s hs
        obtain ⟨q, hq, rfl⟩ := List.mem_map.mp hs
        obtain ⟨hmem, hfiltered⟩ := block_stats_mem hblock q hq
        refine (h q hmem).resolve_left fun hwaiting => ?_
        rw [hwaiting.filtered] at hfiltered
        cases hfiltered
      have hne : qs.map Prod.snd ≠ [] := by
        cases qs with
        | nil => exact absurd Nat.two_pos hlen
        | cons q qs => exact List.cons_ne_nil _ _
      obtain ⟨w, hw, hlt⟩ := winner_found hevaluated hne
      rw [List.length_map] at hlt
      simp only [if_neg hlen, hw, Option.bind_some, List.getElem?_eq_getElem hlt]
      exact ⟨_, rfl⟩

theorem eval_blocks_ok (h : ∀ q ∈ functions, Waiting q.2 ∨ Evaluated q.2) (hf : Formed a)
    (hv : Placed a vals) (hi : attrPos < a.maxnum)
    (hfuel : Odometer.weight (gears attrPos 0 a.attrs) vals < fuel) (b : Beliefs) :
    ∃ c, evalBlocks functions a attrPos (a.attrs.getD attrPos []) fuel vals b = .ok c := by
  induction fuel generalizing vals b with
  | zero => cases hfuel
  | succ fuel ih =>
    obtain ⟨w, hw⟩ := eval_one_ok h vals attrPos (a.attrs.getD attrPos [])
    have hbase : (a.attrs.getD attrPos []).getD 0 0 = (a.attrs.getD attrPos []).headD 0 := by
      cases a.attrs.getD attrPos [] <;> rfl
    have hplaced := placed_set hv (shows_base (placed_get hv hi))
    have hweight := excluding_weight attrPos hf hplaced
    have hnext := excluding_placed attrPos hf hplaced
    simp only [evalBlocks, hw, hbase]
    generalize nextExcluding a attrPos 0
      (vals.set attrPos ((a.attrs.getD attrPos []).headD 0)) = next at hweight hnext ⊢
    obtain ⟨more, vals'⟩ := next
    cases more with
    | false => exact ⟨_, rfl⟩
    | true =>
      rw [weight_set_active] at hweight
      exact ih hnext ((hweight rfl).trans_le (Nat.le_of_lt_succ hfuel)) _

end Blocks

section Evaluation

variable {f : Fnctset} {e : Emethod} {hypo : Hypothesis} {fuel : ℕ}

structure Sound (f : Fnctset) (e : Emethod) : Prop where
  members : ∀ g ∈ e.fnctset.functions, g ∈ f.functions
  length : e.fnctset.functions.length = e.stats.length
  phased : Phased e.stats
  formed : Formed e.fnctset.attrset
  bounded : size e.fnctset.attrset ≤ size f.attrset

theorem sound_zip (h : Sound f e) :
    ∀ q ∈ e.fnctset.functions.zip e.stats, Waiting q.2 ∨ Evaluated q.2 :=
  fun q hq => h.phased q.2 (List.of_mem_zip (a := q.1) (b := q.2) hq).2

theorem weight_le_total {a : Attrset} {active : ℕ} {vals : List ℤ} (hv : Placed a vals)
    (ha : active < a.maxnum) :
    Odometer.weight (gears active 0 a.attrs) vals ≤ total a active vals := by
  have hpos : 0 < (a.attrs.getD active []).length :=
    List.length_pos_of_mem (placed_get hv ha).1
  exact (Nat.le_mul_of_pos_left _ hpos).trans (Nat.le_add_left _ _)

theorem eval_hypotheses_ok (h : Sound f e) (hfuel : size f.attrset ≤ fuel) (b : Beliefs) :
    ∃ c, evalHypotheses (e.fnctset.functions.zip e.stats) e.fnctset.attrset fuel b = .ok c := by
  rw [evalHypotheses]
  have hloops : ∀ loop ∈ List.range e.fnctset.attrset.maxnum, loop < e.fnctset.attrset.maxnum :=
    fun loop => List.mem_range.mp
  generalize List.range e.fnctset.attrset.maxnum = loops at hloops
  generalize resetHypotheses b = b
  induction loops generalizing b with
  | nil => exact ⟨b, rfl⟩
  | cons loop loops ih =>
    rw [List.forall_mem_cons] at hloops
    have hstep : ∃ c, (if b.hypothesis.getD loop 0 ≠ attrNotSet then Except.ok b
        else evalBlocks (e.fnctset.functions.zip e.stats) e.fnctset.attrset loop
          (e.fnctset.attrset.attrs.getD loop []) fuel e.fnctset.attrset.baseval b) = .ok c := by
      by_cases hset : b.hypothesis.getD loop 0 ≠ attrNotSet
      · exact ⟨b, if_pos hset⟩
      · rw [if_neg hset]
        have hbase := placed_base h.formed
        refine eval_blocks_ok (sound_zip h) h.formed hbase hloops.1 ?_ b
        calc _ ≤ total e.fnctset.attrset loop e.fnctset.attrset.baseval :=
              weight_le_total hbase hloops.1
          _ < size e.fnctset.attrset := total_lt hbase hloops.1
          _ ≤ fuel := h.bounded.trans hfuel
    obtain ⟨c, hc⟩ := hstep
    obtain ⟨d, hd⟩ := ih hloops.2 c
    refine ⟨d, ?_⟩
    rw [List.foldlM_cons, hc]
    exact hd

theorem evaluate_ok (h : Sound f e) (hfuel : size f.attrset ≤ fuel) (hypo : Hypothesis) :
    ∃ b, evaluate fuel e hypo = .ok b := eval_hypotheses_ok h hfuel _

def waiting (e : Emethod) : ℕ := e.stats.countP (!·.tested)

theorem sound_shrink (h : Sound f e) (i : ℕ) (v : ℤ) :
    Sound f (shrinklistByattr e i v) ∧ waiting (shrinklistByattr e i v) ≤ waiting e := by
  have hkept : ((e.fnctset.functions.zip e.stats).filter fun q => keeps i v q.1).Sublist
      (e.fnctset.functions.zip e.stats) := List.filter_sublist
  have hfunctions : (shrinklistByattr e i v).fnctset.functions.Sublist e.fnctset.functions := by
    have hmap := hkept.map Prod.fst
    rwa [List.map_fst_zip h.length.le] at hmap
  have hstats : (shrinklistByattr e i v).stats.Sublist e.stats := by
    have hmap := hkept.map Prod.snd
    rwa [List.map_snd_zip h.length.ge] at hmap
  refine ⟨⟨fun g hg => h.members g (hfunctions.subset hg), ?_,
    fun s hs => h.phased s (hstats.subset hs), formed_shrink h.formed i v,
    (size_shrink h.formed i v).trans h.bounded⟩, hstats.countP_le⟩
  exact (List.length_map _).trans (List.length_map _).symm

structure Kept (e d : Emethod) : Prop where
  state : d.state = e.state
  algo : d.searchAlgo = e.searchAlgo
  attributes : d.fnctset.attrset.maxnum = e.fnctset.attrset.maxnum
  waiting : waiting d ≤ waiting e

theorem kept_trans {e₁ e₂ e₃ : Emethod} (h : Kept e₁ e₂) (g : Kept e₂ e₃) : Kept e₁ e₃ :=
  ⟨g.state.trans h.state, g.algo.trans h.algo, g.attributes.trans h.attributes,
    g.waiting.trans h.waiting⟩

theorem shrinks_sound (settled : List (ℕ × ℤ)) (h : Sound f e) :
    Sound f (settled.foldl (fun e q => shrinklistByattr e q.1 q.2) e) ∧
      Kept e (settled.foldl (fun e q => shrinklistByattr e q.1 q.2) e) ∧
      (settled.foldl (fun e q => shrinklistByattr e q.1 q.2) e).hypo = e.hypo := by
  induction settled generalizing e with
  | nil => exact ⟨h, ⟨rfl, rfl, rfl, le_rfl⟩, rfl⟩
  | cons q settled ih =>
    obtain ⟨hs, hw⟩ := sound_shrink h q.1 q.2
    obtain ⟨hd, hkept, hhypo⟩ := ih hs
    have hfirst : Kept e (shrinklistByattr e q.1 q.2) :=
      ⟨rfl, rfl, List.length_set, hw⟩
    exact ⟨hd, kept_trans hfirst hkept, hhypo⟩

theorem kept_hypo (e : Emethod) (hypo : Hypothesis) : Kept e (setHypo e hypo) :=
  ⟨rfl, rfl, rfl, le_rfl⟩

theorem sound_hypo (h : Sound f e) (hypo : Hypothesis) : Sound f (setHypo e hypo) :=
  ⟨h.members, h.length, h.phased, h.formed, h.bounded⟩

/-- The evaluation comes to its end; it shrinks the set, or changes only what is
believed. -/
theorem eval_v3_sound (h : Sound f e) (hfuel : size f.attrset ≤ fuel) (hypo : Hypothesis) :
    ∃ changed d hypo', evalV3 fuel e hypo = .ok (changed, d) ∧ Sound f d ∧ Kept e d ∧
      d.hypo = some hypo' ∧ hypo'.currAttrvals = hypo.currAttrvals ∧
      hypo'.activeAttrpos = hypo.activeAttrpos ∧
      (changed = false → d.fnctset = e.fnctset ∧ d.stats = e.stats) := by
  obtain ⟨b, hb⟩ := evaluate_ok h hfuel hypo
  obtain ⟨hs, hkept, hhypo⟩ := shrinks_sound (reached e.fnctset.attrset b) (sound_hypo h
    { hypo with attrHypothesis := b.hypothesis, attrConfidence := b.confidence })
  have hresult : evalV3 fuel e hypo = .ok (!(reached e.fnctset.attrset b).isEmpty,
      (reached e.fnctset.attrset b).foldl (fun e q => shrinklistByattr e q.1 q.2) (setHypo e
        { hypo with attrHypothesis := b.hypothesis, attrConfidence := b.confidence })) := by
    simp only [evalV3, hb]
  refine ⟨_, _, _, hresult, hs, ?_, hhypo, rfl, rfl, fun hchanged => ?_⟩
  · exact kept_trans (kept_hypo e _) hkept
  · rw [Bool.not_eq_false', List.isEmpty_iff] at hchanged
    rw [hchanged]
    exact ⟨rfl, rfl⟩

end Evaluation

end Otpo.HypothesisEvaluation
