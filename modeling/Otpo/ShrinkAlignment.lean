import Otpo.WorkingSet

/-!
# Working set and statistics stay aligned

Any sequence of reductions keeps the two arrays in step with each other and
with the original set, which is left as it was.
-/

set_option autoImplicit false

namespace Otpo.ShrinkAlignment
open Otpo.ParamList Otpo.Statistics Otpo.WorkingSet
open Otpo.Adcl hiding shrinklistByattr emethodInit syncStatobjects

section Purpose

def meets (calls : List (ℕ × ℤ)) (g : Function) : Bool :=
  calls.all fun c => keeps c.1 c.2 g

structure Aligned (heap : Heap) (f : FnctsetObject) (calls : List (ℕ × ℤ)) (e : EmethodObject) :
    Prop where
  same : ∀ i < e.fnctset.maxnum, ∃ s g, e.stats[i]? = some s ∧ s.pos < e.orgfnctset.maxnum ∧
    e.orgfnctset.fptrs[s.pos]? = some g ∧ e.fnctset.fptrs[i]? = some g
  increasing : ((e.stats.take e.fnctset.maxnum).map Stat.pos).Pairwise (· < ·)
  remaining : e.fnctset.functions = f.functions.filter (meets calls)
  original : e.orgfnctset = f
  attributes : ∀ p < heap.attributes.length, e.heap.attributes[p]? = heap.attributes[p]?
  attrsets : ∀ p < heap.attrsets.length, e.heap.attrsets[p]? = heap.attrsets[p]?

end Purpose

section Invariant

variable {heap : Heap} {f : FnctsetObject} {a : AttrsetObject} {calls : List (ℕ × ℤ)}
variable {e : EmethodObject} {attrPos : ℕ} {v : ℤ}

/-- The functions of the working set with the positions of their statistics
objects are those of the original one with their positions, as far as they
have the required values. The attributes it refers to are its own. -/
structure Working (heap : Heap) (f : FnctsetObject) (a : AttrsetObject) (calls : List (ℕ × ℤ))
    (e : EmethodObject) : Prop where
  original : e.orgfnctset = f
  lengths : e.stats.length = e.fnctset.fptrs.length
  fits : e.fnctset.maxnum ≤ e.fnctset.fptrs.length
  pairs : ((e.fnctset.fptrs.zip e.stats).take e.fnctset.maxnum).map (Prod.map id Stat.pos) =
    f.functions.zipIdx.filter fun q => meets calls q.1
  orgstats : e.orgstats.length = f.maxnum
  extend : Extends heap e.heap
  copy : ∃ b, e.heap.attrsets[e.fnctset.attrset]? = some b ∧
    b.attrs = List.range' heap.attributes.length a.attrs.length
  fresh : heap.attrsets.length ≤ e.fnctset.attrset
  room : heap.attributes.length+a.attrs.length ≤ e.heap.attributes.length

theorem zip_statistics (fptrs : List Function) :
    (fptrs.zip (statisticsCreate fptrs.length)).map (Prod.map id Stat.pos) = fptrs.zipIdx := by
  rw [statisticsCreate, ← List.zip_map, List.map_id, List.map_map]
  have hpos : Stat.pos ∘ freshStat = id := rfl
  rw [hpos, List.map_id, List.zipIdx_eq_zip_range', List.range_eq_range']

theorem functions_length (h : Created heap f a) : f.functions.length = f.maxnum := by
  rw [FnctsetObject.functions, List.length_take]
  exact Nat.min_eq_left h.array

theorem init_working (h : Created heap f a) :
    ∃ e, emethodInit heap f = .ok e ∧ Working heap f a [] e := by
  obtain ⟨b, added, hinit, hattrs, -, -, -, hlength, -⟩ := emethod_init h
  have hfunctions := functions_length h
  refine ⟨_, hinit, ?_⟩
  constructor
  · rfl
  · simp [statisticsCreate, hfunctions]
  · exact hfunctions.ge
  · have htake : (f.functions.zip (statisticsCreate f.maxnum)).length ≤ f.maxnum := by
      rw [List.length_zip, hfunctions]
      exact Nat.min_le_left _ _
    rw [List.take_of_length_le htake, ← hfunctions, zip_statistics]
    simp [meets]
  · exact List.length_replicate
  · exact ⟨fun p hp => List.getElem?_append_left hp, fun p hp => List.getElem?_append_left hp⟩
  · exact ⟨b, List.getElem?_concat_length, hattrs⟩
  · exact Nat.le_refl _
  · rw [List.length_append, hlength]

theorem meets_append (calls : List (ℕ × ℤ)) (attrPos : ℕ) (v : ℤ) (g : Function) :
    meets (calls ++ [(attrPos, v)]) g = (keeps attrPos v g && meets calls g) := by
  rw [meets, List.all_append, List.all_cons, List.all_nil, Bool.and_true, Bool.and_comm, meets]

/-- A pair of the working set stands in the original one. -/
theorem pair_original (h : Working heap f a calls e) {q : Function × Stat}
    (hq : q ∈ (e.fnctset.fptrs.zip e.stats).take e.fnctset.maxnum) :
    f.functions[q.2.pos]? = some q.1 ∧ meets calls q.1 = true := by
  have hmem : (q.1, q.2.pos) ∈ f.functions.zipIdx.filter fun q => meets calls q.1 := by
    rw [← h.pairs]
    exact List.mem_map_of_mem hq
  obtain ⟨hzip, hmeets⟩ := List.mem_filter.mp hmem
  exact ⟨List.mem_zipIdx_iff_getElem?.mp hzip, hmeets⟩

theorem pair_mem (h : Working heap f a calls e) {i : ℕ} (hi : i < e.fnctset.maxnum) :
    ∃ g s, e.fnctset.fptrs[i]? = some g ∧ e.stats[i]? = some s ∧
      (g, s) ∈ (e.fnctset.fptrs.zip e.stats).take e.fnctset.maxnum := by
  have hfits := h.fits
  have hlengths := h.lengths
  have hg := List.getElem?_eq_getElem (show i < e.fnctset.fptrs.length by omega)
  have hs := List.getElem?_eq_getElem (show i < e.stats.length by omega)
  refine ⟨_, _, hg, hs, ?_⟩
  apply List.mem_of_getElem? (i := i)
  rw [List.getElem?_take_of_lt hi]
  exact List.getElem?_zip_eq_some.mpr ⟨hg, hs⟩

theorem original_position (hc : Created heap f a) (h : Working heap f a calls e)
    {q : Function × Stat} (hq : q ∈ (e.fnctset.fptrs.zip e.stats).take e.fnctset.maxnum) :
    q.2.pos < f.maxnum := by
  have hpos := (List.getElem?_eq_some_iff.mp (pair_original h hq).1).1
  rwa [functions_length hc] at hpos

theorem stat_paired {fptrs : List Function} {stats : List Stat} {n : ℕ} {s : Stat}
    (hlengths : stats.length = fptrs.length) (hs : s ∈ stats.take n) :
    ∃ g, (g, s) ∈ (fptrs.zip stats).take n := by
  have hsnd : ((fptrs.zip stats).take n).map Prod.snd = stats.take n := by
    rw [List.map_take, List.map_snd_zip hlengths.le]
  rw [← hsnd] at hs
  obtain ⟨q, hq, rfl⟩ := List.mem_map.mp hs
  exact ⟨q.1, hq⟩

/-- The copy of the attribute is written, nothing else. -/
theorem require_value (h : Working heap f a calls e) (hattr : attrPos < a.attrs.length) (v : ℤ) :
    ∃ b attr, e.heap.attrsets[e.fnctset.attrset]? = some b ∧
      b.attrs = List.range' heap.attributes.length a.attrs.length ∧
      e.heap.attributes[heap.attributes.length+attrPos]? = some attr ∧
      requireValue e.heap e.fnctset.attrset attrPos v = .ok
        ⟨e.heap.attributes.set (heap.attributes.length+attrPos) (attr.require v),
          e.heap.attrsets.set e.fnctset.attrset (b.require attrPos v)⟩ := by
  obtain ⟨b, hb, hattrs⟩ := h.copy
  have hroom := h.room
  have hget : b.attrs[attrPos]? = some (heap.attributes.length+attrPos) := by
    rw [hattrs, List.getElem?_range' hattr, Nat.one_mul]
  have hattribute := List.getElem?_eq_getElem
    (show heap.attributes.length+attrPos < e.heap.attributes.length by omega)
  refine ⟨b, _, hb, hattrs, hattribute, ?_⟩
  simp only [requireValue, hb, hget, hattribute]

/-- What a call leaves: the pairs that are kept in front of both arrays, and
the copy of one attribute written. -/
theorem shrink_result (hc : Created heap f a) (h : Working heap f a calls e)
    (hattr : attrPos < a.attrs.length) (v : ℤ) :
    ∃ count fptrs stats b attr, shrinklistByattr e attrPos v = .ok
        ⟨⟨e.heap.attributes.set (heap.attributes.length+attrPos) (attr.require v),
          e.heap.attrsets.set e.fnctset.attrset (b.require attrPos v)⟩, e.orgfnctset,
          ⟨count, fptrs, e.fnctset.attrset⟩, stats,
          (stats.take count).foldl (fun o s => o.set s.pos s.gpts) e.orgstats⟩ ∧
      e.heap.attrsets[e.fnctset.attrset]? = some b ∧
      b.attrs = List.range' heap.attributes.length a.attrs.length ∧
      e.heap.attributes[heap.attributes.length+attrPos]? = some attr ∧
      fptrs.length = e.fnctset.fptrs.length ∧ stats.length = e.fnctset.fptrs.length ∧
      count ≤ e.fnctset.fptrs.length ∧ (fptrs.zip stats).take count =
        ((e.fnctset.fptrs.zip e.stats).take e.fnctset.maxnum).filter
          fun q => keeps attrPos v q.1 := by
  have hvals : ∀ j g, 0 ≤ j → j < 0+e.fnctset.maxnum → e.fnctset.fptrs[j]? = some g →
      attrPos < g.attrVals.length := by
    intro j g _ hj hg
    rw [Nat.zero_add] at hj
    obtain ⟨g', s, hg', -, hmem⟩ := pair_mem h hj
    rw [hg] at hg'
    cases hg'
    rwa [hc.attrVals g (List.mem_of_getElem? (pair_original h hmem).1)]
  have hfits : 0+e.fnctset.maxnum ≤ e.fnctset.fptrs.length := by
    rw [Nat.zero_add]
    exact h.fits
  obtain ⟨fptrs, stats, hmove, hzip, hf, hs⟩ :=
    move_front (v := v) h.lengths (Nat.le_refl 0) hfits hvals
  have hlen : e.fnctset.maxnum ≤ (e.fnctset.fptrs.zip e.stats).length := by
    rw [List.length_zip, h.lengths, Nat.min_self]
    exact h.fits
  obtain ⟨hcount, hkept⟩ := Compaction.compact_all (fun q => keeps attrPos v q.1) hlen
  rw [← hzip] at hkept
  generalize (Compaction.compact (fun q : Function × Stat => keeps attrPos v q.1)
    e.fnctset.maxnum 0 0 (e.fnctset.fptrs.zip e.stats)).1 = count at hmove hcount hkept
  obtain ⟨b, attr, hb, hattrs, hattribute, hrequire⟩ := require_value h hattr v
  have hle : count ≤ e.fnctset.fptrs.length := by
    rw [hcount]
    refine (List.length_filter_le _ _).trans ?_
    rw [List.length_take, List.length_zip]
    omega
  have hpositions : ∀ s ∈ stats.take count, s.pos < e.orgstats.length := by
    intro s hmem
    obtain ⟨g, hpair⟩ := stat_paired (hs.trans hf.symm) hmem
    rw [hkept] at hpair
    rw [h.orgstats]
    exact original_position hc h (List.mem_filter.mp hpair).1
  refine ⟨count, fptrs, stats, b, attr, ?_, hb, hattrs, hattribute, hf, hs, hle, hkept⟩
  simp only [shrinklistByattr, hmove, sync_valid hpositions, hrequire]

theorem shrink_working (hc : Created heap f a) (h : Working heap f a calls e)
    (hattr : attrPos < a.attrs.length) (v : ℤ) :
    ∃ e', shrinklistByattr e attrPos v = .ok e' ∧
      Working heap f a (calls ++ [(attrPos, v)]) e' := by
  obtain ⟨count, fptrs, stats, b, attr, hshrink, hb, hattrs, -, hf, hs, hle, hkept⟩ :=
    shrink_result hc h hattr v
  refine ⟨_, hshrink, ?_⟩
  constructor
  · exact h.original
  · simp only [hs, hf]
  · simp only [hf]
    exact hle
  · have hpred : (fun q : Function × Stat => keeps attrPos v q.1) =
        (fun q : Function × ℕ => keeps attrPos v q.1) ∘ Prod.map id Stat.pos := rfl
    rw [hkept, hpred, ← List.filter_map, h.pairs, List.filter_filter]
    apply List.filter_congr
    intro q _
    rw [meets_append]
  · rw [sync_length]
    exact h.orgstats
  · constructor
    · intro p hp
      rw [List.getElem?_set_ne (by omega), h.extend.attributes p hp]
    · intro p hp
      have hfresh := h.fresh
      rw [List.getElem?_set_ne (by omega), h.extend.attrsets p hp]
  · refine ⟨b.require attrPos v, ?_, hattrs⟩
    rw [List.getElem?_set_self (List.getElem?_eq_some_iff.mp hb).1]
  · exact h.fresh
  · simp only [List.length_set]
    exact h.room

theorem shrink_all_working {more : List (ℕ × ℤ)} (hc : Created heap f a)
    (h : Working heap f a calls e) (hattrs : ∀ c ∈ more, c.1 < a.attrs.length) :
    ∃ e', shrinkAll more e = .ok e' ∧ Working heap f a (calls ++ more) e' := by
  induction more generalizing calls e with
  | nil => exact ⟨e, rfl, by rwa [List.append_nil]⟩
  | cons c more ih =>
    obtain ⟨e₁, hshrink, hworking⟩ := shrink_working hc h (hattrs c List.mem_cons_self) c.2
    obtain ⟨e', hrun, hend⟩ := ih hworking fun d hd => hattrs d (List.mem_cons_of_mem _ hd)
    rw [List.append_assoc, List.singleton_append] at hend
    refine ⟨e', ?_, hend⟩
    simp only [shrinkAll, hshrink, hrun]

theorem zip_take_fst {A B : Type} {xs : List A} {ys : List B} (h : xs.length ≤ ys.length)
    (n : ℕ) : ((xs.zip ys).take n).map Prod.fst = xs.take n := by
  rw [List.map_take, List.map_fst_zip h]

theorem zip_take_snd {A B : Type} {xs : List A} {ys : List B} (h : ys.length ≤ xs.length)
    (n : ℕ) : ((xs.zip ys).take n).map Prod.snd = ys.take n := by
  rw [List.map_take, List.map_snd_zip h]

theorem working_aligned (hc : Created heap f a) (h : Working heap f a calls e) :
    Aligned heap f calls e := by
  have hlengths := h.lengths
  have hfst := zip_take_fst hlengths.ge e.fnctset.maxnum
  have hsnd := zip_take_snd hlengths.le e.fnctset.maxnum
  constructor
  · intro i hi
    obtain ⟨g, s, hg, hs, hmem⟩ := pair_mem h hi
    have hpos := original_position hc h hmem
    have hget := (pair_original h hmem).1
    rw [FnctsetObject.functions, List.getElem?_take_of_lt hpos] at hget
    rw [h.original]
    exact ⟨s, g, hs, hpos, hget, hg⟩
  · have hpos : (e.stats.take e.fnctset.maxnum).map Stat.pos =
        (f.functions.zipIdx.filter fun q => meets calls q.1).map Prod.snd := by
      rw [← h.pairs, ← hsnd, List.map_map, List.map_map]
      rfl
    rw [hpos]
    have hsub := (List.filter_sublist (p := fun q : Function × ℕ => meets calls q.1)
      (l := f.functions.zipIdx)).map Prod.snd
    rw [List.zipIdx_map_snd] at hsub
    exact List.Pairwise.sublist hsub List.pairwise_lt_range'
  · have hpairs := congrArg (List.map Prod.fst) h.pairs
    rw [List.map_map] at hpairs
    rw [FnctsetObject.functions, ← hfst]
    refine Eq.trans ?_ (hpairs.trans ?_)
    · rfl
    · have hpred : (fun q : Function × ℕ => meets calls q.1) = meets calls ∘ Prod.fst := rfl
      rw [hpred, ← List.filter_map, List.zipIdx_map_fst]
  · exact h.original
  · exact h.extend.attributes
  · exact h.extend.attrsets

end Invariant

section Refinement

variable {heap : Heap} {f : FnctsetObject} {a : AttrsetObject} {calls : List (ℕ × ℤ)}
variable {e e' : EmethodObject} {m : Emethod} {attrPos : ℕ} {v : ℤ}

structure Views (e : EmethodObject) (m : Emethod) : Prop where
  orgfnctset : m.orgfnctset = e.heap.fnctset e.orgfnctset
  fnctset : m.fnctset = e.heap.fnctset e.fnctset
  stats : m.stats = e.stats.take e.fnctset.maxnum
  orgstats : m.orgstats = e.orgstats

theorem attrset_get {b : AttrsetObject} {p : ℕ} (h : heap.attrsets[p]? = some b) :
    heap.attrset p = ⟨b.attrs.map heap.values, b.baseval, b.maxval, b.numval⟩ := by
  rw [Heap.attrset, h]

theorem original_view (hc : Created heap f a) (h : Extends heap e.heap) :
    e.heap.attrset f.attrset = heap.attrset f.attrset := by
  have hlt := (List.getElem?_eq_some_iff.mp hc.attrset).1
  rw [attrset_get hc.attrset, attrset_get ((h.attrsets _ hlt).trans hc.attrset)]
  have hvalues : a.attrs.map e.heap.values = a.attrs.map heap.values := by
    apply List.map_congr_left
    intro p hp
    rw [Heap.values, Heap.values, h.attributes p (hc.attrs p hp)]
  rw [hvalues]

theorem copy_values (attr : AttributeObject) :
    attr.copy.values.take attr.copy.maxnvalues = attr.values.take attr.maxnvalues := by
  rw [AttributeObject.copy, List.take_take, Nat.min_self]

theorem init_views (hc : Created heap f a) (horg : m.orgfnctset = heap.fnctset f)
    (hfnctset : m.fnctset = heap.fnctset f)
    (hstats : m.stats = (List.range f.maxnum).map freshStat)
    (horgstats : m.orgstats = List.replicate f.maxnum noPoints) :
    ∃ e, emethodInit heap f = .ok e ∧ Working heap f a [] e ∧ Views e m := by
  obtain ⟨e, hinit, hworking⟩ := init_working hc
  obtain ⟨b, added, hobject, hattrs, hbase, hmax, hnum, hlength, hcopy⟩ := emethod_init hc
  rw [hobject, Except.ok.injEq] at hinit
  subst hinit
  refine ⟨_, hobject, hworking, ?_⟩
  have hset : (heap.attrsets ++ [b])[heap.attrsets.length]? = some b :=
    List.getElem?_concat_length
  constructor
  · rw [horg]
    exact congrArg (Fnctset.mk _) (original_view hc hworking.extend).symm
  · have hvalues : b.attrs.map (Heap.mk (heap.attributes ++ added) (heap.attrsets ++ [b])).values =
        a.attrs.map heap.values := by
      apply List.ext_getElem?
      intro i
      rw [hattrs, List.getElem?_map, List.getElem?_map]
      by_cases hi : i < a.attrs.length
      · have hp := List.getElem?_eq_getElem hi
        have hadded := hcopy i _ hp
        have hlt := hc.attrs _ (List.getElem_mem hi)
        rw [List.getElem?_range' hi, hp, Nat.one_mul, Option.map_some, Option.map_some,
          Heap.values, Heap.values, List.getElem?_append_right (Nat.le_add_right _ _),
          Nat.add_sub_cancel_left, hadded, List.getElem?_eq_getElem hlt]
        exact congrArg some (copy_values _)
      · rw [List.getElem?_eq_none (by rw [List.length_range']; omega),
          List.getElem?_eq_none (by omega)]
        rfl
    have hview : (Heap.mk (heap.attributes ++ added) (heap.attrsets ++ [b])).attrset
        heap.attrsets.length = heap.attrset f.attrset := by
      rw [attrset_get hset, attrset_get hc.attrset, hvalues, hbase, hmax, hnum]
    have hfunctions : (FnctsetObject.mk f.maxnum f.functions heap.attrsets.length).functions =
        f.functions := by
      rw [FnctsetObject.functions, List.take_of_length_le (functions_length hc).le]
    rw [hfnctset, Heap.fnctset, Heap.fnctset, hview, hfunctions]
  · rw [hstats]
    exact (List.take_of_length_le (by simp)).symm
  · exact horgstats

theorem require_values (attr : AttributeObject) (v : ℤ) :
    (attr.require v).values.take (attr.require v).maxnvalues = [v] := by
  have hfilled := attr.filled
  change (attr.values.set 0 v).take 1 = [v]
  cases hv : attr.values with
  | nil =>
    rw [hv, List.length_nil] at hfilled
    omega
  | cons x values => rfl

/-- Of the attributes of the working set only the one that is reduced changes. -/
theorem required_values (sets : List AttrsetObject) {start n : ℕ} {attr : AttributeObject}
    (hattr : attrPos < n) (hget : heap.attributes[start+attrPos]? = some attr) :
    (List.range' start n).map
      (Heap.mk (heap.attributes.set (start+attrPos) (attr.require v)) sets).values =
        ((List.range' start n).map heap.values).set attrPos [v] := by
  apply List.ext_getElem?
  intro i
  rw [List.getElem?_map, List.getElem?_set, List.getElem?_map, List.length_map,
    List.length_range']
  by_cases hi : i < n
  · rw [List.getElem?_range' hi, Nat.one_mul, Option.map_some, Option.map_some, Heap.values]
    by_cases heq : attrPos = i
    · subst heq
      rw [List.getElem?_set_self (List.getElem?_eq_some_iff.mp hget).1, if_pos rfl, if_pos hi]
      exact congrArg some (require_values attr v)
    · rw [List.getElem?_set_ne (by omega), if_neg heq, Heap.values]
  · rw [List.getElem?_eq_none (by rw [List.length_range']; omega), if_neg (by omega)]
    rfl

/-- Behind the memory, a reduction is that of the selection object. -/
theorem shrink_views (hc : Created heap f a) (h : Working heap f a calls e) (hm : Views e m)
    (hattr : attrPos < a.attrs.length) (hshrink : shrinklistByattr e attrPos v = .ok e') :
    Views e' (Adcl.shrinklistByattr m attrPos v) := by
  obtain ⟨count, fptrs, stats, b, attr, hresult, hb, hattrs, hattribute, hf, hs, -, hkept⟩ :=
    shrink_result hc h hattr v
  rw [hresult, Except.ok.injEq] at hshrink
  have hext : Extends heap e'.heap := by
    obtain ⟨e'', hok, hworking⟩ := shrink_working hc h hattr v
    rw [hresult, Except.ok.injEq] at hok
    rw [← hshrink, hok]
    exact hworking.extend
  have hpairs : (m.fnctset.functions.zip m.stats).filter (fun q => keeps attrPos v q.1) =
      (fptrs.zip stats).take count := by
    rw [hkept, hm.fnctset, hm.stats, Heap.fnctset, FnctsetObject.functions, List.zip,
      ← List.take_zipWith]
  have hfst := zip_take_fst (hf.trans hs.symm).le count
  have hsnd := zip_take_snd (hs.trans hf.symm).le count
  have hview : m.fnctset.attrset = ⟨b.attrs.map e.heap.values, b.baseval, b.maxval, b.numval⟩ := by
    rw [hm.fnctset]
    exact attrset_get hb
  have hset : (e.heap.attrsets.set e.fnctset.attrset (b.require attrPos v))[e.fnctset.attrset]? =
      some (b.require attrPos v) :=
    List.getElem?_set_self (List.getElem?_eq_some_iff.mp hb).1
  have hvalues : b.attrs.map e'.heap.values = (b.attrs.map e.heap.values).set attrPos [v] := by
    rw [hattrs, ← hshrink]
    exact required_values _ hattr hattribute
  constructor
  · have horg : e'.heap.fnctset e'.orgfnctset = e.heap.fnctset e.orgfnctset := by
      have hsame : e'.orgfnctset = f := by
        rw [← hshrink]
        exact h.original
      rw [hsame, h.original, Heap.fnctset, Heap.fnctset, original_view hc hext,
        original_view hc h.extend]
    rw [horg]
    exact hm.orgfnctset
  · have hattrset : e'.heap.attrset e.fnctset.attrset =
        ⟨(b.attrs.map e.heap.values).set attrPos [v], b.baseval.set attrPos v,
          b.maxval.set attrPos v, b.numval.set attrPos 1⟩ := by
      rw [← hvalues, attrset_get (by rw [← hshrink]; exact hset)]
      rfl
    have hfnctset : e'.fnctset = ⟨count, fptrs, e.fnctset.attrset⟩ := by rw [← hshrink]
    rw [Heap.fnctset, hfnctset, hattrset, FnctsetObject.functions]
    simp only [Adcl.shrinklistByattr, Adcl.syncStatobjects, hpairs, hfst, hview]
  · rw [← hshrink]
    simp only [Adcl.shrinklistByattr, Adcl.syncStatobjects, hpairs, hsnd]
  · rw [← hshrink]
    simp only [Adcl.shrinklistByattr, Adcl.syncStatobjects, hpairs, hsnd, hm.orgstats]

/-- Behind the memory, any calls reduce the selection object. -/
theorem shrink_all_views {more : List (ℕ × ℤ)} (hc : Created heap f a)
    (h : Working heap f a calls e) (hm : Views e m) (hattrs : ∀ c ∈ more, c.1 < a.attrs.length)
    (hrun : shrinkAll more e = .ok e') :
    Views e' (more.foldl (fun m c => Adcl.shrinklistByattr m c.1 c.2) m) := by
  induction more generalizing calls e m with
  | nil =>
    cases hrun
    exact hm
  | cons c more ih =>
    have hattr := hattrs c List.mem_cons_self
    obtain ⟨e₁, hshrink, hworking⟩ := shrink_working hc h hattr c.2
    simp only [shrinkAll, hshrink] at hrun
    rw [List.foldl_cons]
    exact ih hworking (shrink_views hc h hm hattr hshrink)
      (fun d hd => hattrs d (List.mem_cons_of_mem _ hd)) hrun

end Refinement

/-- After any calls the working set, its statistics objects and the original
set are aligned, and no call leaves its arrays. -/
theorem shrinking_aligned (heap : Heap) (f : FnctsetObject) (a : AttrsetObject)
    (calls : List (ℕ × ℤ)) (hc : Created heap f a) (hcalls : ∀ c ∈ calls, c.1 < a.attrs.length) :
    ∃ e₀ e, emethodInit heap f = .ok e₀ ∧ shrinkAll calls e₀ = .ok e ∧
      Aligned heap f calls e := by
  obtain ⟨e₀, hinit, hworking⟩ := init_working hc
  obtain ⟨e, hrun, hend⟩ := shrink_all_working hc hworking hcalls
  exact ⟨e₀, e, hinit, hrun, working_aligned hc hend⟩

/-- Four functions over two attributes, and two calls. -/
theorem shrinking_aligned_grid :
    let heap : Heap := ⟨[⟨2, [0, 1], by decide⟩, ⟨2, [4, 6], by decide⟩],
      [⟨[0, 1], [0, 4], [1, 6], [2, 2], by decide⟩]⟩
    let f : FnctsetObject := ⟨4, [⟨0, [0, 4]⟩, ⟨1, [0, 6]⟩, ⟨2, [1, 4]⟩, ⟨3, [1, 6]⟩], 0⟩
    ∃ e₀ e, emethodInit heap f = .ok e₀ ∧ shrinkAll [(1, 6), (0, 1)] e₀ = .ok e ∧
      Aligned heap f [(1, 6), (0, 1)] e := by
  intro heap f
  have hc : Created heap f ⟨[0, 1], [0, 4], [1, 6], [2, 2], by decide⟩ := by
    refine ⟨by decide, rfl, by decide, by decide⟩
  exact shrinking_aligned heap f _ _ hc (by decide)

end Otpo.ShrinkAlignment
