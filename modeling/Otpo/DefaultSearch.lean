import Otpo.TwokRun
import Otpo.Enumeration

/-!
# The default search

The process that OTPO starts by default, over the full product of ascending
value lists, and when it comes to its decision.
-/

set_option autoImplicit false

namespace Otpo.DefaultSearch
open Otpo.ParamList Otpo.Statistics Otpo.Adcl Otpo.Combinations Otpo.RpnStack Otpo.Enumeration
open Otpo.TwokCorners Otpo.TwokReduction Otpo.TwokKnowledge Otpo.TwokSearch Otpo.TwokRun

def Completes (hypothesisGetNext : Emethod → Except Fault (Option ℕ × Emethod)) (threshold : ℤ)
    (f : Fnctset) (report : ℕ → Function → ℚ) : Prop :=
  ∃ r winner log, otpoMain hypothesisGetNext (fun _ => false) report .twokFactorial threshold f
      none = .ok (.finished r, log ++ [⟨winner, .regular⟩]) ∧
    r.emethod.state = .regular ∧ r.emethod.wfunction = some winner ∧
    (∀ s ∈ log, s.state = .testing) ∧ (log.map Start.function).Nodup

section Process

variable {hypothesisGetNext : Emethod → Except Fault (Option ℕ × Emethod)} {threshold : ℤ}
variable {f : Fnctset} {report : ℕ → Function → ℚ}

def initialTwok (threshold : ℤ) (f : Fnctset) : Twok where
  num := 2^f.attrset.maxnum
  functions := (cornerPos f).filterMap (f.functions[·]?)
  attrset := f.attrset
  fnctsPos := cornerPos f
  nextPos := 1
  best := none
  labels := (generateSignTable f.attrset ((cornerPos f).filterMap (f.functions[·]?))).2
  signTable := (generateSignTable f.attrset ((cornerPos f).filterMap (f.functions[·]?))).1
  threshold := threshold
  twokdone := false

def initial (threshold : ℤ) (f : Fnctset) : Request where
  emethod :=
    { state := .testing, last := (cornerPos f).getD 0 0, searchAlgo := .twokFactorial
      filtering := .unfiltered, stats := (List.range f.maxnum).map freshStat, orgfnctset := f
      fnctset := f, twok := some (initialTwok threshold f), wfunction := none
      orgstats := List.replicate f.maxnum noPoints, hypo := none }
  function := none
  erlast := 0
  erflag := .noperf

theorem twok_created (hf : Cornered f) :
    requestCreate .twokFactorial threshold f = .ok (initial threshold f) := by
  obtain ⟨k, hk⟩ : ∃ k, f.attrset.maxnum = k+1 := ⟨f.attrset.maxnum-1, by have := hf.attrs; omega⟩
  have hfound := corners_found hf hk
  simp only [requestCreate, emethodInit, twokInit, hk, hfound, initial, initialTwok]

theorem initial_corner (hf : Cornered f) : CornerTwok f (initialTwok threshold f) where
  fnctsPos := rfl
  num := (length_cornerPos hf).symm
  attrset := rfl
  labels := sign_table_labels f.attrset ((cornerPos f).filterMap (f.functions[·]?))
  twokdone := rfl

theorem functions_positions (f : Fnctset) :
    f.functions = (List.range f.maxnum).map (functionAt f) := by
  refine List.ext_getElem? fun i => ?_
  by_cases hi : i < f.maxnum
  · rw [functionAt_get hi, List.getElem?_map, List.getElem?_range hi, Option.map_some]
  · rw [List.getElem?_eq_none (Nat.not_lt.mp hi),
      List.getElem?_eq_none (by simpa using hi)]

theorem fresh_stat (i : ℕ) : Fresh (freshStat i) := ⟨rfl, rfl, rfl, rfl, rfl⟩

theorem first_start (hypothesisGetNext : Emethod → Except Fault (Option ℕ × Emethod))
    (threshold : ℤ) (hf : Cornered f) {p : ℕ} (hp : (cornerPos f)[0]? = some p)
    {cost : Function → ℚ} (hc : Bounded f cost) :
    ∃ r cell, requestStart hypothesisGetNext cost (initial threshold f) = .ok r ∧
      r.function = some (functionAt f p) ∧ r.emethod.state = .testing ∧
      Progress f r (List.range f.maxnum) cell [p] p ∧
      AtCorner f r (List.range f.maxnum) [p] (initialTwok threshold f) := by
  have hlt : p < f.maxnum := cornerPos_lt hf (List.mem_of_getElem? hp)
  have hlast : (initial threshold f).emethod.last = p := by
    change (cornerPos f).getD 0 0 = p
    rw [List.getD_eq_getElem?_getD, hp, Option.getD_some]
  have hcells : Cells (initial threshold f).emethod (List.range f.maxnum) freshStat :=
    ⟨List.nodup_range, rfl⟩
  have hget : (List.range f.maxnum)[(initial threshold f).emethod.last]? = some p := by
    rw [hlast]
    exact List.getElem?_range hlt
  have hfun : (initial threshold f).emethod.fnctset.functions[(initial threshold f).emethod.last]? =
      some (functionAt f p) := by
    rw [hlast]
    exact functionAt_get hlt
  have hcost := hc _ (List.mem_of_getElem? (functionAt_get hlt))
  refine ⟨_, Function.update freshStat p
    (recordTime (timeDiff 0 (cost (functionAt f p))) (called (freshStat p))),
    start_first hcells hget rfl hfun rfl rfl, rfl, rfl, ?_, ?_⟩
  · refine ⟨⟨⟨List.nodup_range, rfl⟩, functions_positions f, rfl, rfl, rfl⟩,
      List.Sublist.refl _, hget, ?_, by simp, ?_, ?_⟩
    · rw [Function.update_self, timeDiff_pos hcost.1]
      exact fresh_started (fresh_stat p) hcost.1 hcost.2
    · intro q _ hq
      rw [Function.update_of_ne (by simpa using hq)]
      exact fresh_stat q
    · intro q _ hq hne
      exact absurd (List.mem_singleton.mp hq) hne
  · refine ⟨rfl, initial_corner hf, rfl, ?_, (List.getElem?_eq_some_iff.mp hp).1⟩
    rw [show (initialTwok threshold f).nextPos = 0+1 from rfl, List.take_add_one, hp]
    rfl

theorem cornerPos_first (hf : Cornered f) : ∃ p, (cornerPos f)[0]? = some p := by
  have hpos : 0 < (cornerPos f).length := by
    rw [length_cornerPos hf]
    exact Nat.two_pow_pos _
  exact ⟨_, List.getElem?_eq_getElem hpos⟩

theorem untested_first {p n : ℕ} (hp : p < n) : (untested (List.range n) [p]).length < n := by
  have hless := untested_next (List.Sublist.refl (List.range n)) (List.mem_range.mpr hp)
    List.not_mem_nil
  have hall : untested (List.range n) [] = List.range n := by simp [untested]
  rwa [List.nil_append, hall, List.length_range] at hless

theorem loop_first {p i left : ℕ} {r : Request} {stop : ℕ → Bool} (hstop : stop i = false)
    (hr : requestStart hypothesisGetNext (report i) (initial threshold f) = .ok r)
    (hfun : r.function = some (functionAt f p)) (hst : r.emethod.state = .testing) :
    tuningLoop hypothesisGetNext stop report (left+1) i true (initial threshold f) [] =
      tuningLoop hypothesisGetNext stop report left (i+1) true r ([p].map (testingStart f)) := by
  have hnone : ([] : List Start) = ([] : List ℕ).map (testingStart f) := rfl
  rw [hnone, loop_testing hstop hr hfun hst, List.nil_append]

theorem main_created (hf : Cornered f) (stop : ℕ → Bool) :
    otpoMain hypothesisGetNext stop report .twokFactorial threshold f none =
      tuningLoop hypothesisGetNext stop report (f.maxnum+1) 0 true (initial threshold f) [] := by
  simp only [otpoMain, twok_created hf]

/-- The run completes exactly when the corners are distinct. -/
theorem completes_iff_nodup (hf : Cornered f) (hc : ∀ i, Bounded f (report i)) :
    Completes hypothesisGetNext threshold f report ↔ (cornerPos f).Nodup := by
  obtain ⟨p, hp⟩ := cornerPos_first hf
  have hlt : p < f.maxnum := cornerPos_lt hf (List.mem_of_getElem? hp)
  obtain ⟨r, cell, hr, hfun, hst, hprogress, hcorner⟩ :=
    first_start hypothesisGetNext threshold hf hp (hc 0)
  rw [Completes, main_created hf, loop_first rfl hr hfun hst]
  have hleft := untested_first hlt
  constructor
  · rintro ⟨r', winner, log, hrun, _⟩
    by_contra hn
    rw [run_repeated hf hn hc hprogress hcorner (List.nodup_singleton p) hleft] at hrun
    cases hrun
  · intro hn
    have hbound : ∀ x ∈ [p], x < f.maxnum := by simpa using hlt
    obtain ⟨r', g, started, hrun, hregular, hw, hs, hin⟩ :=
      run_corners hf hn hc hprogress hcorner hbound hleft
    refine ⟨r', g, _, hrun, hregular, hw, ?_, ?_⟩
    · intro s hs
      obtain ⟨q, _, rfl⟩ := List.mem_map.mp hs
      rfl
    · rw [List.map_map]
      refine List.Nodup.map_on (fun x hx y hy he => ?_) hs
      have hx' := functionAt_get (hin x hx)
      have hy' := functionAt_get (hin y hy)
      rw [show functionAt f x = functionAt f y from he, ← hy'] at hx'
      exact (List.getElem?_inj (hin x hx) hf.distinct).mp hx'

end Process

section Parameters

variable {ps : List Param}

theorem fnctset_functions (ps : List Param) (i : ℕ) :
    (fnctsetOf ps (product ps)).functions[i]? = ((product ps)[i]?).map fun c => ⟨i, c⟩ := by
  rw [fnctsetOf, List.getElem?_map, List.getElem?_zipIdx]
  cases (product ps)[i]? <;> simp

theorem fnctset_distinct (ps : List Param) : (fnctsetOf ps (product ps)).functions.Nodup := by
  refine List.Nodup.of_map Function.id ?_
  have hids : (fnctsetOf ps (product ps)).functions.map Function.id =
      List.range (product ps).length := by
    rw [fnctsetOf, List.map_map, List.range_eq_range', ← List.zipIdx_map_snd]
    rfl
  rw [hids]
  exact List.nodup_range

theorem baseval_at (ps : List Param) (i : ℕ) :
    (attrsetOf ps).baseval[i]? = (ps[i]?).map Param.first := List.getElem?_map ..

theorem maxval_at (ps : List Param) (i : ℕ) :
    (attrsetOf ps).maxval[i]? = (ps[i]?).map Param.last := List.getElem?_map ..

theorem corner_product {c : List ℤ} (hc : c ∈ corners (attrsetOf ps)) : c ∈ product ps := by
  obtain ⟨s, hs, rfl⟩ := List.mem_map.mp hc
  have hlen := length_sign hs
  rw [List.length_replicate] at hlen
  have hmax : (attrsetOf ps).maxnum = ps.length := List.length_map ..
  rw [mem_product, List.forall₂_iff_get]
  have hcorner : (cornerVals (attrsetOf ps) s).length = ps.length := by
    rw [cornerVals, List.length_zipWith, List.length_zip, hlen, hmax]
    simp [attrsetOf]
  refine ⟨hcorner.symm, fun i hi hi' => ?_⟩
  have hget : (cornerVals (attrsetOf ps) s)[i]? =
      some ((cornerVals (attrsetOf ps) s).get ⟨i, hi'⟩) := List.getElem?_eq_getElem hi'
  rcases corner_value_cases hget with hb | hx
  · rw [baseval_at, List.getElem?_eq_getElem hi, Option.map_some, Option.some.injEq] at hb
    rw [← hb]
    exact Param.first_mem _
  · rw [maxval_at, List.getElem?_eq_getElem hi, Option.map_some, Option.some.injEq] at hx
    rw [← hx]
    exact Param.last_mem _

theorem product_cornered (hne : ps ≠ []) : Cornered (fnctsetOf ps (product ps)) where
  attrs := by simpa [fnctsetOf, attrsetOf, Attrset.maxnum] using List.length_pos_iff.mpr hne
  base_length := by simp [fnctsetOf, attrsetOf, Attrset.maxnum]
  max_length := by simp [fnctsetOf, attrsetOf, Attrset.maxnum]
  corner c hc := by
    obtain ⟨i, hi⟩ := List.getElem?_of_mem (corner_product hc)
    refine ⟨⟨i, c⟩, List.mem_of_getElem? (i := i) ?_, rfl⟩
    rw [fnctset_functions, hi, Option.map_some]
  distinct := fnctset_distinct ps

theorem first_ne_last_iff {p : Param} (h : p.possibleValues.Pairwise (· < ·)) :
    p.first ≠ p.last ↔ 2 ≤ p.numValues := by
  have hsplit := values_last p
  have hlen : p.numValues = p.possibleValues.dropLast.length+1 := by
    rw [Param.numValues, hsplit]
    simp
  have hhead := first_head p
  cases hd : p.possibleValues.dropLast with
  | nil =>
    rw [hd, List.nil_append] at hsplit
    rw [hsplit, List.head?_cons, Option.some.injEq] at hhead
    rw [hlen, hd]
    simp [hhead]
  | cons v vs =>
    rw [hsplit, hd, List.cons_append, List.head?_cons, Option.some.injEq] at hhead
    rw [hsplit, List.pairwise_append] at h
    have hlt : v < p.last := h.2.2 v (hd ▸ List.mem_cons_self) p.last (List.mem_singleton_self _)
    rw [hlen, hd, ← hhead]
    exact iff_of_true hlt.ne (by simp)

theorem corners_distinct_iff (hne : ps ≠ []) (h : ∀ p ∈ ps, p.possibleValues.Pairwise (· < ·)) :
    (cornerPos (fnctsetOf ps (product ps))).Nodup ↔ ∀ p ∈ ps, 2 ≤ p.numValues := by
  rw [nodup_cornerPos_iff (product_cornered hne)]
  have hmax : (attrsetOf ps).maxnum = ps.length := List.length_map ..
  constructor
  · intro hm p hp
    obtain ⟨i, hi, rfl⟩ := List.getElem_of_mem hp
    refine (first_ne_last_iff (h _ hp)).mp fun he => hm i (hmax ▸ hi) ?_
    change (attrsetOf ps).baseval[i]? = (attrsetOf ps).maxval[i]?
    rw [baseval_at, maxval_at, List.getElem?_eq_getElem hi, Option.map_some, Option.map_some, he]
  · intro hn m hm he
    have hi : m < ps.length := hmax ▸ hm
    change (attrsetOf ps).baseval[m]? = (attrsetOf ps).maxval[m]? at he
    rw [baseval_at, maxval_at, List.getElem?_eq_getElem hi, Option.map_some, Option.map_some,
      Option.some.injEq] at he
    have hmem := List.getElem_mem hi
    exact (first_ne_last_iff (h _ hmem)).mpr (hn _ hmem) he

theorem registered_product {bytes : Text → ℤ} {leftover : List ℤ → ℤ} {n : ℕ} {t : Population}
    (h : ∀ p ∈ ps, p.possibleValues.Pairwise (· < ·)) (hno : ∀ p ∈ ps, p.rpnElements = [])
    (ht : populateFunctionSet (fun v => checkRpn bytes ps v (leftover v)) ps n = some (.ok t)) :
    t.functions = product ps := by
  have hr := returning_ordered fun p hp => ordered_ascending (h p hp)
  rcases populate_product (fun v => checkRpn bytes ps v (leftover v)) hr
    (max n (product ps).length) (le_max_right _ _) with ⟨u, hu, _, _, hall⟩ | ⟨f, _, x, _, hx⟩
  · have hmono : populateFunctionSet (fun v => checkRpn bytes ps v (leftover v)) ps
        (max n (product ps).length) = some (.ok t) := populateLoop_mono _ ht (le_max_left _ _)
    rw [hmono] at hu
    cases hu
    rw [hall, List.filter_eq_self]
    intro x _
    simp only [accepts, check_rpn_unconditioned bytes hno]
    rfl
  · rw [check_rpn_unconditioned bytes hno] at hx
    cases hx

end Parameters

/-- Over an unconditioned parameter list with ascending values the default
search completes exactly when no parameter has a single value. -/
theorem default_search_iff (hypothesisGetNext : Emethod → Except Fault (Option ℕ × Emethod))
    (threshold : ℤ) (bytes : Text → ℤ) (leftover : List ℤ → ℤ) (ps : List Param) (hne : ps ≠ [])
    (h : ∀ p ∈ ps, p.possibleValues.Pairwise (· < ·)) (hno : ∀ p ∈ ps, p.rpnElements = [])
    (n : ℕ) (t : Population)
    (ht : populateFunctionSet (fun v => checkRpn bytes ps v (leftover v)) ps n = some (.ok t))
    (report : ℕ → Function → ℚ)
    (hc : ∀ i, ∀ g ∈ (fnctsetOf ps t.functions).functions, 0 < report i g ∧ report i g < 999999) :
    Completes hypothesisGetNext threshold (fnctsetOf ps t.functions) report ↔
      ∀ p ∈ ps, 2 ≤ p.numValues := by
  have hall := registered_product h hno ht
  rw [hall] at hc ⊢
  rw [completes_iff_nodup (product_cornered hne) hc, corners_distinct_iff hne h]

def two : Param := Param.range "a".toList 1 [2]

def three : Param := Param.range "c".toList 1 [2, 3]

def aggregate : Param := Param.listed "b".toList "text".toList []

theorem default_search_grid :
    Completes (fun e => .ok (none, e)) 50
      (fnctsetOf [three, two] [[1, 1], [2, 1], [3, 1], [1, 2], [2, 2], [3, 2]])
      (fun _ g => g.id+1) :=
  (default_search_iff (fun e => .ok (none, e)) 50 (fun _ => 0) (fun _ => 0) [three, two]
    (by decide) (by decide) (by decide) 6
    ⟨_, [[1, 1], [2, 1], [3, 1], [1, 2], [2, 2], [3, 2]], _⟩ rfl (fun _ g => g.id+1)
    fun _ => by decide +kernel).mpr (by decide)

/-- Both corners are the two corners of the first parameter, tested twice. -/
theorem default_search_aggregate :
    (populateFunctionSet (fun v => checkRpn (fun _ => 0) [two, aggregate] v 0) [two, aggregate]
        2).map (fun r => r.map Population.functions) = some (.ok [[1, 0], [2, 0]]) ∧
      otpoMain (fun e => .ok (none, e)) (fun _ => false) (fun _ g => g.id+1) .twokFactorial 50
        (fnctsetOf [two, aggregate] [[1, 0], [2, 0]]) none = .error .undefined ∧
      ¬ Completes (fun e => .ok (none, e)) 50 (fnctsetOf [two, aggregate] [[1, 0], [2, 0]])
        (fun _ g => g.id+1) := by
  have hrun : otpoMain (fun e => .ok (none, e)) (fun _ => false) (fun _ g => g.id+1)
      .twokFactorial 50 (fnctsetOf [two, aggregate] [[1, 0], [2, 0]]) none =
        .error .undefined := by
    decide +kernel
  refine ⟨rfl, hrun, ?_⟩
  rintro ⟨r, winner, log, h, _⟩
  rw [hrun] at h
  cases h

end Otpo.DefaultSearch
