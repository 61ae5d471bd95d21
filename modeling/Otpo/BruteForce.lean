import Otpo.TuningLoop
import Otpo.Decision

/-!
# The brute-force run

The state after each start of a brute-force process, new or resumed, written
down for every position at once. Restored functions are never handed out; the
others are, one after the other, and every report lands in its own function.
-/

set_option autoImplicit false

namespace Otpo.BruteForce
open Otpo.ParamList Otpo.Statistics Otpo.Adcl

section Run

variable (hypothesisGetNext : Emethod → Except Fault (Option ℕ × Emethod))
variable (report : ℕ → Function → ℚ) (f : Fnctset) (results : List Double)

def recorded (i : ℕ) : ℚ := timeDiff 0 (report i (functionAt f i))

def untouched (i : ℕ) : Stat := restored (restoredPoints results) (freshStat i) i

def running (i : ℕ) : Stat :=
  { freshStat i with count := 1, time := [recorded report f i] }

def finished (i : ℕ) : Stat := filterTimings { running report f i with tested := true }

def cell (j i : ℕ) : Stat :=
  if i < results.length then untouched results i
  else if i < j then finished report f i
  else if i = j then running report f i
  else freshStat i

def emethodWith (last : ℕ) (stats : List Stat) : Emethod where
  state := .testing
  last := last
  searchAlgo := .bruteForce
  filtering := .unfiltered
  stats := stats
  orgfnctset := f
  fnctset := f
  twok := none
  hypo := none
  wfunction := none
  orgstats := List.replicate f.maxnum noPoints

def initial : Request where
  emethod := emethodWith f results.length ((List.range f.maxnum).map (untouched results))
  function := none
  erlast := 0
  erflag := .noperf

def after (j : ℕ) : Request where
  emethod := emethodWith f j ((List.range f.maxnum).map (cell report f results j))
  function := some (functionAt f j)
  erlast := j
  erflag := .perf

def complete (i : ℕ) : Stat :=
  if i < results.length then untouched results i else finished report f i

def decided (i : ℕ) : Stat := globalMax (complete report f results i)

def deciding : Emethod :=
  { emethodWith f (f.maxnum-1) ((List.range f.maxnum).map (complete report f results)) with
    state := .decision }

def chosen (filtering : Filtering) (w : ℕ) : Request :=
  { after report f results (f.maxnum-1) with
    emethod :=
      { syncStatobjects
          { deciding report f results with
            stats := (List.range f.maxnum).map (decided report f results), filtering } with
        last := w, wfunction := some (functionAt f w), state := .regular }
    function := some (functionAt f w) }

variable {report f results}

theorem untouched_fresh {i : ℕ} (h : results.length ≤ i) : untouched results i = freshStat i := by
  have hn : (restoredPoints results)[i]? = none := by
    rw [List.getElem?_eq_none]
    simpa [restoredPoints] using h
  simp only [untouched, restored, hn]

theorem brute_main_new (stop : ℕ → Bool) (threshold : ℤ) :
    otpoMain hypothesisGetNext stop report .bruteForce threshold f none =
      tuningLoop hypothesisGetNext stop report (f.maxnum+1) 0 true (initial f []) [] := rfl

theorem brute_main_resumed (stop : ℕ → Bool) (threshold : ℤ) (h : results.length ≤ f.maxnum) :
    otpoMain hypothesisGetNext stop report .bruteForce threshold f (some results) =
      tuningLoop hypothesisGetNext stop report (f.maxnum+1-results.length) results.length true
        (initial f results) [] := by
  have hstats : ((List.range f.maxnum).map freshStat).zipIdx.map
      (fun q => restored (restoredPoints results) q.1 q.2) =
        (List.range f.maxnum).map (untouched results) := by
    refine List.ext_getElem? fun i => ?_
    rw [List.getElem?_map, List.getElem?_zipIdx, List.getElem?_map, List.getElem?_map]
    by_cases hi : i < f.maxnum
    · simp [List.getElem?_range hi, untouched]
    · simp [List.getElem?_eq_none (l := List.range f.maxnum) (i := i) (by simpa using hi)]
  have hlen : ¬ ((List.range f.maxnum).map freshStat).length < results.length := by simpa using h
  have hpoints : (restoredPoints results).length = results.length := by simp [restoredPoints]
  simp only [otpoMain, requestCreate, emethodInit, restoreStatus, if_neg hlen, hstats, hpoints]
  rfl

theorem cells_initial : Cells (initial f results).emethod (List.range f.maxnum)
    (untouched results) := ⟨List.nodup_range, rfl⟩

theorem cells_after (j : ℕ) : Cells (after report f results j).emethod (List.range f.maxnum)
    (cell report f results j) := ⟨List.nodup_range, rfl⟩

theorem cell_current {j : ℕ} (h : results.length ≤ j) :
    cell report f results j j = running report f j := by
  rw [cell, if_neg (by omega), if_neg (Nat.lt_irrefl j), if_pos rfl]

theorem start_initial (h : results.length < f.maxnum) :
    requestStart hypothesisGetNext (report results.length) (initial f results) =
      .ok (after report f results results.length) := by
  have hfresh := untouched_fresh (Nat.le_refl results.length)
  have hc : (untouched results results.length).count = 0 := by rw [hfresh]; rfl
  have ht : (untouched results results.length).time = [] := by rw [hfresh]; rfl
  rw [start_first cells_initial (List.getElem?_range h) rfl (functionAt_get h) hc ht]
  have hcells : ∀ i ∈ List.range f.maxnum, Function.update (untouched results) results.length
      (recordTime (recorded report f results.length) (called (untouched results results.length)))
        i = cell report f results results.length i := by
    intro i _
    rcases Nat.lt_trichotomy i results.length with hlt | rfl | hgt
    · rw [Function.update_of_ne hlt.ne, cell, if_pos hlt]
    · rw [Function.update_self, hfresh, cell_current (Nat.le_refl _)]
      rfl
    · rw [Function.update_of_ne hgt.ne', untouched_fresh hgt.le, cell, if_neg (by omega),
        if_neg (by omega), if_neg (by omega)]
  exact congrArg Except.ok (congrArg (fun s => Request.mk (emethodWith f results.length s)
    (some (functionAt f results.length)) results.length Flag.perf) (List.map_congr_left hcells))

theorem marked_cell {j : ℕ} (h : results.length ≤ j) (i : ℕ) :
    Function.update (cell report f results j) j (markTested (cell report f results j j)) i =
      if i < results.length then untouched results i
      else if i < j+1 then finished report f i else freshStat i := by
  rw [cell_current h]
  rcases Nat.lt_trichotomy i j with hlt | rfl | hgt
  · rw [Function.update_of_ne hlt.ne, cell, if_pos hlt, if_pos (show i < j+1 by omega)]
  · rw [Function.update_self, if_neg (by omega), if_pos (by omega)]
    rfl
  · rw [Function.update_of_ne hgt.ne', cell, if_neg (show ¬ i < j by omega),
      if_neg (show ¬ i = j by omega), if_neg (show ¬ i < j+1 by omega)]

theorem start_after {j : ℕ} (hj : results.length ≤ j) (h : j+1 < f.maxnum) :
    requestStart hypothesisGetNext (report (j+1)) (after report f results j) =
      .ok (after report f results (j+1)) := by
  have hcell : cell report f results j j = running report f j := cell_current hj
  have hsearch : searchNext hypothesisGetNext (markedWith (after report f results j).emethod
      (List.range f.maxnum) (cell report f results j) j) =
      advance (some (j+1)) (markedWith (after report f results j).emethod
        (List.range f.maxnum) (cell report f results j) j) := by
    have hbrute : bruteGetNext (markedWith (after report f results j).emethod
        (List.range f.maxnum) (cell report f results j) j) = some (j+1) := if_pos h
    rw [← hbrute]
    rfl
  have hq : Function.update (cell report f results j) j (markTested (cell report f results j j))
      (j+1) = freshStat (j+1) := by
    rw [marked_cell hj, if_neg (by omega), if_neg (by omega)]
  have hj' : (List.range f.maxnum)[j]? = some j := List.getElem?_range (by omega)
  rw [start_next (cells_after j) hj' rfl (hcell ▸ rfl) (hcell ▸ rfl) hsearch
    ⟨List.nodup_range, rfl⟩ (List.getElem?_range h) rfl (functionAt_get h) (hq ▸ rfl)]
  have hcells : ∀ i ∈ List.range f.maxnum, Function.update
      (Function.update (cell report f results j) j (markTested (cell report f results j j)))
      (j+1) (recordTime (recorded report f (j+1)) (called (Function.update
        (cell report f results j) j (markTested (cell report f results j j)) (j+1)))) i =
      cell report f results (j+1) i := by
    intro i _
    by_cases hi : i = j+1
    · subst hi
      rw [Function.update_self, hq, cell_current (by omega)]
      rfl
    · rw [Function.update_of_ne hi, marked_cell hj, cell, if_neg (c := i = j+1) hi]
  exact congrArg Except.ok (congrArg (fun s => Request.mk (emethodWith f (j+1) s)
    (some (functionAt f (j+1))) (j+1) Flag.perf) (List.map_congr_left hcells))

/-- The loop from the beginning of a process to the start of function `j`. -/
theorem loop_to (report : ℕ → Function → ℚ) {stop : ℕ → Bool} {j : ℕ}
    (hn : results.length ≤ j) (h : j < f.maxnum)
    (hstop : ∀ i, results.length ≤ i → i ≤ j → stop i = false) :
    tuningLoop hypothesisGetNext stop report (f.maxnum+1-results.length) results.length true
        (initial f results) [] =
      tuningLoop hypothesisGetNext stop report (f.maxnum-j) (j+1) true
        (after report f results j)
        ((List.range' results.length (j+1-results.length)).map (testingStart f)) := by
  induction j, hn using Nat.le_induction with
  | base =>
    obtain ⟨left, hl⟩ : ∃ left, f.maxnum-results.length = left := ⟨_, rfl⟩
    rw [show f.maxnum+1-results.length = left+1 by omega,
      tuningLoop_start (hstop _ (Nat.le_refl _) (Nat.le_refl _)) (start_initial _ h) rfl,
      show results.length+1-results.length = 1 by omega, hl]
    rfl
  | succ j hj ih =>
    rw [ih (by omega) fun i hi hij => hstop i hi (by omega),
      show f.maxnum-j = (f.maxnum-(j+1))+1 by omega,
      tuningLoop_start (hstop (j+1) (by omega) (Nat.le_refl _)) (start_after _ hj h) rfl,
      show j+1+1-results.length = (j+1-results.length)+1 by omega, List.range'_concat,
      List.map_append]
    congr 2
    simp [testingStart, after, emethodWith, show results.length+(j+1-results.length) = j+1 by omega]

theorem filtered_complete (i : ℕ) :
    filterTimings (complete report f results i) = complete report f results i := by
  rw [complete]
  split
  case isTrue h =>
    have hp : (restoredPoints results)[i]? = some ⟨results[i], results[i], some 0⟩ := by
      simp [restoredPoints, h]
    simp [filterTimings, untouched, restored, hp]
  case isFalse => rfl

theorem winner_deciding :
    getWinner (deciding report f results) f.maxnum =
      match getWinnerV3 ((List.range f.maxnum).map (decided report f results)) with
      | .error fault => .error fault
      | .ok (filtering, winner) =>
        .ok (winner, syncStatobjects
          { deciding report f results with
            stats := (List.range f.maxnum).map (decided report f results), filtering }) := by
  have hlen : (deciding report f results).stats.length = f.maxnum := by
    simp [deciding, emethodWith]
  have hstats : (deciding report f results).stats.map (fun s => globalMax (filterTimings s)) =
      (List.range f.maxnum).map (decided report f results) := by
    rw [deciding, emethodWith, List.map_map]
    exact List.map_congr_left fun i _ => congrArg globalMax (filtered_complete i)
  have hall := getWinner_all (e := deciding report f results) (by rintro ⟨⟩)
  rw [hlen, hstats] at hall
  exact hall

theorem marked_complete (h : results.length < f.maxnum) :
    markedWith (after report f results (f.maxnum-1)).emethod (List.range f.maxnum)
      (cell report f results (f.maxnum-1)) (f.maxnum-1) =
    { deciding report f results with state := .testing } := by
  have hcells : ∀ i ∈ List.range f.maxnum, Function.update (cell report f results (f.maxnum-1))
      (f.maxnum-1) (markTested (cell report f results (f.maxnum-1) (f.maxnum-1))) i =
      complete report f results i := by
    intro i hi
    rw [marked_cell (by omega), complete,
      if_pos (show i < f.maxnum-1+1 by have := List.mem_range.mp hi; omega)]
  rw [markedWith, List.map_congr_left hcells]
  rfl

theorem next_over (h : results.length < f.maxnum) :
    getNext hypothesisGetNext (after report f results (f.maxnum-1)).emethod =
      .ok (none, .perf, { deciding report f results with state := .testing }) := by
  have hcell : cell report f results (f.maxnum-1) (f.maxnum-1) = running report f (f.maxnum-1) :=
    cell_current (by omega)
  have hlast : (List.range f.maxnum)[(after report f results (f.maxnum-1)).emethod.last]? =
      some (f.maxnum-1) := List.getElem?_range (show f.maxnum-1 < f.maxnum by omega)
  refine getNext_reported (cells_after _) hlast ?_ ?_ ?_
  · rw [hcell]
    rfl
  · rw [hcell]
    rfl
  · rw [marked_complete h]
    have hnone : bruteGetNext { deciding report f results with state := .testing } = none :=
      if_neg (show ¬ f.maxnum-1+1 < f.maxnum by omega)
    change advance (bruteGetNext _) _ = _
    rw [hnone]
    rfl

theorem start_winner (h : results.length < f.maxnum) {filtering : Filtering} {w : ℕ}
    (hw : getWinnerV3 ((List.range f.maxnum).map (decided report f results)) =
      .ok (filtering, some w)) :
    requestStart hypothesisGetNext (report f.maxnum) (after report f results (f.maxnum-1)) =
      .ok (chosen report f results filtering w) := by
  have hlt : w < f.maxnum := by simpa using get_winner_lt hw
  have hwin : getWinner (deciding report f results) f.maxnum = _ := winner_deciding
  rw [hw] at hwin
  exact start_decide rfl (next_over _ h) hwin (functionAt_get hlt)

theorem start_no_winner (h : results.length < f.maxnum)
    (hw : ∀ filtering w, getWinnerV3 ((List.range f.maxnum).map (decided report f results)) ≠
      .ok (filtering, some w)) :
    ∃ fault, requestStart hypothesisGetNext (report f.maxnum)
      (after report f results (f.maxnum-1)) = .error fault := by
  refine start_undecided rfl (next_over _ h) fun w d' hd => ?_
  have hwin : getWinner (deciding report f results) f.maxnum = _ := winner_deciding
  change getWinner (deciding report f results) f.maxnum = _ at hd
  rw [hd] at hwin
  split at hwin
  · cases hwin
  · next filtering winner hv =>
    cases hwin
    exact hw filtering w hv

theorem run_decides (h : results.length < f.maxnum) {stop : ℕ → Bool}
    (hstop : ∀ i, results.length ≤ i → i ≤ f.maxnum → stop i = false)
    {filtering : Filtering} {w : ℕ}
    (hw : getWinnerV3 ((List.range f.maxnum).map (decided report f results)) =
      .ok (filtering, some w)) :
    tuningLoop hypothesisGetNext stop report (f.maxnum+1-results.length) results.length true
        (initial f results) [] =
      .ok (.finished (chosen report f results filtering w),
        (List.range' results.length (f.maxnum-results.length)).map (testingStart f) ++
          [⟨functionAt f w, .regular⟩]) := by
  have hone : f.maxnum-(f.maxnum-1) = 0+1 := by omega
  have hlast : f.maxnum-1+1 = f.maxnum := by omega
  rw [loop_to _ _ (show results.length ≤ f.maxnum-1 by omega) (by omega)
    fun i hi hle => hstop i hi (by omega), hone, hlast,
    tuningLoop_start (hstop _ (by omega) (Nat.le_refl _)) (start_winner _ h hw) rfl]
  exact tuningLoop_done

theorem run_undecided (h : results.length < f.maxnum) {stop : ℕ → Bool}
    (hstop : ∀ i, results.length ≤ i → i ≤ f.maxnum → stop i = false)
    (hw : ∀ filtering w, getWinnerV3 ((List.range f.maxnum).map (decided report f results)) ≠
      .ok (filtering, some w)) :
    ∃ fault, tuningLoop hypothesisGetNext stop report (f.maxnum+1-results.length) results.length
      true (initial f results) [] = .error fault := by
  have hone : f.maxnum-(f.maxnum-1) = 0+1 := by omega
  have hlast : f.maxnum-1+1 = f.maxnum := by omega
  obtain ⟨fault, hfault⟩ := start_no_winner hypothesisGetNext h hw
  refine ⟨fault, ?_⟩
  rw [loop_to _ _ (show results.length ≤ f.maxnum-1 by omega) (by omega)
    fun i hi hle => hstop i hi (by omega), hone, hlast]
  exact tuningLoop_fault (hstop _ (by omega) (Nat.le_refl _)) hfault

theorem decided_points (i : ℕ) : (decided report f results i).gpts =
    match results[i]? with
    | some x => ⟨x, x, some 0⟩
    | none => averages [recorded report f i] := by
  by_cases hi : i < results.length
  · have hp : (restoredPoints results)[i]? = some ⟨results[i], results[i], some 0⟩ := by
      simp [restoredPoints, hi]
    simp only [decided, complete, if_pos hi, untouched, restored, hp, globalMax,
      List.getElem?_eq_getElem hi]
  · simp only [decided, complete, if_neg hi, List.getElem?_eq_none (Nat.not_lt.mp hi)]
    rfl

def average (report : ℕ → Function → ℚ) (f : Fnctset) (results : List Double) (i : ℕ) : Double :=
  results.getD i (some (recorded report f i))

theorem decided_averages {m : ℕ} (h : ∀ i, results.length ≤ i → i < m →
      0 < recorded report f i ∧ recorded report f i < 2999997) :
    ((List.range m).map (decided report f results)).map Stat.gpts =
      ((List.range m).map (average report f results)).map fun x => ⟨x, x, some 0⟩ := by
  rw [List.map_map, List.map_map]
  refine List.map_congr_left fun i hi => ?_
  rw [Function.comp_apply, Function.comp_apply, decided_points, average,
    List.getD_eq_getElem?_getD]
  by_cases hr : i < results.length
  · rw [List.getElem?_eq_getElem hr]
    rfl
  · rw [List.getElem?_eq_none (Nat.not_lt.mp hr)]
    exact (averages_single _).trans (if_pos (h i (Nat.not_lt.mp hr) (List.mem_range.mp hi)))

theorem recorded_positive {i : ℕ} (h : 0 < report i (functionAt f i)) :
    recorded report f i = report i (functionAt f i) := timeDiff_pos h

theorem exists_least_average {m : ℕ} (h : results.length < m)
    (hpos : ∀ i, results.length ≤ i → i < m →
      0 < recorded report f i ∧ recorded report f i < 2999997) :
    ∃ w x, FirstMinimum.Least (keys ((List.range m).map (average report f results))) w x ∧
      x < 999999999999/100 := by
  have hkey : (keys ((List.range m).map (average report f results)))[results.length]? =
      some (some (recorded report f results.length)) := by
    rw [keys_getElem, List.getElem?_map, List.getElem?_range h]
    exact ⟨by simp [average, List.getD_eq_getElem?_getD], (hpos _ (Nat.le_refl _) h).1.ne'⟩
  obtain ⟨w, x, hl⟩ := FirstMinimum.exists_least ⟨_, _, hkey⟩
  refine ⟨w, x, hl, (hl.2 _ _ hkey).1.trans_lt ((hpos _ (Nat.le_refl _) h).2.trans ?_)⟩
  norm_num

theorem starts_all : (List.range' 0 f.maxnum).map (testingStart f) =
    f.functions.map (⟨·, .testing⟩) := by
  refine List.ext_getElem (by simp [Fnctset.maxnum]) fun i hi _ => ?_
  have hlt : i < f.maxnum := by simpa using hi
  have hget : f.functions[i] = functionAt f i :=
    Option.some_injective _ ((List.getElem?_eq_getElem hlt).symm.trans (functionAt_get hlt))
  simp only [List.getElem_map, List.getElem_range', testingStart, Nat.zero_add, Nat.one_mul]
  exact congrArg (fun g => Start.mk g .testing) hget.symm

theorem counts_decided : ((List.range f.maxnum).map (decided report f [])).map Stat.count =
    f.functions.map (fun _ => 1) := by
  refine List.ext_getElem (by simp [Fnctset.maxnum]) fun i _ _ => ?_
  simp only [List.getElem_map, List.getElem_range, decided, complete, globalMax,
    List.length_nil, Nat.not_lt_zero, if_false]
  rfl

theorem times_decided : ((List.range f.maxnum).map (decided report f [])).map Stat.time =
    f.functions.zipIdx.map (fun q => [recorded report f q.2]) := by
  refine List.ext_getElem (by simp [Fnctset.maxnum]) fun i hi _ => ?_
  simp only [List.getElem_map, List.getElem_range, List.getElem_zipIdx, decided, complete,
    globalMax, List.length_nil, Nat.not_lt_zero, if_false, Nat.zero_add]
  rfl

theorem main_decides (hf : 0 < f.maxnum) (threshold : ℤ) {filtering : Filtering} {w : ℕ}
    (hw : getWinnerV3 ((List.range f.maxnum).map (decided report f [])) =
      .ok (filtering, some w)) :
    otpoMain hypothesisGetNext (fun _ => false) report .bruteForce threshold f none =
      .ok (.finished (chosen report f [] filtering w),
        f.functions.map (⟨·, .testing⟩) ++ [⟨functionAt f w, .regular⟩]) := by
  rw [brute_main_new, ← starts_all]
  exact run_decides _ (show ([] : List Double).length < f.maxnum from hf) (fun _ _ _ => rfl) hw

theorem main_undecided (threshold : ℤ)
    (hw : ∀ filtering w, getWinnerV3 ((List.range f.maxnum).map (decided report f [])) ≠
      .ok (filtering, some w)) :
    ∃ fault, otpoMain hypothesisGetNext (fun _ => false) report .bruteForce threshold f none =
      .error fault := by
  rw [brute_main_new]
  by_cases hf : 0 < f.maxnum
  · exact run_undecided _ (show ([] : List Double).length < f.maxnum from hf)
      (fun _ _ _ => rfl) hw
  · obtain ⟨functions, attrset⟩ := f
    obtain rfl : functions = [] := List.length_eq_zero_iff.mp (Nat.eq_zero_of_not_pos hf)
    exact ⟨.undefined, rfl⟩

/-- A new process over costs that the filter accepts: one start for each
function, one more that decides, and one measurement of each function. -/
theorem brute_force_run (report : ℕ → Function → ℚ) (f : Fnctset) (threshold : ℤ)
    (hf : f.functions ≠ [])
    (hc : ∀ i, ∀ g ∈ f.functions, 0 < report i g ∧ report i g < 999999) :
    ∃ r winner, otpoMain hypothesisGetNext (fun _ => false) report .bruteForce threshold f none =
        .ok (.finished r, f.functions.map (⟨·, .testing⟩) ++ [⟨winner, .regular⟩]) ∧
      r.emethod.state = .regular ∧ winner ∈ f.functions ∧
      r.emethod.wfunction = some winner ∧ r.emethod.fnctset = f ∧
      r.emethod.stats.map Stat.count = f.functions.map (fun _ => 1) ∧
      r.emethod.stats.map Stat.time = f.functions.zipIdx.map (fun q => [report q.2 q.1]) := by
  have hlen : ([] : List Double).length < f.maxnum := List.length_pos_iff.mpr hf
  have hcost : ∀ i, i < f.maxnum →
      0 < report i (functionAt f i) ∧ report i (functionAt f i) < 999999 :=
    fun i hi => hc i _ (List.mem_of_getElem? (functionAt_get hi))
  have hpos : ∀ i, ([] : List Double).length ≤ i → i < f.maxnum →
      0 < recorded report f i ∧ recorded report f i < 2999997 := by
    intro i _ hi
    rw [recorded_positive (hcost i hi).1]
    exact ⟨(hcost i hi).1, (hcost i hi).2.trans (by norm_num)⟩
  obtain ⟨w, x, hl, hx⟩ := exists_least_average hlen hpos
  have hw := get_winner_exact (decided_averages hpos) hl hx
  have hlt : w < f.maxnum := by simpa using get_winner_lt hw
  refine ⟨chosen report f [] .filtered w, functionAt f w, ?_, rfl,
    List.mem_of_getElem? (functionAt_get hlt), rfl, rfl, counts_decided, ?_⟩
  · exact main_decides _ hlen threshold hw
  · refine times_decided.trans (List.map_congr_left fun q hq => ?_)
    have hget : f.functions[q.2]? = some q.1 := List.mem_zipIdx_iff_getElem?.mp hq
    have hi : q.2 < f.maxnum := (List.getElem?_eq_some_iff.mp hget).1
    rw [recorded_positive (hcost _ hi).1, functionAt, List.getD_eq_getElem?_getD, hget,
      Option.getD_some]

end Run

theorem brute_force_run_two :
    ∃ r winner, otpoMain (fun e => .ok (none, e)) (fun _ => false)
        (fun _ g => if g.id = 0 then 7 else 5) .bruteForce 10
        ⟨[⟨0, [1]⟩, ⟨1, [2]⟩], ⟨[[1, 2]], [1], [2], [2]⟩⟩ none =
        .ok (.finished r, [⟨⟨0, [1]⟩, .testing⟩, ⟨⟨1, [2]⟩, .testing⟩] ++ [⟨winner, .regular⟩]) ∧
      r.emethod.state = .regular ∧ winner ∈ [⟨0, [1]⟩, ⟨1, [2]⟩] ∧
      r.emethod.wfunction = some winner ∧
      r.emethod.fnctset = ⟨[⟨0, [1]⟩, ⟨1, [2]⟩], ⟨[[1, 2]], [1], [2], [2]⟩⟩ ∧
      r.emethod.stats.map Stat.count = [1, 1] ∧ r.emethod.stats.map Stat.time = [[7], [5]] :=
  brute_force_run _ _ ⟨[⟨0, [1]⟩, ⟨1, [2]⟩], ⟨[[1, 2]], [1], [2], [2]⟩⟩ 10 (by decide)
    fun _ g _ => by split <;> norm_num

end Otpo.BruteForce
