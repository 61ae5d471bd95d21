import Otpo.BruteForce

/-!
# Interrupting and resuming

A session is a sequence of processes over one interrupt file. Each process but
the last one sees the signal in front of a given iteration and saves what it
has; the next one resumes from that file.
-/

set_option autoImplicit false

namespace Otpo.InterruptResume
open Otpo.ParamList Otpo.Statistics Otpo.Adcl Otpo.BruteForce

section Session

variable (hypothesisGetNext : Emethod → Except Fault (Option ℕ × Emethod))
variable (cost : Function → ℚ) (algo : SearchAlgo) (threshold : ℤ) (f : Fnctset)

def interrupted (i : ℕ) (file : InterruptFile) : Except Fault (Outcome × List Start) :=
  otpoMain hypothesisGetNext (fun k => decide (i ≤ k)) (fun _ => cost) algo threshold f file

def uninterrupted (file : InterruptFile) : Except Fault (Outcome × List Start) :=
  otpoMain hypothesisGetNext (fun _ => false) (fun _ => cost) algo threshold f file

structure Session where
  saves : List Saved
  log : List Start
  outcome : Outcome
  deriving DecidableEq, Repr

def session : InterruptFile → List ℕ → Except Fault Session
  | file, [] =>
    match uninterrupted hypothesisGetNext cost algo threshold f file with
    | .error fault => .error fault
    | .ok (outcome, log) => .ok ⟨[], log, outcome⟩
  | file, i::is =>
    match interrupted hypothesisGetNext cost algo threshold f i file with
    | .error fault => .error fault
    | .ok (.saved s, log) =>
      match session (some s.results) is with
      | .error fault => .error fault
      | .ok rest => .ok ⟨s::rest.saves, log ++ rest.log, rest.outcome⟩
    | .ok (outcome, log) => .ok ⟨[], log, outcome⟩

def testedCosts (n : ℕ) : List Double := (f.functions.take n).map fun g => some (cost g)

def LosesNothing (is : List ℕ) : Prop :=
  ∃ s winner, session hypothesisGetNext cost .bruteForce threshold f none is = .ok s ∧
    s.saves.map (fun s => (s.testedNum, s.results)) = is.map (fun i => (i, testedCosts cost f i)) ∧
    s.log = f.functions.map (⟨·, .testing⟩) ++ [⟨winner, .regular⟩] ∧
    s.outcome.winner = some winner ∧
    finalWinner (uninterrupted hypothesisGetNext cost .bruteForce threshold f none) = some winner

end Session

section Saving

variable {report : ℕ → Function → ℚ} {f : Fnctset} {results : List Double} {j : ℕ}

theorem take_marked (hj : results.length ≤ j) (hlt : j < f.maxnum) :
    ((after report f results j).emethod.stats.modify j markTested).take (j+1) =
      (List.range (j+1)).map (complete report f results) := by
  have hget : (List.range f.maxnum)[j]? = some j := List.getElem?_range hlt
  change (((List.range f.maxnum).map (cell report f results j)).modify j markTested).take _ = _
  rw [modify_map List.nodup_range _ hget, ← List.map_take, List.take_range,
    Nat.min_eq_left hlt]
  refine List.map_congr_left fun i hi => ?_
  rw [marked_cell hj, complete, if_pos (List.mem_range.mp hi)]

theorem save_after (hj : results.length ≤ j) (hlt : j < f.maxnum)
    (hpos : ∀ i, results.length ≤ i → i < j+1 →
      0 < recorded report f i ∧ recorded report f i < 2999997) :
    ∃ w, saveStatus (after report f results j) =
      .ok ⟨j+1, (List.range (j+1)).map (average report f results), w⟩ := by
  obtain ⟨w, x, hl, hx⟩ := exists_least_average (Nat.lt_succ_of_le hj) hpos
  have hgpts := decided_averages hpos
  have hwin := get_winner_exact hgpts hl hx
  have hget : (after report f results j).emethod.stats[j]? = some (running report f j) := by
    rw [cells_get (cells_after j) (List.getElem?_range hlt), cell_current hj]
  have hmeasured : (((after report f results j).emethod.stats.modify j markTested).take (j+1)).map
      (fun s => globalMax (filterTimings s)) =
        (List.range (j+1)).map (decided report f results) := by
    rw [take_marked hj hlt, List.map_map]
    exact List.map_congr_left fun i _ => congrArg globalMax (filtered_complete i)
  have hunfiltered : ((List.range (j+1)).map (decided report f results)).map
      (fun s => s.gpts.unfiltered) = (List.range (j+1)).map (average report f results) := by
    rw [← Function.comp_def (f := Points.unfiltered) (g := Stat.gpts), ← List.map_map, hgpts,
      List.map_map]
    exact List.map_id _
  have hsave := saveStatus_tested (r := after report f results j) (by rintro ⟨⟩) hget rfl
    hmeasured hwin
  rw [hunfiltered] at hsave
  exact ⟨_, hsave⟩

theorem untouched_count (i : ℕ) : (untouched results i).count = 0 := by
  rw [untouched, restored]
  split <;> rfl

/-- A save in front of the first start of a process decides over no function. -/
theorem save_initial (f : Fnctset) (results : List Double) :
    ∃ fault, saveStatus (initial f results) = .error fault := by
  have hw : getWinner (initial f results).emethod 0 = .error .undefined :=
    getWinner_take (by rintro ⟨⟩) (Nat.zero_le _)
  cases hs : (initial f results).emethod.stats[(initial f results).erlast]? with
  | none => exact ⟨.undefined, by simp only [saveStatus, hs]⟩
  | some s =>
    have hc : s.count = 0 := by
      obtain ⟨i, _, rfl⟩ := List.mem_map.mp (List.mem_of_getElem? hs)
      exact untouched_count i
    have herlast : (initial f results).erlast = 0 := rfl
    refine ⟨.undefined, ?_⟩
    simp only [saveStatus, hs, hc, emethodNumtests, Nat.zero_ne_one, if_false]
    rw [herlast, hw]

/-- With every function restored, the first start reads behind the array. -/
theorem start_restored (hypothesisGetNext : Emethod → Except Fault (Option ℕ × Emethod))
    (h : f.maxnum ≤ results.length) (cost : Function → ℚ) :
    requestStart hypothesisGetNext cost (initial f results) = .error .undefined := by
  have hs : (initial f results).emethod.stats[(initial f results).emethod.last]? = none := by
    rw [List.getElem?_eq_none]
    simpa [initial, emethodWith] using h
  have hst : (initial f results).emethod.state = .testing := rfl
  simp only [requestStart, getFunctionByState, hst, getNext, hs]

end Saving

section Processes

variable {hypothesisGetNext : Emethod → Except Fault (Option ℕ × Emethod)}
variable {cost : Function → ℚ} {threshold : ℤ} {f : Fnctset}

def Holds (cost : Function → ℚ) (f : Fnctset) (file : InterruptFile) (n : ℕ) : Prop :=
  n ≤ f.maxnum ∧ (file = none ∧ n = 0 ∨ file = some (testedCosts cost f n) ∧ 1 < n)

theorem length_testedCosts (cost : Function → ℚ) {n : ℕ} (h : n ≤ f.maxnum) :
    (testedCosts cost f n).length = n := by
  rw [testedCosts, List.length_map, List.length_take]
  exact Nat.min_eq_left h

theorem main_holds {file : InterruptFile} {n : ℕ} (h : Holds cost f file n) (stop : ℕ → Bool) :
    otpoMain hypothesisGetNext stop (fun _ => cost) .bruteForce threshold f file =
      tuningLoop hypothesisGetNext stop (fun _ => cost) (f.maxnum+1-n) n true
        (initial f (testedCosts cost f n)) [] := by
  have hlen := length_testedCosts cost h.1
  rcases h.2 with ⟨rfl, rfl⟩ | ⟨rfl, _⟩
  · rfl
  · rw [brute_main_resumed _ stop threshold (hlen.symm ▸ h.1), hlen]

theorem bounded_at (hc : Bounded f cost) {i : ℕ} (h : i < f.maxnum) :
    0 < cost (functionAt f i) ∧ cost (functionAt f i) < 999999 :=
  hc _ (List.mem_of_getElem? (functionAt_get h))

theorem recorded_cost (hc : Bounded f cost) {i : ℕ} (h : i < f.maxnum) :
    recorded (fun _ => cost) f i = cost (functionAt f i) := timeDiff_pos (bounded_at hc h).1

theorem recorded_bounded (hc : Bounded f cost) {i : ℕ} (h : i < f.maxnum) :
    0 < recorded (fun _ => cost) f i ∧ recorded (fun _ => cost) f i < 2999997 := by
  rw [recorded_cost hc h]
  exact ⟨(bounded_at hc h).1, (bounded_at hc h).2.trans (by norm_num)⟩

theorem average_cost (hc : Bounded f cost) {n i : ℕ} (h : i < f.maxnum) :
    average (fun _ => cost) f (testedCosts cost f n) i = some (cost (functionAt f i)) := by
  rw [average, List.getD_eq_getElem?_getD, testedCosts, List.getElem?_map]
  by_cases hi : i < n
  · rw [List.getElem?_take_of_lt hi, functionAt_get h]
    rfl
  · rw [List.getElem?_eq_none (by simp; omega)]
    exact congrArg some (recorded_cost hc h)

theorem averages_tested (hc : Bounded f cost) {n m : ℕ} (h : m ≤ f.maxnum) :
    (List.range m).map (average (fun _ => cost) f (testedCosts cost f n)) =
      testedCosts cost f m := by
  refine List.ext_getElem? fun i => ?_
  by_cases hi : i < m
  · rw [List.getElem?_map, List.getElem?_range hi, Option.map_some, average_cost hc (by omega),
      testedCosts, List.getElem?_map, List.getElem?_take_of_lt hi, functionAt_get (by omega),
      Option.map_some]
  · rw [List.getElem?_eq_none (by simpa using hi),
      List.getElem?_eq_none (by rw [length_testedCosts cost h]; omega)]

theorem winner_least (hc : Bounded f cost) {n w : ℕ} {x : ℚ}
    (hl : FirstMinimum.Least (keys (testedCosts cost f f.maxnum)) w x)
    (hx : x < 999999999999/100) :
    getWinnerV3 ((List.range f.maxnum).map
      (decided (fun _ => cost) f (testedCosts cost f n))) = .ok (.filtered, some w) := by
  have hgpts : ((List.range f.maxnum).map
      (decided (fun _ => cost) f (testedCosts cost f n))).map Stat.gpts = _ :=
    decided_averages fun i _ hi => recorded_bounded hc hi
  rw [averages_tested hc (Nat.le_refl _)] at hgpts
  exact get_winner_exact hgpts hl hx

theorem exists_winner (hf : f.functions ≠ []) (hc : Bounded f cost) :
    ∃ w x, FirstMinimum.Least (keys (testedCosts cost f f.maxnum)) w x ∧
      x < 999999999999/100 := by
  have hlen : (testedCosts cost f 0).length < f.maxnum := List.length_pos_iff.mpr hf
  rw [← averages_tested hc (Nat.le_refl _)]
  exact exists_least_average hlen fun i _ hi => recorded_bounded hc hi

variable {file : InterruptFile} {n i : ℕ}

theorem interrupted_saves (hypothesisGetNext : Emethod → Except Fault (Option ℕ × Emethod))
    (threshold : ℤ) (hc : Bounded f cost) (h : Holds cost f file n) (hn : n < i) (h1 : 1 < i)
    (hi : i ≤ f.maxnum) :
    ∃ w, interrupted hypothesisGetNext cost .bruteForce threshold f i file =
      .ok (.saved ⟨i, testedCosts cost f i, w⟩, (List.range' n (i-n)).map (testingStart f)) := by
  obtain ⟨j, rfl⟩ : ∃ j, i = j+1 := ⟨i-1, by omega⟩
  have hlen := length_testedCosts cost h.1
  have hj : (testedCosts cost f n).length ≤ j := by omega
  obtain ⟨w, hw⟩ := save_after hj (show j < f.maxnum from hi)
    fun k _ hk => recorded_bounded hc (Nat.lt_of_lt_of_le hk hi)
  have hstop : ∀ k, (testedCosts cost f n).length ≤ k → k ≤ j →
      (fun k => decide (j+1 ≤ k)) k = false :=
    fun k _ hk => decide_eq_false (show ¬ j+1 ≤ k by omega)
  have hloop := loop_to hypothesisGetNext (fun _ => cost) hj (show j < f.maxnum from hi) hstop
  rw [hlen] at hloop
  refine ⟨w, ?_⟩
  rw [interrupted, main_holds h, hloop, show f.maxnum-j = f.maxnum-(j+1)+1 by omega,
    tuningLoop_save (decide_eq_true (Nat.le_refl _)) h1, hw, averages_tested hc hi]

theorem interrupted_initial (h : Holds cost f file n) (hi : i ≤ n) :
    (∃ fault, interrupted hypothesisGetNext cost .bruteForce threshold f i file = .error fault) ∨
      interrupted hypothesisGetNext cost .bruteForce threshold f i file = .ok (.stopped, []) := by
  have hle := h.1
  rw [interrupted, main_holds h, show f.maxnum+1-n = f.maxnum-n+1 by omega]
  by_cases h1 : 1 < n
  · obtain ⟨fault, hfault⟩ := save_initial f (testedCosts cost f n)
    rw [tuningLoop_save (decide_eq_true hi) h1, hfault]
    exact Or.inl ⟨fault, rfl⟩
  · exact Or.inr (by simp only [tuningLoop, hi, decide_true, if_true, h1, if_false])

theorem runs_to_end (hc : Bounded f cost) (h : Holds cost f file n) (hn : n < f.maxnum)
    {stop : ℕ → Bool} (hstop : ∀ k, k ≤ f.maxnum → stop k = false) {w : ℕ} {x : ℚ}
    (hl : FirstMinimum.Least (keys (testedCosts cost f f.maxnum)) w x)
    (hx : x < 999999999999/100) :
    otpoMain hypothesisGetNext stop (fun _ => cost) .bruteForce threshold f file =
      .ok (.finished (chosen (fun _ => cost) f (testedCosts cost f n) .filtered w),
        (List.range' n (f.maxnum-n)).map (testingStart f) ++ [⟨functionAt f w, .regular⟩]) := by
  have hlen := length_testedCosts cost h.1
  have hlt : (testedCosts cost f n).length < f.maxnum := by omega
  have hrun := run_decides hypothesisGetNext hlt (fun k _ hk => hstop k hk) (winner_least hc hl hx)
  rw [hlen] at hrun
  rw [main_holds h, hrun]

theorem runs_past_end (h : Holds cost f file f.maxnum) {stop : ℕ → Bool}
    (hstop : stop f.maxnum = false) :
    otpoMain hypothesisGetNext stop (fun _ => cost) .bruteForce threshold f file =
      .error .undefined := by
  have hlen := length_testedCosts cost h.1
  rw [main_holds h, show f.maxnum+1-f.maxnum = 0+1 by omega]
  exact tuningLoop_fault hstop (start_restored _ hlen.ge cost)

/-- A process saves exactly between two of its tests. -/
theorem not_saved (hc : Bounded f cost) (hf : f.functions ≠ []) (h : Holds cost f file n)
    (hi : ¬ (n < i ∧ 1 < i ∧ i ≤ f.maxnum)) (s : Saved) (log : List Start) :
    interrupted hypothesisGetNext cost .bruteForce threshold f i file ≠ .ok (.saved s, log) := by
  have hpos : 0 < f.maxnum := List.length_pos_iff.mpr hf
  have hle := h.1
  by_cases hn : i ≤ n
  · rcases interrupted_initial h hn with ⟨fault, hfault⟩ | hstopped
    · rw [hfault]
      rintro ⟨⟩
    · rw [hstopped]
      rintro ⟨⟩
  by_cases hlast : f.maxnum < i
  · have hstop : ∀ k, k ≤ f.maxnum → decide (i ≤ k) = false :=
      fun k hk => decide_eq_false (by omega)
    rcases Nat.lt_or_eq_of_le hle with hlt | rfl
    · obtain ⟨w, x, hl, hx⟩ := exists_winner hf hc
      rw [interrupted, runs_to_end hc h hlt hstop hl hx]
      rintro ⟨⟩
    · rw [interrupted, runs_past_end h (hstop _ (Nat.le_refl _))]
      rintro ⟨⟩
  · obtain rfl : i = 1 := by omega
    obtain rfl : n = 0 := by omega
    have hlen : (testedCosts cost f 0).length ≤ 0 := Nat.le_refl 0
    have hstop : ∀ k, (testedCosts cost f 0).length ≤ k → k ≤ 0 →
        (fun k => decide (1 ≤ k)) k = false := fun k _ hk => decide_eq_false (by omega)
    have hloop := loop_to hypothesisGetNext (fun _ => cost) hlen hpos hstop
    rw [length_testedCosts cost (Nat.zero_le _), show f.maxnum-0 = f.maxnum-1+1 by omega] at hloop
    rw [interrupted, main_holds h, hloop]
    simp [tuningLoop]

end Processes

section Sessions

variable (hypothesisGetNext : Emethod → Except Fault (Option ℕ × Emethod))
variable (cost : Function → ℚ) (threshold : ℤ) (f : Fnctset)

def Continues (file : InterruptFile) (n : ℕ) (is : List ℕ) : Prop :=
  ∃ s winner, session hypothesisGetNext cost .bruteForce threshold f file is = .ok s ∧
    s.saves.map (fun s => (s.testedNum, s.results)) = is.map (fun i => (i, testedCosts cost f i)) ∧
    s.log = (List.range' n (f.maxnum-n)).map (testingStart f) ++ [⟨winner, .regular⟩] ∧
    s.outcome.winner = some winner ∧
    finalWinner (uninterrupted hypothesisGetNext cost .bruteForce threshold f none) = some winner

variable {hypothesisGetNext cost threshold f} {file : InterruptFile} {n i : ℕ} {is : List ℕ}

theorem continues_nil (hc : Bounded f cost) (hf : f.functions ≠ []) (h : Holds cost f file n) :
    Continues hypothesisGetNext cost threshold f file n [] ↔ n < f.maxnum := by
  have hpos : 0 < f.maxnum := List.length_pos_iff.mpr hf
  have hnew : Holds cost f none 0 := ⟨Nat.zero_le _, Or.inl ⟨rfl, rfl⟩⟩
  obtain ⟨w, x, hl, hx⟩ := exists_winner hf hc
  have hall : otpoMain hypothesisGetNext (fun _ => false) (fun _ => cost) .bruteForce threshold
      f none = _ := runs_to_end hc hnew hpos (fun _ _ => rfl) hl hx
  constructor
  · rintro ⟨s, winner, hs, _⟩
    by_contra hn
    obtain rfl : n = f.maxnum := Nat.le_antisymm h.1 (by omega)
    have hrun : otpoMain hypothesisGetNext (fun _ => false) (fun _ => cost) .bruteForce threshold
        f file = .error .undefined := runs_past_end h rfl
    simp only [session, uninterrupted, hrun] at hs
    cases hs
  · intro hn
    have hrun : otpoMain hypothesisGetNext (fun _ => false) (fun _ => cost) .bruteForce threshold
        f file = _ := runs_to_end hc h hn (fun _ _ => rfl) hl hx
    refine ⟨⟨[], _, .finished (chosen (fun _ => cost) f (testedCosts cost f n) .filtered w)⟩,
      functionAt f w, ?_, rfl, rfl, rfl, ?_⟩
    · simp only [session, uninterrupted, hrun]
    · rw [uninterrupted, hall]
      rfl

theorem continues_saved (hc : Bounded f cost) (h : Holds cost f file n) (hn : n < i) (h1 : 1 < i)
    (hi : i ≤ f.maxnum) : Continues hypothesisGetNext cost threshold f file n (i::is) ↔
      Continues hypothesisGetNext cost threshold f (some (testedCosts cost f i)) i is := by
  obtain ⟨w, hw⟩ := interrupted_saves hypothesisGetNext threshold hc h hn h1 hi
  have hsplit : List.range' n (f.maxnum-n) =
      List.range' n (i-n) ++ List.range' i (f.maxnum-i) := by
    rw [show f.maxnum-n = (i-n)+(f.maxnum-i) by omega, ← List.range'_append_1,
      show n+(i-n) = i by omega]
  constructor
  · rintro ⟨s, winner, hs, hsaves, hlog, hwinner, hall⟩
    simp only [session, hw] at hs
    split at hs
    · cases hs
    · next rest hrest =>
      cases hs
      refine ⟨rest, winner, hrest, (List.cons.inj hsaves).2, ?_, hwinner, hall⟩
      rw [hsplit, List.map_append, List.append_assoc] at hlog
      exact List.append_cancel_left hlog
  · rintro ⟨rest, winner, hrest, hsaves, hlog, hwinner, hall⟩
    refine ⟨⟨⟨i, testedCosts cost f i, w⟩::rest.saves,
      (List.range' n (i-n)).map (testingStart f) ++ rest.log, rest.outcome⟩, winner, ?_, ?_, ?_,
      hwinner, hall⟩
    · simp only [session, hw, hrest]
    · rw [List.map_cons, List.map_cons, hsaves]
    · rw [hsplit, List.map_append, List.append_assoc, hlog]

theorem not_continues (h : ∀ s log,
      interrupted hypothesisGetNext cost .bruteForce threshold f i file ≠ .ok (.saved s, log)) :
    ¬ Continues hypothesisGetNext cost threshold f file n (i::is) := by
  rintro ⟨s, winner, hs, hsaves, _⟩
  simp only [session] at hs
  split at hs
  · cases hs
  · next hsaved => exact h _ _ hsaved
  · cases hs
    cases hsaves

theorem continues_iff (hc : Bounded f cost) (hf : f.functions ≠ []) (h : Holds cost f file n) :
    Continues hypothesisGetNext cost threshold f file n is ↔
      (n::is).Pairwise (· < ·) ∧ (∀ i ∈ is, 1 < i) ∧ ∀ i ∈ n::is, i < f.maxnum := by
  induction is generalizing file n with
  | nil => simp [continues_nil hc hf h]
  | cons i is ih =>
    by_cases hi : n < i ∧ 1 < i ∧ i ≤ f.maxnum
    · obtain ⟨hn, h1, hle⟩ := hi
      rw [continues_saved hc h hn h1 hle, ih ⟨hle, Or.inr ⟨rfl, h1⟩⟩]
      constructor
      · rintro ⟨hp, hone, hlt⟩
        have hbelow : ∀ k ∈ i::is, n < k := List.forall_mem_cons.mpr
          ⟨hn, fun k hk => hn.trans (List.rel_of_pairwise_cons hp hk)⟩
        exact ⟨List.pairwise_cons.mpr ⟨hbelow, hp⟩, List.forall_mem_cons.mpr ⟨h1, hone⟩,
          List.forall_mem_cons.mpr ⟨hn.trans (hlt i (by simp)), hlt⟩⟩
      · rintro ⟨hp, hone, hlt⟩
        exact ⟨(List.pairwise_cons.mp hp).2, (List.forall_mem_cons.mp hone).2,
          (List.forall_mem_cons.mp hlt).2⟩
    · refine iff_of_false (not_continues (not_saved hc hf h hi)) ?_
      rintro ⟨hp, h1, hlt⟩
      exact hi ⟨List.rel_of_pairwise_cons hp (by simp), h1 i (by simp),
        (hlt i (by simp)).le⟩

end Sessions

/-- Nothing is lost exactly when every process but the last one tests something
new and leaves something to test. -/
theorem loses_nothing_iff (hypothesisGetNext : Emethod → Except Fault (Option ℕ × Emethod))
    (cost : Function → ℚ) (threshold : ℤ) (f : Fnctset) (is : List ℕ) (hf : f.functions ≠ [])
    (hc : ∀ g ∈ f.functions, 0 < cost g ∧ cost g < 999999) :
    LosesNothing hypothesisGetNext cost threshold f is ↔
      is.Pairwise (· < ·) ∧ ∀ i ∈ is, 1 < i ∧ i < f.maxnum := by
  have hnew : Holds cost f none 0 := ⟨Nat.zero_le _, Or.inl ⟨rfl, rfl⟩⟩
  have hpos : 0 < f.maxnum := List.length_pos_iff.mpr hf
  have hcontinues : LosesNothing hypothesisGetNext cost threshold f is ↔
      Continues hypothesisGetNext cost threshold f none 0 is := by
    rw [LosesNothing, Continues, Nat.sub_zero, starts_all]
  rw [hcontinues, continues_iff hc hf hnew]
  constructor
  · rintro ⟨hp, hone, hlt⟩
    exact ⟨(List.pairwise_cons.mp hp).2, fun i hi => ⟨hone i hi, hlt i (by simp [hi])⟩⟩
  · rintro ⟨hp, h⟩
    exact ⟨List.pairwise_cons.mpr ⟨fun i hi => Nat.zero_lt_of_lt (h i hi).1, hp⟩,
      fun i hi => (h i hi).1, List.forall_mem_cons.mpr ⟨hpos, fun i hi => (h i hi).2⟩⟩

theorem loses_nothing_once :
    LosesNothing (fun e => .ok (none, e)) (fun g => g.id+1) 10
      ⟨[⟨0, [1]⟩, ⟨1, [2]⟩, ⟨2, [3]⟩], ⟨[[1, 2, 3]], [1], [3], [3]⟩⟩ [2] :=
  (loses_nothing_iff _ _ 10 ⟨[⟨0, [1]⟩, ⟨1, [2]⟩, ⟨2, [3]⟩], ⟨[[1, 2, 3]], [1], [3], [3]⟩⟩ [2]
    (by decide) (by decide +kernel)).mpr ⟨by decide, by decide⟩

/-- A signal after the last test and one in front of the first start of a
resumed process, over three functions. -/
theorem interrupted_at_the_ends :
    let f : Fnctset := ⟨[⟨0, [1]⟩, ⟨1, [2]⟩, ⟨2, [3]⟩], ⟨[[1, 2, 3]], [1], [3], [3]⟩⟩
    session (fun e => .ok (none, e)) (fun g => g.id+1) .bruteForce 10 f none [3] =
        .error .undefined ∧
      session (fun e => .ok (none, e)) (fun g => g.id+1) .bruteForce 10 f none [2, 2] =
        .error .undefined ∧
      ¬ LosesNothing (fun e => .ok (none, e)) (fun g => g.id+1) 10 f [3] ∧
      ¬ LosesNothing (fun e => .ok (none, e)) (fun g => g.id+1) 10 f [2, 2] := by
  intro f
  have hlast : session (fun e => .ok (none, e)) (fun g => g.id+1) .bruteForce 10 f none [3] =
      .error .undefined := by decide +kernel
  have hfirst : session (fun e => .ok (none, e)) (fun g => g.id+1) .bruteForce 10 f none [2, 2] =
      .error .undefined := by decide +kernel
  refine ⟨hlast, hfirst, ?_, ?_⟩
  · rintro ⟨s, winner, hs, _⟩
    cases hlast.symm.trans hs
  · rintro ⟨s, winner, hs, _⟩
    cases hfirst.symm.trans hs

end Otpo.InterruptResume
