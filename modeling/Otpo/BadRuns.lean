import Otpo.BruteForce

/-!
# Runs that failed

What each benchmark reports for a run, and which combination the decision
takes when some runs completed and the others were bad. The files that the
benchmarks write are represented by the number they hold; NetPIPE writes one
line for its single message size.
-/

set_option autoImplicit false

namespace Otpo.BadRuns
open Otpo.ParamList Otpo.Statistics Otpo.Adcl Otpo.BruteForce

inductive Test
  | netpipe
  | skampi
  | npb
  | latencyIo
  | noncontig
  | mpiTileIo
  deriving DecidableEq, Repr

def reportedValue (test : Test) (metric : Option ℚ) : Option ℚ :=
  match test, metric with
  | .netpipe, some latency => some (latency*1000000)
  | .netpipe, none => some 10000000
  | .skampi, some latency => some latency
  | .skampi, none => some 100000
  | .npb, latency => latency
  | .latencyIo, bandwidth => bandwidth.map (1/·)
  | .noncontig, bandwidth => bandwidth.map (-1*·)
  | .mpiTileIo, bandwidth => bandwidth.map (-1*·)

/-- The file behind the report. SKaMPI's is closed, synchronised and closed
again, or was never opened; NPB's is closed twice. -/
def closeFile : Test → Except Fault Unit
  | .skampi => .error .undefined
  | .npb => .error .undefined
  | _ => .ok ()

def updateAdclRequest (test : Test) (metric : Option ℚ) : Except Fault (Option ℚ) :=
  match reportedValue test metric with
  | none => .ok none
  | some value => (closeFile test).map fun _ => some value

inductive Run (test : Test)
  | completed (metric : ℚ) (positive : 0 < metric)
  | killed
  | unreadable (substitute : (reportedValue test none).isSome)

variable {test : Test}

def reported : Run test → ℚ
  | .completed metric _ => (reportedValue test (some metric)).getD 0
  | .killed => 1000
  | .unreadable _ => (reportedValue test none).getD 0

def otpoTestFunc : Run test → Except Fault ℚ
  | .completed metric _ => (updateAdclRequest test (some metric)).map (·.getD 0)
  | .killed => .ok 1000
  | .unreadable _ => (updateAdclRequest test none).map (·.getD 0)

def Completed : Run test → Prop
  | .completed _ _ => True
  | .killed => False
  | .unreadable _ => False

section Tuning

variable (hypothesisGetNext : Emethod → Except Fault (Option ℕ × Emethod))
variable (f : Fnctset) (threshold : ℤ) (outcome : Function → Run test)

def tuned : Except Fault (Outcome × List Start) :=
  otpoMain hypothesisGetNext (fun _ => false) (fun _ g => reported (outcome g)) .bruteForce
    threshold f none

def tune : Except Fault (Outcome × List Start) :=
  match tuned hypothesisGetNext f threshold outcome with
  | .error fault => .error fault
  | .ok (o, log) =>
    if log.all fun s => (otpoTestFunc (outcome s.function)).isOk then .ok (o, log)
    else .error .undefined

def SelectsCompleted : Prop :=
  ∃ winner, finalWinner (tune hypothesisGetNext f threshold outcome) = some winner ∧
    Completed (outcome winner)

end Tuning

def time (test : Test) (metric : ℚ) : ℚ :=
  match test with
  | .netpipe => metric*1000000
  | .skampi => metric
  | .npb => metric
  | .latencyIo => 1/metric
  | .noncontig => 1000000-metric
  | .mpiTileIo => 1000000-metric

def penalty : Run test → Option ℚ
  | .completed _ _ => none
  | .killed => some 1000
  | .unreadable _ => reportedValue test none

def Accepted (x : ℚ) : Prop := 0 < x ∧ x < 2999997

def Outbids (f : Fnctset) (outcome : Function → Run test) : Prop :=
  ∃ i metric positive, i < f.maxnum ∧ outcome (functionAt f i) = .completed metric positive ∧
    Accepted (time test metric) ∧ ∀ j v, j < f.maxnum →
      penalty (outcome (functionAt f j)) = some v → Accepted v →
      time test metric < v ∨ time test metric = v ∧ i < j

theorem time_recorded {metric : ℚ} (positive : 0 < metric) :
    timeDiff 0 (reported (.completed metric positive : Run test)) = time test metric := by
  have hneg : -1*metric ≤ 0 := by linarith
  have hmetric : 1000000-metric = 1000000+-1*metric := by ring
  cases test with
  | netpipe => exact timeDiff_pos (mul_pos positive (by norm_num))
  | skampi => exact timeDiff_pos positive
  | npb => exact timeDiff_pos positive
  | latencyIo => exact timeDiff_pos (one_div_pos.mpr positive)
  | noncontig => exact (timeDiff_nonpos hneg).trans hmetric.symm
  | mpiTileIo => exact (timeDiff_nonpos hneg).trans hmetric.symm

theorem penalty_recorded {r : Run test} {v : ℚ} (h : penalty r = some v) :
    timeDiff 0 (reported r) = v := by
  cases r with
  | completed metric positive => cases h
  | killed =>
    cases h
    exact timeDiff_pos (show (0:ℚ) < 1000 by norm_num)
  | unreadable substitute =>
    cases test with
    | netpipe =>
      cases h
      exact timeDiff_pos (show (0:ℚ) < 10000000 by norm_num)
    | skampi =>
      cases h
      exact timeDiff_pos (show (0:ℚ) < 100000 by norm_num)
    | npb | latencyIo | noncontig | mpiTileIo => cases h

theorem completed_or_penalty (r : Run test) :
    (∃ metric positive, r = .completed metric positive) ∨
      ¬ Completed r ∧ ∃ v, penalty r = some v := by
  cases r with
  | completed metric positive => exact Or.inl ⟨metric, positive, rfl⟩
  | killed => exact Or.inr ⟨id, 1000, rfl⟩
  | unreadable substitute => exact Or.inr ⟨id, Option.isSome_iff_exists.mp substitute⟩

section Decision

variable {hypothesisGetNext : Emethod → Except Fault (Option ℕ × Emethod)}
variable {f : Fnctset} {outcome : Function → Run test}

def reports (outcome : Function → Run test) (_ : ℕ) (g : Function) : ℚ :=
  reported (outcome g)

def statistics (f : Fnctset) (outcome : Function → Run test) : List Stat :=
  (List.range f.maxnum).map (decided (reports outcome) f [])

theorem statistics_points (outcome : Function → Run test) {i : ℕ} (h : i < f.maxnum) :
    ((statistics f outcome)[i]?).map Stat.gpts =
      some (averages [recorded (reports outcome) f i]) := by
  rw [statistics, List.getElem?_map, List.getElem?_range h, Option.map_some, Option.map_some,
    decided_points]
  rfl

theorem filtered_key {i : ℕ} {x : ℚ} :
    (keys ((statistics f outcome).map fun s => s.gpts.filtered))[i]? = some (some x) ↔
      i < f.maxnum ∧ x = recorded (reports outcome) f i ∧ Accepted x := by
  rw [keys_getElem, List.getElem?_map]
  by_cases hi : i < f.maxnum
  · obtain ⟨s, hs, hpoints⟩ := Option.map_eq_some_iff.mp (statistics_points outcome hi)
    rw [hs, Option.map_some, hpoints, averages_single]
    simp only [Option.some.injEq, hi, true_and, Accepted]
    split <;> grind
  · rw [List.getElem?_eq_none (by simpa [statistics] using hi)]
    simp [hi]

theorem least_outliers {w : ℕ} {x : ℚ}
    (h : FirstMinimum.Least (keys ((statistics f outcome).map fun s => s.gpts.filtered)) w x) :
    ((statistics f outcome)[w]?).bind (fun s => s.gpts.outliers) = some 0 := by
  obtain ⟨hw, rfl, hx⟩ := filtered_key.mp h.1
  obtain ⟨s, hs, hpoints⟩ := Option.map_eq_some_iff.mp (statistics_points outcome hw)
  rw [hs, Option.bind_some, hpoints, averages_single, if_pos ⟨hx.1, hx.2⟩]

theorem tuned_least {w : ℕ} {x : ℚ} (threshold : ℤ)
    (h : FirstMinimum.Least (keys ((statistics f outcome).map fun s => s.gpts.filtered)) w x) :
    tuned hypothesisGetNext f threshold outcome =
      .ok (.finished (chosen (reports outcome) f [] .filtered w),
        f.functions.map (⟨·, .testing⟩) ++ [⟨functionAt f w, .regular⟩]) := by
  obtain ⟨hw, _, hx⟩ := filtered_key.mp h.1
  exact main_decides _ (Nat.zero_lt_of_lt hw) threshold
    (get_winner_filtered h (hx.2.trans (by norm_num)) (least_outliers h)
      (by rw [outlierFraction]; norm_num))

theorem tuned_nothing (threshold : ℤ)
    (h : ∀ i, i < f.maxnum → ¬ Accepted (recorded (reports outcome) f i)) :
    ∃ fault, tuned hypothesisGetNext f threshold outcome = .error fault := by
  have hnone : getWinnerV3 (statistics f outcome) = .error .undefined :=
      get_winner_undefined fun j y hj => by
    obtain ⟨hlt, rfl, hy⟩ := filtered_key.mp hj
    exact absurd hy (h j hlt)
  exact main_undecided hypothesisGetNext threshold
    fun filtering w hw => by cases hnone.symm.trans hw

theorem completed_recorded {i : ℕ} {metric : ℚ} {positive : 0 < metric}
    (h : outcome (functionAt f i) = .completed metric positive) :
    recorded (reports outcome) f i = time test metric := by
  rw [recorded, reports, h, time_recorded]

theorem completed_outbids {w : ℕ} {x : ℚ}
    (h : FirstMinimum.Least (keys ((statistics f outcome).map fun s => s.gpts.filtered)) w x)
    (hc : Completed (outcome (functionAt f w))) : Outbids f outcome := by
  obtain ⟨hw, hx, haccepted⟩ := filtered_key.mp h.1
  rcases completed_or_penalty (outcome (functionAt f w)) with ⟨metric, positive, hm⟩ | ⟨hb, _⟩
  · have htime : x = time test metric := hx.trans (completed_recorded hm)
    refine ⟨w, metric, positive, hw, hm, htime ▸ haccepted, fun j v hj hp hv => ?_⟩
    have hle := h.2 j v (filtered_key.mpr ⟨hj, (penalty_recorded hp).symm, hv⟩)
    have hne : j ≠ w := by
      rintro rfl
      rw [hm] at hp
      cases hp
    rw [← htime]
    rcases hle.1.lt_or_eq with hlt | heq
    · exact Or.inl hlt
    · have hnot : ¬ j < w := fun hjw => (hle.2 hjw).ne heq
      exact Or.inr ⟨heq, by omega⟩
  · exact absurd hc hb

theorem outbids_completed {w : ℕ} {x : ℚ}
    (h : FirstMinimum.Least (keys ((statistics f outcome).map fun s => s.gpts.filtered)) w x)
    (ho : Outbids f outcome) : Completed (outcome (functionAt f w)) := by
  obtain ⟨hw, hx, haccepted⟩ := filtered_key.mp h.1
  obtain ⟨i, metric, positive, hi, hm, hai, hbeats⟩ := ho
  rcases completed_or_penalty (outcome (functionAt f w)) with ⟨_, _, hwm⟩ | ⟨_, v, hv⟩
  · rw [hwm]
    trivial
  · have hvx : v = x := (penalty_recorded hv).symm.trans hx.symm
    have hle := h.2 i (time test metric) (filtered_key.mpr ⟨hi, (completed_recorded hm).symm, hai⟩)
    rcases hbeats w v hw hv (hvx ▸ haccepted) with hlt | ⟨heq, hiw⟩
    · exact absurd hle.1 (not_le.mpr (hvx ▸ hlt))
    · exact absurd (hle.2 hiw) (by rw [heq, hvx]; exact lt_irrefl x)

/-- The reports favour a completed run. -/
theorem tuned_completed_iff (threshold : ℤ) :
    (∃ winner, finalWinner (tuned hypothesisGetNext f threshold outcome) = some winner ∧
      Completed (outcome winner)) ↔ Outbids f outcome := by
  by_cases hex : ∃ i, i < f.maxnum ∧ Accepted (recorded (reports outcome) f i)
  · obtain ⟨i, hi, hx⟩ := hex
    obtain ⟨w, x, hl⟩ := FirstMinimum.exists_least ⟨i, _, filtered_key.mpr ⟨hi, rfl, hx⟩⟩
    rw [tuned_least threshold hl]
    constructor
    · rintro ⟨winner, hwinner, hc⟩
      cases hwinner
      exact completed_outbids hl hc
    · exact fun ho => ⟨_, rfl, outbids_completed hl ho⟩
  · obtain ⟨fault, hfault⟩ : ∃ fault, tuned hypothesisGetNext f threshold outcome =
        .error fault := tuned_nothing threshold fun i hi hx => hex ⟨i, hi, hx⟩
    rw [hfault]
    refine iff_of_false (fun ⟨_, h, _⟩ => by cases h) ?_
    rintro ⟨i, metric, positive, hi, hm, hx, _⟩
    exact hex ⟨i, hi, completed_recorded hm ▸ hx⟩

/-- The winner is started once more. -/
theorem tuned_winner {threshold : ℤ} {winner : Function}
    (h : finalWinner (tuned hypothesisGetNext f threshold outcome) = some winner) :
    ∃ o log, tuned hypothesisGetNext f threshold outcome = .ok (o, log) ∧
      ⟨winner, .regular⟩ ∈ log := by
  by_cases hex : ∃ i, i < f.maxnum ∧ Accepted (recorded (reports outcome) f i)
  · obtain ⟨i, hi, hx⟩ := hex
    obtain ⟨w, x, hl⟩ := FirstMinimum.exists_least ⟨i, _, filtered_key.mpr ⟨hi, rfl, hx⟩⟩
    rw [tuned_least threshold hl] at h ⊢
    cases h
    exact ⟨_, _, rfl, by simp⟩
  · obtain ⟨fault, hfault⟩ : ∃ fault, tuned hypothesisGetNext f threshold outcome =
        .error fault := tuned_nothing threshold fun i hi hx => hex ⟨i, hi, hx⟩
    rw [hfault] at h
    cases h

end Decision

section Faults

theorem test_func_ok (h : closeFile test = .ok ()) (r : Run test) :
    otpoTestFunc r = .ok (reported r) := by
  have hupdate (metric : Option ℚ) :
      (updateAdclRequest test metric).map (·.getD 0) = .ok ((reportedValue test metric).getD 0) := by
    rw [updateAdclRequest]
    cases reportedValue test metric with
    | none => rfl
    | some value => rw [h]; rfl
  cases r with
  | completed metric positive => exact hupdate _
  | killed => rfl
  | unreadable substitute => exact hupdate _

theorem test_func_completed {r : Run test} (hc : Completed r) (h : (otpoTestFunc r).isOk = true) :
    closeFile test = .ok () := by
  cases r with
  | completed metric positive => cases test <;> first | rfl | cases h
  | killed => exact hc.elim
  | unreadable substitute => exact hc.elim

theorem close_file_iff : closeFile test = .ok () ↔ test ≠ .skampi ∧ test ≠ .npb := by
  cases test <;> simp [closeFile]

end Faults

/-- The decision is reached and takes a completed combination exactly if the
benchmark leaves its file in order and some completed run has an accepted time
that no accepted penalty beats. -/
theorem selects_completed_iff (hypothesisGetNext : Emethod → Except Fault (Option ℕ × Emethod))
    (f : Fnctset) (threshold : ℤ) (outcome : Function → Run test) :
    SelectsCompleted hypothesisGetNext f threshold outcome ↔
      test ≠ .skampi ∧ test ≠ .npb ∧ Outbids f outcome := by
  have hcompleted : (∃ winner,
      finalWinner (tuned hypothesisGetNext f threshold outcome) = some winner ∧
        Completed (outcome winner)) ↔ Outbids f outcome := tuned_completed_iff threshold
  rw [← and_assoc, ← close_file_iff, ← hcompleted]
  constructor
  · rintro ⟨winner, h, hc⟩
    rw [tune] at h
    split at h
    · cases h
    · next o log hrun =>
      split_ifs at h with hall
      · have hfinal : finalWinner (tuned hypothesisGetNext f threshold outcome) = some winner := by
          rw [hrun]
          exact h
        obtain ⟨_, _, hlog, hmem⟩ := tuned_winner hfinal
        rw [hrun] at hlog
        cases hlog
        exact ⟨test_func_completed hc (List.all_eq_true.mp hall _ hmem), winner, hfinal, hc⟩
      · cases h
  · rintro ⟨hclose, winner, h, hc⟩
    refine ⟨winner, ?_, hc⟩
    rw [tune]
    cases hrun : tuned hypothesisGetNext f threshold outcome with
    | error fault =>
      rw [hrun] at h
      cases h
    | ok run =>
      have hall : run.2.all (fun s => (otpoTestFunc (outcome s.function)).isOk) = true :=
        List.all_eq_true.mpr fun s _ => by rw [test_func_ok hclose]; rfl
      rw [hrun] at h
      simpa only [hall, if_true] using h

/-- A latency of two milliseconds is 2000 microseconds, a killed run 1000. -/
theorem killed_run_wins :
    let f : Fnctset := ⟨[⟨0, [1]⟩, ⟨1, [2]⟩], ⟨[[1, 2]], [1], [2], [2]⟩⟩
    let outcome : Function → Run .netpipe :=
      fun g => if g.id = 0 then .completed (2/1000) (by norm_num) else .killed
    Completed (outcome ⟨0, [1]⟩) ∧
      finalWinner (tune (fun e => .ok (none, e)) f 10 outcome) = some ⟨1, [2]⟩ ∧
      ¬ SelectsCompleted (fun e => .ok (none, e)) f 10 outcome := by
  intro f outcome
  have hwinner : finalWinner (tune (fun e => .ok (none, e)) f 10 outcome) = some ⟨1, [2]⟩ := by
    decide +kernel
  refine ⟨trivial, hwinner, ?_⟩
  rintro ⟨winner, h, hc⟩
  rw [hwinner] at h
  cases h
  exact hc

end Otpo.BadRuns
