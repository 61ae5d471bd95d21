import Otpo.ResultBuckets
import Mathlib.Data.Rat.Floor
import Mathlib.Tactic.FieldSimp

/-!
# The number in front of a bucket

A metric is recorded as a time, and its combination is listed in the bucket
that holds the time. The header shows the lower edge of the bucket, or the
reciprocal of the edge for a bandwidth. Which edge is below a time depends on
the other combinations of the run.
-/

set_option autoImplicit false

namespace Otpo.ReportedMetric
open Otpo.ParamList Otpo.Statistics Otpo.Adcl Otpo.BruteForce Otpo.BadRuns Otpo.ResultBuckets

def inUnit (test : Test) (metric : ℚ) : ℚ :=
  match test with
  | .netpipe => metric*1000000
  | _ => metric

def getWinnerStat (e : Emethod) : Option Double :=
  e.wfunction.bind fun func =>
    ((e.fnctset.functions.zip e.stats).find? fun q =>
      func.id == q.1.id && q.2.gpts.unfiltered != some 0).map (·.2.gpts.filtered)

def otpoWriteResults (test : Test) (e : Emethod) (fuel : ℕ) : Option (List Bucket × ℕ) :=
  match getWinnerStat e with
  | none => writeIntermediateResults test e 0 fuel
  | some none => some ([], 0)
  | some (some average) => writeIntermediateResults test e average fuel

def Measured (test : Test) (e : Emethod) (p : ℕ) (metric : ℚ) : Prop :=
  ∃ positive, e.orgstats[p]? =
    some (averages [timeDiff 0 (reported (.completed metric positive : Run test))])

/-- A process over positive metrics, new or resumed and by any method, lists in
this bucket a combination that was tested once, with this metric. -/
def Lists (test : Test) (metric : ℚ) (b : Bucket) : Prop :=
  ∃ hypothesisGetNext stopSignal algo threshold f file r log fuel buckets num p,
    ∃ metrics : ℕ → Function → ℚ, (∀ i g, 0 < metrics i g) ∧
      otpoMain hypothesisGetNext stopSignal
        (fun i g => (reportedValue test (some (metrics i g))).getD 0) algo threshold f file =
          .ok (.finished r, log) ∧
      otpoWriteResults test r.emethod fuel = some (buckets, num) ∧ b ∈ buckets ∧
      p ∈ b.functions ∧ Measured test r.emethod p metric

def Shown (test : Test) (metric : ℚ) : Prop :=
  ∀ b, Lists test metric b → |b.result-inUnit test metric| ≤ width

def Recovered (test : Test) (metric : ℚ) : Prop :=
  match test with
  | .latencyIo => 100*metric^2+metric ≤ 100
  | .noncontig => 1000000 ≤ metric ∨ metric ≤ 1 ∧ (metric-1/100)*(1000000-metric) ≤ 1
  | .mpiTileIo => 1000000 ≤ metric ∨ metric ≤ 1 ∧ (metric-1/100)*(1000000-metric) ≤ 1
  | _ => True

section Reciprocals

variable {n t m w : ℚ}

/-- What a bandwidth has to satisfy when the edge below its time may be any. -/
theorem reciprocal_recovers (hm : 0 < m) (hw : 0 < w) :
    (∀ n, 0 < n → n ≤ t → t < n+w → |1/n-m| ≤ w) ↔
      t ≤ 0 ∨ (m-w)*t ≤ 1 ∧ 1 ≤ (m+w)*(t-w) := by
  have hsum : 0 < m+w := by linarith
  constructor
  · intro h
    rcases le_or_gt t 0 with ht | ht
    · exact Or.inl ht
    refine Or.inr ⟨?_, ?_⟩
    · -- the time may be the winner's own
      have hself := (abs_le.mp (h t ht (le_refl t) (by linarith))).1
      exact (le_div_iff₀ ht).mp (by linarith)
    · by_contra hfar
      have hbelow : t-w < 1/(m+w) := by
        rw [lt_div_iff₀ hsum, mul_comm]
        exact not_le.mp hfar
      have hroom : max 0 (t-w) < min t (1/(m+w)) :=
        max_lt (lt_min ht (one_div_pos.mpr hsum)) (lt_min (by linarith) hbelow)
      obtain ⟨n, hn, hlt⟩ := exists_between hroom
      obtain ⟨hpos, hnear⟩ := max_lt_iff.mp hn
      obtain ⟨hle, hsmall⟩ := lt_min_iff.mp hlt
      have hup := (abs_le.mp (h n hpos hle.le (by linarith))).2
      have hrec : m+w < 1/n := (lt_one_div hpos hsum).mp hsmall
      linarith
  · rintro (ht | ⟨hlower, hupper⟩) n hpos hle hlt
    · linarith
    · have ht : 0 < t := hpos.trans_le hle
      have hedge : 1/t ≤ 1/n := one_div_le_one_div_of_le hpos hle
      have hself : m-w ≤ 1/t := (le_div_iff₀ ht).mpr hlower
      have htop : 1/n ≤ m+w := by
        rw [div_le_iff₀ hpos]
        nlinarith
      exact abs_le.mpr ⟨by linarith, by linarith⟩

end Reciprocals

section Recovery

variable {test : Test} {metric : ℚ}

theorem recovers_latency (positive : 0 < metric) :
    (1/metric ≤ 0 ∨ (metric-width)*(1/metric) ≤ 1 ∧ 1 ≤ (metric+width)*(1/metric-width)) ↔
      100*metric^2+metric ≤ 100 := by
  have hpos : ¬ 1/metric ≤ 0 := not_le.mpr (one_div_pos.mpr positive)
  have hlower : (metric-width)*(1/metric) ≤ 1 := by
    rw [mul_one_div, div_le_one positive, width]
    linarith
  have hupper : (metric+width)*(1/metric-width)-1 = (100-metric-100*metric^2)/(10000*metric) := by
    rw [width]
    field_simp
    ring
  rw [or_iff_right hpos, and_iff_right hlower, ← sub_nonneg, hupper,
    le_div_iff₀ (by positivity), zero_mul]
  constructor <;> intro h <;> linarith

theorem recovers_shifted (positive : 0 < metric) :
    (1000000-metric ≤ 0 ∨ (metric-width)*(1000000-metric) ≤ 1 ∧
      1 ≤ (metric+width)*(1000000-metric-width)) ↔
        1000000 ≤ metric ∨ metric ≤ 1 ∧ (metric-1/100)*(1000000-metric) ≤ 1 := by
  rw [sub_nonpos, width]
  refine or_congr_right' fun h => ?_
  constructor
  · rintro ⟨hlower, hupper⟩
    refine ⟨?_, hlower⟩
    by_contra hbig
    nlinarith
  · rintro ⟨hone, hlower⟩
    exact ⟨hlower, by nlinarith⟩

theorem recovered_iff (hinverted : inverted test = true) (positive : 0 < metric) :
    (∀ n, 0 < n → n ≤ time test metric → time test metric < n+width → |1/n-metric| ≤ width) ↔
      Recovered test metric := by
  rw [reciprocal_recovers positive (by decide +kernel)]
  cases test with
  | latencyIo => exact recovers_latency positive
  | noncontig | mpiTileIo => exact recovers_shifted positive
  | netpipe | skampi | npb => cases hinverted

end Recovery

section Header

variable {test : Test} {e : Emethod} {average metric n : ℚ} {fuel num p : ℕ}
variable {buckets : List Bucket} {b : Bucket}

/-- A bucket that is written stands on a positive edge. -/
theorem bucket_edge (hwrite : writeIntermediateResults test e average fuel = some (buckets, num))
    (hb : b ∈ buckets) : ∃ n, b = printOutput test e n ∧ 0 < n := by
  rw [writeIntermediateResults, result_loop_edges] at hwrite
  obtain ⟨l, hl, heq⟩ := Option.map_eq_some_iff.mp hwrite
  cases heq
  obtain ⟨n, hn, rfl⟩ := List.mem_map.mp hb
  obtain ⟨hlt, k, hk⟩ := Tiling.edges_multiple hl n hn
  have hpos : 0 < average := by
    rw [range] at hlt
    linarith
  have hsteps : 0 ≤ (k:ℚ)*width := mul_nonneg k.cast_nonneg (by decide +kernel)
  exact ⟨n, rfl, by linarith⟩

theorem written_edge (hwrite : otpoWriteResults test e fuel = some (buckets, num))
    (hb : b ∈ buckets) : ∃ n, b = printOutput test e n ∧ 0 < n := by
  rw [otpoWriteResults] at hwrite
  split at hwrite
  · exact bucket_edge hwrite hb
  · cases hwrite
    cases hb
  · exact bucket_edge hwrite hb

/-- A combination that is listed has its time in the bucket. -/
theorem listed_time (hp : p ∈ (printOutput test e n).functions)
    (hm : Measured test e p metric) : n ≤ time test metric ∧ time test metric < n+width := by
  obtain ⟨_, points, a, hpoints, ha, hle, hlt⟩ := printed_iff.mp hp
  obtain ⟨positive, hmeasured⟩ := hm
  rw [time_recorded positive, hpoints, Option.some.injEq] at hmeasured
  rw [hmeasured, averages_single] at ha
  split_ifs at ha
  cases ha
  exact ⟨hle, hlt⟩

theorem lists_edge (h : Lists test metric b) :
    ∃ n, 0 < n ∧ n ≤ time test metric ∧ time test metric < n+width ∧
      b.result = if inverted test then 1/n else n := by
  obtain ⟨_, _, _, _, _, _, r, _, _, _, _, _, _, _, _, hwrite, hb, hp, hm⟩ := h
  obtain ⟨n, rfl, hpos⟩ := written_edge hwrite hb
  obtain ⟨hle, hlt⟩ := listed_time hp hm
  exact ⟨n, hpos, hle, hlt, rfl⟩

/-- A time is shown as it was recorded. -/
theorem time_in_unit (h : inverted test = false) (metric : ℚ) :
    time test metric = inUnit test metric := by
  cases test <;> first | rfl | cases h

theorem bandwidth_in_unit (h : inverted test = true) (metric : ℚ) :
    inUnit test metric = metric := by
  cases test <;> first | rfl | cases h

end Header

section Pair

variable {test : Test} {metric best : ℚ}

def pair : Fnctset := ⟨[⟨0, [0]⟩, ⟨1, [1]⟩], ⟨[[0, 1]], [0], [1], [2]⟩⟩

def metrics (best metric : ℚ) (g : Function) : ℚ := if g.id = 0 then best else metric

theorem metrics_positive (hbest : 0 < best) (hmetric : 0 < metric) (g : Function) :
    0 < metrics best metric g := by
  rw [metrics]
  split_ifs <;> assumption

def outcome (test : Test) (hbest : 0 < best) (hmetric : 0 < metric) (g : Function) : Run test :=
  .completed (metrics best metric g) (metrics_positive hbest hmetric g)

theorem pair_least (hbest : 0 < best) (hmetric : 0 < metric)
    (ha : Accepted (time test best)) (hle : time test best ≤ time test metric) :
    FirstMinimum.Least (keys ((statistics pair (outcome test hbest hmetric)).map
      fun s => s.gpts.filtered)) 0 (time test best) := by
  refine ⟨filtered_key.mpr ⟨by decide, (completed_recorded rfl).symm, ha⟩, fun j y hj => ?_⟩
  obtain ⟨hlt, rfl, -⟩ := filtered_key.mp hj
  match j, hlt with
  | 0, _ => exact ⟨(completed_recorded rfl).ge, fun h => absurd h (Nat.lt_irrefl 0)⟩
  | 1, _ => exact ⟨hle.trans (completed_recorded rfl).ge, fun h => absurd h (by decide)⟩

def decidedPair (test : Test) (hbest : 0 < best) (hmetric : 0 < metric) (i : ℕ) : Stat :=
  decided (reports (outcome test hbest hmetric)) pair [] i

def pairMethod (test : Test) (hbest : 0 < best) (hmetric : 0 < metric) : Emethod :=
  (chosen (reports (outcome test hbest hmetric)) pair [] .filtered 0).emethod

theorem best_points (hbest : 0 < best) (hmetric : 0 < metric) (ha : Accepted (time test best)) :
    (decidedPair test hbest hmetric 0).gpts =
      ⟨some (time test best), some (time test best), some 0⟩ := by
  have hrecorded : recorded (reports (outcome test hbest hmetric)) pair 0 = time test best :=
    completed_recorded rfl
  rw [decidedPair, decided_points, hrecorded]
  exact (averages_single _).trans (if_pos ⟨ha.1, ha.2⟩)

theorem metric_points (hbest : 0 < best) (hmetric : 0 < metric)
    (ha : Accepted (time test metric)) : (decidedPair test hbest hmetric 1).gpts =
      ⟨some (time test metric), some (time test metric), some 0⟩ := by
  have hrecorded : recorded (reports (outcome test hbest hmetric)) pair 1 = time test metric :=
    completed_recorded rfl
  rw [decidedPair, decided_points, hrecorded]
  exact (averages_single _).trans (if_pos ⟨ha.1, ha.2⟩)

theorem pair_winner_stat (hbest : 0 < best) (hmetric : 0 < metric)
    (ha : Accepted (time test best)) :
    getWinnerStat (pairMethod test hbest hmetric) = some (some (time test best)) := by
  have hpoints := best_points hbest hmetric ha
  rw [getWinnerStat]
  change Option.map _ (List.find? _ [((⟨0, [0]⟩ : Function), decidedPair test hbest hmetric 0),
    (⟨1, [1]⟩, decidedPair test hbest hmetric 1)]) = _
  rw [List.find?_cons_of_pos]
  · rw [Option.map_some, hpoints]
  · have hid : (functionAt pair 0).id = 0 := rfl
    simp [hid, hpoints, ha.1.ne']

/-- The other one is listed in the bucket on the better time, if it is in it. -/
theorem pair_listed (hinverted : inverted test = true) (hbest : 0 < best) (hmetric : 0 < metric)
    (ha : Accepted (time test metric)) (hpos : 0 < time test best)
    (hle : time test best ≤ time test metric) (hlt : time test metric < time test best+width) :
    ∃ b, Lists test metric b ∧ b.result = 1/time test best := by
  have hab : Accepted (time test best) := ⟨hpos, hle.trans_lt ha.2⟩
  have hrun : tuned (fun e => .ok (none, e)) pair 10 _ = _ :=
    tuned_least 10 (pair_least hbest hmetric hab hle)
  obtain ⟨fuel, l, hl⟩ := Tiling.exists_edges (show 0 < width by decide +kernel)
    (time test best*range) (time test best)
  have hbound : time test best < time test best*range := by
    rw [range]
    linarith
  obtain ⟨-, hb⟩ | ⟨_, m, rfl, -, -⟩ := Tiling.edges_cons hl
  · exact absurd hbound (not_lt.mpr hb)
  have hwrite : ∃ num, otpoWriteResults test (pairMethod test hbest hmetric) fuel =
      some ((time test best::m).map (printOutput test (pairMethod test hbest hmetric)), num) := by
    rw [otpoWriteResults, pair_winner_stat hbest hmetric hab]
    exact ⟨_, (result_loop_edges 0).trans (by rw [hl]; rfl)⟩
  obtain ⟨num, hwrite⟩ := hwrite
  refine ⟨printOutput test (pairMethod test hbest hmetric) (time test best), ?_, if_pos hinverted⟩
  refine ⟨_, fun _ => false, .bruteForce, 10, pair, none, _, _, fuel, _, num, 1,
    fun _ => metrics best metric, fun _ => metrics_positive hbest hmetric, hrun, hwrite,
    List.mem_map_of_mem List.mem_cons_self, ?_, ?_⟩
  · have hpoints := metric_points hbest hmetric ha
    exact printed_iff.mpr ⟨Nat.lt_succ_self 1, _, time test metric, rfl,
      congrArg Points.filtered hpoints, hle, hlt⟩
  · refine ⟨hmetric, ?_⟩
    rw [time_recorded hmetric, averages_single, if_pos ⟨ha.1, ha.2⟩]
    exact congrArg some (metric_points hbest hmetric ha)

theorem exists_best {n : ℚ} (hinverted : inverted test = true) (hmetric : 0 < metric)
    (hpos : 0 < n) (hle : n ≤ time test metric) : ∃ best, 0 < best ∧ time test best = n := by
  cases test with
  | latencyIo => exact ⟨1/n, one_div_pos.mpr hpos, one_div_one_div n⟩
  | noncontig | mpiTileIo =>
    have hroom : n ≤ 1000000-metric := hle
    exact ⟨1000000-n, by linarith, sub_sub_cancel _ _⟩
  | netpipe | skampi | npb => cases hinverted

/-- A time that the filter drops is that of a bandwidth near zero. -/
theorem dropped_near {n : ℚ} (hinverted : inverted test = true) (hmetric : 0 < metric)
    (hlarge : 2999997 ≤ time test metric) (hlt : time test metric < n+width) :
    |1/n-metric| ≤ width := by
  cases test with
  | latencyIo =>
    have hmost : 2999997 ≤ 1/metric := hlarge
    have hsmall : metric ≤ 1/2999997 := (le_one_div (by norm_num) hmetric).mp hmost
    have hn : 100 ≤ n := by
      rw [width] at hlt
      linarith
    have hrec : 1/n ≤ 1/100 := one_div_le_one_div_of_le (by norm_num) hn
    have hnonneg : 0 ≤ 1/n := by positivity
    rw [width, abs_le]
    constructor <;> linarith
  | noncontig | mpiTileIo =>
    have hmost : 2999997 ≤ 1000000-metric := hlarge
    linarith
  | netpipe | skampi | npb => cases hinverted

end Pair

/-- A metric is shown in every run that lists its combination exactly under this
condition. -/
theorem header_metric_iff {test : Test} {metric : ℚ} (positive : 0 < metric) :
    Shown test metric ↔ Recovered test metric := by
  cases hinverted : inverted test with
  | true =>
    rw [← recovered_iff hinverted positive]
    constructor
    · intro h n hpos hle hlt
      rcases lt_or_ge (time test metric) 2999997 with ha | hlarge
      · obtain ⟨best, hbest, rfl⟩ := exists_best hinverted positive hpos hle
        obtain ⟨b, hb, hresult⟩ :=
          pair_listed hinverted hbest positive ⟨hpos.trans_le hle, ha⟩ hpos hle hlt
        have hshown := h b hb
        rwa [hresult, bandwidth_in_unit hinverted] at hshown
      · exact dropped_near hinverted positive hlarge hlt
    · intro h b hb
      obtain ⟨n, hpos, hle, hlt, hresult⟩ := lists_edge hb
      rw [hresult, if_pos hinverted, bandwidth_in_unit hinverted]
      exact h n hpos hle hlt
  | false =>
    refine iff_of_true (fun b hb => ?_) (by cases test <;> trivial)
    obtain ⟨n, -, hle, hlt, hresult⟩ := lists_edge hb
    rw [hresult, if_neg (by simp [hinverted]), ← time_in_unit hinverted, abs_le]
    constructor <;> linarith

theorem header_metric_bandwidths :
    Shown .netpipe (1/1000000) ∧ Shown .latencyIo (1/2) ∧ ¬ Shown .latencyIo 60 ∧
      Shown .noncontig (1/100) ∧ ¬ Shown .mpiTileIo 60 := by
  refine ⟨(header_metric_iff (by norm_num)).mpr trivial,
    (header_metric_iff (by norm_num)).mpr ?_, fun h => ?_,
    (header_metric_iff (by norm_num)).mpr ?_, fun h => ?_⟩
  · norm_num [Recovered]
  · have hrecovered := (header_metric_iff (by norm_num)).mp h
    norm_num [Recovered] at hrecovered
  · norm_num [Recovered]
  · have hrecovered := (header_metric_iff (by norm_num)).mp h
    norm_num [Recovered] at hrecovered

def written (test : Test) (metrics : Function → ℚ) (f : Fnctset) (fuel : ℕ) :
    Option (List Bucket × ℕ) :=
  match otpoMain (fun e => .ok (none, e)) (fun _ => false)
      (fun _ g => (reportedValue test (some (metrics g))).getD 0) .bruteForce 10 f none with
  | .ok (.finished r, _) => otpoWriteResults test r.emethod fuel
  | _ => none

/-- Bandwidths of 100 and of 60 have the times 0.01 and 0.0167, which lie in one
bucket, and both combinations are listed under 100. -/
theorem bandwidth_misreported :
    let f : Fnctset := ⟨[⟨0, [0]⟩, ⟨1, [1]⟩], ⟨[[0, 1]], [0], [1], [2]⟩⟩
    let bandwidth : Function → ℚ := fun g => if g.id = 0 then 100 else 60
    written .latencyIo bandwidth f 2 = some ([⟨100, 2, [0, 1]⟩], 2) ∧
      ¬ |100-inUnit .latencyIo (bandwidth ⟨1, [1]⟩)| ≤ width := by
  refine ⟨by decide +kernel, by decide +kernel⟩

end Otpo.ReportedMetric
