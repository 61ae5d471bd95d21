import Otpo.BadRuns
import Otpo.Library.Tiling

/-!
# The buckets of a result file

The combinations whose average is close to the winner's are written in buckets
of a fixed width, each with the number of its combinations in front.
-/

set_option autoImplicit false

namespace Otpo.ResultBuckets
open Otpo.ParamList Otpo.Statistics Otpo.Adcl Otpo.BadRuns

def range : ℚ := 105/100

def width : ℚ := 1/100

def hasAverage (average : ℚ) (p : Points) : Bool :=
  match p.filtered with
  | some a => average ≤ a && a < average+width
  | none => false

def getFunctionsWithAverage (e : Emethod) (average : ℚ) : ℕ × List ℕ :=
  let reported (i : ℕ) := (e.orgstats[i]?).any (hasAverage average)
  ((List.range e.orgfnctset.maxnum).countP reported,
    (List.range e.orgfnctset.maxnum).filter reported)

structure Bucket where
  result : ℚ
  numFunctions : ℕ
  functions : List ℕ
  deriving DecidableEq, Repr

def inverted : Test → Bool
  | .latencyIo => true
  | .noncontig => true
  | .mpiTileIo => true
  | _ => false

section Buckets

variable (test : Test) (e : Emethod)

def printOutput (n : ℚ) : Bucket :=
  let (numFunctions, functions) := getFunctionsWithAverage e n
  { result := if inverted test then 1/n else n, numFunctions, functions }

def resultLoop (bound : ℚ) : ℕ → ℚ → ℕ → Option (List Bucket × ℕ)
  | 0, _, _ => none
  | fuel+1, n, numFunctions =>
    if n < bound then
      let bucket := printOutput test e n
      (resultLoop bound fuel (n+1/100) (numFunctions+bucket.numFunctions)).map
        fun r => (bucket::r.1, r.2)
    else some ([], numFunctions)

def writeIntermediateResults (average : ℚ) (fuel : ℕ) : Option (List Bucket × ℕ) :=
  resultLoop test e (average*range) fuel average 0

variable {test e} {bound n average : ℚ} {fuel : ℕ} {l : List ℚ} {p : ℕ}

theorem result_loop_edges (numFunctions : ℕ) :
    resultLoop test e bound fuel n numFunctions = (Tiling.edges width bound fuel n).map
      fun l => (l.map (printOutput test e),
        numFunctions+((l.map (printOutput test e)).map Bucket.numFunctions).sum) := by
  induction fuel generalizing n numFunctions with
  | zero => rfl
  | succ fuel ih =>
    rw [resultLoop, Tiling.edges]
    by_cases hn : n < bound
    · simp only [if_pos hn, ih, Option.map_map]
      refine congrArg (Option.map · _) (funext fun l => ?_)
      simp [Nat.add_assoc]
    · simp [if_neg hn]

theorem num_functions_length (n : ℚ) :
    (printOutput test e n).numFunctions = (printOutput test e n).functions.length :=
  List.countP_eq_length_filter

theorem with_average_iff {n : ℚ} : p ∈ (getFunctionsWithAverage e n).2 ↔
    p < e.orgfnctset.maxnum ∧ ∃ points a, e.orgstats[p]? = some points ∧
      points.filtered = some a ∧ n ≤ a ∧ a < n+width := by
  change p ∈ (List.range e.orgfnctset.maxnum).filter _ ↔ _
  rw [List.mem_filter, List.mem_range]
  refine and_congr_right fun _ => ?_
  cases hp : e.orgstats[p]? with
  | none => simp
  | some points => cases ha : points.filtered <;> simp [hasAverage, ha]

theorem printed_iff {n : ℚ} : p ∈ (printOutput test e n).functions ↔
    p < e.orgfnctset.maxnum ∧ ∃ points a, e.orgstats[p]? = some points ∧
      points.filtered = some a ∧ n ≤ a ∧ a < n+width := with_average_iff

theorem printed_once (n : ℚ) : (printOutput test e n).functions.Nodup :=
  List.nodup_range.filter _

/-- Buckets on different tiles have no function in common. -/
theorem printed_apart {m : ℚ} (h : n+width ≤ m) :
    List.Disjoint (printOutput test e n).functions (printOutput test e m).functions := by
  intro p hn hm
  obtain ⟨_, points, a, hp, ha, _, hlt⟩ := printed_iff.mp hn
  obtain ⟨_, points', a', hp', ha', hle, _⟩ := printed_iff.mp hm
  rw [hp, Option.some.injEq] at hp'
  rw [← hp', ha, Option.some.injEq] at ha'
  exact absurd (hlt.trans_le h) (not_lt.mpr (ha' ▸ hle))

theorem functions_nodup (h : Tiling.edges width bound fuel n = some l) :
    ((l.map (printOutput test e)).flatMap Bucket.functions).Nodup := by
  rw [List.flatMap_map, List.nodup_flatMap]
  exact ⟨fun n _ => printed_once n,
    (Tiling.edges_apart (by decide +kernel) h).imp fun hle => printed_apart hle⟩

theorem functions_sum (l : List ℚ) :
    ((l.map (printOutput test e)).map Bucket.numFunctions).sum =
      ((l.map (printOutput test e)).flatMap Bucket.functions).length := by
  rw [List.length_flatMap, List.map_map, List.map_map]
  exact congrArg List.sum (List.map_congr_left fun n _ => num_functions_length n)

end Buckets

/-- The loop ends, and every function in the range of the winner is printed in
one bucket only. -/
theorem result_buckets (test : Test) (e : Emethod) (average : ℚ) :
    ∃ fuel buckets num,
      writeIntermediateResults test e average fuel = some (buckets, num) ∧
      (∀ p points a, p < e.orgfnctset.maxnum → e.orgstats[p]? = some points →
        points.filtered = some a → average ≤ a → a < average*range →
        ∃ b ∈ buckets, p ∈ b.functions) ∧
      (buckets.flatMap Bucket.functions).Nodup ∧
      num = (buckets.flatMap Bucket.functions).length ∧
      num = (buckets.map Bucket.numFunctions).sum := by
  have hwidth : 0 < width := by decide +kernel
  obtain ⟨fuel, l, hl⟩ := Tiling.exists_edges hwidth (average*range) average
  refine ⟨fuel, _, _, by rw [writeIntermediateResults, result_loop_edges, hl]; rfl,
    fun p points a hp hpoints ha hle hlt => ?_, functions_nodup hl, ?_, Nat.zero_add _⟩
  · obtain ⟨n, hn, hna, han⟩ := Tiling.edges_cover hl hle hlt
    exact ⟨_, List.mem_map_of_mem hn, printed_iff.mpr ⟨hp, points, a, hpoints, ha, hna, han⟩⟩
  · rw [Nat.zero_add, functions_sum]

end Otpo.ResultBuckets
