import Otpo.ParamList
import Otpo.Library.FirstMinimum
import Mathlib.Data.Rat.Defs
import Mathlib.Algebra.Order.Ring.Rat

/-!
# Measurements and their averages

The statistics object of one function, the outlier filter and the search for
the winner. Doubles are exact rationals; a quotient of zero by zero is the
absent value, which no comparison accepts.
-/

set_option autoImplicit false

namespace Otpo.Statistics
open Otpo.ParamList

/-- A `double`; `none` is NaN. -/
abbrev Double := Option ℚ

def outlierFactor : ℚ := 3
def outlierFraction : ℚ := 20
def emethodNumtests : ℕ := 1

structure Points where
  unfiltered : Double
  filtered : Double
  outliers : Double
  deriving DecidableEq, Repr

def noPoints : Points := ⟨some 0, some 0, some 0⟩

/-- `ADCL_statistics_t`. The measurements are those that were reported back,
so `s_rescount` is their number. -/
structure Stat where
  count : ℕ
  time : List ℚ
  tested : Bool
  filtered : Bool
  lpts : Points
  gpts : Points
  pos : ℕ
  deriving DecidableEq, Repr

def timeDiff (tstart tend : ℚ) : ℚ :=
  if tend > tstart then tend-tstart else 1000000-tstart+tend

theorem timeDiff_pos {t : ℚ} (h : 0 < t) : timeDiff 0 t = t := by
  rw [timeDiff, if_pos h, sub_zero]

theorem timeDiff_nonpos {t : ℚ} (h : t ≤ 0) : timeDiff 0 t = 1000000+t := by
  rw [timeDiff, if_neg (not_lt.mpr h), sub_zero]

def timeMin (time : List ℚ) : ℚ := time.foldl (fun m t => if t < m then t else m) 999999

def isOutlier (time : List ℚ) (t : ℚ) : Bool := t ≥ outlierFactor*timeMin time

def numOutliers (time : List ℚ) : ℕ := time.countP (isOutlier time)

def sumFiltered (time : List ℚ) : ℚ := (time.filter (fun t => !isOutlier time t)).sum

/-- A sum over no measurement is zero, so a zero divisor gives NaN. -/
def quotient (sum : ℚ) (n : ℕ) : Double := if n = 0 then none else some (sum/n)

def averages (time : List ℚ) : Points where
  unfiltered := quotient time.sum time.length
  filtered := quotient (sumFiltered time) (time.length-numOutliers time)
  outliers := some ((100*numOutliers time/time.length : ℕ) : ℚ)

def filterTimings (s : Stat) : Stat :=
  if s.filtered = false ∧ s.time ≠ [] then
    { s with lpts := averages s.time, filtered := true }
  else s

def globalMax (s : Stat) : Stat := { s with gpts := s.lpts }

def called (s : Stat) : Stat := { s with count := s.count+1 }

def recordTime (time : ℚ) (s : Stat) : Stat := { s with time := s.time ++ [time] }

def markTested (s : Stat) : Stat := filterTimings { s with tested := true }

abbrev Tline := FirstMinimum.Best ℚ

def tlineInit : Tline := ⟨999999999999/100, none⟩

def tlineMinNz (t : Tline) (time : Double) (i : ℕ) : Tline :=
  match time with
  | some x => if x < t.min ∧ x ≠ 0 then ⟨x, some i⟩ else t
  | none => t

def tline (points : List Double) : Tline :=
  points.zipIdx.foldl (fun t p => tlineMinNz t p.1 p.2) tlineInit

inductive Filtering
  | unfiltered
  | filtered
  deriving DecidableEq, Repr

/-- `ADCL_statistics_get_winner_v3`; an absent winner is the index -1. Reading
the outliers of an absent filtered minimum reads in front of the array. -/
def getWinnerV3 (stats : List Stat) : Except Fault (Filtering × Option ℕ) :=
  match (tline (stats.map fun s => s.gpts.filtered)).minloc with
  | none => .error .undefined
  | some m =>
    match (stats[m]?).bind (fun s => s.gpts.outliers) with
    | some o =>
      if o < outlierFraction then .ok (.filtered, some m)
      else .ok (.unfiltered, (tline (stats.map fun s => s.gpts.unfiltered)).minloc)
    | none => .ok (.unfiltered, (tline (stats.map fun s => s.gpts.unfiltered)).minloc)

def keys (points : List Double) : List (Option ℚ) := points.map (Option.filter (· ≠ 0))

theorem tlineMinNz_improve (t : Tline) (time : Double) (i : ℕ) :
    tlineMinNz t time i = FirstMinimum.improve t (time.filter (· ≠ 0)) i := by
  cases time with
  | none => rfl
  | some x => by_cases hx : x = 0 <;> simp [tlineMinNz, FirstMinimum.improve, Option.filter, hx]

theorem tline_search (points : List Double) :
    tline points = FirstMinimum.search (999999999999/100) (keys points) := by
  rw [FirstMinimum.search, keys, List.zipIdx_map, List.foldl_map]
  simp only [tline, tlineMinNz_improve]
  rfl

theorem keys_getElem {points : List Double} {j : ℕ} {y : ℚ} :
    (keys points)[j]? = some (some y) ↔ points[j]? = some (some y) ∧ y ≠ 0 := by
  rw [keys, List.getElem?_map, Option.map_eq_some_iff]
  constructor
  · rintro ⟨d, hd, hy⟩
    obtain ⟨rfl, h0⟩ := Option.filter_eq_some_iff.mp hy
    exact ⟨hd, by simpa using h0⟩
  · rintro ⟨hd, h0⟩
    exact ⟨some y, hd, by simp [Option.filter, h0]⟩

theorem get_winner_filtered {stats : List Stat} {m : ℕ} {x o : ℚ}
    (hl : FirstMinimum.Least (keys (stats.map fun s => s.gpts.filtered)) m x)
    (hx : x < 999999999999/100) (ho : (stats[m]?).bind (fun s => s.gpts.outliers) = some o)
    (hlt : o < outlierFraction) : getWinnerV3 stats = .ok (.filtered, some m) := by
  have hm := (FirstMinimum.search_eq_some_iff (999999999999/100) _ m).mpr ⟨x, hl, hx⟩
  rw [← tline_search] at hm
  simp only [getWinnerV3, hm, ho, if_pos hlt]

theorem get_winner_unfiltered {stats : List Stat} {m : ℕ} {x o : ℚ}
    (hl : FirstMinimum.Least (keys (stats.map fun s => s.gpts.filtered)) m x)
    (hx : x < 999999999999/100) (ho : (stats[m]?).bind (fun s => s.gpts.outliers) = some o)
    (hge : ¬ o < outlierFraction) :
    getWinnerV3 stats =
      .ok (.unfiltered, (tline (stats.map fun s => s.gpts.unfiltered)).minloc) := by
  have hm := (FirstMinimum.search_eq_some_iff (999999999999/100) _ m).mpr ⟨x, hl, hx⟩
  rw [← tline_search] at hm
  simp only [getWinnerV3, hm, ho, if_neg hge]

theorem get_winner_exact {stats : List Stat} {xs : List Double} {w : ℕ} {x : ℚ}
    (h : stats.map Stat.gpts = xs.map fun x => ⟨x, x, some 0⟩)
    (hl : FirstMinimum.Least (keys xs) w x) (hx : x < 999999999999/100) :
    getWinnerV3 stats = .ok (.filtered, some w) := by
  obtain ⟨hw, _⟩ := keys_getElem.mp hl.1
  have hgpts : (stats[w]?).map Stat.gpts = some ⟨some x, some x, some 0⟩ := by
    rw [← List.getElem?_map, h, List.getElem?_map, hw, Option.map_some]
  have hfiltered : stats.map (fun s => s.gpts.filtered) = xs := by
    rw [← Function.comp_def (f := Points.filtered) (g := Stat.gpts), ← List.map_map, h,
      List.map_map]
    exact List.map_id xs
  obtain ⟨s, hs, hpoints⟩ := Option.map_eq_some_iff.mp hgpts
  exact get_winner_filtered (hfiltered ▸ hl) hx (by rw [hs, Option.bind_some, hpoints])
    (by rw [outlierFraction]; decide +kernel)

/-- Without a filtered average to compare there is no decision. -/
theorem get_winner_undefined {stats : List Stat}
    (h : ∀ (j : ℕ) (y : ℚ), (keys (stats.map fun s => s.gpts.filtered))[j]? = some (some y) →
      999999999999/100 ≤ y) : getWinnerV3 stats = .error .undefined := by
  have hm := (FirstMinimum.search_eq_none_iff (999999999999/100) _).mpr h
  rw [← tline_search] at hm
  simp only [getWinnerV3, hm]

theorem keys_lt {points : List Double} {w : ℕ} {x : ℚ}
    (h : FirstMinimum.Least (keys points) w x) : w < points.length := by
  have hw := (List.getElem?_eq_some_iff.mp h.1).1
  rwa [keys, List.length_map] at hw

theorem tline_lt {points : List Double} {w : ℕ} (h : (tline points).minloc = some w) :
    w < points.length := by
  rw [tline_search, FirstMinimum.search_eq_some_iff] at h
  obtain ⟨x, hl, _⟩ := h
  exact keys_lt hl

theorem get_winner_lt {stats : List Stat} {filtering : Filtering} {w : ℕ}
    (h : getWinnerV3 stats = .ok (filtering, some w)) : w < stats.length := by
  simp only [getWinnerV3] at h
  split at h
  · cases h
  · next m hm =>
    have hu : (tline (stats.map fun s => s.gpts.unfiltered)).minloc = some w →
        w < stats.length := fun hw => by simpa using tline_lt hw
    split at h
    · split at h
      · simp only [Except.ok.injEq, Prod.mk.injEq, Option.some.injEq] at h
        rw [← h.2]
        simpa using tline_lt hm
      · simp only [Except.ok.injEq, Prod.mk.injEq] at h
        exact hu h.2
    · simp only [Except.ok.injEq, Prod.mk.injEq] at h
      exact hu h.2

section Minimum

theorem timeMin_fold (time : List ℚ) (m : ℚ) :
    let r := time.foldl (fun m t => if t < m then t else m) m
    r ≤ m ∧ (∀ t ∈ time, r ≤ t) ∧ (r = m ∨ r ∈ time) := by
  induction time generalizing m with
  | nil => simp
  | cons t time ih =>
    simp only [List.foldl_cons]
    split_ifs with h
    · obtain ⟨h1, h2, h3⟩ := ih t
      refine ⟨h1.trans h.le, List.forall_mem_cons.mpr ⟨h1, h2⟩, Or.inr ?_⟩
      exact List.mem_cons.mpr h3
    · obtain ⟨h1, h2, h3⟩ := ih m
      refine ⟨h1, List.forall_mem_cons.mpr ⟨h1.trans (not_lt.mp h), h2⟩, ?_⟩
      exact h3.imp_right (List.mem_cons_of_mem t)

theorem timeMin_le (time : List ℚ) : timeMin time ≤ 999999 := (timeMin_fold time 999999).1

theorem timeMin_le_mem {time : List ℚ} {t : ℚ} (h : t ∈ time) : timeMin time ≤ t :=
  (timeMin_fold time 999999).2.1 t h

theorem timeMin_cases (time : List ℚ) : timeMin time = 999999 ∨ timeMin time ∈ time :=
  (timeMin_fold time 999999).2.2

theorem averages_single (x : ℚ) : averages [x] =
    if 0 < x ∧ x < 2999997 then ⟨some x, some x, some 0⟩ else ⟨some x, none, some 100⟩ := by
  have hmin : timeMin [x] = if x < 999999 then x else 999999 := rfl
  have hout : isOutlier [x] x = true ↔ ¬ (0 < x ∧ x < 2999997) := by
    rw [isOutlier, hmin, decide_eq_true_eq, outlierFactor]
    split <;> constructor <;> intro h <;> grind
  by_cases hx : 0 < x ∧ x < 2999997
  · have hf : isOutlier [x] x = false := Bool.eq_false_iff.mpr fun h => hout.mp h hx
    simp [averages, quotient, sumFiltered, numOutliers, hf, hx]
  · have ht : isOutlier [x] x = true := hout.mpr hx
    simp only [averages, quotient, sumFiltered, numOutliers, List.countP_singleton,
      List.filter_singleton, ht, if_neg hx]
    simp

end Minimum

end Otpo.Statistics
