import Otpo.Emethod
import Mathlib.Tactic.Linarith
import Mathlib.Tactic.Positivity
import Mathlib.Algebra.Order.Floor.Semifield
import Mathlib.Data.Rat.Floor

/-!
# The decision

What the decision is for, in terms of the recorded times alone, and when the
three passes with their fixed starting extremes compute it. The outlier filter
uses the smaller of a function's minimum and 999999.
-/

set_option autoImplicit false

namespace Otpo.Decision
open Otpo.ParamList Otpo.Statistics Otpo.Adcl FirstMinimum

def ownMinimum (time : List ℚ) : ℚ := time.min?.getD 0

def inliers (time : List ℚ) : List ℚ := time.filter (· < outlierFactor*ownMinimum time)

def mean (time : List ℚ) : ℚ := time.sum/time.length

def filteredMean (time : List ℚ) : ℚ := mean (inliers time)

def outlierPercentage (time : List ℚ) : ℚ :=
  100*((time.length-(inliers time).length : ℕ) : ℚ)/time.length

def FirstMinimal (f : List ℚ → ℚ) (timings : List (List ℚ)) (w : ℕ) : Prop :=
  ∃ t, timings[w]? = some t ∧
    ∀ (j : ℕ) (s : List ℚ), timings[j]? = some s → f t ≤ f s ∧ (j < w → f t < f s)

def Optimal (timings : List (List ℚ)) (w : ℕ) : Prop :=
  ∃ m t, FirstMinimal filteredMean timings m ∧ timings[m]? = some t ∧
    (outlierPercentage t < outlierFraction ∧ w = m ∨
      ¬ outlierPercentage t < outlierFraction ∧ FirstMinimal mean timings w)

def documented (time : List ℚ) : Points :=
  ⟨some (mean time), some (filteredMean time), some (⌊outlierPercentage time⌋₊ : ℚ)⟩

def Decides (e : Emethod) : Prop :=
  ∃ w d, getWinner e e.stats.length = .ok (some w, d) ∧
    (∀ s ∈ d.stats, s.gpts.unfiltered ≠ none ∧ s.gpts.filtered ≠ none) ∧
    Optimal (e.stats.map Stat.time) w

def Records (e : Emethod) : Prop :=
  ∀ s ∈ e.stats, (globalMax (filterTimings s)).gpts = documented s.time

section Averages

variable {time : List ℚ}

theorem ownMinimum_spec (h : time ≠ []) :
    ownMinimum time ∈ time ∧ ∀ t ∈ time, ownMinimum time ≤ t := by
  cases hm : time.min? with
  | none => exact absurd (List.min?_eq_none_iff.mp hm) h
  | some m =>
    have := List.min?_eq_some_iff.mp hm
    simpa [ownMinimum, hm] using this

theorem timeMin_eq (h : time ≠ []) : timeMin time = min 999999 (ownMinimum time) := by
  obtain ⟨hmem, hle⟩ := ownMinimum_spec h
  refine le_antisymm (le_min (timeMin_le time) (timeMin_le_mem hmem)) ?_
  rcases timeMin_cases time with h1 | h1
  · exact h1 ▸ min_le_left _ _
  · exact (min_le_right _ _).trans (hle _ h1)

theorem isOutlier_iff (h : time ≠ []) (t : ℚ) :
    isOutlier time t = false ↔ t < outlierFactor*ownMinimum time ∧ t < 2999997 := by
  rw [isOutlier, timeMin_eq h, decide_eq_false_iff_not, ge_iff_le, not_le]
  rcases le_total 999999 (ownMinimum time) with hm | hm
  · rw [min_eq_left hm]
    simp only [outlierFactor]
    constructor
    · intro h
      constructor <;> linarith
    · intro h
      linarith [h.2]
  · rw [min_eq_right hm]
    simp only [outlierFactor]
    constructor
    · intro h
      constructor <;> linarith
    · exact fun h => h.1

def passed (time : List ℚ) : List ℚ := time.filter (fun t => !isOutlier time t)

theorem passed_eq (h : time ≠ []) : passed time = (inliers time).filter (· < 2999997) := by
  rw [passed, inliers, List.filter_filter]
  refine List.filter_congr fun t _ => ?_
  have := isOutlier_iff h t
  cases ho : isOutlier time t with
  | false =>
    have hb := this.mp ho
    simp [hb.1, hb.2]
  | true =>
    rw [ho] at this
    simp only [Bool.not_true]
    by_contra hne
    have : (decide (t < 2999997) && decide (t < outlierFactor * ownMinimum time)) = true := by
      simpa using hne
    simp only [Bool.and_eq_true, decide_eq_true_eq] at this
    tauto

theorem passed_length (time : List ℚ) : time.length-numOutliers time = (passed time).length := by
  have hc := List.length_eq_countP_add_countP (isOutlier time) (l := time)
  have hp : (passed time).length = time.countP (fun t => decide ¬isOutlier time t = true) := by
    rw [passed, List.countP_eq_length_filter]
    congr 2
    funext t
    cases isOutlier time t <;> rfl
  rw [hp, numOutliers]
  omega

theorem averages_passed (time : List ℚ) :
    averages time = ⟨quotient time.sum time.length,
      quotient (passed time).sum (passed time).length,
      some ((100*(time.length-(passed time).length)/time.length : ℕ) : ℚ)⟩ := by
  have hle : numOutliers time ≤ time.length := List.countP_le_length
  have hp := passed_length time
  simp only [averages, hp, sumFiltered, passed]
  rw [← passed, show numOutliers time = time.length-(passed time).length by omega]

theorem quotient_mean (h : time ≠ []) : quotient time.sum time.length = some (mean time) := by
  rw [quotient, if_neg (by simpa using h)]
  rfl

theorem inliers_ne_nil (h : time ≠ []) (hpos : ∀ t ∈ time, 0 < t) : inliers time ≠ [] := by
  obtain ⟨hmem, _⟩ := ownMinimum_spec h
  have hm := hpos _ hmem
  refine List.ne_nil_of_mem (a := ownMinimum time) ?_
  rw [inliers, List.mem_filter, decide_eq_true_eq, outlierFactor]
  exact ⟨hmem, by linarith⟩

theorem percentage_floor (time : List ℚ) :
    (100*(time.length-(inliers time).length)/time.length : ℕ) = ⌊outlierPercentage time⌋₊ := by
  have h := Nat.floor_div_eq_div (K := ℚ) (100*(time.length-(inliers time).length)) time.length
  rw [outlierPercentage, ← h, Nat.cast_mul, Nat.cast_ofNat]

theorem sum_lt {l : List ℚ} {b : ℚ} (hne : l ≠ []) (h : ∀ x ∈ l, x < b) : l.sum < b*l.length := by
  induction l with
  | nil => exact absurd rfl hne
  | cons x l ih =>
    have hx := h x (by simp)
    by_cases hl : l = []
    · subst hl
      simpa using hx
    · have := ih hl fun y hy => h y (by simp [hy])
      simp only [List.sum_cons, List.length_cons]
      push_cast
      linarith

theorem le_sum {l : List ℚ} {b : ℚ} (h : ∀ x ∈ l, b ≤ x) : b*l.length ≤ l.sum := by
  induction l with
  | nil => simp
  | cons x l ih =>
    have hx := h x (by simp)
    have := ih fun y hy => h y (by simp [hy])
    simp only [List.sum_cons, List.length_cons]
    push_cast
    linarith

theorem mean_lt {l : List ℚ} {b : ℚ} (hne : l ≠ []) (h : ∀ x ∈ l, x < b) : mean l < b := by
  have hlen : (0:ℚ) < l.length := by exact_mod_cast List.length_pos_iff.mpr hne
  rw [mean, div_lt_iff₀ hlen]
  exact sum_lt hne h

theorem mean_filter_lt {l : List ℚ} {b : ℚ} (hne : l.filter (· < b) ≠ [])
    (hex : ∃ x ∈ l, b ≤ x) : mean (l.filter (· < b)) < mean l := by
  obtain ⟨x, hx, hbx⟩ := hex
  have hperm := List.filter_append_perm (· < b) l
  have hsum := hperm.sum_eq
  have hlen := hperm.length_eq
  rw [List.sum_append] at hsum
  rw [List.length_append] at hlen
  have hrest : x ∈ l.filter (fun y => !decide (y < b)) := by simp [hx, hbx]
  have hlow := sum_lt hne (b := b) (by simp)
  have hhigh := le_sum (l := l.filter (fun y => !decide (y < b))) (b := b) (by simp)
  have ha : (0:ℚ) < (l.filter (· < b)).length := by
    exact_mod_cast List.length_pos_iff.mpr hne
  have hc : (0:ℚ) < (l.filter (fun y => !decide (y < b))).length := by
    exact_mod_cast List.length_pos_of_mem hrest
  rw [mean, mean, ← hsum, ← hlen, Nat.cast_add, div_lt_div_iff₀ ha (by positivity)]
  nlinarith

theorem mean_pos {l : List ℚ} (hne : l ≠ []) (h : ∀ x ∈ l, 0 < x) : 0 < mean l := by
  have hlen : (0:ℚ) < l.length := by exact_mod_cast List.length_pos_iff.mpr hne
  exact div_pos (List.sum_pos l h hne) hlen

/-- The filter records the documented averages unless the extreme 999999 makes
an outlier of a time that is none. -/
theorem averages_documented_iff (h : time ≠ []) (hpos : ∀ t ∈ time, 0 < t) :
    averages time = documented time ↔
      ∀ t ∈ time, t < outlierFactor*ownMinimum time → t < 2999997 := by
  have hne := inliers_ne_nil h hpos
  constructor
  · intro heq t ht hlt
    by_contra hge
    have hex : ∃ x ∈ inliers time, (2999997:ℚ) ≤ x :=
      ⟨t, by rw [inliers, List.mem_filter]; exact ⟨ht, by simpa using hlt⟩, not_lt.mp hge⟩
    have hf := congrArg Points.filtered heq
    rw [averages_passed, documented, passed_eq h] at hf
    simp only [quotient] at hf
    split_ifs at hf with h0
    have hne' : (inliers time).filter (· < 2999997) ≠ [] := by
      rintro h1
      exact h0 (by rw [h1, List.length_nil])
    have hlt' := mean_filter_lt hne' hex
    rw [mean, Option.some.inj hf] at hlt'
    exact lt_irrefl _ hlt'
  · intro hall
    have hp : passed time = inliers time := by
      rw [passed_eq h, List.filter_eq_self]
      intro t ht
      rw [inliers, List.mem_filter] at ht
      simpa using hall t ht.1 (by simpa using ht.2)
    rw [averages_passed, hp, documented, quotient_mean h, quotient_mean hne, percentage_floor]
    rfl

end Averages

section Winner

variable {timings : List (List ℚ)}

theorem firstMinimal_iff {f : List ℚ → ℚ} {w : ℕ} :
    FirstMinimal f timings w ↔ ∃ x, Least (timings.map fun t => some (f t)) w x := by
  have hget : ∀ (j : ℕ) (y : ℚ), (timings.map fun t => some (f t))[j]? = some (some y) ↔
      ∃ t, timings[j]? = some t ∧ f t = y := by
    intro j y
    rw [List.getElem?_map, Option.map_eq_some_iff]
    simp
  constructor
  · rintro ⟨t, ht, hle⟩
    refine ⟨f t, (hget w _).mpr ⟨t, ht, rfl⟩, fun j y hj => ?_⟩
    obtain ⟨s, hs, rfl⟩ := (hget j y).mp hj
    exact hle j s hs
  · rintro ⟨x, hx, hle⟩
    obtain ⟨t, ht, rfl⟩ := (hget w x).mp hx
    exact ⟨t, ht, fun j s hs => hle j _ ((hget j _).mpr ⟨s, hs, rfl⟩)⟩

theorem keys_pos {f : List ℚ → ℚ} (h : ∀ t ∈ timings, 0 < f t) :
    keys (timings.map fun t => some (f t)) = timings.map fun t => some (f t) := by
  rw [keys, List.map_map]
  refine List.map_congr_left fun t ht => ?_
  simp [Option.filter, (h t ht).ne']

theorem exists_firstMinimal (f : List ℚ → ℚ) (h : timings ≠ []) :
    ∃ w t, FirstMinimal f timings w ∧ timings[w]? = some t := by
  obtain ⟨s, rest, rfl⟩ := List.exists_cons_of_ne_nil h
  obtain ⟨w, x, hl⟩ := exists_least
    (show ∃ (j : ℕ) (y : ℚ), ((s::rest).map fun t => some (f t))[j]? = some (some y) from
      ⟨0, f s, by simp⟩)
  obtain ⟨t, ht, hle⟩ := firstMinimal_iff.mpr ⟨x, hl⟩
  exact ⟨w, t, ⟨t, ht, hle⟩, ht⟩

theorem firstMinimal_unique {f : List ℚ → ℚ} {v w : ℕ} (h : FirstMinimal f timings v)
    (g : FirstMinimal f timings w) : v = w := by
  obtain ⟨x, hx⟩ := firstMinimal_iff.mp h
  obtain ⟨y, hy⟩ := firstMinimal_iff.mp g
  exact (least_unique hx hy).1

end Winner

section Documented

variable {stats : List Stat}

theorem filteredMean_pos {time : List ℚ} (h : time ≠ []) (hpos : ∀ t ∈ time, 0 < t) :
    0 < filteredMean time :=
  mean_pos (inliers_ne_nil h hpos) fun _ hx => hpos _ (List.mem_of_mem_filter hx)

theorem outliers_floor (time : List ℚ) :
    ((⌊outlierPercentage time⌋₊ : ℚ) < outlierFraction) ↔
      outlierPercentage time < outlierFraction := by
  rw [outlierFraction, show (20:ℚ) = ((20:ℕ):ℚ) by norm_num, Nat.cast_lt,
    Nat.floor_lt (by rw [outlierPercentage]; positivity)]

/-- One kind of average over all the functions. -/
theorem documented_points (point : Points → Double) (average : List ℚ → ℚ)
    (hp : ∀ time, point (documented time) = some (average time))
    (hd : ∀ s ∈ stats, s.gpts = documented s.time) :
    (stats.map fun s => point s.gpts) =
      (stats.map Stat.time).map fun t => some (average t) := by
  rw [List.map_map]
  refine List.map_congr_left fun s hs => ?_
  rw [hd s hs, hp]
  rfl

theorem winner_documented (hd : ∀ s ∈ stats, s.gpts = documented s.time)
    (hpos : ∀ s ∈ stats, s.time ≠ [] ∧ ∀ t ∈ s.time, 0 < t) {m : ℕ} {t : List ℚ}
    (hm : FirstMinimal filteredMean (stats.map Stat.time) m)
    (ht : (stats.map Stat.time)[m]? = some t) (hlt : filteredMean t < 999999999999/100) :
    (outlierPercentage t < outlierFraction → getWinnerV3 stats = .ok (.filtered, some m)) ∧
    (¬ outlierPercentage t < outlierFraction → getWinnerV3 stats =
      .ok (.unfiltered, (search (999999999999/100)
        ((stats.map Stat.time).map fun t => some (mean t))).minloc)) := by
  have hf : (stats.map fun s => s.gpts.filtered) = _ :=
    documented_points Points.filtered filteredMean (fun _ => rfl) hd
  have hu : (stats.map fun s => s.gpts.unfiltered) = _ :=
    documented_points Points.unfiltered mean (fun _ => rfl) hd
  have hpt : ∀ t ∈ stats.map Stat.time, 0 < filteredMean t ∧ 0 < mean t := by
    intro t ht
    obtain ⟨s, hs, rfl⟩ := List.mem_map.mp ht
    obtain ⟨hne, hp⟩ := hpos s hs
    exact ⟨filteredMean_pos hne hp, mean_pos hne hp⟩
  obtain ⟨x, hl⟩ := firstMinimal_iff.mp hm
  have hx : x = filteredMean t := by
    have := hl.1
    rw [List.getElem?_map, ht, Option.map_some, Option.some.injEq, Option.some.injEq] at this
    exact this.symm
  have hleast : Least (keys (stats.map fun s => s.gpts.filtered)) m x := by
    rw [hf, keys_pos fun t ht => (hpt t ht).1]
    exact hl
  obtain ⟨s, hs, hst⟩ : ∃ s, stats[m]? = some s ∧ s.time = t := by
    rw [List.getElem?_map, Option.map_eq_some_iff] at ht
    exact ht
  have ho : (stats[m]?).bind (fun s => s.gpts.outliers) =
      some (⌊outlierPercentage t⌋₊ : ℚ) := by
    rw [hs, Option.bind_some, hd s (List.mem_of_getElem? hs), hst, documented]
  constructor
  · intro h
    exact get_winner_filtered hleast (hx ▸ hlt) ho ((outliers_floor t).mpr h)
  · intro h
    rw [get_winner_unfiltered hleast (hx ▸ hlt) ho (fun h' => h ((outliers_floor t).mp h')),
      tline_search, hu, keys_pos fun t ht => (hpt t ht).2]

end Documented

section Reported

variable {e : Emethod}

def Reported (e : Emethod) : Prop :=
  ∀ s ∈ e.stats, s.filtered = false ∧ s.time ≠ [] ∧ ∀ t ∈ s.time, 0 < t

def Uncut (e : Emethod) : Prop :=
  ∀ s ∈ e.stats, ∀ t ∈ s.time, t < outlierFactor*ownMinimum s.time → t < 2999997

theorem global_reported (h : Reported e) {s : Stat} (hs : s ∈ e.stats) :
    globalMax (filterTimings s) =
      { s with lpts := averages s.time, gpts := averages s.time, filtered := true } := by
  obtain ⟨hfiltered, htime, _⟩ := h s hs
  simp [filterTimings, globalMax, hfiltered, htime]

theorem records_iff (h : Reported e) : Records e ↔ Uncut e := by
  refine forall₂_congr fun s hs => ?_
  rw [global_reported h hs]
  exact averages_documented_iff (h s hs).2.1 (h s hs).2.2

theorem measured_times (h : Reported e) :
    (e.stats.map fun s => globalMax (filterTimings s)).map Stat.time =
      e.stats.map Stat.time := by
  rw [List.map_map]
  refine List.map_congr_left fun s hs => ?_
  rw [Function.comp_apply, global_reported h hs]

theorem measured_documented (h : Reported e) (hcut : Uncut e) :
    ∀ s ∈ e.stats.map fun s => globalMax (filterTimings s), s.gpts = documented s.time := by
  intro _ hmeasured
  obtain ⟨s, hs, rfl⟩ := List.mem_map.mp hmeasured
  rw [(records_iff h).mpr hcut s hs, global_reported h hs]

theorem measured_positive (h : Reported e) :
    ∀ s ∈ e.stats.map fun s => globalMax (filterTimings s),
      s.time ≠ [] ∧ ∀ t ∈ s.time, 0 < t := by
  intro _ hmeasured
  obtain ⟨s, hs, rfl⟩ := List.mem_map.mp hmeasured
  rw [global_reported h hs]
  exact (h s hs).2

theorem filteredMean_uncut (h : Reported e) (hcut : Uncut e) {t : List ℚ}
    (ht : t ∈ e.stats.map Stat.time) : filteredMean t < 999999999999/100 := by
  obtain ⟨s, hs, rfl⟩ := List.mem_map.mp ht
  have hlt : filteredMean s.time < 2999997 := by
    refine mean_lt (inliers_ne_nil (h s hs).2.1 (h s hs).2.2) fun x hx => ?_
    rw [inliers, List.mem_filter] at hx
    exact hcut s hs x hx.1 (by simpa using hx.2)
  exact hlt.trans (by norm_num)

theorem getWinner_uncut (halgo : e.searchAlgo ≠ .perfHypo) (h : Reported e) (hcut : Uncut e)
    {m : ℕ} {t : List ℚ} (hm : FirstMinimal filteredMean (e.stats.map Stat.time) m)
    (ht : (e.stats.map Stat.time)[m]? = some t) :
    ∃ d, d.stats = e.stats.map (fun s => globalMax (filterTimings s)) ∧
      getWinner e e.stats.length = .ok (if outlierPercentage t < outlierFraction then some m
        else (search (999999999999/100)
          ((e.stats.map Stat.time).map fun t => some (mean t))).minloc, d) := by
  have htimes := measured_times h
  have hwin := winner_documented (measured_documented h hcut) (measured_positive h)
    (htimes.symm ▸ hm) (htimes.symm ▸ ht)
    (filteredMean_uncut h hcut (List.mem_of_getElem? ht))
  rw [htimes] at hwin
  rw [getWinner_all halgo]
  by_cases ho : outlierPercentage t < outlierFraction
  · rw [hwin.1 ho, if_pos ho]
    exact ⟨_, rfl, rfl⟩
  · rw [hwin.2 ho, if_neg ho]
    exact ⟨_, rfl, rfl⟩

theorem search_mean_iff {w : ℕ} {timings : List (List ℚ)} :
    (search (999999999999/100) (timings.map fun t => some (mean t))).minloc = some w ↔
      FirstMinimal mean timings w ∧ ∃ t ∈ timings, mean t < 999999999999/100 := by
  rw [search_eq_some_iff]
  constructor
  · rintro ⟨x, hl, hx⟩
    have hw := hl.1
    rw [List.getElem?_map, Option.map_eq_some_iff] at hw
    obtain ⟨t, ht, heq⟩ := hw
    rw [Option.some.injEq] at heq
    exact ⟨firstMinimal_iff.mpr ⟨x, hl⟩, t, List.mem_of_getElem? ht, heq ▸ hx⟩
  · rintro ⟨hw, t, ht, hlt⟩
    obtain ⟨x, hl⟩ := firstMinimal_iff.mp hw
    obtain ⟨j, hj⟩ := List.getElem?_of_mem ht
    refine ⟨x, hl, (hl.2 j (mean t) ?_).1.trans_lt hlt⟩
    rw [List.getElem?_map, hj, Option.map_some]

/-- Without cut times, what is left are many outliers of huge times. -/
theorem decides_uncut (halgo : e.searchAlgo ≠ .perfHypo) (hne : e.stats ≠ []) (h : Reported e)
    (hcut : Uncut e) : Decides e ↔
      (∃ m t, FirstMinimal filteredMean (e.stats.map Stat.time) m ∧
        (e.stats.map Stat.time)[m]? = some t ∧ outlierPercentage t < outlierFraction) ∨
      ∃ t ∈ e.stats.map Stat.time, mean t < 999999999999/100 := by
  have hlisted : e.stats.map Stat.time ≠ [] := by simpa using hne
  obtain ⟨m, t, hm, ht⟩ := exists_firstMinimal filteredMean hlisted
  obtain ⟨d, hd, hwin⟩ := getWinner_uncut halgo h hcut hm ht
  have hdefined : ∀ s ∈ d.stats, s.gpts.unfiltered ≠ none ∧ s.gpts.filtered ≠ none := by
    intro s hs
    rw [measured_documented h hcut s (hd ▸ hs)]
    exact ⟨Option.some_ne_none _, Option.some_ne_none _⟩
  constructor
  · rintro ⟨w, d', hget, _, m', t', hm', ht', ⟨ho, _⟩ | ⟨ho, _⟩⟩
    · exact Or.inl ⟨m', t', hm', ht', ho⟩
    · rw [firstMinimal_unique hm' hm, ht, Option.some.injEq] at ht'
      rw [hwin, if_neg (ht' ▸ ho), Except.ok.injEq, Prod.mk.injEq, search_mean_iff] at hget
      exact Or.inr hget.1.2
  · intro hor
    by_cases ho : outlierPercentage t < outlierFraction
    · rw [if_pos ho] at hwin
      exact ⟨m, d, hwin, hdefined, m, t, hm, ht, Or.inl ⟨ho, rfl⟩⟩
    · have hmean : ∃ t ∈ e.stats.map Stat.time, mean t < 999999999999/100 := by
        rcases hor with ⟨m', t', hm', ht', ho'⟩ | hmean
        · rw [firstMinimal_unique hm' hm, ht, Option.some.injEq] at ht'
          exact absurd (ht' ▸ ho') ho
        · exact hmean
      obtain ⟨w, u, hw, _⟩ := exists_firstMinimal mean hlisted
      rw [if_neg ho, search_mean_iff.mpr ⟨hw, hmean⟩] at hwin
      exact ⟨w, d, hwin, hdefined, m, t, hm, ht, Or.inr ⟨ho, hw⟩⟩

theorem passed_cut {time : List ℚ} (h : time ≠ []) (hcut : 2999997 ≤ ownMinimum time) :
    passed time = [] := by
  rw [passed_eq h, List.filter_eq_nil_iff]
  intro t ht
  have hle := (ownMinimum_spec h).2 t (List.mem_of_mem_filter ht)
  simpa using hcut.trans hle

/-- A function none of whose times passes the filter divides zero by zero. -/
theorem not_decides_cut (halgo : e.searchAlgo ≠ .perfHypo) (h : Reported e)
    (hcut : ∃ s ∈ e.stats, 2999997 ≤ ownMinimum s.time) : ¬ Decides e := by
  obtain ⟨s, hs, hmin⟩ := hcut
  rintro ⟨w, d, hget, hdefined, _⟩
  rw [getWinner_all halgo] at hget
  split at hget
  · cases hget
  · cases hget
    refine (hdefined (globalMax (filterTimings s)) (List.mem_map_of_mem hs)).2 ?_
    rw [global_reported h hs, averages_passed, passed_cut (h s hs).2.1 hmin]
    rfl

end Reported

/-- With no time cut off by the extreme 999999 the decision is the documented
one, unless the best function has many outliers and every unfiltered average
reaches the extreme of the search. A function whose times are all cut off
leaves it undefined, and any cut time falsifies the recorded averages. -/
theorem decides_iff (e : Emethod) (halgo : e.searchAlgo ≠ .perfHypo) (hne : e.stats ≠ [])
    (hs : ∀ s ∈ e.stats, s.filtered = false ∧ s.time ≠ [] ∧ ∀ t ∈ s.time, 0 < t) :
    (Uncut e → (Decides e ↔
      (∃ m t, FirstMinimal filteredMean (e.stats.map Stat.time) m ∧
        (e.stats.map Stat.time)[m]? = some t ∧ outlierPercentage t < outlierFraction) ∨
      ∃ t ∈ e.stats.map Stat.time, mean t < 999999999999/100)) ∧
    ((∃ s ∈ e.stats, 2999997 ≤ ownMinimum s.time) → ¬ Decides e) ∧
    (Records e ↔ Uncut e) :=
  ⟨decides_uncut halgo hne hs, not_decides_cut halgo hs, records_iff hs⟩

def reported (timings : List (List ℚ)) : Emethod :=
  let f : Fnctset :=
    { functions := (List.range timings.length).map fun i => ⟨i, [(i:ℤ)]⟩
      attrset := ⟨[(List.range timings.length).map fun i => (i:ℤ)], [0],
        [(timings.length:ℤ)-1], [timings.length]⟩ }
  { state := .testing, last := timings.length-1, searchAlgo := .bruteForce
    filtering := .unfiltered
    stats := timings.zipIdx.map fun q =>
      { freshStat q.2 with count := q.1.length, time := q.1, tested := true }
    orgfnctset := f, fnctset := f, twok := none, hypo := none, wfunction := none
    orgstats := List.replicate timings.length noPoints }

theorem decides_reported :
    Decides (reported [[5, 4], [3]]) ∧ Records (reported [[5, 4], [3]]) := by
  obtain ⟨hdecides, _, hrecords⟩ := decides_iff (reported [[5, 4], [3]]) (by decide) (by decide)
    (by decide +kernel)
  have huncut : Uncut (reported [[5, 4], [3]]) := by
    unfold Uncut
    decide +kernel
  exact ⟨(hdecides huncut).mpr (Or.inr ⟨[3], by decide +kernel, by decide +kernel⟩),
    hrecords.mpr huncut⟩

/-- One function that took three seconds: its only time is its own outlier, the
filtered average is zero by zero and nothing wins. -/
theorem three_seconds_undecided :
    averages [3000000] = ⟨some 3000000, none, some 100⟩ ∧
      getWinner (reported [[3000000]]) 1 = .error .undefined ∧
      ¬ Decides (reported [[3000000]]) := by
  have hw : getWinner (reported [[3000000]]) 1 = .error .undefined := by decide +kernel
  refine ⟨by decide +kernel, hw, ?_⟩
  rintro ⟨w, d, h, _⟩
  have hlen : (reported [[3000000]]).stats.length = 1 := rfl
  rw [hlen, hw] at h
  cases h

end Otpo.Decision
