import Otpo.Enumeration
import Otpo.Library.Orbit

/-!
# Lists that the user wrote

The stepping on values in any order. A repeated value before the last one
brings the stepping back to its first occurrence for ever; otherwise every
parameter shows its values up to the first one that is not below the last, and
sticks there if that one lies above it.
-/

set_option autoImplicit false

namespace Otpo.ValueOrder
open Otpo.ParamList Otpo.RpnStack Otpo.Combinations Otpo.Enumeration

def shown (p : Param) : List ℤ := p.possibleValues.take ((front p).length+1)

theorem shown_split {p : Param} {x : ℤ} {post : List ℤ}
    (h : p.possibleValues = front p ++ x::post) : shown p = front p ++ [x] := by
  rw [shown, h, List.take_length_add_append]
  rfl

theorem settles_of_nodup {p : Param} (h : (front p).Nodup) :
    Odometer.Settles (wheel p) p.first (shown p) := by
  obtain ⟨x, post, hv, hx, ht⟩ := turn_of_nodup h
  rw [shown_split hv]
  refine ⟨_, ht, ?_⟩
  by_cases hl : x = p.last
  · exact Or.inl (by simp [wheel, hl])
  · have hc : (wheel p).carry x = x := by simp [wheel, hl]
    refine Or.inr ⟨by simp [hc], ?_⟩
    rw [hc]
    have hspent : (wheel p).advance x = none := by simp [wheel, not_lt.mpr hx]
    simpa [hc] using Odometer.Turn.last hspent

theorem settling_of_nodup {ps : List Param} (h : ∀ p ∈ ps, (front p).Nodup) :
    Odometer.Settling (ps.map wheel) (firstCombination ps) (ps.map shown) := by
  induction ps with
  | nil => exact .nil
  | cons p ps ih =>
    exact .cons (settles_of_nodup (h p (by simp))) (ih fun q hq => h q (by simp [hq]))

/-- The value after the first repetition-free stretch is one of that stretch. -/
theorem repeated_index {l : List ℤ} (h : ¬ l.Nodup) :
    ∃ k, ∃ hk : k < l.length, l[k] ∈ l.take k := by
  rw [List.Nodup, List.pairwise_iff_getElem] at h
  push Not at h
  obtain ⟨i, k, hi, hk, hik, he⟩ := h
  exact ⟨k, hk, List.mem_take_iff_getElem.mpr ⟨i, by omega, he⟩⟩

theorem front_get {p : Param} {i : ℕ} (h : i < (front p).length) :
    p.possibleValues[i]? = (front p)[i]? := by
  obtain ⟨x, post, hv, _⟩ := values_split p
  rw [hv, List.getElem?_append_left h]

/-- The value behind the first occurrence, which is not behind this one. -/
theorem get_next_val_front {p : Param} {v : ℤ} {i : ℕ} (hi : (front p)[i]? = some v)
    (hlt : i+1 < (front p).length) :
    ∃ j, j ≤ i ∧ (front p)[j+1]? = some (getNextVal p v) := by
  have hlen : (front p).length ≤ p.possibleValues.length :=
    (List.takeWhile_sublist _).length_le
  have hmem : p.possibleValues[i]? = some v := by rw [front_get (by omega), hi]
  cases hf : p.possibleValues.findIdx? (· == v) with
  | none =>
    rw [List.findIdx?_eq_none_iff] at hf
    simpa using hf v (List.mem_of_getElem? hmem)
  | some j =>
    obtain ⟨_, _, hfirst⟩ := List.findIdx?_eq_some_iff_getElem.mp hf
    have hji : j ≤ i := by
      by_contra hij
      obtain ⟨hi', hv⟩ := List.getElem?_eq_some_iff.mp hmem
      have := hfirst i (by omega)
      rw [hv] at this
      simp at this
    have hnext : j+1 < (front p).length := by omega
    have hlast : j ≠ p.numValues-1 := by
      simp only [Param.numValues]
      omega
    refine ⟨j, hji, ?_⟩
    simp only [getNextVal, hf, if_pos hlast]
    rw [← front_get hnext, List.getD_eq_getElem?_getD, List.getElem?_eq_getElem (by omega),
      Option.getD_some]

/-- A front with a repetition is never left. -/
theorem no_turn_of_repetition {p : Param} (h : ¬ (front p).Nodup) {o : List ℤ} {e : ℤ} :
    ¬ Odometer.Turn (wheel p) p.first o e := by
  obtain ⟨k, hk, hrep⟩ := repeated_index h
  have hpos : 0 < k := by
    rcases Nat.eq_zero_or_pos k with rfl | h0
    · simp at hrep
    · exact h0
  refine Odometer.no_turn_of_closed (S := fun v => v ∈ (front p).take k) ?_ ?_
  · intro v hm
    have hlt : v < p.last := front_below (List.mem_of_mem_take hm)
    refine ⟨getNextVal p v, by simp [wheel, hlt], ?_⟩
    obtain ⟨i, hi, he⟩ := List.mem_take_iff_getElem.mp hm
    have hget : (front p)[i]? = some v := by rw [List.getElem?_eq_getElem (by omega), he]
    obtain ⟨j, hji, hj⟩ := get_next_val_front hget (by omega)
    obtain ⟨hjlen, hj⟩ := List.getElem?_eq_some_iff.mp hj
    rw [← hj]
    by_cases hjk : j+1 = k
    · simpa only [hjk] using hrep
    · exact List.mem_take_iff_getElem.mpr ⟨j+1, by omega, rfl⟩
  · have hf := first_head p
    rw [List.head?_eq_getElem?, front_get (by omega),
      List.getElem?_eq_getElem (by omega), Option.some.injEq] at hf
    exact List.mem_take_iff_getElem.mpr ⟨0, by omega, hf⟩

theorem nodup_of_run {ps : List Param} {l : List (List ℤ)} {e : List ℤ}
    (h : Odometer.Run (ps.map wheel) (firstCombination ps) l e) :
    ∀ p ∈ ps, (front p).Nodup := by
  induction ps generalizing l e with
  | nil => simp
  | cons p ps ih =>
    refine List.forall_mem_cons.mpr ⟨?_, ?_⟩
    · obtain ⟨o, f, ht⟩ := Odometer.run_turn h _ _ rfl
      by_contra hn
      exact no_turn_of_repetition hn ht
    · obtain ⟨m, f, hm⟩ := Odometer.run_behind h _ _ rfl
      exact ih hm

end Otpo.ValueOrder
