import Mathlib.Data.Nat.Log
import Mathlib.Algebra.Group.Nat.Even
import Mathlib.Data.List.Range
import Mathlib.Data.List.Nodup

/-!
# Numbers around a circle and doubled distances
-/

set_option autoImplicit false

namespace WrapAround

/-- A remainder of what goes around at most once. -/
theorem mod_once {x n : ℕ} (h : x < 2*n) : x%n = if x < n then x else x-n := by
  by_cases hx : x < n
  · rw [if_pos hx, Nat.mod_eq_of_lt hx]
  · rw [if_neg hx, Nat.mod_eq_sub_mod (by omega), Nat.mod_eq_of_lt (by omega)]

variable {size : ℕ}

theorem ahead_behind {p d : ℕ} (hp : p < size) (hd : d ≤ size) :
    ((p+d)%size+size-d)%size = p := by
  rw [mod_once (x := p+d) (by omega), mod_once (by split <;> omega)]
  split <;> split <;> omega

theorem behind_ahead {p d : ℕ} (hp : p < size) (hd : d ≤ size) :
    ((p+size-d)%size+d)%size = p := by
  rw [mod_once (x := p+size-d) (by omega), mod_once (by split <;> omega)]
  split <;> split <;> omega

theorem behind_twice {p d e : ℕ} (hp : p < size) (hde : d+e ≤ size) :
    ((p+size-d)%size+size-e)%size = (p+size-(d+e))%size := by
  rw [mod_once (x := p+size-d) (by omega), mod_once (x := p+size-(d+e)) (by omega),
    mod_once (by split <;> omega)]
  split <;> split <;> split <;> omega

def ahead (size p q : ℕ) : ℕ := if p ≤ q then q-p else q+size-p

theorem add_ahead {p q : ℕ} (hp : p < size) (hq : q < size) : (p+ahead size p q)%size = q := by
  unfold ahead
  rw [mod_once (by split <;> omega)]
  split <;> split <;> omega

theorem ahead_lt {p q : ℕ} (hp : p < size) (hq : q < size) : ahead size p q < size := by
  unfold ahead
  split <;> omega

theorem ahead_add {p d : ℕ} (hp : p < size) (hd : d < size) : ahead size p ((p+d)%size) = d := by
  unfold ahead
  rw [mod_once (by omega)]
  split <;> split <;> omega

def arc (size p n : ℕ) : List ℕ := (List.range n).map (fun j => (p+j)%size)

theorem mem_arc {p q n : ℕ} (hp : p < size) (hn : n ≤ size) :
    q ∈ arc size p n ↔ q < size ∧ ahead size p q < n := by
  rw [arc, List.mem_map]
  unfold ahead
  constructor
  · rintro ⟨j, hj, rfl⟩
    have hj : j < n := by simpa using hj
    refine ⟨Nat.mod_lt _ (by omega), ?_⟩
    rw [mod_once (by omega)]
    split <;> split <;> omega
  · rintro ⟨hq, h⟩
    by_cases hpq : p ≤ q
    · rw [if_pos hpq] at h
      refine ⟨q-p, by simpa using h, ?_⟩
      rw [Nat.add_sub_cancel' hpq, Nat.mod_eq_of_lt hq]
    · rw [if_neg hpq] at h
      refine ⟨q+size-p, by simpa using h, ?_⟩
      rw [mod_once (by omega)]
      split <;> omega

/-- An arc and as much again behind it. -/
theorem mem_arc_join {p q d : ℕ} (hp : p < size) (hd : d < size) :
    q ∈ arc size p (min (2*d) size) ↔
      q ∈ arc size p (min d size) ∨ q ∈ arc size ((p+d)%size) (min d (size-d)) := by
  have hpd : (p+d)%size < size := Nat.mod_lt _ (by omega)
  rw [mem_arc hp (by omega), mem_arc hp (by omega), mem_arc hpd (by omega),
    mod_once (x := p+d) (by omega)]
  unfold ahead
  split <;> split <;> split <;> omega

theorem arc_succ (size p n : ℕ) : arc size p (n+1) = arc size p n++[(p+n)%size] := by
  rw [arc, List.range_succ, List.map_append, ← arc, List.map_singleton]

theorem takeWhile_range (p : ℕ → Bool) (n k : ℕ) (hk : k ≤ n) (hlow : ∀ i, i < k → p i = true)
    (hhigh : k < n → p k = false) : (List.range n).takeWhile p = List.range k := by
  obtain ⟨m, rfl⟩ := Nat.exists_eq_add_of_le hk
  rw [List.range_add, List.takeWhile_append_of_pos (by simpa using hlow)]
  cases m with
  | zero => simp
  | succ m =>
    have := hhigh (by omega)
    simp [List.range_succ_eq_map, this]

theorem takeWhile_pow_lt (size : ℕ) :
    (List.range size).takeWhile (fun i => 2^i < size) = List.range (Nat.clog 2 size) := by
  apply takeWhile_range
  · exact (Nat.clog_le_iff_le_pow (by decide)).mpr Nat.lt_two_pow_self.le
  · intro i hi
    simpa using (Nat.lt_clog_iff_pow_lt (by decide)).mp hi
  · intro _
    simpa using Nat.le_pow_clog (by decide) size

end WrapAround
