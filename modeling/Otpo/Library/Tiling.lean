import Mathlib.Algebra.Order.Archimedean.Basic
import Mathlib.Tactic.Linarith

/-!
# Tiling an interval

The lower edges that a loop with a fixed increment visits below a bound. The
half open tiles that stand on them cover the interval and are disjoint.
-/

set_option autoImplicit false

namespace Tiling

variable {α : Type*} [Field α] [LinearOrder α]

def edges (step bound : α) : ℕ → α → Option (List α)
  | 0, _ => none
  | fuel+1, n => if n < bound then (edges step bound fuel (n+step)).map (n::·) else some []

variable {step bound n a : α} {fuel : ℕ} {l : List α}

theorem edges_cons (h : edges step bound fuel n = some l) :
    l = [] ∧ bound ≤ n ∨
      ∃ fuel' m, l = n::m ∧ n < bound ∧ edges step bound fuel' (n+step) = some m := by
  cases fuel with
  | zero => cases h
  | succ fuel =>
    rw [edges] at h
    split_ifs at h with hn
    · obtain ⟨m, hm, rfl⟩ := Option.map_eq_some_iff.mp h
      exact Or.inr ⟨fuel, m, rfl, hn, hm⟩
    · cases h
      exact Or.inl ⟨rfl, not_lt.mp hn⟩

theorem edges_cover (h : edges step bound fuel n = some l) (hn : n ≤ a) (ha : a < bound) :
    ∃ e ∈ l, e ≤ a ∧ a < e+step := by
  induction l generalizing fuel n with
  | nil =>
    rcases edges_cons h with ⟨_, hb⟩ | ⟨_, _, hl, _⟩
    · exact absurd (hn.trans_lt ha) (not_lt.mpr hb)
    · cases hl
  | cons e l ih =>
    rcases edges_cons h with ⟨hl, _⟩ | ⟨_, _, hl, _, hm⟩
    · cases hl
    · cases hl
      by_cases hlt : a < e+step
      · exact ⟨e, by simp, hn, hlt⟩
      · obtain ⟨e', he, hin⟩ := ih hm (not_lt.mp hlt)
        exact ⟨e', by simp [he], hin⟩

theorem edges_multiple (h : edges step bound fuel n = some l) :
    ∀ e ∈ l, n < bound ∧ ∃ k : ℕ, e = n+k*step := by
  induction l generalizing fuel n with
  | nil => simp
  | cons e l ih =>
    rcases edges_cons h with ⟨hl, _⟩ | ⟨_, _, hl, hn, hm⟩
    · cases hl
    · cases hl
      refine List.forall_mem_cons.mpr ⟨⟨hn, 0, by simp⟩, fun e' he => ?_⟩
      obtain ⟨_, k, rfl⟩ := ih hm e' he
      exact ⟨hn, k+1, by push_cast; ring⟩

variable [IsStrictOrderedRing α]

theorem edges_ends (k : ℕ) (h : bound ≤ n+k*step) : ∃ l, edges step bound (k+1) n = some l := by
  induction k generalizing n with
  | zero =>
    have hend : ¬ n < bound := by simpa using h
    exact ⟨[], by rw [edges, if_neg hend]⟩
  | succ k ih =>
    rw [edges]
    by_cases hn : n < bound
    · obtain ⟨l, hl⟩ := ih (n := n+step) (by push_cast at h; linarith)
      exact ⟨n::l, by rw [if_pos hn, hl, Option.map_some]⟩
    · exact ⟨[], if_neg hn⟩

theorem exists_edges [Archimedean α] (hs : 0 < step) (bound n : α) :
    ∃ fuel l, edges step bound fuel n = some l := by
  obtain ⟨k, hk⟩ := exists_nat_ge ((bound-n)/step)
  have hle : bound ≤ n+k*step := by
    rw [div_le_iff₀ hs] at hk
    linarith
  exact ⟨k+1, edges_ends k hle⟩

theorem edges_lower (hs : 0 ≤ step) (h : edges step bound fuel n = some l) : ∀ e ∈ l, n ≤ e := by
  induction l generalizing fuel n with
  | nil => simp
  | cons e l ih =>
    rcases edges_cons h with ⟨hl, _⟩ | ⟨_, _, hl, _, hm⟩
    · cases hl
    · cases hl
      refine List.forall_mem_cons.mpr ⟨le_refl e, fun e' he => ?_⟩
      have hle := ih hm e' he
      linarith

theorem edges_apart (hs : 0 ≤ step) (h : edges step bound fuel n = some l) :
    l.Pairwise fun e e' => e+step ≤ e' := by
  induction l generalizing fuel n with
  | nil => exact .nil
  | cons e l ih =>
    rcases edges_cons h with ⟨hl, _⟩ | ⟨_, _, hl, _, hm⟩
    · cases hl
    · cases hl
      exact .cons (edges_lower hs hm) (ih hm)

end Tiling
