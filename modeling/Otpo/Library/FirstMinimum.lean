import Mathlib.Order.Lattice
import Mathlib.Data.List.Induction

/-!
# The first minimum of a list of optional keys

A left-to-right search which starts from a bound and moves on a strictly
smaller key. An absent key never wins. Above the bound nothing is found.
-/

set_option autoImplicit false

namespace FirstMinimum

structure Best (α : Type*) where
  min : α
  minloc : Option ℕ
  deriving DecidableEq, Repr

variable {α : Type*} [LinearOrder α]

def improve (t : Best α) (key : Option α) (i : ℕ) : Best α :=
  match key with
  | some x => if x < t.min then ⟨x, some i⟩ else t
  | none => t

def search (bound : α) (ks : List (Option α)) : Best α :=
  ks.zipIdx.foldl (fun t k => improve t k.1 k.2) ⟨bound, none⟩

def Least (ks : List (Option α)) (w : ℕ) (x : α) : Prop :=
  ks[w]? = some (some x) ∧ ∀ (j : ℕ) (y : α), ks[j]? = some (some y) → x ≤ y ∧ (j < w → x < y)

theorem least_unique {ks : List (Option α)} {v w : ℕ} {x y : α} (h : Least ks v x)
    (g : Least ks w y) : v = w ∧ x = y := by
  have hxy := le_antisymm (h.2 w y g.1).1 (g.2 v x h.1).1
  subst hxy
  rcases Nat.lt_trichotomy v w with hlt | heq | hgt
  · exact absurd ((g.2 v x h.1).2 hlt) (lt_irrefl x)
  · exact ⟨heq, rfl⟩
  · exact absurd ((h.2 w x g.1).2 hgt) (lt_irrefl x)

theorem search_append (bound : α) (ks : List (Option α)) (k : Option α) :
    search bound (ks ++ [k]) = improve (search bound ks) k ks.length := by
  simp [search, List.zipIdx_append]

omit [LinearOrder α] in
theorem append_present {ks : List (Option α)} {k : Option α} {j : ℕ} {y : α}
    (h : (ks ++ [k])[j]? = some (some y)) :
    ks[j]? = some (some y) ∨ j = ks.length ∧ k = some y := by
  rcases Nat.lt_trichotomy j ks.length with hlt | heq | hgt
  · exact Or.inl (by rwa [List.getElem?_append_left hlt] at h)
  · subst heq
    exact Or.inr ⟨rfl, by simpa using h⟩
  · rw [List.getElem?_eq_none (by simp; omega)] at h
    cases h

theorem least_append {ks : List (Option α)} {w : ℕ} {x : α} {k : Option α}
    (h : Least ks w x) (hk : ∀ y, k = some y → x ≤ y) : Least (ks ++ [k]) w x := by
  have hw := (List.getElem?_eq_some_iff.mp h.1).1
  refine ⟨by rw [List.getElem?_append_left hw]; exact h.1, fun j y hj => ?_⟩
  rcases append_present hj with hold | ⟨rfl, hnew⟩
  · exact h.2 j y hold
  · exact ⟨hk y hnew, fun hlt => absurd hw (Nat.lt_asymm hlt)⟩

theorem least_last {ks : List (Option α)} {x : α}
    (h : ∀ (j : ℕ) (y : α), ks[j]? = some (some y) → x < y) :
    Least (ks ++ [some x]) ks.length x := by
  refine ⟨by simp, fun j y hj => ?_⟩
  rcases append_present hj with hold | ⟨rfl, hnew⟩
  · exact ⟨(h j y hold).le, fun _ => h j y hold⟩
  · cases hnew
    exact ⟨le_rfl, fun hlt => absurd hlt (Nat.lt_irrefl _)⟩

theorem improve_better {t : Best α} {x : α} (h : x < t.min) (i : ℕ) :
    improve t (some x) i = ⟨x, some i⟩ := if_pos h

theorem improve_worse {t : Best α} {k : Option α} (h : ∀ x, k = some x → t.min ≤ x) (i : ℕ) :
    improve t k i = t := by
  cases k with
  | none => rfl
  | some x => exact if_neg (not_lt.mpr (h x rfl))

/-- Either nothing was below the bound, or the first minimum was found. -/
theorem search_spec (bound : α) (ks : List (Option α)) :
    ((search bound ks).minloc = none ∧ (search bound ks).min = bound ∧
      ∀ (j : ℕ) (y : α), ks[j]? = some (some y) → bound ≤ y) ∨
    ∃ w, (search bound ks).minloc = some w ∧ (search bound ks).min < bound ∧
      Least ks w (search bound ks).min := by
  induction ks using List.reverseRecOn with
  | nil => exact Or.inl ⟨rfl, rfl, by simp⟩
  | append_singleton ks k ih =>
    rw [search_append]
    by_cases hk : ∃ x, k = some x ∧ x < (search bound ks).min
    · obtain ⟨x, rfl, hx⟩ := hk
      rw [improve_better hx]
      rcases ih with ⟨_, hm, hle⟩ | ⟨w, _, hlt, hl⟩
      · rw [hm] at hx
        exact Or.inr ⟨_, rfl, hx, least_last fun j y hj => hx.trans_le (hle j y hj)⟩
      · exact Or.inr ⟨_, rfl, hx.trans hlt,
          least_last fun j y hj => hx.trans_le (hl.2 j y hj).1⟩
    · have hworse : ∀ x, k = some x → (search bound ks).min ≤ x :=
        fun x hx => le_of_not_gt fun hlt => hk ⟨x, hx, hlt⟩
      rw [improve_worse hworse]
      rcases ih with ⟨hn, hm, hle⟩ | ⟨w, hw, hlt, hl⟩
      · refine Or.inl ⟨hn, hm, fun j y hj => ?_⟩
        rcases append_present hj with hold | ⟨_, hnew⟩
        · exact hle j y hold
        · exact hm ▸ hworse y hnew
      · exact Or.inr ⟨w, hw, hlt, least_append hl hworse⟩

theorem search_eq_some_iff (bound : α) (ks : List (Option α)) (w : ℕ) :
    (search bound ks).minloc = some w ↔ ∃ x, Least ks w x ∧ x < bound := by
  constructor
  · intro h
    rcases search_spec bound ks with ⟨hn, _, _⟩ | ⟨v, hv, hlt, hl⟩
    · rw [h] at hn
      cases hn
    · rw [h] at hv
      cases hv
      exact ⟨_, hl, hlt⟩
  · rintro ⟨x, hl, hlt⟩
    rcases search_spec bound ks with ⟨_, _, hle⟩ | ⟨v, hv, _, hl'⟩
    · exact absurd (hle w x hl.1) (not_le.mpr hlt)
    · rw [hv, (least_unique hl hl').1]

theorem search_eq_none_iff (bound : α) (ks : List (Option α)) :
    (search bound ks).minloc = none ↔ ∀ (j : ℕ) (y : α), ks[j]? = some (some y) → bound ≤ y := by
  constructor
  · intro h
    rcases search_spec bound ks with ⟨_, _, hle⟩ | ⟨v, hv, _, _⟩
    · exact hle
    · rw [h] at hv
      cases hv
  · intro h
    rcases search_spec bound ks with ⟨hn, _, _⟩ | ⟨v, _, hlt, hl⟩
    · exact hn
    · exact absurd (h v _ hl.1) (not_le.mpr hlt)

theorem exists_least {ks : List (Option α)} (h : ∃ (j : ℕ) (y : α), ks[j]? = some (some y)) :
    ∃ w x, Least ks w x := by
  induction ks using List.reverseRecOn with
  | nil => simp at h
  | append_singleton ks k ih =>
    by_cases hold : ∃ (j : ℕ) (y : α), ks[j]? = some (some y)
    · obtain ⟨w, x, hl⟩ := ih hold
      by_cases hk : ∃ y, k = some y ∧ y < x
      · obtain ⟨y, rfl, hy⟩ := hk
        exact ⟨_, y, least_last fun j z hj => hy.trans_le (hl.2 j z hj).1⟩
      · exact ⟨w, x, least_append hl fun y hy => le_of_not_gt fun hlt => hk ⟨y, hy, hlt⟩⟩
    · obtain ⟨j, y, hj⟩ := h
      rcases append_present hj with hin | ⟨_, rfl⟩
      · exact absurd ⟨j, y, hin⟩ hold
      · exact ⟨_, y, least_last fun i z hi => absurd ⟨i, z, hi⟩ hold⟩

end FirstMinimum
