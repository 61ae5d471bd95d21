import Mathlib.Order.Lattice
import Mathlib.Data.List.Basic

/-!
# The same place in two ascending lists

Two strictly ascending lists order the values at the same places alike, so that
looking a value up, comparing two or going on to the next one takes both lists
to the same place again.
-/

set_option autoImplicit false

namespace AlignedLists

variable {α β : Type*}

def Aligned (l : List α) (m : List β) (x : α) (y : β) : Prop :=
  ∃ j : ℕ, l[j]? = some x ∧ m[j]? = some y

section Order

variable [LinearOrder α] [LinearOrder β] {l : List α} {m : List β} {x x' : α} {y y' : β}

theorem ascending_lt (h : l.Pairwise (· < ·)) {i j : ℕ} (hi : l[i]? = some x)
    (hj : l[j]? = some x') : x < x' ↔ i < j := by
  obtain ⟨hi', rfl⟩ := List.getElem?_eq_some_iff.mp hi
  obtain ⟨hj', rfl⟩ := List.getElem?_eq_some_iff.mp hj
  have hlt := List.pairwise_iff_getElem.mp h
  constructor
  · intro hxx
    by_contra hge
    rcases Nat.lt_or_eq_of_le (Nat.le_of_not_lt hge) with hji | rfl
    · exact lt_asymm hxx (hlt j i hj' hi' hji)
    · exact lt_irrefl _ hxx
  · exact hlt i j hi' hj'

theorem aligned_lt (hl : l.Pairwise (· < ·)) (hm : m.Pairwise (· < ·)) (h : Aligned l m x y)
    (h' : Aligned l m x' y') : x < x' ↔ y < y' := by
  obtain ⟨i, hx, hy⟩ := h
  obtain ⟨j, hx', hy'⟩ := h'
  rw [ascending_lt hl hx hx', ascending_lt hm hy hy']

theorem aligned_eq (hl : l.Pairwise (· < ·)) (hm : m.Pairwise (· < ·)) (h : Aligned l m x y)
    (h' : Aligned l m x' y') : x = x' ↔ y = y' := by
  have hlt := aligned_lt hl hm h h'
  have hgt := aligned_lt hl hm h' h
  constructor
  · rintro rfl
    exact le_antisymm (not_lt.mp fun hy => lt_irrefl x (hgt.mpr hy))
      (not_lt.mp fun hy => lt_irrefl x (hlt.mpr hy))
  · rintro rfl
    exact le_antisymm (not_lt.mp fun hx => lt_irrefl y (hgt.mp hx))
      (not_lt.mp fun hx => lt_irrefl y (hlt.mp hx))

theorem ascending_find_idx (h : l.Pairwise (· < ·)) {j : ℕ} (hj : l[j]? = some x) :
    l.findIdx? (· == x) = some j := by
  obtain ⟨hlt, rfl⟩ := List.getElem?_eq_some_iff.mp hj
  refine List.findIdx?_eq_some_iff_getElem.mpr ⟨hlt, beq_self_eq_true _, fun i hi => ?_⟩
  have hij := List.pairwise_iff_getElem.mp h i j (Nat.lt_trans hi hlt) hlt hi
  simpa using hij.ne

end Order

end AlignedLists
