import Mathlib.Data.List.Sort

/-!
# Lists ordered by a key

Distinct elements in non-decreasing order of a key, which different elements
may share. An element is inserted behind those of its own key, unless it is
there already.
-/

set_option autoImplicit false

namespace KeyedList

variable {α β : Type*} [LinearOrder β]

structure Keyed (key : α → β) where
  values : List α
  sorted : values.Pairwise fun a b => key a ≤ key b
  nodup : values.Nodup

def place (key : α → β) (a : α) (l : List α) : List α :=
  l.orderedInsert (fun a b => key a < key b) a

variable {key : α → β} {a b : α} {l : List α}

theorem place_cons :
    place key a (b::l) = if key a < key b then a::b::l else b::place key a l := rfl

theorem mem_place : b ∈ place key a l ↔ b = a ∨ b ∈ l := List.mem_orderedInsert _

theorem sorted_place (h : l.Pairwise fun a b => key a ≤ key b) :
    (place key a l).Pairwise fun a b => key a ≤ key b := by
  induction l with
  | nil => exact List.pairwise_singleton _ _
  | cons b l ih =>
    obtain ⟨hb, hl⟩ := List.pairwise_cons.mp h
    by_cases hlt : key a < key b
    · rw [place_cons, if_pos hlt]
      refine .cons (fun c hc => ?_) h
      rcases List.mem_cons.mp hc with rfl | hc
      · exact hlt.le
      · exact hlt.le.trans (hb c hc)
    · rw [place_cons, if_neg hlt]
      refine .cons (fun c hc => ?_) (ih hl)
      rcases mem_place.mp hc with rfl | hc
      · exact not_lt.mp hlt
      · exact hb c hc

theorem nodup_place (h : l.Nodup) (ha : a ∉ l) : (place key a l).Nodup :=
  (List.perm_orderedInsert _ a l).nodup_iff.mpr (List.nodup_cons.mpr ⟨ha, h⟩)

theorem length_place : (place key a l).length = l.length+1 := List.orderedInsert_length _ l a

namespace Keyed

def empty (key : α → β) : Keyed key := ⟨[], .nil, .nil⟩

variable [DecidableEq α]

def insert (a : α) (l : Keyed key) : Keyed key where
  values := if a ∈ l.values then l.values else place key a l.values
  sorted := by
    split_ifs
    · exact l.sorted
    · exact sorted_place l.sorted
  nodup := by
    split_ifs with h
    · exact l.nodup
    · exact nodup_place l.nodup h

theorem mem_insert {l : Keyed key} : b ∈ (l.insert a).values ↔ b = a ∨ b ∈ l.values := by
  rw [insert]
  split_ifs with h
  · exact ⟨Or.inr, fun hb => hb.elim (fun he => he ▸ h) id⟩
  · exact mem_place

end Keyed

end KeyedList
