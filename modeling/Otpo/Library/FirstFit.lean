import Mathlib.Data.Finset.Card

/-!
# Tables with a first free place

A table is searched for a key; the search ends at the first free place. What
is used stands in front.
-/

set_option autoImplicit false

namespace FirstFit

variable {A K : Type*} {key : A → K} {x : A}

/-- With distinct keys, the keys beside one are other keys. -/
theorem beside_ne {front back : List A} (h : ((front ++ x::back).map key).Nodup) :
    ∀ a ∈ front ++ back, key a ≠ key x := by
  intro a ha heq
  rw [List.map_append, List.map_cons, List.nodup_middle, List.nodup_cons, ← List.map_append] at h
  exact h.1 (heq ▸ List.mem_map_of_mem ha)

theorem front_ne {front back : List A} (h : ((front ++ x::back).map key).Nodup) :
    ∀ a ∈ front, key a ≠ key x := fun a ha => beside_ne h a (List.mem_append_left back ha)

theorem mem_replaced {front back : List A} {a : A} (h : a ∈ front ++ x::back) :
    a = x ∨ a ∈ front ++ back := by
  rcases List.mem_append.mp h with h | h
  · exact Or.inr (List.mem_append_left back h)
  · exact (List.mem_cons.mp h).imp_right (List.mem_append_right front)

theorem mem_beside {front back : List A} {a : A} (h : a ∈ front ++ back) :
    a ∈ front ++ x::back := by
  rcases List.mem_append.mp h with h | h
  · exact List.mem_append_left _ h
  · exact List.mem_append_right _ (List.mem_cons_of_mem x h)

/-- A new key behind distinct ones. -/
theorem nodup_new {used : List A} (h : (used.map key).Nodup) (hx : key x ∉ used.map key) :
    ((used ++ [x]).map key).Nodup := by
  rw [List.map_append]
  refine h.append (List.nodup_singleton _) fun k hk hkx => ?_
  exact hx (List.mem_singleton.mp hkx ▸ hk)

variable [DecidableEq K]

/-- A table with one place for each key. -/
theorem card_keys {used : List A} {ks : List K} (h : (used.map key).Nodup)
    (hmem : ∀ k, k ∈ ks ↔ k ∈ used.map key) : ks.toFinset.card = used.length := by
  have hset : ks.toFinset = (used.map key).toFinset := by
    ext k
    rw [List.mem_toFinset, List.mem_toFinset, hmem]
  rw [hset, List.toFinset_card_of_nodup h, List.length_map]

variable (key) (free : A → Bool)

def find (k : K) (table : List A) : Option ℕ := table.findIdx? fun a => key a == k || free a

variable {key free} {k : K} {used : List A}

theorem find_append_used (hne : ∀ a ∈ used, key a ≠ k) (hused : ∀ a ∈ used, free a = false)
    (rest : List A) : find key free k (used ++ rest) =
      (find key free k rest).map (·+used.length) := by
  have hnone : (used.findIdx? fun a => key a == k || free a) = none := by
    rw [List.findIdx?_eq_none_iff]
    intro a ha
    rw [Bool.or_eq_false_iff, beq_eq_false_iff_ne]
    exact ⟨hne a ha, hused a ha⟩
  rw [find, List.findIdx?_append, hnone]
  rfl

/-- A key that is not in the table gets the first free place. -/
theorem find_free (hne : ∀ a ∈ used, key a ≠ k) (hused : ∀ a ∈ used, free a = false)
    (hx : free x = true) (rest : List A) :
    find key free k (used ++ x::rest) = some used.length := by
  rw [find_append_used hne hused, find, List.findIdx?_cons, if_pos (by rw [hx, Bool.or_true])]
  exact congrArg some (Nat.zero_add _)

theorem find_none (hne : ∀ a ∈ used, key a ≠ k) (hused : ∀ a ∈ used, free a = false) :
    find key free k used = none := by
  have h := find_append_used hne hused []
  rwa [List.append_nil] at h

/-- A key that is in the table is found where it is. -/
theorem find_used {front : List A} (hne : ∀ a ∈ front, key a ≠ key x)
    (hused : ∀ a ∈ front, free a = false) (back : List A) :
    find key free (key x) (front ++ x::back) = some front.length := by
  rw [find_append_used hne hused, find, List.findIdx?_cons,
    if_pos (by rw [beq_self_eq_true, Bool.true_or])]
  exact congrArg some (Nat.zero_add _)

theorem modify_length (f : A → A) (used : List A) (x : A) (rest : List A) :
    (used ++ x::rest).modify used.length f = used ++ f x::rest := by
  induction used with
  | nil => rfl
  | cons a used ih => exact congrArg (a::·) ih

end FirstFit
