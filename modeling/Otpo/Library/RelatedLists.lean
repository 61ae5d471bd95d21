import Mathlib.Data.List.Forall2

/-!
# Lists in relation

What an element of one list has to do with the other, and the choice of a list
of which one element is given.
-/

set_option autoImplicit false

namespace RelatedLists

variable {α β : Type*} {R : α → β → Prop} {xs : List α} {ys : List β} {x : α} {y : β}

theorem left_of_right (h : List.Forall₂ R xs ys) (hy : y ∈ ys) : ∃ x ∈ xs, R x y := by
  induction h with
  | nil => cases hy
  | @cons x z xs ys hxz _ ih =>
    rcases List.mem_cons.mp hy with rfl | hy
    · exact ⟨x, List.mem_cons_self, hxz⟩
    · obtain ⟨x', hx', hR⟩ := ih hy
      exact ⟨x', List.mem_cons_of_mem x hx', hR⟩

theorem right_of_left (h : List.Forall₂ R xs ys) (hx : x ∈ xs) : ∃ y ∈ ys, R x y :=
  left_of_right h.flip hx

theorem exists_related (h : ∀ x ∈ xs, ∃ y, R x y) : ∃ ys, List.Forall₂ R xs ys := by
  induction xs with
  | nil => exact ⟨[], .nil⟩
  | cons x xs ih =>
    rw [List.forall_mem_cons] at h
    obtain ⟨y, hy⟩ := h.1
    obtain ⟨ys, hys⟩ := ih h.2
    exact ⟨y::ys, .cons hy hys⟩

/-- One element may be chosen. -/
theorem exists_related_mem (h : ∀ x ∈ xs, ∃ y, R x y) (hx : x ∈ xs) (hxy : R x y) :
    ∃ ys, List.Forall₂ R xs ys ∧ y ∈ ys := by
  induction xs with
  | nil => cases hx
  | cons z xs ih =>
    rw [List.forall_mem_cons] at h
    rcases List.mem_cons.mp hx with rfl | hx
    · obtain ⟨ys, hys⟩ := exists_related h.2
      exact ⟨y::ys, .cons hxy hys, List.mem_cons_self⟩
    · obtain ⟨w, hw⟩ := h.1
      obtain ⟨ys, hys, hmem⟩ := ih h.2 hx
      exact ⟨w::ys, .cons hw hys, List.mem_cons_of_mem w hmem⟩

theorem related_get (h : List.Forall₂ R xs ys) {i : ℕ} (hx : xs[i]? = some x) :
    ∃ y, ys[i]? = some y ∧ R x y := by
  induction h generalizing i with
  | nil => cases hx
  | cons hxy _ ih =>
    cases i with
    | zero =>
      cases hx
      exact ⟨_, rfl, hxy⟩
    | succ i => exact ih hx

theorem related_set (h : List.Forall₂ R xs ys) {i : ℕ} (hy : ∀ x, xs[i]? = some x → R x y) :
    List.Forall₂ R xs (ys.set i y) := by
  induction h generalizing i with
  | nil => exact .nil
  | cons hxy hs ih =>
    cases i with
    | zero => exact .cons (hy _ rfl) hs
    | succ i => exact .cons hxy (ih hy)

theorem related_find_idx (h : List.Forall₂ R xs ys) {p : α → Bool} {q : β → Bool}
    (hp : ∀ x y, R x y → p x = q y) : xs.findIdx? p = ys.findIdx? q := by
  induction h with
  | nil => rfl
  | cons hxy _ ih => rw [List.findIdx?_cons, List.findIdx?_cons, hp _ _ hxy, ih]

theorem related_find (h : List.Forall₂ R xs ys) {p : α → Bool} {q : β → Bool}
    (hp : ∀ x y, R x y → p x = q y) : Option.Rel R (xs.find? p) (ys.find? q) := by
  induction h with
  | nil => exact .none
  | @cons x y xs ys hxy _ ih =>
    rw [List.find?_cons, List.find?_cons, ← hp x y hxy]
    cases p x with
    | true => exact .some hxy
    | false => exact ih

theorem related_filter (h : List.Forall₂ R xs ys) {p : α → Bool} {q : β → Bool}
    (hp : ∀ x y, R x y → p x = q y) : List.Forall₂ R (xs.filter p) (ys.filter q) := by
  induction h with
  | nil => exact .nil
  | @cons x y xs ys hxy _ ih =>
    rw [List.filter_cons, List.filter_cons, ← hp x y hxy]
    split
    · exact .cons hxy ih
    · exact ih

/-- Both lists next to the same third one. -/
theorem related_zip {γ : Type*} (h : List.Forall₂ R xs ys) (zs : List γ) :
    List.Forall₂ (fun p q => R p.1 q.1 ∧ p.2 = q.2) (xs.zip zs) (ys.zip zs) := by
  induction h generalizing zs with
  | nil => exact .nil
  | cons hxy _ ih =>
    cases zs with
    | nil => exact .nil
    | cons z zs => exact .cons ⟨hxy, rfl⟩ (ih zs)

inductive Indexed (R : ℕ → α → β → Prop) : ℕ → List α → List β → Prop
  | nil (i : ℕ) : Indexed R i [] []
  | cons {i : ℕ} {x : α} {y : β} {xs : List α} {ys : List β} (h : R i x y)
      (t : Indexed R (i+1) xs ys) : Indexed R i (x::xs) (y::ys)

section Indexed

variable {S T : ℕ → α → β → Prop} {i k : ℕ}

theorem indexed_length (h : Indexed S i xs ys) : xs.length = ys.length := by
  induction h with
  | nil => rfl
  | cons _ _ ih => rw [List.length_cons, List.length_cons, ih]

theorem indexed_get (h : Indexed S i xs ys) (hx : xs[k]? = some x) :
    ∃ y, ys[k]? = some y ∧ S (i+k) x y := by
  induction h generalizing k with
  | nil => cases hx
  | @cons i _ _ _ _ hxy _ ih =>
    cases k with
    | zero =>
      cases hx
      exact ⟨_, rfl, hxy⟩
    | succ k =>
      obtain ⟨y, hy, hS⟩ := ih hx
      rw [Nat.add_right_comm, Nat.add_assoc] at hS
      exact ⟨y, hy, hS⟩

theorem indexed_get_rel (h : Indexed S i xs ys) (k : ℕ) :
    Option.Rel (S (i+k)) xs[k]? ys[k]? := by
  cases hx : xs[k]? with
  | none =>
    rw [List.getElem?_eq_none_iff, indexed_length h] at hx
    rw [List.getElem?_eq_none_iff.mpr hx]
    exact .none
  | some x =>
    obtain ⟨y, hy, hS⟩ := indexed_get h hx
    rw [hy]
    exact .some hS

theorem indexed_get_default (h : Indexed S i xs ys) (hk : k < xs.length) (a : α) (b : β) :
    S (i+k) (xs.getD k a) (ys.getD k b) := by
  obtain ⟨y, hy, hS⟩ := indexed_get h (List.getElem?_eq_getElem hk)
  rw [List.getD_eq_getElem?_getD, List.getD_eq_getElem?_getD, List.getElem?_eq_getElem hk, hy]
  exact hS

theorem indexed_set (h : Indexed S i xs ys) (hxy : S (i+k) x y) :
    Indexed S i (xs.set k x) (ys.set k y) := by
  induction h generalizing k with
  | nil => exact .nil _
  | cons hS t ih =>
    cases k with
    | zero => exact .cons hxy t
    | succ k =>
      rw [← Nat.add_assoc, Nat.add_right_comm] at hxy
      exact .cons hS (ih hxy)

theorem indexed_mono (hST : ∀ k x y, S k x y → T k x y) (h : Indexed S i xs ys) :
    Indexed T i xs ys := by
  induction h with
  | nil i => exact .nil i
  | cons hxy _ ih => exact .cons (hST _ _ _ hxy) ih

/-- A relation that is one to one keeps lists apart. -/
theorem indexed_eq_iff (hS : ∀ k x y x' y', S k x y → S k x' y' → (x = x' ↔ y = y'))
    {xs' : List α} {ys' : List β} (h : Indexed S i xs ys) (h' : Indexed S i xs' ys') :
    xs = xs' ↔ ys = ys' := by
  induction h generalizing xs' ys' with
  | nil =>
    cases h' with
    | nil => exact ⟨fun _ => rfl, fun _ => rfl⟩
    | cons => exact ⟨fun h => (by cases h), fun h => (by cases h)⟩
  | cons hxy _ ih =>
    cases h' with
    | nil => exact ⟨fun h => (by cases h), fun h => (by cases h)⟩
    | cons hxy' t' =>
      rw [List.cons.injEq, List.cons.injEq, hS _ _ _ _ _ hxy hxy', ih t']

end Indexed

end RelatedLists
