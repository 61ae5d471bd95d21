import Mathlib.Data.List.Forall2

/-!
# Results in relation

Two computations agree if they fail alike, or if both succeed with values in a
given relation. A list of computations succeeds if each of them does.
-/

set_option autoImplicit false

namespace RelatedResults

universe u v

variable {ε : Type*} {α γ : Type u} {β δ : Type v} {P : α → β → Prop} {Q : γ → δ → Prop}

def Agree (P : α → β → Prop) : Except ε α → Except ε β → Prop
  | .error f, .error g => f = g
  | .ok a, .ok b => P a b
  | _, _ => False

theorem agree_cases {x : Except ε α} {y : Except ε β} (h : Agree P x y) :
    (∃ f, x = .error f ∧ y = .error f) ∨ ∃ a b, x = .ok a ∧ y = .ok b ∧ P a b := by
  cases x with
  | error f =>
    cases y with
    | error g => exact Or.inl ⟨f, rfl, congrArg _ (Eq.symm h)⟩
    | ok b => exact h.elim
  | ok a =>
    cases y with
    | error g => exact h.elim
    | ok b => exact Or.inr ⟨a, b, rfl, rfl, h⟩

/-- What agrees goes on to agree. -/
theorem agree_bind {x : Except ε α} {y : Except ε β} (h : Agree P x y) {f : α → Except ε γ}
    {g : β → Except ε δ} (hfg : ∀ a b, P a b → Agree Q (f a) (g b)) :
    Agree Q (x >>= f) (y >>= g) := by
  rcases agree_cases h with ⟨e, rfl, rfl⟩ | ⟨a, b, rfl, rfl, hab⟩
  · rfl
  · exact hfg a b hab

theorem agree_fold {ι : Type*} {f : α → ι → Except ε α} {g : β → ι → Except ε β} {l : List ι}
    (hfg : ∀ c ∈ l, ∀ a b, P a b → Agree P (f a c) (g b c)) {a : α} {b : β} (h : P a b) :
    Agree P (l.foldlM f a) (l.foldlM g b) := by
  induction l generalizing a b with
  | nil => exact h
  | cons c l ih =>
    rw [List.forall_mem_cons] at hfg
    rw [List.foldlM_cons, List.foldlM_cons]
    exact agree_bind (hfg.1 a b h) fun a b hab => ih hfg.2 hab

section Lists

variable {A B : Type} {f : A → Except ε B} {l : List A}

/-- The results of a list of computations that all succeed. -/
theorem map_ok_iff {bs : List B} :
    l.mapM f = .ok bs ↔ List.Forall₂ (fun a b => f a = .ok b) l bs := by
  induction l generalizing bs with
  | nil =>
    rw [List.mapM_nil, List.forall₂_nil_left_iff]
    exact ⟨fun h => (Except.ok.inj h).symm, fun h => h ▸ rfl⟩
  | cons a l ih =>
    rw [List.mapM_cons, List.forall₂_cons_left_iff]
    constructor
    · intro h
      cases hb : f a with
      | error e =>
        rw [hb] at h
        cases h
      | ok b =>
        rw [hb] at h
        cases hcs : l.mapM f with
        | error e =>
          rw [hcs] at h
          cases h
        | ok cs =>
          rw [hcs] at h
          exact ⟨b, cs, rfl, ih.mp hcs, (Except.ok.inj h).symm⟩
    · rintro ⟨b, cs, hb, hcs, rfl⟩
      rw [hb, ih.mpr hcs]
      rfl

theorem map_returns_iff : (∃ bs, l.mapM f = .ok bs) ↔ ∀ a ∈ l, ∃ b, f a = .ok b := by
  simp only [map_ok_iff]
  induction l with
  | nil => exact ⟨fun _ => List.forall_mem_nil _, fun _ => ⟨[], .nil⟩⟩
  | cons a l ih =>
    rw [List.forall_mem_cons, ← ih]
    constructor
    · rintro ⟨bs, h⟩
      cases h with
      | cons hb hbs => exact ⟨⟨_, hb⟩, _, hbs⟩
    · rintro ⟨⟨b, hb⟩, bs, hbs⟩
      exact ⟨b::bs, .cons hb hbs⟩

end Lists

end RelatedResults
