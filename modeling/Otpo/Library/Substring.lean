import Mathlib.Data.List.Infix

/-!
# Substrings over a seam

A substring without some element lies on one side of each place where that
element stands.
-/

set_option autoImplicit false

namespace Substring

variable {A : Type*} {part s t : List A} {c : A}

theorem prefix_seam (hc : c ∉ part) (h : part <+: s ++ c::t) : part <+: s := by
  induction part generalizing s with
  | nil => exact List.nil_prefix
  | cons d part ih =>
    rw [List.mem_cons, not_or] at hc
    cases s with
    | nil =>
      rw [List.nil_append, List.cons_prefix_cons] at h
      exact absurd h.1.symm hc.1
    | cons e s =>
      rw [List.cons_append, List.cons_prefix_cons] at h
      rw [List.cons_prefix_cons]
      exact ⟨h.1, ih hc.2 h.2⟩

theorem infix_seam (hc : c ∉ part) (h : part <:+: s ++ c::t) : part <:+: s ∨ part <:+: t := by
  induction s with
  | nil =>
    rcases List.infix_cons_iff.mp h with h | h
    · exact Or.inl (prefix_seam (s := []) hc h).isInfix
    · exact Or.inr h
  | cons d s ih =>
    rcases List.infix_cons_iff.mp h with h | h
    · exact Or.inl (prefix_seam (s := d::s) hc h).isInfix
    · rcases ih h with h | h
      · exact Or.inl (h.trans (List.suffix_cons d s).isInfix)
      · exact Or.inr h

end Substring
