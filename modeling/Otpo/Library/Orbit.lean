import Mathlib.Data.List.Nodup

/-!
# Orbits of a partial step

The orbit of a state under a deterministic partial step, as a relation which
holds of a state and a list exactly when the iteration ends after that list.
An iteration which ends never shows a state twice.
-/

set_option autoImplicit false

namespace Orbit

variable {α : Type*} (next : α → Option α)

inductive Path : α → List α → Prop
  | stop {a : α} (h : next a = none) : Path a [a]
  | step {a b : α} {l : List α} (h : next a = some b) (t : Path b l) : Path a (a::l)

variable {next}

theorem path_unique {a : α} {l m : List α} (h : Path next a l) (g : Path next a m) : l = m := by
  induction h generalizing m with
  | stop ha =>
    cases g with
    | stop => rfl
    | step hb => rw [ha] at hb; cases hb
  | step ha _ ih =>
    cases g with
    | stop hb => rw [ha] at hb; cases hb
    | step hb t =>
      rw [ha] at hb
      cases hb
      rw [ih t]

theorem path_mem {a b : α} {l : List α} (h : Path next a l) (hb : b ∈ l) :
    ∃ m, Path next b m ∧ m.length ≤ l.length := by
  induction h with
  | stop ha =>
    rw [List.mem_singleton] at hb
    subst hb
    exact ⟨_, .stop ha, Nat.le_refl _⟩
  | step ha t ih =>
    rcases List.mem_cons.mp hb with rfl | hm
    · exact ⟨_, .step ha t, Nat.le_refl _⟩
    · obtain ⟨m, hp, hl⟩ := ih hm
      exact ⟨m, hp, by simp only [List.length_cons]; omega⟩

theorem path_nodup {a : α} {l : List α} (h : Path next a l) : l.Nodup := by
  induction h with
  | stop => simp
  | @step a b l ha t ih =>
    refine List.nodup_cons.mpr ⟨fun hm => ?_, ih⟩
    obtain ⟨m, hp, hl⟩ := path_mem t hm
    rw [path_unique hp (.step ha t), List.length_cons] at hl
    omega

/-- What every step preserves holds along the whole orbit. -/
theorem path_forall {P : α → Prop} (hP : ∀ a b, P a → next a = some b → P b) {a : α}
    {l : List α} (h : Path next a l) (ha : P a) : ∀ b ∈ l, P b := by
  induction h with
  | stop => simpa using ha
  | step hn _ ih => exact List.forall_mem_cons.mpr ⟨ha, ih (hP _ _ ha hn)⟩

end Orbit
