import Mathlib.Data.List.Chain
import Mathlib.Order.MinMax

/-!
# Progressions between two bounds

A list of values of which each is the next one of the value in front of it,
from one bound on and as far as the other allows.
-/

set_option autoImplicit false

namespace Progression

variable {α : Type*} [LinearOrder α] (next : α → Option α)

def Between (start stop v : α) : Prop := min start stop ≤ v ∧ v ≤ max start stop

instance (start stop v : α) : Decidable (Between start stop v) :=
  inferInstanceAs (Decidable (min start stop ≤ v ∧ v ≤ max start stop))

structure Covers (start stop : α) (l : List α) : Prop where
  first : l.head? = some start
  steps : l.IsChain fun a b => next a = some b
  within : ∀ v ∈ l.tail, Between start stop v
  complete : ∀ a v, l.getLast? = some a → next a = some v → Between start stop v → v ∈ l

inductive Rises (stop : α) : α → List α → Prop
  | done {a : α} (h : ∀ b, next a = some b → b = a ∨ stop < b) : Rises stop a []
  | step {a b : α} {l : List α} (h : next a = some b) (hlt : a < b) (hle : b ≤ stop)
      (t : Rises stop b l) : Rises stop a (b::l)

variable {next} {start stop : α} {l : List α}

theorem between_rising (h : start ≤ stop) {v : α} :
    Between start stop v ↔ start ≤ v ∧ v ≤ stop := by
  rw [Between, min_eq_left h, max_eq_right h]

theorem between_falling (h : stop < start) {v : α} :
    Between start stop v ↔ stop ≤ v ∧ v ≤ start := by
  rw [Between, min_eq_right h.le, max_eq_left h.le]

theorem covers_single (h : ∀ v, next start = some v → Between start stop v → v = start) :
    Covers next start stop [start] where
  first := rfl
  steps := List.isChain_singleton start
  within v hv := by cases hv
  complete a v ha hv hb := by
    cases ha
    exact List.mem_singleton.mpr (h v hv hb)

theorem single_covers (h : Covers next start stop [start]) {v : α} (hv : next start = some v)
    (hb : Between start stop v) : v = start :=
  List.mem_singleton.mp (h.complete start v rfl hv hb)

theorem rises_steps (h : Rises next stop start l) :
    (start::l).IsChain fun a b => next a = some b := by
  induction h with
  | done => exact List.isChain_singleton _
  | step h _ _ _ ih => exact List.isChain_cons_cons.mpr ⟨h, ih⟩

theorem rises_within (h : Rises next stop start l) : ∀ v ∈ l, start ≤ v ∧ v ≤ stop := by
  induction h with
  | done =>
    intro v hv
    cases hv
  | step _ hlt hle _ ih =>
    intro v hv
    rcases List.mem_cons.mp hv with rfl | hv
    · exact ⟨hlt.le, hle⟩
    · exact ⟨hlt.le.trans (ih v hv).1, (ih v hv).2⟩

theorem rises_complete (h : Rises next stop start l) {a v : α}
    (ha : (start::l).getLast? = some a) (hv : next a = some v) :
    v ∈ start::l ∨ stop < v := by
  induction h with
  | done h =>
    cases ha
    exact (h v hv).imp_left List.mem_singleton.mpr
  | step _ _ _ _ ih =>
    rw [List.getLast?_cons_cons] at ha
    exact (ih ha).imp_left (List.mem_cons_of_mem _)

theorem rises_covers (hle : start ≤ stop) (h : Rises next stop start l) :
    Covers next start stop (start::l) where
  first := rfl
  steps := rises_steps h
  within v hv := (between_rising hle).mpr (rises_within h v hv)
  complete _ _ ha hv hb :=
    (rises_complete h ha hv).resolve_right (not_lt.mpr ((between_rising hle).mp hb).2)

end Progression
