import Otpo.Library.AsynchronousRuns
import Mathlib.Logic.Function.Basic
import Mathlib.Data.Finset.Basic

/-!
# Processes that send and receive messages

Each pair of processes has a channel that keeps the order of its messages. A
process keeps the history of what it sent, so that a step writes to its own
process only. A message may wait in a buffer. It need not: a send is sure to
complete only when the destination has posted a receive for it.
-/

set_option autoImplicit false

namespace MessagePassing

open AsynchronousRuns Function

inductive Instruction (P M D : Type) where
  | send (dest : P) (payload : M → D)
  | post (source : P)
  | receive (source : P) (store : D → M → Option M)
  | complete (dest : P)
  | compute (f : M → M)

structure Process (P M D : Type) where
  program : List (Instruction P M D)
  memory : M
  sent : P → List D
  posted : P → ℕ
  received : P → ℕ
  completed : P → ℕ

abbrev State (P M D : Type) := P → Process P M D

variable {P M D : Type} [DecidableEq P]

def advance (buffered : Bool) (p : P) (s : State P M D) : Option (Process P M D) :=
  match (s p).program with
  | [] => none
  | .send dest payload::rest => some { s p with
      program := rest
      sent := update (s p).sent dest ((s p).sent dest++[payload (s p).memory]) }
  | .post source::rest => some { s p with
      program := rest
      posted := update (s p).posted source ((s p).posted source+1) }
  | .receive source store::rest =>
    match ((s source).sent p)[(s p).received source]? with
    | none => none
    | some message => (store message (s p).memory).map fun memory => { s p with
        program := rest
        memory := memory
        received := update (s p).received source ((s p).received source+1) }
  | .complete dest::rest =>
    if buffered = true ∨ (s p).completed dest < (s dest).posted p then some { s p with
      program := rest
      completed := update (s p).completed dest ((s p).completed dest+1) }
    else none
  | .compute f::rest => some { s p with program := rest, memory := f (s p).memory }

def step (buffered : Bool) (p : P) (s : State P M D) : Option (State P M D) :=
  (advance buffered p s).map (update s p)

structure Grown (p : P) (s t : State P M D) : Prop where
  own : t p = s p
  sent (q : P) : (s q).sent p <+: (t q).sent p
  posted (q : P) : (s q).posted p ≤ (t q).posted p

variable {b : Bool} {p q : P} {s t u : State P M D} {l l' : Process P M D}

theorem advance_allowed (h : advance false p s = some l) : advance true p s = some l := by
  unfold advance at *
  split at h <;> simp_all

theorem Grown.advance (hgrown : Grown p s t) (h : advance b p s = some l) :
    advance b p t = some l := by
  unfold MessagePassing.advance at *
  rw [hgrown.own]
  split at h
  · cases h
  · exact h
  · exact h
  · rename_i source store rest hprogram
    cases hmessage : ((s source).sent p)[(s p).received source]? with
    | none => simp [hmessage] at h
    | some message =>
      obtain ⟨later, hlater⟩ := hgrown.sent source
      have hbound := (List.getElem?_eq_some_iff.mp hmessage).1
      rw [← hlater, List.getElem?_append_left hbound, hmessage]
      simpa [hmessage] using h
  · rename_i dest rest hprogram
    have := hgrown.posted dest
    split at h
    · rename_i hready
      rw [if_pos (hready.imp_right (fun hlt => hlt.trans_le this))]
      exact h
    · cases h
  · exact h

theorem advance_sent (h : advance b p s = some l) (q : P) : (s p).sent q <+: l.sent q := by
  unfold advance at h
  split at h
  · cases h
  · rename_i dest payload rest hprogram
    cases h
    by_cases hq : q = dest
    · simp [hq]
    · simp [hq]
  · cases h
    simp
  · split at h
    · cases h
    · obtain ⟨memory, -, rfl⟩ := Option.map_eq_some_iff.mp h
      simp
  · split at h
    · cases h
      simp
    · cases h
  · cases h
    simp

theorem advance_posted (h : advance b p s = some l) (q : P) : (s p).posted q ≤ l.posted q := by
  unfold advance at h
  split at h
  · cases h
  · cases h
    simp
  · rename_i source rest hprogram
    cases h
    by_cases hq : q = source
    · simp [hq]
    · simp [hq]
  · split at h
    · cases h
    · obtain ⟨memory, -, rfl⟩ := Option.map_eq_some_iff.mp h
      simp
  · split at h
    · cases h
      simp
    · cases h
  · cases h
    simp

theorem grown_update (hpq : p ≠ q) (h : advance b q s = some l) : Grown p s (update s q l) where
  own := by simp [hpq]
  sent := by
    intro r
    by_cases hr : r = q
    · simpa [hr] using advance_sent h p
    · simp [hr]
  posted := by
    intro r
    by_cases hr : r = q
    · simpa [hr] using advance_posted h p
    · simp [hr]

def system : System P (State P M D) where
  step := step
  allowed := by
    intro p s t h
    obtain ⟨l, hl, rfl⟩ := Option.map_eq_some_iff.mp h
    simp [step, advance_allowed hl]
  diamond := by
    intro b p q s t u hpq ht hu
    obtain ⟨l, hl, rfl⟩ := Option.map_eq_some_iff.mp ht
    obtain ⟨l', hl', rfl⟩ := Option.map_eq_some_iff.mp hu
    have hp := (grown_update hpq hl').advance hl
    have hq := (grown_update (Ne.symm hpq) hl).advance hl'
    exact ⟨update (update s q l') p l, by simp [step, hp],
      by simp [step, hq, update_comm hpq]⟩

theorem reaches_update (h : advance false p s = some l) :
    system.Reaches s (update s p l) :=
  .single (p := p) (by simp [system, step, h])

theorem reaches_again (hs : system.Reaches s (update s p l))
    (ht : system.Reaches (update s p l) (update (update s p l) p l')) :
    system.Reaches s (update s p l') := by
  rw [update_idem] at ht
  exact hs.trans ht

/-- Where every process gets from its old state to its new one by itself, the
order in which they do so being that of the list, all of them get there. -/
theorem reaches_all (order : List P) (t : State P M D) (hnodup : order.Nodup)
    (hother : ∀ p, p ∉ order → t p = s p)
    (halone : ∀ before p after u, order = before++p::after → u p = s p →
      (∀ q, u q = if q ∈ before then t q else s q) → system.Reaches u (update u p (t p))) :
    system.Reaches s t := by
  have general (before after : List P) (u : State P M D) (horder : order = before++after)
      (hu : ∀ q, u q = if q ∈ before then t q else s q) : system.Reaches u t := by
    induction after generalizing before u with
    | nil =>
      have : u = t := by
        funext q
        rw [hu q]
        split
        · rfl
        · rename_i hq
          exact (hother q (by simpa [horder] using hq)).symm
      rw [this]
      exact .refl t
    | cons p after ih =>
      have hfresh : p ∉ before := by
        intro hp
        exact List.disjoint_of_nodup_append (horder ▸ hnodup) hp (by simp)
      refine (halone before p after u horder (by simp [hu, hfresh]) hu).trans
        (ih (before++[p]) _ (by simp [horder]) ?_)
      intro q
      by_cases hq : q = p
      · simp [hq]
      · simp [hq, hu q]
  exact general [] order s rfl (by simp)

end MessagePassing
