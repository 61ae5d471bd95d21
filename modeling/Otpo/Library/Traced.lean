import Mathlib.Data.List.Basic

/-!
# Computations that leave a trace

A computation shows events and then returns, stops with a fault or is still
running when its fuel is used up.
-/

set_option autoImplicit false

structure Traced (E F A : Type) where
  events : List E
  outcome : Option (Except F A)
  deriving DecidableEq, Repr

namespace Traced

variable {E F A B : Type}

def emits (events : List E) : Traced E F Unit := ⟨events, some (.ok ())⟩

def emit (event : E) : Traced E F Unit := emits [event]

def lift (x : Except F A) : Traced E F A := ⟨[], some x⟩

def running : Traced E F A := ⟨[], none⟩

def bind (x : Traced E F A) (f : A → Traced E F B) : Traced E F B :=
  match x.outcome with
  | some (.ok a) => ⟨x.events ++ (f a).events, (f a).outcome⟩
  | some (.error fault) => ⟨x.events, some (.error fault)⟩
  | none => ⟨x.events, none⟩

instance : Monad (Traced E F) where
  pure a := lift (.ok a)
  bind := bind

variable {x : Traced E F A} {f : A → Traced E F B} {a : A} {b : B}

@[simp] theorem emits_bind (events : List E) (f : Unit → Traced E F B) :
    (emits events >>= f) = ⟨events ++ (f ()).events, (f ()).outcome⟩ := rfl

@[simp] theorem emit_bind (event : E) (f : Unit → Traced E F B) :
    (emit event >>= f) = ⟨event::(f ()).events, (f ()).outcome⟩ := rfl

@[simp] theorem lift_ok_bind (a : A) (f : A → Traced E F B) : (lift (.ok a) >>= f) = f a := rfl

theorem bind_ok (h : x.outcome = some (.ok a)) :
    (x >>= f) = ⟨x.events ++ (f a).events, (f a).outcome⟩ := by
  change bind x f = _
  rw [bind, h]

theorem outcome_bind_ok : (x >>= f).outcome = some (.ok b) ↔
    ∃ a, x.outcome = some (.ok a) ∧ (f a).outcome = some (.ok b) := by
  change (bind x f).outcome = _ ↔ _
  rw [bind]
  rcases h : x.outcome with _ | fault | a <;> simp

/-- The events before do not matter for the outcome. -/
theorem outcome_bind_congr {y : Traced E F A} (h : x.outcome = y.outcome) :
    (x >>= f).outcome = (y >>= f).outcome := by
  change (bind x f).outcome = (bind y f).outcome
  rw [bind, bind, h]
  split <;> rfl

/-- What holds of all events before and behind. -/
theorem forall_events_bind {P : E → Prop} : (∀ e ∈ (x >>= f).events, P e) ↔
    (∀ e ∈ x.events, P e) ∧ ∀ a, x.outcome = some (.ok a) → ∀ e ∈ (f a).events, P e := by
  change (∀ e ∈ (bind x f).events, P e) ↔ _
  rw [bind]
  rcases h : x.outcome with _ | fault | a
  · simp
  · simp
  · simp only [List.mem_append, Option.some.injEq, Except.ok.injEq, forall_eq']
    exact ⟨fun hall => ⟨fun e he => hall e (Or.inl he), fun e he => hall e (Or.inr he)⟩,
      fun hall e he => he.elim (hall.1 e) (hall.2 e)⟩

end Traced
