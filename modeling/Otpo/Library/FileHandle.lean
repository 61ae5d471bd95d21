import Mathlib.Data.List.Basic

/-!
# Discipline of a file handle

A program opens one file at a time. Its handle may be used and closed while the
file is open; no handle comes of a file that is refused.
-/

set_option autoImplicit false

namespace FileHandle

variable {α : Type*}

inductive Event (α : Type*)
  | opened (file : α)
  | refused (file : α)
  | used
  | closed
  deriving DecidableEq, Repr

namespace Event

def file? : Event α → Option α
  | opened file => some file
  | refused file => some file
  | used => none
  | closed => none

end Event

def step : Bool → Event α → Option Bool
  | false, .opened _ => some true
  | false, .refused _ => some false
  | true, .used => some true
  | true, .closed => some false
  | _, _ => none

def run : Bool → List (Event α) → Option Bool
  | isOpen, [] => some isOpen
  | isOpen, e::es => (step isOpen e).bind (run · es)

def Disciplined (es : List (Event α)) : Prop := run false es = some false

instance (es : List (Event α)) : Decidable (Disciplined es) :=
  inferInstanceAs (Decidable (run false es = some false))

theorem run_append (isOpen : Bool) (es fs : List (Event α)) :
    run isOpen (es ++ fs) = (run isOpen es).bind (run · fs) := by
  induction es generalizing isOpen with
  | nil => rfl
  | cons e es ih =>
    rw [List.cons_append, run, run, Option.bind_assoc]
    exact congrArg _ (funext fun b => ih b)

theorem run_used {es : List (Event α)} (h : ∀ e ∈ es, e = .used) : run true es = some true := by
  induction es with
  | nil => rfl
  | cons e es ih =>
    rw [List.forall_mem_cons] at h
    rw [run, h.1]
    exact ih h.2

end FileHandle
