import Mathlib.Data.List.TakeWhile

/-!
# Texts in buffers

A text in a buffer ends in front of the first stop. A bounded print writes no
more places than it is allowed, the stop among them, whatever the size of the
buffer is.
-/

set_option autoImplicit false

namespace TextBuffer

variable {A : Type*}

structure Buffer (A : Type*) where
  room : ℕ
  written : List A
  deriving DecidableEq

def Inside (b : Buffer A) : Prop := b.written.length ≤ b.room

instance (b : Buffer A) : Decidable (Inside b) :=
  inferInstanceAs (Decidable (b.written.length ≤ b.room))

section Writing

variable (stop : A)

def printed (n : ℕ) (s : List A) : List A := if n = 0 then [] else s.take (n-1) ++ [stop]

def copied (s : List A) : Buffer A := ⟨s.length+1, s ++ [stop]⟩

variable {stop} {s : List A} {n room : ℕ}

theorem copied_inside (s : List A) : Inside (copied stop s) := List.length_append.le

theorem printed_all (h : s.length < n) : printed stop n s = s ++ [stop] := by
  have hn : ¬ n = 0 := by omega
  rw [printed, if_neg hn, List.take_of_length_le (by omega)]

theorem printed_inside_iff (h : s.length < n) :
    Inside ⟨room, printed stop n s⟩ ↔ s.length < room := by
  rw [Inside, printed_all h, List.length_append, List.length_singleton, Nat.succ_le_iff]

end Writing

section Reading

variable [DecidableEq A] (stop : A)

def text (b : Buffer A) : List A := b.written.takeWhile (· ≠ stop)

structure Holds (b : Buffer A) (s : List A) : Prop where
  text : text stop b = s
  room : s.length+1 ≤ b.room

variable {stop} {s : List A} {n room : ℕ}

theorem take_while_stop (h : stop ∉ s) (rest : List A) :
    (s ++ stop::rest).takeWhile (· ≠ stop) = s := by
  have hall : ∀ c ∈ s, decide (c ≠ stop) = true := fun c hc =>
    decide_eq_true fun heq => h (heq ▸ hc)
  rw [List.takeWhile_append_of_pos hall, List.takeWhile_cons_of_neg (by simp), List.append_nil]

theorem copied_holds (h : stop ∉ s) : Holds stop (copied stop s) s :=
  ⟨take_while_stop h [], Nat.le_refl _⟩

/-- A print is complete if and only if its bound has a place for the stop. -/
theorem printed_text_iff (h : stop ∉ s) (hn : 0 < n) :
    text stop ⟨room, printed stop n s⟩ = s ↔ s.length < n := by
  constructor
  · intro htext
    have htake : stop ∉ s.take (n-1) := fun hmem => h (List.mem_of_mem_take hmem)
    have hlength := congrArg List.length htext
    rw [text, printed, if_neg (by omega), take_while_stop htake, List.length_take] at hlength
    omega
  · intro hlt
    rw [text, printed_all hlt]
    exact take_while_stop h []

end Reading

end TextBuffer
