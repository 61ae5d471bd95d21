import Mathlib.Data.List.Basic
import Mathlib.Order.Nat

/-!
# Reading lines into a buffer

A text is read in pieces that end behind a line end or where the buffer is full.
-/

set_option autoImplicit false

namespace BoundedLines

variable {α : Type*} [DecidableEq α] (nl : α) (size : ℕ)

def pieces : ℕ → List α → List (List α)
  | _, [] => []
  | room, c::cs =>
    if c = nl ∨ room ≤ 1 then [c]::pieces size cs
    else
      match pieces (room-1) cs with
      | [] => [[c]]
      | l::ls => (c::l)::ls

def lines (s : List α) : List (List α) := pieces nl size size s

variable {nl size}

theorem pieces_line {room : ℕ} {l : List α} (hl : nl ∉ l) (hroom : l.length < room)
    (s : List α) : pieces nl size room (l ++ nl::s) = (l ++ [nl])::lines nl size s := by
  induction l generalizing room with
  | nil =>
    rw [List.nil_append, pieces, if_pos (Or.inl rfl)]
    rfl
  | cons c l ih =>
    rw [List.mem_cons, not_or] at hl
    have hshort : l.length < room-1 := by
      rw [List.length_cons] at hroom
      omega
    have hgo : ¬ (c = nl ∨ room ≤ 1) := by
      rintro (rfl | hle)
      · exact hl.1 rfl
      · rw [List.length_cons] at hroom
        omega
    rw [List.cons_append, pieces, if_neg hgo, ih hl.2 hshort]
    rfl

/-- A line that fits the buffer is read at once. -/
theorem lines_line {l : List α} (hl : nl ∉ l) (hsize : l.length < size) (s : List α) :
    lines nl size (l ++ nl::s) = (l ++ [nl])::lines nl size s := pieces_line hl hsize s

theorem pieces_buffer {room : ℕ} {l : List α} (hl : nl ∉ l) (hroom : l.length = room)
    (hne : l ≠ []) (s : List α) : pieces nl size room (l ++ s) = l::lines nl size s := by
  induction l generalizing room with
  | nil => exact absurd rfl hne
  | cons c l ih =>
    rw [List.mem_cons, not_or] at hl
    rw [List.length_cons] at hroom
    rw [List.cons_append, pieces]
    by_cases hnil : l = []
    · subst hnil
      rw [if_pos (Or.inr (show room ≤ 1 from hroom.ge))]
      rfl
    · have hpos := List.length_pos_iff.mpr hnil
      have hgo : ¬ (c = nl ∨ room ≤ 1) := by
        rintro (rfl | hle)
        · exact hl.1 rfl
        · omega
      rw [if_neg hgo, ih hl.2 (by omega) hnil]

/-- As much of a line as fills the buffer is read at once. -/
theorem lines_buffer {l : List α} (hl : nl ∉ l) (hsize : l.length = size) (hne : l ≠ [])
    (s : List α) : lines nl size (l ++ s) = l::lines nl size s := pieces_buffer hl hsize hne s

/-- A text of lines that fit is read line by line. -/
theorem lines_flatten {ls : List (List α)} (h : ∀ l ∈ ls, nl ∉ l ∧ l.length < size) :
    lines nl size (ls.flatMap fun l => l ++ [nl]) = ls.map fun l => l ++ [nl] := by
  induction ls with
  | nil => rfl
  | cons l ls ih =>
    obtain ⟨hl, hsize⟩ := h l List.mem_cons_self
    rw [List.flatMap_cons, List.append_assoc, List.singleton_append, lines_line hl hsize,
      ih fun m hm => h m (List.mem_cons_of_mem l hm)]
    rfl

theorem pieces_length {room : ℕ} (hroom : 0 < room) (hle : room ≤ size) (s : List α) :
    (∀ l ∈ (pieces nl size room s).head?, l.length ≤ room) ∧
      ∀ l ∈ pieces nl size room s, l.length ≤ size := by
  induction s generalizing room with
  | nil => exact ⟨fun l hl => (nomatch hl), fun l hl => (nomatch hl)⟩
  | cons c s ih =>
    rw [pieces]
    split_ifs with hstop
    · refine ⟨fun l hl => ?_, List.forall_mem_cons.mpr ⟨?_, (ih (by omega) (le_refl size)).2⟩⟩
      · cases hl
        exact hroom
      · exact (show 1 ≤ size by omega)
    · have hmore : 1 < room := not_le.mp fun h => hstop (Or.inr h)
      obtain ⟨hhead, hall⟩ := ih (show 0 < room-1 by omega) (by omega)
      split
      · refine ⟨fun l hl => ?_, List.forall_mem_singleton.mpr (show 1 ≤ size by omega)⟩
        cases hl
        exact hroom
      · next l ls hpieces =>
        rw [hpieces] at hhead hall
        have hfirst : l.length+1 ≤ room := by
          have hlength := hhead l rfl
          omega
        refine ⟨fun m hm => ?_, List.forall_mem_cons.mpr ⟨hfirst.trans hle, fun m hm => ?_⟩⟩
        · cases hm
          exact hfirst
        · exact hall m (List.mem_cons_of_mem l hm)

theorem lines_length (hsize : 0 < size) {s l : List α} (h : l ∈ lines nl size s) :
    l.length ≤ size := (pieces_length hsize (le_refl size) s).2 l h

variable (nl size)

/-- A line of any length is read in pieces that make it up. -/
theorem pieces_split (l : List α) (room : ℕ) (s : List α) :
    ∃ ps, pieces nl size room (l ++ nl::s) = ps ++ lines nl size s ∧ ps ≠ [] ∧
      ps.flatten = l ++ [nl] := by
  induction l generalizing room with
  | nil =>
    refine ⟨[[nl]], ?_, List.cons_ne_nil _ _, rfl⟩
    rw [List.nil_append, pieces, if_pos (Or.inl rfl)]
    rfl
  | cons c l ih =>
    by_cases hstop : c = nl ∨ room ≤ 1
    · obtain ⟨ps, hpieces, -, hflatten⟩ := ih size
      refine ⟨[c]::ps, ?_, List.cons_ne_nil _ _, ?_⟩
      · rw [List.cons_append, pieces, if_pos hstop, hpieces, List.cons_append]
      · rw [List.flatten_cons, hflatten]
        rfl
    · obtain ⟨ps, hpieces, hne, hflatten⟩ := ih (room-1)
      obtain ⟨q, qs, rfl⟩ := List.exists_cons_of_ne_nil hne
      refine ⟨(c::q)::qs, ?_, List.cons_ne_nil _ _, ?_⟩
      · rw [List.cons_append, pieces, if_neg hstop, hpieces]
        rfl
      · rw [List.flatten_cons] at hflatten ⊢
        rw [List.cons_append, hflatten]
        rfl

/-- Each piece of a line is a part of it. -/
theorem lines_split (l s : List α) : ∃ ps, lines nl size (l ++ nl::s) = ps ++ lines nl size s ∧
    ∀ p ∈ ps, p <:+: l ++ [nl] := by
  obtain ⟨ps, hpieces, -, hflatten⟩ := pieces_split nl size l size s
  exact ⟨ps, hpieces, fun p hp => hflatten ▸ List.infix_of_mem_flatten hp⟩

end BoundedLines
