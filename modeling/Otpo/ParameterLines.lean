import Otpo.ParseLine

/-!
# Files of parameter lines

Both passes over a parameter file go from line to line. Where each line holds
one parameter and fits the buffer, the first pass counts the lines and the
second has their parameters.
-/

set_option autoImplicit false

namespace Otpo.ParameterLines
open Otpo.ParamList Otpo.ResultFile Otpo.ParseLine
open Tokenizer (Clean Blank)

def Parsed (p : ListParam) (text : Text) : Prop :=
  ∃ name x rest, Clean isConditionDelimiter name ∧ startsWith '#' name = false ∧
    isBlank x = true ∧ text = name ++ x::rest ∧ parseOptions name rest = .ok p

structure ParsedLine (p : ListParam) (text : Text) : Prop where
  line : ∃ t, text = t ++ ['\n'] ∧ '\n' ∉ t
  parsed : Parsed p text

section Cursor

variable {b r s : Text} {c x : Char}

theorem blank_ne_newline (h : isBlank x = true) : x ≠ '\n' := by
  rintro rfl
  exact absurd h (by decide)

theorem blank_delimiter (h : isBlank x = true) : isConditionDelimiter x = true := by
  simp only [isBlank, Bool.or_eq_true] at h
  simp only [isConditionDelimiter, Bool.or_eq_true]
  exact Or.inl h

theorem blank_delimiters (h : Blank isBlank b) : Blank isConditionDelimiter b := fun c hc =>
  blank_delimiter (h c hc)

theorem blank_one_line (h : Blank isBlank b) : '\n' ∉ b := fun hn =>
  blank_ne_newline (h '\n' hn) rfl

theorem clean_one_line (h : ∀ c ∈ s, isConditionDelimiter c = false) : '\n' ∉ s := fun hn =>
  absurd (h '\n' hn) (by decide)

theorem clean_blank (h : Clean isConditionDelimiter s) : Clean isBlank s := by
  refine ⟨h.1, fun c hc => ?_⟩
  have hd := h.2 c hc
  simp only [isConditionDelimiter, Bool.or_eq_false_iff] at hd
  simp only [isBlank, Bool.or_eq_false_iff]
  exact hd.1

def At (s r : Text) : Prop := r = s ∨ ∃ x, isConditionDelimiter x = true ∧ s = x::r

theorem next_at (h : At s r) :
    Tokenizer.next isConditionDelimiter r = Tokenizer.next isConditionDelimiter s := by
  rcases h with rfl | ⟨x, hx, rfl⟩
  · rfl
  · rw [Tokenizer.next, Tokenizer.next, List.dropWhile_cons_of_pos hx]

theorem parse_loop_at {scan : Scan} (h : At s r) (fuel : ℕ) :
    parseLoop fuel r scan = parseLoop fuel s scan := by
  cases fuel with
  | zero => rfl
  | succ fuel => rw [parseLoop, parseLoop, next_at h]

theorem next_token_eq {d : Char → Bool} {q : Text × Text} (h : Tokenizer.next d s = some q) :
    nextToken d s = .ok q := by
  rw [nextToken, h]

end Cursor

section Files

variable {p : ListParam} {ps qs : List ListParam} {text : Text} {texts : List Text}

theorem name_starts {name : Text} (h : Clean isConditionDelimiter name) :
    ∃ c t, name = c::t ∧ isConditionDelimiter c = false := by
  obtain ⟨c, t, rfl⟩ := List.exists_cons_of_ne_nil h.1
  exact ⟨c, t, rfl, h.2 c List.mem_cons_self⟩

theorem not_newline {c : Char} {t : Text} (h : isConditionDelimiter c = false) :
    startsWith '\n' (c::t) = false := by
  rw [startsWith, List.head?_cons]
  refine beq_eq_false_iff_ne.mpr fun hc => ?_
  cases hc
  exact absurd h (by decide)

theorem line_counted (h : Parsed p text) (texts : List Text) (count : ℕ) :
    countParameters (text::texts) count = countParameters texts (count+1) := by
  obtain ⟨name, x, rest, hname, hparameter, -, rfl, -⟩ := h
  obtain ⟨c, t, rfl, hc⟩ := name_starts hname
  have hblank : (c == ' ') = false := by
    simp only [isConditionDelimiter, Bool.or_eq_false_iff] at hc
    exact hc.1.1
  have hnext := Tokenizer.next_cons (d := fun c => c == ' ') (b := []) (by decide) hblank
    (t ++ x::rest)
  have htoken : ∀ u, startsWith '#' (c::u) = false := fun _ => hparameter
  rw [List.nil_append] at hnext
  simp only [countParameters, List.cons_append, not_newline hc, hnext, htoken, Bool.false_eq_true,
    if_false]

theorem line_parsed {n : ℕ} (h : Parsed p text) (hroom : ps.length < n) (texts : List Text) :
    parse n (text::texts) ps = parse n texts (ps ++ [p]) := by
  obtain ⟨name, x, rest, hname, hparameter, hx, rfl, hoptions⟩ := h
  have hnewline : startsWith '\n' (name ++ x::rest) = false := by
    obtain ⟨c, t, rfl, hc⟩ := name_starts hname
    exact not_newline hc
  have hnext : Tokenizer.next isBlank (name ++ x::rest) = some (name, rest) :=
    Tokenizer.next_token (b := []) (by decide) (clean_blank hname) hx
  simp only [parse, hnewline, lineName, hnext, hparameter, Bool.false_eq_true, if_false,
    if_neg (Nat.not_le.mpr hroom), hoptions]

theorem lines_counted (h : List.Forall₂ ParsedLine ps texts) (count : ℕ) :
    countParameters texts count = .ok (count+ps.length) := by
  induction h generalizing count with
  | nil => rfl
  | cons hl _ ih => rw [line_counted hl.parsed, ih, List.length_cons, Nat.add_assoc, Nat.add_comm 1]

theorem lines_parsed {n : ℕ} (h : List.Forall₂ ParsedLine ps texts)
    (hroom : qs.length+ps.length ≤ n) : parse n texts qs = .ok (qs ++ ps) := by
  induction h generalizing qs with
  | nil => rw [parse, List.append_nil]
  | @cons p text ps texts hl _ ih =>
    rw [List.length_cons] at hroom
    rw [line_parsed hl.parsed (by omega), ih (by rw [List.length_append, List.length_singleton]; omega),
      List.append_assoc]
    rfl

/-- The lines of the file are read one by one. -/
theorem lines_read (h : List.Forall₂ ParsedLine ps texts)
    (hfit : ∀ t ∈ texts, t.length < lineSize) : fgetsLines texts.flatten = texts := by
  induction h with
  | nil => rfl
  | @cons p text ps texts hl _ ih =>
    obtain ⟨t, rfl, ht⟩ := hl.line
    have hlength : t.length < lineSize-1 := by
      have h := hfit _ List.mem_cons_self
      rw [List.length_append, List.length_singleton] at h
      omega
    have htail : fgetsLines texts.flatten = texts :=
      ih fun t ht => hfit t (List.mem_cons_of_mem _ ht)
    rw [List.flatten_cons, List.append_assoc, List.singleton_append, fgetsLines,
      BoundedLines.lines_line ht hlength]
    exact congrArg _ htail

/-- The two passes agree on a file of such lines. -/
theorem file_parsed (h : List.Forall₂ ParsedLine ps texts)
    (hfit : ∀ t ∈ texts, t.length < lineSize) :
    countParameters (fgetsLines texts.flatten) 0 = .ok ps.length ∧
      parse ps.length (fgetsLines texts.flatten) [] = .ok ps := by
  rw [lines_read h hfit]
  refine ⟨?_, lines_parsed h ?_⟩
  · rw [lines_counted h, Nat.zero_add]
  · rw [List.length_nil, Nat.zero_add]

end Files

end Otpo.ParameterLines
