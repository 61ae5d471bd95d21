import Otpo.ResultFile

/-!
# The lines of a result file

Each line that fits the buffer is read at once, and its first character tells
what kind of line it is.
-/

set_option autoImplicit false

namespace Otpo.ResultLines
open Otpo.ParamList Otpo.NumberText Otpo.ValueMerge Otpo.ResultFile

def Unbroken (s : Text) : Prop := ∀ c ∈ s, isSpace c = false

structure Named (name : Text) : Prop where
  letter : ∃ c cs, name = c::cs ∧ c.isAlpha = true
  unbroken : Unbroken name

structure Written (names : List Text) (b : Bucket) : Prop where
  finite : Finite b.result
  count : b.rows.length < 2^31
  width : ∀ row ∈ b.rows, row.length = names.length
  values : ∀ row ∈ b.rows, ∀ v ∈ row, v ≠ [] ∧ Unbroken v

def Fits (names : List Text) (b : Bucket) : Prop :=
  ∀ row ∈ b.rows, ∀ q ∈ names.zip row, q.1.length+q.2.length+2 < lineSize

def line (l : Text) : Text := l ++ ['\n']

section Lines

variable {names : List Text} {b : Bucket} {buckets : List Bucket} {q : Text × Text}

theorem newline_space {s : Text} (h : Unbroken s) : '\n' ∉ s :=
  fun hc => absurd (h '\n' hc) (by decide)

theorem header_line (h : Written names b) :
    '\n' ∉ header b ∧ (header b).length < lineSize-1 := by
  have hfixed : '\n' ∉ printF b.result := fun hc => by
    rcases mem_print_f hc with hd | hd | hd <;> exact absurd hd (by decide)
  have hcount : '\n' ∉ printD b.rows.length := fun hc => absurd (print_digits hc) (by decide)
  have hlength : (printD b.rows.length).length ≤ 10 :=
    print_length_le (by decide) (h.count.trans (by decide))
  have hresult := print_f_length h.finite
  constructor
  · rw [header, List.mem_append, List.mem_cons]
    rintro (hc | hc | hc)
    · exact hfixed hc
    · exact absurd hc (by decide)
    · exact hcount hc
  · rw [header, List.length_append, List.length_cons, lineSize]
    omega

theorem row_lines (hn : ∀ n ∈ names, Named n) (h : Written names b) (hf : Fits names b)
    {row : List Text} (hrow : row ∈ b.rows) {l : Text} (hl : l ∈ rowLines names row) :
    '\n' ∉ l ∧ l.length < lineSize-1 := by
  rcases List.mem_append.mp hl with hl | hl
  · obtain ⟨q, hq, rfl⟩ := List.mem_map.mp hl
    have hname := newline_space (hn q.1 (List.of_mem_zip hq).1).unbroken
    have hvalue := newline_space (h.values row hrow q.2 (List.of_mem_zip hq).2).2
    have hlength := hf row hrow q hq
    constructor
    · rw [entryLine, List.mem_append, List.mem_cons]
      rintro (hc | hc | hc)
      · exact hname hc
      · exact absurd hc (by decide)
      · exact hvalue hc
    · rw [entryLine, List.length_append, List.length_cons]
      rw [lineSize] at hlength ⊢
      omega
  · rw [List.mem_singleton.mp hl]
    exact ⟨by decide, by decide⟩

theorem bucket_lines (hn : ∀ n ∈ names, Named n) (h : Written names b) (hf : Fits names b)
    {l : Text} (hl : l ∈ bucketLines names b) : '\n' ∉ l ∧ l.length < lineSize-1 := by
  rcases List.mem_cons.mp hl with rfl | hl
  · exact ⟨List.not_mem_nil, by decide⟩
  rcases List.mem_cons.mp hl with rfl | hl
  · exact ⟨by decide, by decide⟩
  rcases List.mem_cons.mp hl with rfl | hl
  · exact header_line h
  · obtain ⟨row, hrow, hl⟩ := List.mem_flatMap.mp hl
    exact row_lines hn h hf hrow hl

/-- The file is read line by line. -/
theorem lines_written (hn : ∀ n ∈ names, Named n) (h : ∀ b ∈ buckets, Written names b)
    (hf : ∀ b ∈ buckets, Fits names b) :
    fgetsLines (writeFile names buckets) = (fileLines names buckets).map line := by
  refine BoundedLines.lines_flatten fun l hl => ?_
  obtain ⟨b, hb, hl⟩ := List.mem_flatMap.mp hl
  exact bucket_lines hn (h b hb) (hf b hb) hl

end Lines

section Tokens

variable {s v : Text} {name : Text}

theorem clean_unbroken (hne : s ≠ []) (h : Unbroken s) :
    Tokenizer.Clean isConditionDelimiter s := by
  refine ⟨hne, fun c hc => ?_⟩
  have hspace := h c hc
  rw [isConditionDelimiter]
  by_contra hd
  rw [Bool.not_eq_false, Bool.or_eq_true, Bool.or_eq_true, beq_iff_eq, beq_iff_eq,
    beq_iff_eq] at hd
  rcases hd with (rfl | rfl) | rfl <;> exact absurd hspace (by decide)

theorem named_clean (h : Named name) : Tokenizer.Clean isConditionDelimiter name := by
  obtain ⟨c, cs, hcs, _⟩ := h.letter
  exact clean_unbroken (hcs ▸ List.cons_ne_nil c cs) h.unbroken

theorem two_tokens {first second : Text} (hf : Tokenizer.Clean isConditionDelimiter first)
    (hs : Tokenizer.Clean isConditionDelimiter second) :
    twoTokens (first ++ ' '::(second ++ ['\n'])) = some (first, second) := by
  have hblank : Tokenizer.Blank isConditionDelimiter [] := fun c hc => by cases hc
  have hfirst := Tokenizer.next_token (s := second ++ ['\n']) hblank hf
    (x := ' ') (by decide)
  have hsecond := Tokenizer.next_token (s := []) hblank hs (x := '\n') (by decide)
  rw [List.nil_append] at hfirst hsecond
  simp only [twoTokens, hfirst, hsecond, Option.map_some]

theorem entry_tokens (hn : Named name) (hv : v ≠ [] ∧ Unbroken v) :
    twoTokens (line (entryLine (name, v))) = some (name, v) := by
  rw [line, entryLine, List.append_assoc, List.cons_append]
  exact two_tokens (named_clean hn) (clean_unbroken hv.1 hv.2)

theorem entry_starts (hn : Named name) {c : Char} (hc : c.isAlpha = false) :
    startsWith c (line (entryLine (name, v))) = false := by
  obtain ⟨d, ds, rfl, hd⟩ := hn.letter
  change (some d == some c) = false
  rw [beq_eq_false_iff_ne]
  rintro ⟨⟩
  rw [hc] at hd
  cases hd

theorem header_tokens {b : Bucket} :
    twoTokens (line (header b)) = some (printF b.result, printD b.rows.length) := by
  have hfixed : Unbroken (printF b.result) := fun c hc => by
    rcases mem_print_f hc with hd | rfl | rfl
    · exact digit_not_space hd
    · decide
    · decide
  have hcount : Unbroken (printD b.rows.length) := fun c hc => digit_not_space (print_digits hc)
  rw [line, header, List.append_assoc, List.cons_append]
  exact two_tokens (clean_unbroken (print_f_ne_nil _) hfixed)
    (clean_unbroken (print_ne_nil _) hcount)

theorem header_starts {b : Bucket} {c : Char} (hc : c.isDigit = false) (hdot : c ≠ '.')
    (hminus : c ≠ '-') : startsWith c (line (header b)) = false := by
  obtain ⟨d, ds, hd⟩ := List.exists_cons_of_ne_nil (print_f_ne_nil b.result)
  have hmem : d ∈ printF b.result := hd ▸ List.mem_cons_self
  rw [line, header, hd]
  change (some d == some c) = false
  rw [beq_eq_false_iff_ne]
  rintro ⟨⟩
  rcases mem_print_f hmem with h | h | h
  · rw [hc] at h
    cases h
  · exact hdot h
  · exact hminus h

end Tokens

end Otpo.ResultLines
