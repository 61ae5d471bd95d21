import Otpo.FormatLine
import Otpo.Library.RelatedResults

/-!
# The parser reads the documented format

The scanner, started in front of the rendered options of a line, has after
each of them the record of the options so far. The list and the condition are
still texts there, whose tokens are those of the line.
-/

set_option autoImplicit false

namespace Otpo.ParseFormat
open Otpo.ParamList Otpo.ResultFile Otpo.NumberText Otpo.ParseLine Otpo.ParameterLines
open Otpo.FormatLine
open Tokenizer (Clean Blank Separated)

section Records

def scanned (l : Line) (condition : Text) : ListParam where
  name := l.name
  isVirtual := l.isVirtual
  isAggregate := l.aggregate.isSome
  stringValues := l.aggregate.toList
  defaultValue := l.default
  possibleValues := l.aggregate.map fun _ => [0]
  startValue := l.range.map Prod.fst
  endValue := l.range.map Prod.snd
  traverse := l.traversal.map fun _ => .increment
  operation := l.traversal.map Prod.fst
  increment := l.traversal.map Prod.snd
  condition := condition

def record (l : Line) (condition : Text) : ListParam :=
  { scanned l condition with
    stringValues := l.values
    possibleValues := l.list.elim (l.aggregate.map fun _ => [0]) fun _ => some (codes l.values) }

def Represents (l : Line) (s : Scan) : Prop :=
  ∃ condition valuesString, s = ⟨scanned l condition, valuesString⟩ ∧
    strtok isConditionDelimiter condition = l.tokens ∧
    valuesString.map (strtok isListDelimiter) = l.list

theorem represents_bare (name : Text) : Represents (Line.bare name) ⟨newParam name, none⟩ :=
  ⟨[], none, rfl, rfl, rfl⟩

theorem finish_line {l : Line} {s : Scan} (h : Represents l s)
    (hvalues : l.values.length ≤ maxValues) :
    ∃ condition, finishLine s = .ok (record l condition) ∧
      strtok isConditionDelimiter condition = l.tokens := by
  obtain ⟨condition, valuesString, rfl, htokens, hlist⟩ := h
  refine ⟨condition, ?_, htokens⟩
  cases valuesString with
  | none =>
    rw [Option.map_none] at hlist
    simp only [finishLine, record, Line.values, ← hlist]
    simp only [Option.elim_none, Option.getD_none, List.append_nil]
    rfl
  | some values =>
    rw [Option.map_some] at hlist
    have heq : (scanned l condition).stringValues ++ strtok isListDelimiter values = l.values := by
      rw [Line.values, ← hlist]
      rfl
    simp only [finishLine, setValues, heq, if_neg (Nat.not_lt.mpr hvalues), record, ← hlist]
    rfl

end Records

section Options

variable {b t s r : Text} {l : Line} {scan : Scan} {x : Char}

def Follows (s : Text) : Prop := s = ['\n'] ∨ ∃ x r, isBlank x = true ∧ s = x::r

theorem follows_delimiter (h : Follows s) : ∃ x r, isConditionDelimiter x = true ∧ s = x::r := by
  rcases h with rfl | ⟨x, r, hx, rfl⟩
  · exact ⟨'\n', [], rfl, rfl⟩
  · exact ⟨x, r, blank_delimiter hx, rfl⟩

theorem run_cons (h : Run b) : ∃ x b', isBlank x = true ∧ Blank isBlank b' ∧ b = x::b' := by
  obtain ⟨hne, hblank⟩ := h
  cases b with
  | nil => exact absurd rfl hne
  | cons x b =>
    exact ⟨x, b, hblank x List.mem_cons_self,
      fun c hc => hblank c (List.mem_cons_of_mem x hc), rfl⟩

/-- A word in front of a run of blanks. -/
theorem next_word {d : Char → Bool} {w b' : Text} (hd : ∀ c, isBlank c = true → d c = true)
    (hb : Blank isBlank b) (hw : Clean d w) (hb' : Run b') (s : Text) :
    ∃ b'', Blank isBlank b'' ∧ nextToken d (b ++ (w ++ (b' ++ s))) = .ok (w, b'' ++ s) := by
  obtain ⟨y, b'', hy, hblank, rfl⟩ := run_cons hb'
  exact ⟨b'', hblank,
    next_token_eq (Tokenizer.next_token (fun c hc => hd c (hb c hc)) hw (hd y hy))⟩

/-- A word at the end of an option. -/
theorem next_last_word {w : Text} (hb : Blank isBlank b) (hw : Clean isConditionDelimiter w)
    (hs : Follows s) :
    ∃ r, At s r ∧ nextToken isConditionDelimiter (b ++ (w ++ s)) = .ok (w, r) := by
  obtain ⟨x, r, hx, rfl⟩ := follows_delimiter hs
  exact ⟨r, Or.inr ⟨x, hx, rfl⟩, next_token_eq (Tokenizer.next_token (blank_delimiters hb) hw hx)⟩

theorem clean_int (z : ℤ) : Clean isBlank (printInt z) := by
  refine ⟨print_int_ne_nil z, fun c hc => ?_⟩
  cases hblank : isBlank c with
  | false => rfl
  | true =>
    simp only [isBlank, Bool.or_eq_true, beq_iff_eq] at hblank
    rcases mem_print_int hc with h | h <;> rcases hblank with rfl | rfl <;>
      exact absurd h (by decide)

theorem read_int {rest : Text} (hrest : ∀ c ∈ rest.head?, c.isDigit = false) {z : ℤ}
    (hz : IsInt z) (message : String) : readInteger message (printInt z ++ rest) = .ok z := by
  have hzero : ¬ ((printInt z ++ rest).head? ≠ some '0' ∧ z = 0) := by
    rintro ⟨hhead, rfl⟩
    exact hhead rfl
  rw [readInteger, atoi_print_int hrest hz, if_neg hzero]

theorem read_int_alone {z : ℤ} (hz : IsInt z) (message : String) :
    readInteger message (printInt z) = .ok z := by
  have h : readInteger message (printInt z ++ []) = .ok z :=
    read_int (fun c hc => by cases hc) hz message
  rwa [List.append_nil] at h

/-- The number at the end of an option may take the line end with it. -/
theorem next_last_int (hb : Blank isBlank b) {z : ℤ} (hz : IsInt z) (hs : Follows s)
    (message : String) :
    ∃ token r, At s r ∧ nextToken isBlank (b ++ (printInt z ++ s)) = .ok (token, r) ∧
      readInteger message token = .ok z := by
  rcases hs with rfl | ⟨x, r, hx, rfl⟩
  · have hclean : Clean isBlank (printInt z ++ ['\n']) := by
      refine ⟨List.append_ne_nil_of_left_ne_nil (print_int_ne_nil z) _, fun c hc => ?_⟩
      rcases List.mem_append.mp hc with hc | hc
      · exact (clean_int z).2 c hc
      · rw [List.mem_singleton.mp hc]
        rfl
    exact ⟨printInt z ++ ['\n'], [], Or.inr ⟨'\n', rfl, rfl⟩,
      next_token_eq (Tokenizer.next_last hb hclean),
      read_int (fun c hc => by cases hc; rfl) hz message⟩
  · exact ⟨printInt z, r, Or.inr ⟨x, blank_delimiter hx, rfl⟩,
      next_token_eq (Tokenizer.next_token hb (clean_int z) hx), read_int_alone hz message⟩

end Options

section Steps

variable {b t s u r : Text} {l : Line} {scan : Scan} {o : LineOption}

def Taken (l : Line) (scan : Scan) (o : LineOption) (u s : Text) : Prop :=
  ∃ flag x r r' scan', u = flag ++ x::r ∧ Clean isConditionDelimiter flag ∧
    isConditionDelimiter x = true ∧ parseOption r scan flag = .ok (r', scan') ∧ At s r' ∧
    Represents (l.add o) scan'

theorem taken_virtual (hs : Follows s) (h : Represents l scan) :
    Taken l scan .isVirtual ("-v".toList ++ s) s := by
  obtain ⟨x, r, hx, rfl⟩ := follows_delimiter hs
  obtain ⟨condition, valuesString, rfl, htokens, hlist⟩ := h
  exact ⟨"-v".toList, x, r, r, _, rfl, by decide, hx, rfl, Or.inr ⟨x, hx, rfl⟩,
    condition, valuesString, rfl, htokens, hlist⟩

theorem taken_default {value : Text} (hb : Run b) (hvalue : Clean isConditionDelimiter value)
    (hs : Follows s) (h : Represents l scan) :
    Taken l scan (.default value) ("-d".toList ++ (b ++ (value ++ s))) s := by
  obtain ⟨x, b, hx, hblank, rfl⟩ := run_cons hb
  obtain ⟨r, hat, hnext⟩ := next_last_word hblank hvalue hs
  obtain ⟨condition, valuesString, rfl, htokens, hlist⟩ := h
  refine ⟨"-d".toList, x, b ++ (value ++ s), r, _, rfl, by decide,
    blank_delimiter hx, ?_, hat, condition, valuesString, rfl, htokens, hlist⟩
  change parseDefault _ _ = _
  rw [parseDefault, hnext]
  rfl

theorem taken_list {values : List Text} {x : Char} {inner : Text} (hx : isBlank x = true)
    (hne : values ≠ []) (hseparated : Separated isListDelimiter values inner)
    (htext : ∀ c ∈ inner, isBrace c = false) (h : Represents l scan) :
    Taken l scan (.list values) ("-p".toList ++ x:: '{'::(inner ++ '}'::s)) s := by
  have htokens : strtok isListDelimiter inner = values := Tokenizer.tokens_separated hseparated
  have hinner : inner ≠ [] := by
    rintro rfl
    exact hne htokens.symm
  have hnext : nextToken isBrace ('{'::(inner ++ '}'::s)) = .ok (inner, s) :=
    next_token_eq (Tokenizer.next_token (b := ['{']) (by decide) ⟨hinner, htext⟩ rfl)
  obtain ⟨condition, valuesString, rfl, hcondition, -⟩ := h
  refine ⟨"-p".toList, x, '{'::(inner ++ '}'::s), s, _, rfl, by decide,
    blank_delimiter hx, ?_, Or.inl rfl, condition, some inner, rfl, hcondition, ?_⟩
  · change parseValues _ _ = _
    rw [parseValues, hnext]
    rfl
  · rw [Option.map_some, htokens]
    rfl

theorem taken_aggregate {x : Char} {format : Text} (hx : isBlank x = true)
    (hformat : Clean isQuote format) (h : Represents l scan) :
    Taken l scan (.aggregate format) ("-a".toList ++ x:: '\"'::(format ++ '\"'::s)) s := by
  have hnext : nextToken isQuote ('\"'::(format ++ '\"'::s)) = .ok (format, s) :=
    next_token_eq (Tokenizer.next_token (b := ['\"']) (by decide) hformat rfl)
  obtain ⟨condition, valuesString, rfl, hcondition, hlist⟩ := h
  refine ⟨"-a".toList, x, '\"'::(format ++ '\"'::s), s, _, rfl, by decide,
    blank_delimiter hx, ?_, Or.inl rfl, condition, valuesString, rfl, hcondition, hlist⟩
  change parseAggregate _ _ = _
  rw [parseAggregate, hnext]
  rfl

theorem taken_range {b₁ b₂ : Text} {startValue endValue : ℤ} (h₁ : Run b₁) (h₂ : Run b₂)
    (hstart : IsInt startValue) (hend : IsInt endValue) (hs : Follows s) (h : Represents l scan) :
    Taken l scan (.range startValue endValue)
      ("-r".toList ++ (b₁ ++ (printInt startValue ++ (b₂ ++ (printInt endValue ++ s))))) s := by
  obtain ⟨x, b₁, hx, hblank, rfl⟩ := run_cons h₁
  obtain ⟨b₃, hb₃, hfirst⟩ := next_word (fun _ h => h) hblank (clean_int startValue) h₂
    (printInt endValue ++ s)
  obtain ⟨token, r, hat, hlast, hread⟩ := next_last_int hb₃ hend hs "Invalid End Value"
  obtain ⟨condition, valuesString, rfl, hcondition, hlist⟩ := h
  refine ⟨"-r".toList, x, b₁ ++ (printInt startValue ++ (b₂ ++ (printInt endValue ++ s))), r, _,
    rfl, by decide, blank_delimiter hx, ?_, hat, condition, valuesString, rfl,
    hcondition, hlist⟩
  change parseRange _ _ = _
  simp only [parseRange, bind, Except.bind, hfirst, read_int_alone hstart, hlast, hread]
  rfl

theorem sign_clean {c : Char} {operation : Operator} (h : (c, operation) ∈ operationSigns) :
    isBlank c = false ∧ operationOf c = some operation := by
  simp only [operationSigns, List.mem_cons, Prod.mk.injEq, List.not_mem_nil, or_false] at h
  rcases h with ⟨rfl, rfl⟩ | ⟨rfl, rfl⟩ | ⟨rfl, rfl⟩ | ⟨rfl, rfl⟩ <;> exact ⟨rfl, rfl⟩

theorem taken_traversal {b₁ b₂ b₃ : Text} {c : Char} {operation : Operator} {increment : ℤ}
    (h₁ : Run b₁) (h₂ : Run b₂) (h₃ : Run b₃) (hsign : (c, operation) ∈ operationSigns)
    (hincrement : IsInt increment) (hs : Follows s) (h : Represents l scan) :
    Taken l scan (.traversal operation increment) ("-t".toList ++ (b₁ ++ ("increment".toList ++
      (b₂ ++ ([c] ++ (b₃ ++ (printInt increment ++ s))))))) s := by
  obtain ⟨hc, hoperation⟩ := sign_clean hsign
  have hsingle : Clean isBlank [c] := ⟨List.cons_ne_nil _ _, fun d hd => by
    rw [List.mem_singleton.mp hd, hc]⟩
  obtain ⟨x, b₁, hx, hblank, rfl⟩ := run_cons h₁
  obtain ⟨b₄, hb₄, hmethod⟩ := next_word (fun _ => blank_delimiter) hblank
    (by decide : Clean isConditionDelimiter "increment".toList) h₂
    ([c] ++ (b₃ ++ (printInt increment ++ s)))
  obtain ⟨b₅, hb₅, hoperator⟩ := next_word (fun _ h => h) hb₄ hsingle h₃ (printInt increment ++ s)
  obtain ⟨token, r, hat, hoperand, hread⟩ := next_last_int hb₅ hincrement hs "Invalid End Value"
  obtain ⟨condition, valuesString, rfl, hcondition, hlist⟩ := h
  refine ⟨"-t".toList, x, b₁ ++ ("increment".toList ++
    (b₂ ++ ([c] ++ (b₃ ++ (printInt increment ++ s))))), r, _, rfl, by decide,
    blank_delimiter hx, ?_, hat, condition, valuesString, rfl, hcondition, hlist⟩
  change parseTraversal _ _ = _
  simp only [parseTraversal, bind, Except.bind, hmethod, hoperator, if_true, List.head?_cons,
    Option.bind_some, hoperation, hoperand, hread]
  rfl

theorem taken_condition {first rest : Text} {x : Char} {tokens : List Text} (hb : Run b)
    (hx : isBlank x = true) (hne : rest ≠ []) (hword : ∀ c ∈ first, isConditionDelimiter c = false)
    (htext : ∀ c ∈ first ++ rest, isQuote c = false)
    (hseparated : Separated isConditionDelimiter tokens (first ++ x::rest))
    (hshort : first.length+rest.length+1 < conditionLength) (h : Represents l scan) :
    Taken l scan (.condition tokens)
      ("-i".toList ++ (b ++ '\"'::(first ++ x::(rest ++ '\"'::s)))) s := by
  obtain ⟨y, b, hy, hblank, rfl⟩ := run_cons hb
  have hquoted : Clean isConditionDelimiter ('\"'::first) := by
    refine ⟨List.cons_ne_nil _ _, fun c hc => ?_⟩
    rcases List.mem_cons.mp hc with rfl | hc
    · rfl
    · exact hword c hc
  have hfirst : nextToken isConditionDelimiter (b ++ '\"'::(first ++ x::(rest ++ '\"'::s))) =
      .ok ('\"'::first, rest ++ '\"'::s) :=
    next_token_eq (Tokenizer.next_token (blank_delimiters hblank) hquoted (blank_delimiter hx))
  have hrest : nextToken isQuote (rest ++ '\"'::s) = .ok (rest, s) :=
    next_token_eq (Tokenizer.next_token (b := []) (fun c hc => by cases hc)
      ⟨hne, fun c hc => htext c (List.mem_append_right _ hc)⟩ rfl)
  have htokens : strtok isConditionDelimiter (first ++ ' '::rest) = tokens :=
    (Tokenizer.tokens_replace hword rfl (blank_delimiter hx)).trans
      (Tokenizer.tokens_separated hseparated)
  obtain ⟨condition, valuesString, rfl, -, hlist⟩ := h
  refine ⟨"-i".toList, y, b ++ '\"'::(first ++ x::(rest ++ '\"'::s)), s, _, rfl,
    by decide, blank_delimiter hy, ?_, Or.inl rfl, first ++ ' '::rest, valuesString,
    rfl, htokens, hlist⟩
  have hlong : ¬ conditionLength < rest.length+first.length+1 := by omega
  have hfull : ¬ conditionLength = rest.length+first.length+1 := by omega
  change parseCondition _ _ = _
  simp only [parseCondition, bind, Except.bind, hfirst, hrest]
  exact (if_neg hlong).trans (if_neg hfull)

/-- Every option of the format is taken. -/
theorem taken_rendered (ho : Rendered o t) (hs : Follows s) (h : Represents l scan) :
    Taken l scan o (t ++ s) s := by
  cases ho with
  | isVirtual => exact taken_virtual hs h
  | default hb hvalue =>
    simpa only [List.append_assoc] using taken_default hb hvalue hs h
  | list hx hne hseparated htext =>
    simpa only [List.append_assoc, List.cons_append, List.nil_append] using
      taken_list hx hne hseparated (fun c hc => (htext c hc).1) h
  | aggregate hx hformat =>
    simpa only [List.append_assoc, List.cons_append, List.nil_append] using
      taken_aggregate hx hformat h
  | range h₁ h₂ hstart hend =>
    simpa only [List.append_assoc] using taken_range h₁ h₂ hstart hend hs h
  | traversal h₁ h₂ h₃ hsign hincrement =>
    simpa only [List.append_assoc] using taken_traversal h₁ h₂ h₃ hsign hincrement hs h
  | condition hb hx hne hword htext hseparated hshort =>
    simpa only [List.append_assoc, List.cons_append, List.nil_append] using
      taken_condition hb hx hne hword (fun c hc => (htext c hc).1) hseparated hshort h

theorem loop_taken (hb : Blank isBlank b) (h : Taken l scan o u s) :
    ∃ scan', Represents (l.add o) scan' ∧
      ∀ fuel, parseLoop (fuel+1) (b ++ u) scan = parseLoop fuel s scan' := by
  obtain ⟨flag, x, r, r', scan', rfl, hflag, hx, hoption, hat, hrepresents⟩ := h
  refine ⟨scan', hrepresents, fun fuel => ?_⟩
  rw [parseLoop, Tokenizer.next_token (blank_delimiters hb) hflag hx]
  simp only [hoption]
  exact parse_loop_at hat fuel

end Steps

section Lines

variable {s text : Text} {os : List LineOption} {l : Line} {scan : Scan}

theorem rendered_follows (h : RenderedOptions os s) : Follows s := by
  cases h with
  | @done b hb =>
    cases b with
    | nil => exact Or.inl rfl
    | cons x b => exact Or.inr ⟨x, b ++ ['\n'], hb x List.mem_cons_self, rfl⟩
  | option hb _ _ =>
    obtain ⟨x, b, hx, -, rfl⟩ := run_cons hb
    exact Or.inr ⟨x, _, hx, rfl⟩

theorem rendered_length (h : RenderedOptions os s) : os.length < s.length := by
  induction h with
  | done => simp only [List.length_nil, List.length_append, List.length_singleton]; omega
  | @option b t s o os hb _ _ ih =>
    have hb := List.length_pos_iff.mpr hb.1
    simp only [List.length_cons, List.length_append]
    omega

/-- The loop over the options of a line. -/
theorem loop_rendered (h : RenderedOptions os s) {fuel : ℕ} (hscan : Represents l scan)
    (hfuel : os.length < fuel) (hvalues : (os.foldl Line.add l).values.length ≤ maxValues) :
    ∃ condition, parseLoop fuel s scan = .ok (record (os.foldl Line.add l) condition) ∧
      strtok isConditionDelimiter condition = (os.foldl Line.add l).tokens := by
  induction h generalizing l scan fuel with
  | @done b hb =>
    obtain ⟨fuel, rfl⟩ := Nat.exists_eq_succ_of_ne_zero (Nat.ne_zero_of_lt hfuel)
    have hblank : Blank isConditionDelimiter (b ++ ['\n']) := by
      intro c hc
      rcases List.mem_append.mp hc with hc | hc
      · exact blank_delimiter (hb c hc)
      · rw [List.mem_singleton.mp hc]
        rfl
    rw [parseLoop, Tokenizer.next_blank hblank]
    exact finish_line hscan hvalues
  | option hb ho hrest ih =>
    obtain ⟨fuel, rfl⟩ := Nat.exists_eq_succ_of_ne_zero (Nat.ne_zero_of_lt hfuel)
    obtain ⟨scan', hscan', hround⟩ :=
      loop_taken hb.2 (taken_rendered ho (rendered_follows hrest) hscan)
    rw [hround]
    exact ih hscan' (Nat.lt_of_succ_lt_succ hfuel) hvalues

def Decodes (l : Line) (p : ListParam) : Prop :=
  p = record l p.condition ∧ strtok isConditionDelimiter p.condition = l.tokens

theorem options_decoded {x : Char} {rest : Text} (hos : os.Perm l.options)
    (hx : isBlank x = true) (h : RenderedOptions os (x::rest))
    (hvalues : l.values.length ≤ maxValues) :
    ∃ p, parseOptions l.name rest = .ok p ∧ Decodes l p := by
  have hfold := Line.foldl_perm hos
  obtain ⟨condition, hloop, htokens⟩ := loop_rendered h (represents_bare l.name)
    (rendered_length h) (by rwa [hfold])
  rw [hfold] at hloop htokens
  refine ⟨record l condition, ?_, rfl, htokens⟩
  rw [parseOptions, parse_loop_at (Or.inr ⟨x, blank_delimiter hx, rfl⟩)]
  exact hloop

/-- A rendered line holds a parameter that has what the line has. -/
theorem line_decoded (h : RenderedLine l text) (hvalues : l.values.length ≤ maxValues) :
    ∃ p, Decodes l p ∧ ParsedLine p text := by
  have hline := rendered_line h
  obtain ⟨hname, hparameter, os, x, rest, hos, hx, hrest, rfl⟩ := h
  obtain ⟨p, hoptions, hdecodes⟩ := options_decoded hos hx hrest hvalues
  exact ⟨p, hdecodes, hline, l.name, x, rest, hname, hparameter, hx, rfl, hoptions⟩

end Lines

section Files

variable {ls : List Line} {texts : List Text}

theorem lines_decoded (h : List.Forall₂ RenderedLine ls texts)
    (hvalues : ∀ l ∈ ls, l.values.length ≤ maxValues) :
    ∃ ps, List.Forall₂ Decodes ls ps ∧ List.Forall₂ ParsedLine ps texts := by
  induction h with
  | nil => exact ⟨[], .nil, .nil⟩
  | @cons l text ls texts hl _ ih =>
    obtain ⟨p, hp, hline⟩ := line_decoded hl (hvalues l List.mem_cons_self)
    obtain ⟨ps, hps, hlines⟩ := ih fun m hm => hvalues m (List.mem_cons_of_mem l hm)
    exact ⟨p::ps, .cons hp hps, .cons hline hlines⟩

theorem decodes_names {ps : List ListParam} (h : List.Forall₂ Decodes ls ps) :
    ps.map ListParam.name = ls.map Line.name := by
  induction h with
  | nil => rfl
  | cons hp _ ih =>
    rw [List.map_cons, List.map_cons, ih, hp.1]
    rfl

theorem elements_set {ps : List ListParam} (names : List Text) (h : List.Forall₂ Decodes ls ps)
    (htokens : ∀ l ∈ ls, l.tokens.length ≤ rpnMaxElements) :
    (ps.mapM fun p => setRpnStackElements names p.condition) =
      .ok (ls.map fun l => l.tokens.map (rpnElement names)) := by
  rw [RelatedResults.map_ok_iff, List.forall₂_map_right_iff]
  refine (((List.forall₂_and_left _ _).mpr ⟨htokens, h⟩).imp fun l p hq => ?_).flip
  change setRpnStackElements names p.condition = .ok (l.tokens.map (rpnElement names))
  simp only [setRpnStackElements, hq.2.2, if_neg (Nat.not_lt.mpr hq.1)]

/-- A file in the documented format is read as the lines it is meant to have. -/
theorem format_decoded (h : List.Forall₂ RenderedLine ls texts)
    (hfit : ∀ t ∈ texts, t.length < lineSize)
    (hvalues : ∀ l ∈ ls, l.values.length ≤ maxValues)
    (htokens : ∀ l ∈ ls, l.tokens.length ≤ rpnMaxElements) :
    countParameters (fgetsLines texts.flatten) 0 = .ok ls.length ∧
      ∃ ps, parse ls.length (fgetsLines texts.flatten) [] = .ok ps ∧
        List.Forall₂ Decodes ls ps ∧
        setAllElements ps = .ok (ls.map fun l => l.tokens.map (rpnElement (ls.map Line.name))) := by
  obtain ⟨ps, hps, hlines⟩ := lines_decoded h hvalues
  obtain ⟨hcount, hparse⟩ := file_parsed hlines hfit
  rw [← hps.length_eq] at hcount hparse
  refine ⟨hcount, ps, hparse, hps, ?_⟩
  rw [setAllElements, decodes_names hps]
  exact elements_set _ hps htokens

end Files

section Samples

def sample : Line :=
  { Line.bare "p".toList with default := some "1".toList, list := some ["1".toList, "2".toList] }

theorem sample_rendered : RenderedLine sample "p -p \x7b1 2\x7d -d 1\n".toList where
  name := by decide
  parameter := by decide
  written := by
    have hrun : Run [' '] := ⟨by decide, by decide⟩
    have hvalues : Separated isListDelimiter ["1".toList, "2".toList] "1 2".toList :=
      Separated.cons (b := []) (t := ['1']) (x := ' ') (s := ['2']) (by decide)
        (by decide) rfl (Separated.last (b := []) (by decide) (by decide))
    have htext : "1 2".toList.all (fun c => !isBrace c && c != '\n') = true := by decide
    have hlist := Rendered.list (x := ' ') rfl (List.cons_ne_nil _ _) hvalues fun c hc => by
      simpa using List.all_eq_true.mp htext c hc
    have hdefault := Rendered.default hrun (by decide : Clean _ ['1'])
    exact ⟨[.list ["1".toList, "2".toList], .default "1".toList], ' ',
      "-p \x7b1 2\x7d -d 1\n".toList,
      List.Perm.swap _ _ _, rfl, RenderedOptions.option (b := [' ']) hrun hlist
        (RenderedOptions.option (b := [' ']) hrun hdefault
          (RenderedOptions.done (b := []) (by decide))), rfl⟩

theorem format_decoded_sample :
    countParameters (fgetsLines "p -p \x7b1 2\x7d -d 1\n".toList) 0 = .ok 1 ∧
      ∃ ps, parse 1 (fgetsLines "p -p \x7b1 2\x7d -d 1\n".toList) [] = .ok ps ∧
        List.Forall₂ Decodes [sample] ps ∧ setAllElements ps = .ok [[]] :=
  format_decoded (List.Forall₂.cons sample_rendered List.Forall₂.nil)
    (fun t ht => by rw [List.mem_singleton.mp ht]; decide)
    (fun l hl => by rw [List.mem_singleton.mp hl]; decide)
    (fun l hl => by rw [List.mem_singleton.mp hl]; decide)

/-- A list of 101 values, two blanks in front of a brace, a condition of one
token in its quotes. -/
theorem format_limits :
    let many := "p -p \x7b".toList ++ ((List.replicate 101 "1 ".toList).flatten ++ "\x7d\n".toList)
    many.length < lineSize ∧
      parse 1 (fgetsLines many) [] =
        .error (.exit "You have reached the limit of possible string values (100)") ∧
      parse 1 (fgetsLines "p -p  \x7b1 2\x7d\n".toList) [] = .error (.exit "Invalid Option") ∧
      parse 1 (fgetsLines "p -i \"1\"\n".toList) [] = .error .undefined := by
  decide +kernel

end Samples

end Otpo.ParseFormat
