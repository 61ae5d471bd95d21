import Otpo.ParseFormat

/-!
# What a line is read as

Every text that the parser accepts is read as the options of a line, also where
it is not in the documented format. The parser accepts a file if and only if
each of its lines can be read so.
-/

set_option autoImplicit false

namespace Otpo.LineReading
open Otpo.ParamList Otpo.ResultFile Otpo.ParseLine Otpo.ParameterLines
open Otpo.FormatLine Otpo.ParseFormat

section Reading

def IsInteger (t : Text) : Prop := t.head? = some '0' ∨ atoi t ≠ 0

/-- What an option is read as, and what is left of the line. A condition in
quotes that is too long is passed over. -/
inductive ReadOption : Text → Text → Option LineOption → Text → Prop
  | isVirtual {s : Text} : ReadOption "-v".toList s (some .isVirtual) s
  | default {s t r : Text} (token : Tokenizer.next isConditionDelimiter s = some (t, r)) :
      ReadOption "-d".toList s (some (.default t)) r
  | list {s t r : Text} (token : Tokenizer.next isBrace s = some (t, r)) :
      ReadOption "-p".toList s (some (.list (strtok isListDelimiter t))) r
  | aggregate {s t r : Text} (token : Tokenizer.next isQuote s = some (t, r)) :
      ReadOption "-a".toList s (some (.aggregate t)) r
  | range {s t r u v : Text} (start : Tokenizer.next isBlank s = some (t, r)) (ht : IsInteger t)
      (stop : Tokenizer.next isBlank r = some (u, v)) (hu : IsInteger u) :
      ReadOption "-r".toList s (some (.range (atoi t) (atoi u))) v
  | traversal {s r t v u w : Text} {o : Operator}
      (method : Tokenizer.next isConditionDelimiter s = some ("increment".toList, r))
      (sign : Tokenizer.next isBlank r = some (t, v)) (ho : t.head?.bind operationOf = some o)
      (operand : Tokenizer.next isBlank v = some (u, w)) (hu : IsInteger u) :
      ReadOption "-t".toList s (some (.traversal o (atoi u))) w
  | word {s t r : Text} (token : Tokenizer.next isConditionDelimiter s = some (t, r))
      (unquoted : startsWith '\"' t = false) (short : t.length < conditionLength) :
      ReadOption "-i".toList s (some (.condition (strtok isConditionDelimiter t))) r
  | quoted {s t r u v : Text} (token : Tokenizer.next isConditionDelimiter s = some (t, r))
      (quote : startsWith '\"' t = true) (close : Tokenizer.next isQuote r = some (u, v))
      (short : u.length+t.tail.length+1 < conditionLength) :
      ReadOption "-i".toList s
        (some (.condition (strtok isConditionDelimiter (t.tail ++ ' '::u)))) v
  | long {s t r u v : Text} (token : Tokenizer.next isConditionDelimiter s = some (t, r))
      (quote : startsWith '\"' t = true) (close : Tokenizer.next isQuote r = some (u, v))
      (long : conditionLength < u.length+t.tail.length+1) : ReadOption "-i".toList s none v

inductive ReadUpTo : Text → List LineOption → Text → Prop
  | here {s : Text} : ReadUpTo s [] s
  | option {s t r r' u : Text} {o : Option LineOption} {os : List LineOption}
      (token : Tokenizer.next isConditionDelimiter s = some (t, r)) (option : ReadOption t r o r')
      (rest : ReadUpTo r' os u) : ReadUpTo s (o.toList ++ os) u

def ReadOptions (s : Text) (os : List LineOption) : Prop :=
  ∃ r, ReadUpTo s os r ∧ Tokenizer.next isConditionDelimiter r = none

def Named (text name rest : Text) : Prop :=
  startsWith '\n' text = false ∧ Tokenizer.next isBlank text = some (name, rest) ∧
    startsWith '#' name = false

def Skipped (text : Text) : Prop :=
  startsWith '\n' text = true ∨
    ∃ name rest, Tokenizer.next isBlank text = some (name, rest) ∧ startsWith '#' name = true

def ReadLine (text : Text) (l : Line) : Prop :=
  ∃ name rest os, Named text name rest ∧ ReadOptions rest os ∧
    l = os.foldl Line.add (Line.bare name)

inductive ReadFile : List Text → List Line → Prop
  | nil : ReadFile [] []
  | skip {text : Text} {texts : List Text} {ls : List Line} (skipped : Skipped text)
      (rest : ReadFile texts ls) : ReadFile (text::texts) ls
  | line {text : Text} {l : Line} {texts : List Text} {ls : List Line} (line : ReadLine text l)
      (rest : ReadFile texts ls) : ReadFile (text::texts) (l::ls)

def Short (l : Line) : Prop := l.values.length ≤ maxValues

end Reading

section Options

variable {t s r r' : Text} {l : Line} {scan scan' : Scan} {o : Option LineOption}

theorem next_token_ok {d : Char → Bool} {q : Text × Text} :
    nextToken d s = .ok q ↔ Tokenizer.next d s = some q := by
  rw [nextToken]
  cases Tokenizer.next d s <;> simp

theorem read_integer_ok {message : String} {z : ℤ} :
    readInteger message t = .ok z ↔ IsInteger t ∧ atoi t = z := by
  rw [readInteger, IsInteger]
  split_ifs with h
  · refine ⟨(fun h => by cases h), fun hz => ?_⟩
    exact absurd hz.1 (not_or.mpr ⟨h.1, not_not_intro h.2⟩)
  · rw [Except.ok.injEq]
    refine ⟨fun hz => ⟨or_iff_not_and_not.mpr fun hn => h ⟨hn.1, not_not.mp hn.2⟩, hz⟩, ?_⟩
    exact fun hz => hz.2

/-- An option that is read is parsed. -/
theorem read_parsed (h : ReadOption t r o r') (hscan : Represents l scan) :
    ∃ scan', parseOption r scan t = .ok (r', scan') ∧ Represents (o.elim l l.add) scan' := by
  obtain ⟨condition, valuesString, rfl, htokens, hlist⟩ := hscan
  cases h with
  | isVirtual => exact ⟨_, rfl, condition, valuesString, rfl, htokens, hlist⟩
  | default token =>
    refine ⟨_, ?_, condition, valuesString, rfl, htokens, hlist⟩
    change parseDefault _ _ = _
    rw [parseDefault, next_token_eq token]
    rfl
  | @list s t r token =>
    refine ⟨_, ?_, condition, some t, rfl, htokens, rfl⟩
    change parseValues _ _ = _
    rw [parseValues, next_token_eq token]
    rfl
  | aggregate token =>
    refine ⟨_, ?_, condition, valuesString, rfl, htokens, hlist⟩
    change parseAggregate _ _ = _
    rw [parseAggregate, next_token_eq token]
    rfl
  | range start ht stop hu =>
    refine ⟨_, ?_, condition, valuesString, rfl, htokens, hlist⟩
    change parseRange _ _ = _
    simp only [parseRange, bind, Except.bind, next_token_eq start, next_token_eq stop,
      read_integer_ok.mpr ⟨ht, rfl⟩, read_integer_ok.mpr ⟨hu, rfl⟩]
    rfl
  | traversal method sign ho operand hu =>
    refine ⟨_, ?_, condition, valuesString, rfl, htokens, hlist⟩
    change parseTraversal _ _ = _
    simp only [parseTraversal, bind, Except.bind, next_token_eq method, if_true,
      next_token_eq sign, ho, next_token_eq operand, read_integer_ok.mpr ⟨hu, rfl⟩]
    rfl
  | @word s t r token unquoted short =>
    refine ⟨_, ?_, t, valuesString, rfl, rfl, hlist⟩
    change parseCondition _ _ = _
    simp only [parseCondition, bind, Except.bind, next_token_eq token, unquoted,
      Bool.false_eq_true, if_false, if_neg (Nat.not_le.mpr short)]
    rfl
  | @quoted s t r u v token quote close short =>
    refine ⟨_, ?_, t.tail ++ ' '::u, valuesString, rfl, rfl, hlist⟩
    change parseCondition _ _ = _
    simp only [parseCondition, bind, Except.bind, next_token_eq token, quote, if_true,
      next_token_eq close, if_neg (Nat.not_lt.mpr short.le), if_neg short.ne']
    rfl
  | long token quote close long =>
    refine ⟨_, ?_, condition, valuesString, rfl, htokens, hlist⟩
    change parseCondition _ _ = _
    simp only [parseCondition, bind, Except.bind, next_token_eq token, quote, if_true,
      next_token_eq close, if_pos long]
    rfl

theorem bind_ok {α β : Type} {x : Except Fault α} {f : α → Except Fault β} {b : β} :
    (x >>= f) = .ok b ↔ ∃ a, x = .ok a ∧ f a = .ok b := by
  cases x with
  | error fault => exact ⟨(fun h => by cases h), (by rintro ⟨a, h, -⟩; cases h)⟩
  | ok a => exact ⟨fun h => ⟨a, rfl, h⟩, (by rintro ⟨a, h, hb⟩; cases h; exact hb)⟩

theorem parsed_range {q : Text × Scan} (h : parseRange r scan = .ok q) :
    ∃ o, ReadOption "-r".toList r o q.1 := by
  obtain ⟨⟨t, u⟩, hstart, h⟩ := bind_ok.mp h
  obtain ⟨startValue, ht, h⟩ := bind_ok.mp h
  obtain ⟨⟨v, w⟩, hstop, h⟩ := bind_ok.mp h
  obtain ⟨endValue, hv, h⟩ := bind_ok.mp h
  cases h
  exact ⟨_, .range (next_token_ok.mp hstart) (read_integer_ok.mp ht).1 (next_token_ok.mp hstop)
    (read_integer_ok.mp hv).1⟩

theorem parsed_traversal {q : Text × Scan} (h : parseTraversal r scan = .ok q) :
    ∃ o, ReadOption "-t".toList r o q.1 := by
  obtain ⟨⟨t, u⟩, hmethod, h⟩ := bind_ok.mp h
  dsimp only at h
  split_ifs at h with ht
  obtain ⟨⟨v, w⟩, hsign, h⟩ := bind_ok.mp h
  dsimp only at h
  split at h
  · cases h
  · next o ho =>
    obtain ⟨⟨x, y⟩, hoperand, h⟩ := bind_ok.mp h
    obtain ⟨increment, hx, h⟩ := bind_ok.mp h
    cases h
    rw [ht] at hmethod
    exact ⟨_, .traversal (next_token_ok.mp hmethod) (next_token_ok.mp hsign) ho
      (next_token_ok.mp hoperand) (read_integer_ok.mp hx).1⟩

theorem parsed_condition {q : Text × Scan} (h : parseCondition r scan = .ok q) :
    ∃ o, ReadOption "-i".toList r o q.1 := by
  obtain ⟨⟨t, u⟩, htoken, h⟩ := bind_ok.mp h
  dsimp only at h
  split_ifs at h with hquote hlong
  · obtain ⟨⟨v, w⟩, hclose, h⟩ := bind_ok.mp h
    dsimp only at h
    split_ifs at h with hlong hfull
    · cases h
      exact ⟨_, .long (next_token_ok.mp htoken) hquote (next_token_ok.mp hclose) hlong⟩
    · cases h
      exact ⟨_, .quoted (next_token_ok.mp htoken) hquote (next_token_ok.mp hclose)
        (lt_of_le_of_ne (Nat.not_lt.mp hlong) (Ne.symm hfull))⟩
  · cases h
    exact ⟨_, .word (next_token_ok.mp htoken) (Bool.eq_false_iff.mpr hquote)
      (Nat.not_le.mp hlong)⟩

/-- An option that is parsed is read. -/
theorem parsed_read (h : parseOption r scan t = .ok (r', scan')) : ∃ o, ReadOption t r o r' := by
  rw [parseOption] at h
  split_ifs at h with hv hd hp ha hr ht hi
  · subst hv
    cases h
    exact ⟨_, .isVirtual⟩
  · subst hd
    obtain ⟨⟨u, v⟩, hu, h⟩ := bind_ok.mp h
    cases h
    exact ⟨_, .default (next_token_ok.mp hu)⟩
  · subst hp
    obtain ⟨⟨u, v⟩, hu, h⟩ := bind_ok.mp h
    cases h
    exact ⟨_, .list (next_token_ok.mp hu)⟩
  · subst ha
    obtain ⟨⟨u, v⟩, hu, h⟩ := bind_ok.mp h
    cases h
    exact ⟨_, .aggregate (next_token_ok.mp hu)⟩
  · exact hr ▸ parsed_range h
  · exact ht ▸ parsed_traversal h
  · exact hi ▸ parsed_condition h

theorem read_shortens (h : ReadOption t r o r') : r'.length ≤ r.length := by
  have hnext : ∀ {d : Char → Bool} {s u v : Text}, Tokenizer.next d s = some (u, v) →
      v.length ≤ s.length := fun h => (Tokenizer.next_split h).2.2.1.le
  cases h with
  | isVirtual => exact le_refl _
  | default token => exact hnext token
  | list token => exact hnext token
  | aggregate token => exact hnext token
  | range start _ stop _ => exact (hnext stop).trans (hnext start)
  | traversal method sign _ operand _ =>
    exact ((hnext operand).trans (hnext sign)).trans (hnext method)
  | word token _ _ => exact hnext token
  | quoted token _ close _ => exact (hnext close).trans (hnext token)
  | long token _ close _ => exact (hnext close).trans (hnext token)

end Options

section Loop

variable {s r : Text} {l : Line} {scan : Scan} {p : ListParam} {os : List LineOption} {fuel : ℕ}

theorem foldl_option (o : Option LineOption) (os : List LineOption) (l : Line) :
    (o.toList ++ os).foldl Line.add l = os.foldl Line.add (o.elim l l.add) := by
  cases o <;> rfl

/-- The loop goes on where the reading has come to. -/
theorem read_loop (h : ReadUpTo s os r) (hscan : Represents l scan) (hfuel : s.length < fuel) :
    ∃ scan' fuel', Represents (os.foldl Line.add l) scan' ∧ r.length < fuel' ∧
      parseLoop fuel s scan = parseLoop fuel' r scan' := by
  induction h generalizing l scan fuel with
  | here => exact ⟨scan, fuel, hscan, hfuel, rfl⟩
  | @option s t u r' v o os token option _ ih =>
    obtain ⟨fuel, rfl⟩ := Nat.exists_eq_succ_of_ne_zero (Nat.ne_zero_of_lt hfuel)
    obtain ⟨scan', hparse, hscan'⟩ := read_parsed option hscan
    have hshort := (Tokenizer.next_split token).2.2.1
    have hle := read_shortens option
    obtain ⟨scan'', fuel', hscan'', hfuel', heq⟩ := ih hscan' (show r'.length < fuel by omega)
    refine ⟨scan'', fuel', ?_, hfuel', ?_⟩
    · rw [foldl_option]
      exact hscan''
    · rw [parseLoop, token]
      simp only [hparse]
      exact heq

theorem finish_read (h : finishLine scan = .ok p) (hscan : Represents l scan) :
    Short l ∧ Decodes l p := by
  obtain ⟨condition, valuesString, rfl, htokens, hlist⟩ := hscan
  have hshort : l.values.length ≤ maxValues := by
    cases valuesString with
    | none =>
      rw [Option.map_none] at hlist
      rw [Line.values, ← hlist]
      cases l.aggregate <;> simp [maxValues]
    | some values =>
      rw [Option.map_some] at hlist
      simp only [finishLine, setValues] at h
      split_ifs at h with hlong
      rw [Line.values, ← hlist]
      exact Nat.not_lt.mp hlong
  obtain ⟨condition', hfinish, htokens'⟩ :=
    finish_line ⟨condition, valuesString, rfl, htokens, hlist⟩ hshort
  rw [h] at hfinish
  cases hfinish
  exact ⟨hshort, rfl, htokens'⟩

/-- A loop that comes to the end has read the options. -/
theorem loop_read (h : parseLoop fuel s scan = .ok p) (hscan : Represents l scan) :
    ∃ os, ReadOptions s os ∧ Short (os.foldl Line.add l) ∧ Decodes (os.foldl Line.add l) p := by
  induction fuel generalizing s scan l with
  | zero => cases h
  | succ fuel ih =>
    rw [parseLoop] at h
    split at h
    · next hnext => exact ⟨[], ⟨s, .here, hnext⟩, finish_read h hscan⟩
    · next t r hnext =>
      split at h
      · cases h
      · next r' scan' hparse =>
        obtain ⟨o, hread⟩ := parsed_read hparse
        obtain ⟨scan'', hparse', hscan''⟩ := read_parsed hread hscan
        rw [hparse] at hparse'
        cases hparse'
        obtain ⟨os, ⟨u, hos, hend⟩, hline⟩ := ih h hscan''
        refine ⟨o.toList ++ os, ⟨u, .option hnext hread hos, hend⟩, ?_⟩
        rw [foldl_option]
        exact hline

theorem options_read {name : Text} (h : parseOptions name s = .ok p) :
    ∃ os, ReadOptions s os ∧ Short (os.foldl Line.add (Line.bare name)) ∧
      Decodes (os.foldl Line.add (Line.bare name)) p := loop_read h (represents_bare name)

theorem read_options {name : Text} (h : ReadOptions s os)
    (hshort : Short (os.foldl Line.add (Line.bare name))) :
    ∃ p, parseOptions name s = .ok p ∧ Decodes (os.foldl Line.add (Line.bare name)) p := by
  obtain ⟨r, hread, hend⟩ := h
  obtain ⟨scan, fuel, hscan, hfuel, hloop⟩ :=
    read_loop hread (represents_bare name) (Nat.lt_succ_self s.length)
  obtain ⟨fuel, rfl⟩ := Nat.exists_eq_succ_of_ne_zero (Nat.ne_zero_of_lt hfuel)
  obtain ⟨condition, hfinish, htokens⟩ := finish_line hscan hshort
  refine ⟨record (os.foldl Line.add (Line.bare name)) condition, ?_, rfl, htokens⟩
  rw [parseOptions, hloop, parseLoop, hend]
  exact hfinish

end Loop

section Files

variable {text name rest : Text} {texts : List Text} {l : Line} {ls : List Line}
variable {ps qs : List ListParam} {n : ℕ}

/-- A line is skipped, or has a name, or has nothing but blanks. -/
theorem text_cases (text : Text) : Skipped text ∨ (∃ name rest, Named text name rest) ∨
    startsWith '\n' text = false ∧ Tokenizer.next isBlank text = none := by
  cases hline : startsWith '\n' text with
  | true => exact Or.inl (Or.inl hline)
  | false =>
    cases hnext : Tokenizer.next isBlank text with
    | none => exact Or.inr (Or.inr ⟨rfl, rfl⟩)
    | some q =>
      cases hname : startsWith '#' q.1 with
      | true => exact Or.inl (Or.inr ⟨q.1, q.2, hnext, hname⟩)
      | false => exact Or.inr (Or.inl ⟨q.1, q.2, hline, hnext, hname⟩)

theorem named_not_skipped (h : Named text name rest) : ¬ Skipped text := by
  obtain ⟨hline, hname, hcomment⟩ := h
  rintro (hn | ⟨name', rest', hname', hcomment'⟩)
  · exact absurd (hline.symm.trans hn) (by decide)
  · cases hname.symm.trans hname'
    exact absurd (hcomment.symm.trans hcomment') (by decide)

theorem parse_skipped (h : Skipped text) : parse n (text::texts) ps = parse n texts ps := by
  rw [parse]
  rcases h with h | ⟨name, rest, hnext, hname⟩
  · rw [if_pos h]
  · rw [lineName, hnext]
    simp only [hname, if_true, ite_self]

theorem parse_named (h : Named text name rest) : parse n (text::texts) ps =
    if n ≤ ps.length then .error .undefined
    else
      match parseOptions name rest with
      | .error f => .error f
      | .ok p => parse n texts (ps ++ [p]) := by
  obtain ⟨hline, hnext, hname⟩ := h
  have hentry : lineName text = .ok (some (name, rest)) := by
    rw [lineName, hnext]
    simp only [hname, Bool.false_eq_true, if_false]
  rw [parse, hline, hentry]
  rfl

theorem parse_blank (h : startsWith '\n' text = false)
    (hblank : Tokenizer.next isBlank text = none) :
    parse n (text::texts) ps = .error .undefined := by
  rw [parse, lineName, hblank, h]
  rfl

/-- What is parsed can be read. -/
theorem parse_read (h : parse n texts ps = .ok qs) : ∃ ls rs, ReadFile texts ls ∧
    (∀ l ∈ ls, Short l) ∧ qs = ps ++ rs ∧ List.Forall₂ Decodes ls rs := by
  induction texts generalizing ps with
  | nil =>
    cases h
    exact ⟨[], [], .nil, (List.forall_mem_nil _), (List.append_nil _).symm, .nil⟩
  | cons text texts ih =>
    rcases text_cases text with hskip | ⟨name, rest, hnamed⟩ | ⟨hline, hblank⟩
    · rw [parse_skipped hskip] at h
      obtain ⟨ls, rs, hread, hrest⟩ := ih h
      exact ⟨ls, rs, .skip hskip hread, hrest⟩
    · rw [parse_named hnamed] at h
      split_ifs at h
      split at h
      · cases h
      · next p hp =>
        obtain ⟨os, hos, hshort, hdecodes⟩ := options_read hp
        obtain ⟨ls, rs, hread, hshorts, rfl, hrs⟩ := ih h
        refine ⟨_::ls, p::rs, .line ⟨name, rest, os, hnamed, hos, rfl⟩ hread,
          List.forall_mem_cons.mpr ⟨hshort, hshorts⟩, ?_, .cons hdecodes hrs⟩
        rw [List.append_assoc, List.singleton_append]
    · rw [parse_blank hline hblank] at h
      cases h

/-- What can be read is parsed. -/
theorem read_parse (h : ReadFile texts ls) (hshort : ∀ l ∈ ls, Short l)
    (hroom : ps.length+ls.length ≤ n) :
    ∃ rs, parse n texts ps = .ok (ps ++ rs) ∧ List.Forall₂ Decodes ls rs := by
  induction h generalizing ps with
  | nil => exact ⟨[], by rw [parse, List.append_nil], .nil⟩
  | skip hskip _ ih =>
    rw [parse_skipped hskip]
    exact ih hshort hroom
  | @line text l texts ls hline _ ih =>
    rw [List.forall_mem_cons] at hshort
    rw [List.length_cons] at hroom
    obtain ⟨name, rest, os, hnamed, hos, rfl⟩ := hline
    obtain ⟨p, hp, hdecodes⟩ := read_options hos hshort.1
    obtain ⟨rs, hparse, hrs⟩ := @ih (ps ++ [p]) hshort.2
      (by rw [List.length_append, List.length_singleton]; omega)
    refine ⟨p::rs, ?_, .cons hdecodes hrs⟩
    rw [parse_named hnamed, if_neg (by omega), hp]
    simp only [hparse, List.append_assoc, List.singleton_append]

end Files

end Otpo.LineReading
