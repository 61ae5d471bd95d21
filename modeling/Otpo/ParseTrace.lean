import Otpo.LineReading
import Otpo.Library.Traced

/-!
# What the parser touches

Besides its result the parser leaves a trace of the arrays that it reads and
writes, of the entries that it fills and of tokens that are used and missing.
-/

set_option autoImplicit false

namespace Otpo.ParseTrace
open Otpo.ParamList Otpo.ResultFile Otpo.ParseLine Otpo.ParameterLines
open Otpo.FormatLine Otpo.ParseFormat Otpo.LineReading

inductive Event
  | missing
  | unset
  | entry (index : ℕ)
  | stringValues (index : ℕ)
  | rpnElements (index : ℕ)
  | condition (index : ℕ)
  deriving DecidableEq, Repr

abbrev Action := Traced Event Fault

def withToken (d : Char → Bool) (rest : Text) (behind : Text → Text → List Event) : List Event :=
  match Tokenizer.next d rest with
  | none => [.missing]
  | some (token, rest) => behind token rest

def writeCondition (length : ℕ) : List Event := (List.range (length+1)).map .condition

instance (t : Text) : Decidable (IsInteger t) :=
  inferInstanceAs (Decidable (t.head? = some '0' ∨ atoi t ≠ 0))

section Options

variable (rest : Text)

def defaultEvents : List Event := withToken isConditionDelimiter rest fun _ _ => []

def valuesEvents : List Event := withToken isBrace rest fun _ _ => []

def aggregateEvents : List Event := withToken isQuote rest fun _ _ => [.stringValues 0]

def rangeEvents : List Event :=
  withToken isBlank rest fun token rest =>
    if IsInteger token then withToken isBlank rest fun _ _ => [] else []

def traversalEvents : List Event :=
  withToken isConditionDelimiter rest fun token rest =>
    if token = "increment".toList then
      withToken isBlank rest fun token rest =>
        if (token.head?.bind operationOf).isSome then withToken isBlank rest fun _ _ => [] else []
    else []

def conditionEvents : List Event :=
  withToken isConditionDelimiter rest fun token rest =>
    if startsWith '\"' token then
      let condName := token.tail
      withToken isQuote rest fun token _ =>
        if conditionLength < token.length+condName.length+1 then []
        else writeCondition (token.length+condName.length+1)
    else writeCondition token.length

def optionEvents (token : Text) : List Event :=
  if token = "-v".toList then []
  else if token = "-d".toList then defaultEvents rest
  else if token = "-p".toList then valuesEvents rest
  else if token = "-a".toList then aggregateEvents rest
  else if token = "-r".toList then rangeEvents rest
  else if token = "-t".toList then traversalEvents rest
  else if token = "-i".toList then conditionEvents rest
  else []

end Options

def setValuesEvents (p : ListParam) (values : Text) : List Event :=
  let ss := p.stringValues ++ strtok isListDelimiter values
  ((List.range (min ss.length maxValues)).drop p.stringValues.length).map .stringValues ++
    if maxValues < ss.length then []
    else (List.range (min ((ss.takeWhile isNumber).length+1) ss.length)).map .stringValues

def finishEvents (s : Scan) : List Event :=
  match s.valuesString with
  | none => []
  | some values => setValuesEvents s.param values

def traceLoop : ℕ → Text → Scan → Action ListParam
  | 0, _, _ => Traced.lift (.error .undefined)
  | fuel+1, rest, s =>
    match Tokenizer.next isConditionDelimiter rest with
    | none => do
      Traced.emits (finishEvents s)
      Traced.lift (finishLine s)
    | some (token, rest) => do
      Traced.emits (optionEvents rest token)
      let (rest, s) ← Traced.lift (parseOption rest s token)
      traceLoop fuel rest s

def initEvents : List Event := .condition 0::(List.range maxValues).map .stringValues

def traceEntry (numParameters : ℕ) (name rest : Text) (ps : List ListParam) :
    Action (List ListParam) := do
  Traced.emit (.entry ps.length)
  if numParameters ≤ ps.length then Traced.lift (.error .undefined)
  else do
    Traced.emits initEvents
    let p ← traceLoop (rest.length+1) rest ⟨newParam name, none⟩
    pure (ps ++ [p])

def traceLine (numParameters : ℕ) (line : Text) (ps : List ListParam) : Action (List ListParam) :=
  if startsWith '\n' line then pure ps
  else
    match Tokenizer.next isBlank line with
    | none => do
      Traced.emit .missing
      Traced.lift (.error .undefined)
    | some (name, rest) =>
      if startsWith '#' name then pure ps else traceEntry numParameters name rest ps

def traceParse (numParameters : ℕ) : List Text → List ListParam → Action (List ListParam)
  | [], ps => pure ps
  | l::ls, ps => do
    let ps ← traceLine numParameters l ps
    traceParse numParameters ls ps

def traceCount : List Text → ℕ → Action ℕ
  | [], count => pure count
  | l::ls, count =>
    if startsWith '\n' l then traceCount ls count
    else
      match Tokenizer.next (· == ' ') l with
      | none => do
        Traced.emit .missing
        Traced.lift (.error .undefined)
      | some (token, _) =>
        if startsWith '#' token then traceCount ls count else traceCount ls (count+1)

section Outcomes

variable {text name rest s u : Text} {scan : Scan} {texts : List Text} {l : Line}
variable {ps qs : List ListParam} {os : List LineOption} {fuel n : ℕ} {P : Event → Prop}

@[simp] theorem emits_outcome {A : Type} (events : List Event) (x : Action A) :
    (do Traced.emits events; x).outcome = x.outcome := rfl

theorem trace_loop_outcome (fuel : ℕ) (s : Text) (scan : Scan) :
    (traceLoop fuel s scan).outcome = some (parseLoop fuel s scan) := by
  induction fuel generalizing s scan with
  | zero => rfl
  | succ fuel ih =>
    rw [traceLoop, parseLoop]
    cases Tokenizer.next isConditionDelimiter s with
    | none => rfl
    | some q =>
      change (Traced.lift (parseOption q.2 scan q.1) >>=
        fun x => traceLoop fuel x.1 x.2).outcome = _
      dsimp only
      cases parseOption q.2 scan q.1 with
      | error fault => rfl
      | ok x => exact ih x.1 x.2

theorem trace_count_outcome (texts : List Text) (count : ℕ) :
    (traceCount texts count).outcome = some (countParameters texts count) := by
  induction texts generalizing count with
  | nil => rfl
  | cons text texts ih =>
    rw [traceCount, countParameters]
    split_ifs
    · exact ih count
    · cases Tokenizer.next (· == ' ') text with
      | none => rfl
      | some q =>
        dsimp only
        split_ifs
        · exact ih count
        · exact ih (count+1)

theorem trace_skipped (h : Skipped text) : traceLine n text ps = pure ps := by
  rw [traceLine]
  rcases h with h | ⟨name, rest, hnext, hname⟩
  · rw [if_pos h]
  · rw [hnext]
    simp only [hname, if_true, ite_self]

theorem trace_named (h : Named text name rest) :
    traceLine n text ps = traceEntry n name rest ps := by
  obtain ⟨hline, hnext, hname⟩ := h
  rw [traceLine, hnext, hline]
  simp only [hname, Bool.false_eq_true, if_false]

theorem trace_blank (h : startsWith '\n' text = false)
    (hblank : Tokenizer.next isBlank text = none) :
    traceLine n text ps = ⟨[.missing], some (.error .undefined)⟩ := by
  rw [traceLine, hblank, h]
  rfl

theorem trace_entry_outcome : (traceEntry n name rest ps).outcome =
    some (if n ≤ ps.length then .error .undefined
      else (parseOptions name rest).map fun p => ps ++ [p]) := by
  rw [traceEntry, Traced.emit_bind]
  split_ifs
  · rfl
  · change (traceLoop (rest.length+1) rest ⟨newParam name, none⟩ >>= fun p =>
      pure (ps ++ [p])).outcome = _
    have hloop : (traceLoop (rest.length+1) rest ⟨newParam name, none⟩).outcome =
        (Traced.lift (parseOptions name rest) : Action ListParam).outcome :=
      trace_loop_outcome _ _ _
    rw [Traced.outcome_bind_congr hloop]
    cases parseOptions name rest <;> rfl

/-- The trace ends as the parser does. -/
theorem trace_parse_outcome (n : ℕ) (texts : List Text) (ps : List ListParam) :
    (traceParse n texts ps).outcome = some (parse n texts ps) := by
  induction texts generalizing ps with
  | nil => rfl
  | cons text texts ih =>
    rw [traceParse]
    rcases text_cases text with hskip | ⟨name, rest, hnamed⟩ | ⟨hline, hblank⟩
    · rw [parse_skipped hskip, trace_skipped hskip]
      exact ih ps
    · rw [parse_named hnamed, trace_named hnamed]
      have hentry : (traceEntry n name rest ps).outcome = (Traced.lift
          (if n ≤ ps.length then .error .undefined
            else (parseOptions name rest).map fun p => ps ++ [p]) :
              Action (List ListParam)).outcome := trace_entry_outcome
      rw [Traced.outcome_bind_congr hentry]
      split_ifs
      · rfl
      · cases parseOptions name rest with
        | error fault => rfl
        | ok p => exact ih (ps ++ [p])
    · rw [parse_blank hline hblank, trace_blank hline hblank]
      rfl

end Outcomes

section Events

variable {text name rest s u : Text} {scan : Scan} {texts : List Text} {l : Line}
variable {ps qs : List ListParam} {os : List LineOption} {fuel n : ℕ} {P : Event → Prop}

theorem up_to_last (hnext : Tokenizer.next isConditionDelimiter s = none)
    (hread : ReadUpTo s os u) : Tokenizer.next isConditionDelimiter u = none := by
  cases hread with
  | here => exact hnext
  | option htoken => cases hnext.symm.trans htoken

/-- What holds of all tokens that the reading comes to. -/
theorem up_to_step {token : Text} {Q : Text → Text → Prop}
    (hnext : Tokenizer.next isConditionDelimiter s = some (token, rest)) :
    (∀ os u t r, ReadUpTo s os u → Tokenizer.next isConditionDelimiter u = some (t, r) → Q t r) ↔
      Q token rest ∧ ∀ o r', ReadOption token rest o r' → ∀ os u t r, ReadUpTo r' os u →
        Tokenizer.next isConditionDelimiter u = some (t, r) → Q t r := by
  constructor
  · refine fun h => ⟨h [] s token rest .here hnext, fun o r' hoption os u t r hread => ?_⟩
    exact h (o.toList ++ os) u t r (.option hnext hoption hread)
  · rintro ⟨hfirst, hrest⟩ os u t r hread hu
    cases hread with
    | here =>
      cases hnext.symm.trans hu
      exact hfirst
    | option htoken hoption hread =>
      cases hnext.symm.trans htoken
      exact hrest _ _ hoption _ u t r hread hu

/-- The events of the options that the loop comes to, where those of the list do
not matter. -/
theorem loop_events (hfinish : ∀ scan, ∀ e ∈ finishEvents scan, P e) (hscan : Represents l scan)
    (hfuel : s.length < fuel) : (∀ e ∈ (traceLoop fuel s scan).events, P e) ↔
      ∀ os u token r, ReadUpTo s os u → Tokenizer.next isConditionDelimiter u = some (token, r) →
        ∀ e ∈ optionEvents r token, P e := by
  induction fuel generalizing s scan l with
  | zero => exact absurd hfuel (Nat.not_lt_zero _)
  | succ fuel ih =>
    rw [traceLoop]
    cases hnext : Tokenizer.next isConditionDelimiter s with
    | none =>
      refine iff_of_true (fun e he => ?_) fun os u token r hread hu => ?_
      · rw [Traced.emits_bind] at he
        exact hfinish scan e (by simpa only [Traced.lift, List.append_nil] using he)
      · cases (up_to_last hnext hread).symm.trans hu
    | some q =>
      obtain ⟨token, rest⟩ := q
      have hshort := (Tokenizer.next_split hnext).2.2.1
      rw [up_to_step (Q := fun token r => ∀ e ∈ optionEvents r token, P e) hnext]
      simp only [Traced.emits_bind, List.forall_mem_append]
      refine and_congr_right fun _ => ?_
      cases hparse : parseOption rest scan token with
      | error fault =>
        refine iff_of_true (List.forall_mem_nil _) fun o r' hoption => ?_
        obtain ⟨scan', hok, -⟩ := read_parsed hoption hscan
        cases hparse.symm.trans hok
      | ok q =>
        obtain ⟨r', scan'⟩ := q
        obtain ⟨o, hoption⟩ := parsed_read hparse
        obtain ⟨scan'', hok, hscan'⟩ := read_parsed hoption hscan
        cases hparse.symm.trans hok
        have hle := read_shortens hoption
        rw [Traced.lift_ok_bind, ih hscan' (show r'.length < fuel by omega)]
        constructor
        · intro h o' r₂ hoption'
          obtain ⟨scan₂, hok', -⟩ := read_parsed hoption' hscan
          cases hparse.symm.trans hok'
          exact h
        · exact fun h => h o r' hoption

theorem with_token_all {d : Char → Bool} {behind : Text → Text → List Event}
    (hmissing : P .missing) (h : ∀ t r, ∀ e ∈ behind t r, P e) :
    ∀ e ∈ withToken d s behind, P e := by
  rw [withToken]
  split
  · exact List.forall_mem_singleton.mpr hmissing
  · exact h _ _

theorem condition_events_all (hmissing : P .missing) (hcondition : ∀ i, P (.condition i))
    (rest : Text) : ∀ e ∈ conditionEvents rest, P e := by
  have hwrite : ∀ k, ∀ e ∈ writeCondition k, P e := fun k =>
    List.forall_mem_map.mpr fun i _ => hcondition i
  refine with_token_all hmissing fun t r => ?_
  split_ifs
  · refine with_token_all hmissing fun u v => ?_
    split_ifs
    · exact List.forall_mem_nil _
    · exact hwrite _
  · exact hwrite _

/-- An option touches the first string at most, and the condition. -/
theorem option_events_all (hmissing : P .missing) (hstring : P (.stringValues 0))
    (rest token : Text) (hcondition : token = "-i".toList → ∀ e ∈ conditionEvents rest, P e) :
    ∀ e ∈ optionEvents rest token, P e := by
  have hlast : ∀ {d : Char → Bool} {s : Text}, ∀ e ∈ withToken d s fun _ _ => [], P e :=
    with_token_all hmissing fun _ _ => List.forall_mem_nil _
  rw [optionEvents]
  split_ifs with _ _ _ _ _ _ hi
  · exact List.forall_mem_nil _
  · exact hlast
  · exact hlast
  · exact with_token_all hmissing fun _ _ => List.forall_mem_singleton.mpr hstring
  · refine with_token_all hmissing fun _ _ => ?_
    split_ifs
    · exact hlast
    · exact List.forall_mem_nil _
  · refine with_token_all hmissing fun _ _ => ?_
    split_ifs
    · refine with_token_all hmissing fun _ _ => ?_
      split_ifs
      · exact hlast
      · exact List.forall_mem_nil _
    · exact List.forall_mem_nil _
  · exact hcondition hi
  · exact List.forall_mem_nil _

/-- A list is put behind what is there, up to the limit. -/
theorem finish_events_all (hstrings : ∀ i < maxValues, P (.stringValues i)) (scan : Scan) :
    ∀ e ∈ finishEvents scan, P e := by
  rw [finishEvents]
  split
  · exact List.forall_mem_nil _
  · rw [setValuesEvents]
    refine List.forall_mem_append.mpr ⟨fun e he => ?_, ?_⟩
    · obtain ⟨i, hi, rfl⟩ := List.mem_map.mp he
      have hlt := List.mem_range.mp (List.mem_of_mem_drop hi)
      exact hstrings i (lt_of_lt_of_le hlt (min_le_right _ _))
    · split_ifs with hlong
      · exact List.forall_mem_nil _
      · intro e he
        obtain ⟨i, hi, rfl⟩ := List.mem_map.mp he
        have hlt := lt_of_lt_of_le (List.mem_range.mp hi) (min_le_right _ _)
        exact hstrings i (lt_of_lt_of_le hlt (Nat.not_lt.mp hlong))

theorem init_events_all (hcondition : P (.condition 0))
    (hstrings : ∀ i < maxValues, P (.stringValues i)) : ∀ e ∈ initEvents, P e := by
  refine List.forall_mem_cons.mpr ⟨hcondition, fun e he => ?_⟩
  obtain ⟨i, hi, rfl⟩ := List.mem_map.mp he
  exact hstrings i (List.mem_range.mp hi)

/-- The events of one line, apart from those of its options. -/
theorem line_events (hmissing : P .missing) (hentry : ∀ i, P (.entry i))
    (hcondition : P (.condition 0)) (hstrings : ∀ i < maxValues, P (.stringValues i)) :
    (∀ e ∈ (traceLine n text ps).events, P e) ↔
      ∀ name rest, Named text name rest → ps.length < n → ∀ os u token r, ReadUpTo rest os u →
        Tokenizer.next isConditionDelimiter u = some (token, r) →
          ∀ e ∈ optionEvents r token, P e := by
  rcases text_cases text with hskip | ⟨name, rest, hnamed⟩ | ⟨hline, hblank⟩
  · rw [trace_skipped hskip]
    exact iff_of_true (List.forall_mem_nil _) fun name rest hnamed =>
      absurd hskip (named_not_skipped hnamed)
  · have hloop := loop_events (P := P) (finish_events_all hstrings) (represents_bare name)
      (Nat.lt_succ_self rest.length)
    rw [trace_named hnamed, traceEntry, Traced.emit_bind]
    split_ifs with hfull
    · refine iff_of_true (List.forall_mem_singleton.mpr (hentry _)) fun _ _ _ hroom => ?_
      exact absurd hroom (Nat.not_lt.mpr hfull)
    · rw [List.forall_mem_cons, Traced.emits_bind, List.forall_mem_append,
        Traced.forall_events_bind]
      constructor
      · rintro ⟨-, -, hall, -⟩ name' rest' hnamed' -
        cases hnamed.2.1.symm.trans hnamed'.2.1
        exact hloop.mp hall
      · intro h
        exact ⟨hentry _, init_events_all hcondition hstrings,
          hloop.mpr (h name rest hnamed (Nat.not_le.mp hfull)), fun _ _ => List.forall_mem_nil _⟩
  · rw [trace_blank hline hblank]
    refine iff_of_true (List.forall_mem_singleton.mpr hmissing) fun name rest hnamed => ?_
    cases hblank.symm.trans hnamed.2.1

theorem parse_cons_ok : parse n (text::texts) ps = .ok qs ↔
    ∃ rs, (traceLine n text ps).outcome = some (.ok rs) ∧ parse n texts rs = .ok qs := by
  rw [← Option.some_inj, ← trace_parse_outcome, traceParse, Traced.outcome_bind_ok]
  simp only [trace_parse_outcome, Option.some_inj]

/-- The events of the lines that the parser comes to. -/
theorem parse_events : (∀ e ∈ (traceParse n texts ps).events, P e) ↔
    ∀ before text after qs, texts = before ++ text::after → parse n before ps = .ok qs →
      ∀ e ∈ (traceLine n text qs).events, P e := by
  induction texts generalizing ps with
  | nil =>
    refine ⟨fun _ before text after qs h => ?_, fun _ => List.forall_mem_nil _⟩
    exact absurd h.symm (List.append_ne_nil_of_right_ne_nil _ (List.cons_ne_nil _ _))
  | cons line texts ih =>
    rw [traceParse, Traced.forall_events_bind]
    simp only [ih]
    constructor
    · rintro ⟨hline, hrest⟩ before text after qs heq hparse
      cases before with
      | nil =>
        cases heq
        cases hparse
        exact hline
      | cons b before =>
        cases heq
        obtain ⟨rs, hrs, hparse⟩ := parse_cons_ok.mp hparse
        exact hrest rs hrs before text after qs rfl hparse
    · refine fun h => ⟨h [] line texts ps rfl rfl, fun rs hrs before text after qs heq hparse => ?_⟩
      exact h (line::before) text after qs (by rw [heq, List.cons_append])
        (parse_cons_ok.mpr ⟨rs, hrs, hparse⟩)

end Events

end Otpo.ParseTrace
