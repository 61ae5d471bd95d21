import Otpo.ParseTrace

/-!
# The two passes over the parameter file

The first pass counts lines, with spaces alone in front of a comment; the second
fills the entries, with spaces and tabs.
-/

set_option autoImplicit false

namespace Otpo.PassAgreement
open Otpo.ParamList Otpo.ResultFile Otpo.ParseLine Otpo.ParameterLines
open Otpo.FormatLine Otpo.ParseFormat Otpo.LineReading Otpo.ParseTrace
open Tokenizer (Blank)

section Claim

def Sane (n : ℕ) (e : Event) : Prop := e ≠ .missing ∧ ∀ i, e = .entry i → i < n

def PassesAgree (texts : List Text) : Prop :=
  (∀ e ∈ (traceCount texts 0).events, e ≠ .missing) ∧
    ∀ n, (traceCount texts 0).outcome = some (.ok n) →
      (∀ e ∈ (traceParse n texts []).events, Sane n e) ∧
        ∀ ps, (traceParse n texts []).outcome = some (.ok ps) → ps.length = n

def Given (d : Char → Bool) (rest : Text) (behind : Text → Text → Prop) : Prop :=
  ∃ token rest', Tokenizer.next d rest = some (token, rest') ∧ behind token rest'

def Supplied (rest token : Text) : Prop :=
  if token = "-v".toList then True
  else if token = "-d".toList then Given isConditionDelimiter rest fun _ _ => True
  else if token = "-p".toList then Given isBrace rest fun _ _ => True
  else if token = "-a".toList then Given isQuote rest fun _ _ => True
  else if token = "-r".toList then
    Given isBlank rest fun token rest => IsInteger token → Given isBlank rest fun _ _ => True
  else if token = "-t".toList then
    Given isConditionDelimiter rest fun token rest => token = "increment".toList →
      Given isBlank rest fun token rest => (token.head?.bind operationOf).isSome →
        Given isBlank rest fun _ _ => True
  else if token = "-i".toList then
    Given isConditionDelimiter rest fun token rest => startsWith '\"' token = true →
      Given isQuote rest fun _ _ => True
  else True

def SuppliedLine (text : Text) : Prop :=
  Skipped text ∨ ∃ name rest, Named text name rest ∧
    ∀ os u token r, ReadUpTo rest os u → Tokenizer.next isConditionDelimiter u = some (token, r) →
      Supplied r token

def TabComment (text : Text) : Prop := ∃ b r, Blank isBlank b ∧ '\t' ∈ b ∧ text = b ++ '#'::r

def Tidy (texts : List Text) : Prop :=
  (∀ text ∈ texts, ¬ Blank (· == ' ') text) ∧
    (∀ before text after ls, texts = before ++ text::after → ReadFile before ls →
      (∀ l ∈ ls, Short l) → SuppliedLine text) ∧
        ∀ ls, ReadFile texts ls → (∀ l ∈ ls, Short l) → ∀ text ∈ texts, ¬ TabComment text

end Claim

section Options

variable {d : Char → Bool} {rest token s : Text} {l : Line} {n : ℕ}
variable {events : List Event} {P : Event → Prop}

theorem forall_with_token {behind : Text → Text → List Event} (hmissing : ¬ P .missing) :
    (∀ e ∈ withToken d rest behind, P e) ↔
      Given d rest fun token rest => ∀ e ∈ behind token rest, P e := by
  rw [withToken, Given]
  cases Tokenizer.next d rest with
  | none => simp [hmissing]
  | some q =>
    obtain ⟨t, r⟩ := q
    simp

theorem forall_with_last (hmissing : ¬ P .missing) :
    (∀ e ∈ withToken d rest fun _ _ => [], P e) ↔ Given d rest fun _ _ => True := by
  rw [forall_with_token hmissing]
  simp

theorem forall_guarded {p : Prop} [Decidable p] :
    (∀ e ∈ if p then events else [], P e) ↔ (p → ∀ e ∈ events, P e) := by
  split_ifs with hp <;> simp [hp]

theorem given_congr {p q : Text → Text → Prop} (h : ∀ t r, p t r ↔ q t r) :
    Given d rest p ↔ Given d rest q := by
  rw [Given, Given]
  simp only [h]

theorem sane_missing (n : ℕ) : ¬ Sane n .missing := fun h => h.1 rfl

theorem sane_condition (k : ℕ) : ∀ e ∈ writeCondition k, Sane n e := by
  rintro e he
  obtain ⟨i, -, rfl⟩ := List.mem_map.mp he
  exact ⟨Event.noConfusion, fun j hj => by cases hj⟩

theorem sane_string (i : ℕ) : Sane n (.stringValues i) :=
  ⟨Event.noConfusion, fun j hj => by cases hj⟩

theorem sane_finish (scan : Scan) : ∀ e ∈ finishEvents scan, Sane n e :=
  finish_events_all (fun i _ => sane_string i) scan

theorem sane_init : ∀ e ∈ initEvents, Sane n e :=
  init_events_all ⟨Event.noConfusion, fun j hj => by cases hj⟩ fun i _ => sane_string i

theorem sane_condition_events : (∀ e ∈ conditionEvents rest, Sane n e) ↔
    Given isConditionDelimiter rest fun token rest => startsWith '\"' token = true →
      Given isQuote rest fun _ _ => True := by
  rw [conditionEvents, forall_with_token (sane_missing n)]
  refine given_congr fun t r => ?_
  split_ifs with hquote
  · rw [forall_with_token (sane_missing n)]
    simp only [hquote, true_imp_iff]
    refine given_congr fun u v => iff_of_true ?_ trivial
    split_ifs
    · exact List.forall_mem_nil _
    · exact sane_condition _
  · exact iff_of_true (sane_condition _) fun h => absurd h hquote

theorem sane_option : (∀ e ∈ optionEvents rest token, Sane n e) ↔ Supplied rest token := by
  have hnone : (∀ e ∈ ([] : List Event), Sane n e) ↔ True :=
    iff_of_true (List.forall_mem_nil _) trivial
  rw [optionEvents, Supplied]
  split_ifs
  · exact hnone
  · exact forall_with_last (sane_missing n)
  · exact forall_with_last (sane_missing n)
  · rw [aggregateEvents, forall_with_token (sane_missing n)]
    exact given_congr fun t r =>
      iff_of_true (List.forall_mem_singleton.mpr (sane_string 0)) trivial
  · simp only [rangeEvents, forall_with_token (sane_missing n), forall_guarded, hnone]
  · simp only [traversalEvents, forall_with_token (sane_missing n), forall_guarded, hnone]
  · exact sane_condition_events
  · exact hnone

end Options

section Counting

variable {text name rest : Text} {texts : List Text} {l : Line} {ls : List Line} {k : ℕ}

def counts (text : Text) : Bool :=
  !startsWith '\n' text &&
    match Tokenizer.next (· == ' ') text with
    | none => false
    | some (token, _) => !startsWith '#' token

theorem starts_cons {c : Char} {s : Text} : startsWith c s = true ↔ ∃ r, s = c::r := by
  cases s with
  | nil => simp [startsWith]
  | cons x s => simp [startsWith]

theorem token_starts {d : Char → Bool} {s t r : Text} (h : Tokenizer.next d s = some (t, r))
    (c : Char) : startsWith c t = startsWith c (s.dropWhile d) := by
  rw [Tokenizer.next] at h
  split at h
  · cases h
  · next x xs hdrop =>
    cases h
    rw [hdrop]
    rfl

/-- A token that begins a comment stands behind delimiters. -/
theorem token_comment {d : Char → Bool} {s t r : Text} (hd : d '#' = false)
    (h : Tokenizer.next d s = some (t, r)) :
    startsWith '#' t = true ↔ ∃ b r, Blank d b ∧ s = b ++ '#'::r := by
  rw [token_starts h, starts_cons]
  constructor
  · rintro ⟨r', hr⟩
    refine ⟨s.takeWhile d, r', fun c hc => List.mem_takeWhile_imp hc, ?_⟩
    rw [← hr, List.takeWhile_append_dropWhile]
  · rintro ⟨b, r', hb, rfl⟩
    rw [Tokenizer.drop_blank hb, List.dropWhile_cons_of_neg (by rw [hd]; exact Bool.false_ne_true)]
    exact ⟨r', rfl⟩

theorem next_none {d : Char → Bool} {s : Text} : Tokenizer.next d s = none ↔ Blank d s := by
  refine ⟨fun h => ?_, Tokenizer.next_blank⟩
  rw [Tokenizer.next] at h
  split at h
  · next hdrop => exact List.dropWhile_eq_nil_iff.mp hdrop
  · cases h

theorem next_spaces (h : ¬ Blank (· == ' ') text) :
    ∃ t r, Tokenizer.next (· == ' ') text = some (t, r) := by
  cases hnext : Tokenizer.next (· == ' ') text with
  | none => exact absurd (next_none.mp hnext) h
  | some q => exact ⟨q.1, q.2, rfl⟩

theorem blank_starts {d : Char → Bool} (hd : d '\n' = false) (h : Blank d text) :
    startsWith '\n' text = false := by
  rw [Bool.eq_false_iff]
  intro hline
  obtain ⟨r, rfl⟩ := starts_cons.mp hline
  rw [h '\n' List.mem_cons_self] at hd
  cases hd

theorem count_blank (h : Blank (· == ' ') text) :
    traceCount (text::texts) k = ⟨[.missing], some (.error .undefined)⟩ := by
  rw [traceCount, blank_starts rfl h, Tokenizer.next_blank h]
  rfl

theorem count_line (h : ¬ Blank (· == ' ') text) :
    traceCount (text::texts) k = traceCount texts (k+(counts text).toNat) := by
  obtain ⟨t, r, hnext⟩ := next_spaces h
  rw [traceCount, counts, hnext]
  dsimp only
  cases startsWith '\n' text <;> cases startsWith '#' t <;> rfl

theorem count_events : (∀ e ∈ (traceCount texts k).events, e ≠ .missing) ↔
    ∀ text ∈ texts, ¬ Blank (· == ' ') text := by
  induction texts generalizing k with
  | nil => exact iff_of_true (List.forall_mem_nil _) (List.forall_mem_nil _)
  | cons text texts ih =>
    rw [List.forall_mem_cons]
    by_cases h : Blank (· == ' ') text
    · rw [count_blank h]
      exact iff_of_false (fun hall => hall .missing List.mem_cons_self rfl) fun hall => hall.1 h
    · rw [count_line h, ih]
      exact (and_iff_right h).symm

theorem count_outcome (h : ∀ text ∈ texts, ¬ Blank (· == ' ') text) :
    (traceCount texts k).outcome = some (.ok (k+texts.countP counts)) := by
  induction texts generalizing k with
  | nil => rfl
  | cons text texts ih =>
    rw [List.forall_mem_cons] at h
    rw [count_line h.1, ih h.2, List.countP_cons, Nat.add_assoc, Nat.add_comm (texts.countP _)]
    cases counts text <;> rfl

theorem counts_token {t r : Text} (h : Tokenizer.next (· == ' ') text = some (t, r)) :
    counts text = true ↔ startsWith '\n' text = false ∧ startsWith '#' t = false := by
  rw [counts, h]
  simp

/-- A parameter is counted. -/
theorem named_counts (hspaces : ¬ Blank (· == ' ') text) (h : Named text name rest) :
    counts text = true := by
  obtain ⟨t, r, hnext⟩ := next_spaces hspaces
  obtain ⟨hline, hname, hcomment⟩ := h
  refine (counts_token hnext).mpr ⟨hline, Bool.eq_false_iff.mpr fun ht => ?_⟩
  obtain ⟨b, r', hb, htext⟩ := (token_comment rfl hnext).mp ht
  have hblank : Blank isBlank b := fun c hc => by rw [eq_of_beq (hb c hc)]; rfl
  rw [(token_comment rfl hname).mpr ⟨b, r', hblank, htext⟩] at hcomment
  cases hcomment

/-- What is in front of the first `#` behind blanks. -/
theorem blanks_unique {b b' r r' : Text} (h : Blank isBlank b) (h' : Blank isBlank b')
    (heq : b ++ '#'::r = b' ++ '#'::r') : b = b' := by
  have htake : ∀ {b r : Text}, Blank isBlank b → (b ++ '#'::r).takeWhile isBlank = b :=
    fun {b r} hb => by
      rw [List.takeWhile_append_of_pos hb, List.takeWhile_cons_of_neg (by decide), List.append_nil]
  rw [← htake h, heq, htake h']

/-- A line without a parameter is counted if it is a comment behind a tab. -/
theorem skipped_counts (hspaces : ¬ Blank (· == ' ') text) (h : Skipped text) :
    counts text = true ↔ TabComment text := by
  obtain ⟨t, r, hnext⟩ := next_spaces hspaces
  rw [counts_token hnext]
  constructor
  · rintro ⟨hline, ht⟩
    rcases h with hn | ⟨name, rest, hname, hcomment⟩
    · rw [hn] at hline
      cases hline
    · obtain ⟨b, r', hb, htext⟩ := (token_comment rfl hname).mp hcomment
      refine ⟨b, r', hb, ?_, htext⟩
      by_contra htab
      have hsp : Blank (· == ' ') b := fun c hc => by
        have hc' := hb c hc
        rw [isBlank, Bool.or_eq_true] at hc'
        rcases hc' with hc' | hc'
        · exact hc'
        · exact absurd (eq_of_beq hc' ▸ hc) htab
      rw [(token_comment rfl hnext).mpr ⟨b, r', hsp, htext⟩] at ht
      cases ht
  · rintro ⟨b, r', hb, htab, rfl⟩
    constructor
    · cases b with
      | nil => cases htab
      | cons c b =>
        have hc : c ≠ '\n' := blank_ne_newline (hb c List.mem_cons_self)
        simpa [startsWith] using hc
    · rw [Bool.eq_false_iff]
      intro ht
      obtain ⟨b', r'', hb', htext⟩ := (token_comment rfl hnext).mp ht
      have hblank : Blank isBlank b' := fun c hc => by rw [eq_of_beq (hb' c hc)]; rfl
      rw [blanks_unique hb hblank htext] at htab
      exact absurd (hb' _ htab) (by decide)

theorem read_line_counts (hspaces : ¬ Blank (· == ' ') text) (h : ReadLine text l) :
    counts text = true ∧ ¬ TabComment text := by
  obtain ⟨name, rest, os, hnamed, -, -⟩ := h
  refine ⟨named_counts hspaces hnamed, ?_⟩
  rintro ⟨b, r, hb, -, rfl⟩
  have hcomment := (token_comment rfl hnamed.2.1).mpr ⟨b, r, hb, rfl⟩
  rw [hnamed.2.2] at hcomment
  cases hcomment

/-- The lines that are read are among those that are counted, and all of them if
no comment is. -/
theorem read_counts (hspaces : ∀ text ∈ texts, ¬ Blank (· == ' ') text) (h : ReadFile texts ls) :
    ls.length ≤ texts.countP counts ∧
      (ls.length = texts.countP counts ↔ ∀ text ∈ texts, ¬ TabComment text) := by
  induction h with
  | nil => exact ⟨le_refl _, iff_of_true rfl (List.forall_mem_nil _)⟩
  | @skip text texts ls hskip _ ih =>
    rw [List.forall_mem_cons] at hspaces
    obtain ⟨hle, hiff⟩ := ih hspaces.2
    rw [List.forall_mem_cons, List.countP_cons, ← hiff, ← skipped_counts hspaces.1 hskip]
    cases counts text
    · simpa using hle
    · simp
      omega
  | @line text l texts ls hline _ ih =>
    rw [List.forall_mem_cons] at hspaces
    obtain ⟨hle, hiff⟩ := ih hspaces.2
    obtain ⟨hcounts, htab⟩ := read_line_counts hspaces.1 hline
    rw [List.forall_mem_cons, List.countP_cons, if_pos hcounts, List.length_cons, ← hiff]
    exact ⟨Nat.succ_le_succ hle, by simp [htab]⟩

end Counting

section Agreement

variable {text name rest : Text} {texts before after : List Text} {ls : List Line}
variable {ps : List ListParam} {n : ℕ}

theorem supplied_named (h : Named text name rest) : SuppliedLine text ↔
    ∀ os u token r, ReadUpTo rest os u → Tokenizer.next isConditionDelimiter u = some (token, r) →
      Supplied r token := by
  constructor
  · rintro (hskip | ⟨name', rest', hnamed, hsupplied⟩)
    · exact absurd hskip (named_not_skipped h)
    · cases h.2.1.symm.trans hnamed.2.1
      exact hsupplied
  · exact fun hsupplied => Or.inr ⟨name, rest, h, hsupplied⟩

/-- One line of the second pass, when there is an entry for it. -/
theorem sane_line (hroom : ∀ name rest, Named text name rest → ps.length < n) :
    (∀ e ∈ (traceLine n text ps).events, Sane n e) ↔ SuppliedLine text := by
  rcases text_cases text with hskip | ⟨name, rest, hnamed⟩ | ⟨hline, hblank⟩
  · rw [trace_skipped hskip]
    exact iff_of_true (List.forall_mem_nil _) (Or.inl hskip)
  · have hlt := hroom name rest hnamed
    have hentry : Sane n (.entry ps.length) := by
      refine ⟨Event.noConfusion, fun i hi => ?_⟩
      cases hi
      exact hlt
    rw [trace_named hnamed, traceEntry, if_neg (Nat.not_le.mpr hlt), supplied_named hnamed]
    simp only [← sane_option (n := n)]
    rw [← loop_events sane_finish (represents_bare name) (Nat.lt_succ_self rest.length)]
    simp only [Traced.emit_bind, Traced.emits_bind, List.forall_mem_cons, List.forall_mem_append,
      Traced.forall_events_bind]
    constructor
    · exact fun h => h.2.2.1
    · exact fun h => ⟨hentry, sane_init, h, fun _ _ => List.forall_mem_nil _⟩
  · rw [trace_blank hline hblank]
    refine iff_of_false (fun h => sane_missing n (h .missing List.mem_cons_self)) ?_
    rintro ((hn | ⟨name, rest, hname, -⟩) | ⟨name, rest, ⟨-, hname, -⟩, -⟩)
    · exact absurd (hline.symm.trans hn) (by decide)
    · cases hblank.symm.trans hname
    · cases hblank.symm.trans hname

/-- The lines in front of one that is counted leave an entry for it. -/
theorem entry_left (hspaces : ∀ t ∈ before ++ text::after, ¬ Blank (· == ' ') t)
    (h : ReadFile before ls) (hnamed : Named text name rest) :
    ls.length < (before ++ text::after).countP counts := by
  have hbefore := (read_counts (fun t ht => hspaces t (List.mem_append_left _ ht)) h).1
  have htext := named_counts
    (hspaces text (List.mem_append_right _ List.mem_cons_self)) hnamed
  rw [List.countP_append, List.countP_cons, if_pos htext]
  omega

theorem entries_left (hspaces : ∀ t ∈ before ++ after, ¬ Blank (· == ' ') t)
    (h : ReadFile before ls) : ls.length ≤ (before ++ after).countP counts := by
  have hbefore := (read_counts (fun t ht => hspaces t (List.mem_append_left _ ht)) h).1
  rw [List.countP_append]
  omega

theorem parsed_lines {qs : List ListParam} (h : parse n texts [] = .ok qs) :
    ∃ ls, ReadFile texts ls ∧ (∀ l ∈ ls, Short l) ∧ ls.length = qs.length := by
  obtain ⟨ls, rs, hread, hshort, rfl, hrs⟩ := parse_read h
  exact ⟨ls, hread, hshort, hrs.length_eq⟩

theorem lines_parsed (h : ReadFile texts ls) (hshort : ∀ l ∈ ls, Short l) (hroom : ls.length ≤ n) :
    ∃ qs, parse n texts [] = .ok qs ∧ ls.length = qs.length := by
  obtain ⟨rs, hparse, hrs⟩ := read_parse h hshort
    (show ([] : List ListParam).length+ls.length ≤ n by rwa [List.length_nil, Nat.zero_add])
  exact ⟨rs, hparse, hrs.length_eq⟩

/-- The second pass, when the first has counted. -/
theorem second_pass (hspaces : ∀ text ∈ texts, ¬ Blank (· == ' ') text)
    (hn : n = texts.countP counts) : (∀ e ∈ (traceParse n texts []).events, Sane n e) ↔
      ∀ before text after ls, texts = before ++ text::after → ReadFile before ls →
        (∀ l ∈ ls, Short l) → SuppliedLine text := by
  rw [parse_events]
  constructor
  · rintro h before text after ls rfl hread hshort
    obtain ⟨qs, hparse, hlength⟩ := lines_parsed hread hshort (entries_left hspaces hread)
    rw [← hn] at hparse
    refine (sane_line fun name rest hnamed => ?_).mp (h before text after qs rfl hparse)
    rw [← hlength, hn]
    exact entry_left hspaces hread hnamed
  · rintro h before text after qs rfl hparse
    obtain ⟨ls, hread, hshort, hlength⟩ := parsed_lines hparse
    refine (sane_line fun name rest hnamed => ?_).mpr (h before text after ls rfl hread hshort)
    rw [← hlength, hn]
    exact entry_left hspaces hread hnamed

theorem entries_filled (hspaces : ∀ text ∈ texts, ¬ Blank (· == ' ') text)
    (hn : n = texts.countP counts) : (∀ ps, parse n texts [] = .ok ps → ps.length = n) ↔
      ∀ ls, ReadFile texts ls → (∀ l ∈ ls, Short l) → ∀ text ∈ texts, ¬ TabComment text := by
  constructor
  · intro h ls hread hshort
    obtain ⟨hle, hiff⟩ := read_counts hspaces hread
    obtain ⟨qs, hparse, hlength⟩ := lines_parsed hread hshort (hle.trans_eq hn.symm)
    exact hiff.mp (by rw [hlength, h qs hparse, hn])
  · intro h ps hparse
    obtain ⟨ls, hread, hshort, hlength⟩ := parsed_lines hparse
    rw [← hlength, hn]
    exact (read_counts hspaces hread).2.mpr (h ls hread hshort)

theorem passes_agree_iff (texts : List Text) : PassesAgree texts ↔ Tidy texts := by
  rw [PassesAgree, Tidy, count_events]
  refine and_congr_right fun hspaces => ?_
  have hcount : (traceCount texts 0).outcome = some (.ok (texts.countP counts)) := by
    rw [count_outcome hspaces, Nat.zero_add]
  simp only [hcount, trace_parse_outcome, Option.some.injEq, Except.ok.injEq]
  constructor
  · intro h
    obtain ⟨hevents, hfilled⟩ := h _ rfl
    exact ⟨(second_pass hspaces rfl).mp hevents, (entries_filled hspaces rfl).mp hfilled⟩
  · rintro ⟨hevents, hfilled⟩ n hn
    exact ⟨(second_pass hspaces hn.symm).mpr hevents, (entries_filled hspaces hn.symm).mpr hfilled⟩

/-- A comment behind a tab is counted and leaves an entry that is not filled. -/
theorem tab_comment_disagrees : ¬ PassesAgree ["a -p \x7b1\x7d\n".toList, "\t# b\n".toList] := by
  rintro ⟨-, h⟩
  have hcount : (traceCount ["a -p \x7b1\x7d\n".toList, "\t# b\n".toList] 0).outcome =
      some (.ok 2) := by decide
  have hparse : ∃ p, (traceParse 2 ["a -p \x7b1\x7d\n".toList, "\t# b\n".toList] []).outcome =
      some (.ok [p]) := ⟨_, rfl⟩
  obtain ⟨p, hp⟩ := hparse
  have hlength : 1 = 2 := (h 2 hcount).2 [p] hp
  exact absurd hlength (by decide)

end Agreement

end Otpo.PassAgreement
