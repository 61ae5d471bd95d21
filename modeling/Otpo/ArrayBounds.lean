import Otpo.SpecifiedParameters

/-!
# The fixed arrays of a parameter

The limits of the arrays are tested where lists are taken apart. A condition is
tested against a limit that leaves no room for its null, or not at all, the
elements behind they are written, and the numbers of a range not at all.
-/

set_option autoImplicit false

namespace Otpo.ArrayBounds
open Otpo.ParamList Otpo.ResultFile Otpo.ParseLine Otpo.RangeTraversal
open Otpo.FormatLine Otpo.ParseFormat Otpo.LineReading Otpo.ParseTrace Otpo.InitializeTrace
open Otpo.PassAgreement Otpo.SpecifiedParameters
open Tokenizer (Blank)

section Claim

def InBounds : Event → Prop
  | .stringValues i => i < maxValues
  | .rpnElements i => i < rpnMaxElements
  | .condition i => i < conditionLength
  | _ => True

theorem first_string : InBounds (.stringValues 0) := show 0 < maxValues by decide

theorem first_condition : InBounds (.condition 0) := show 0 < conditionLength by decide

def Respected (lines : List Text) : Prop :=
  ∀ memory fuel debug, ∀ e ∈ (traceProgram memory fuel debug lines).events, InBounds e

def ConditionFits (rest : Text) : Prop :=
  ∀ t r, Tokenizer.next isConditionDelimiter rest = some (t, r) →
    if startsWith '\"' t then
      ∀ u v, Tokenizer.next isQuote r = some (u, v) → u.length+t.tail.length+1 ≠ conditionLength
    else t.length < conditionLength

def ConditionsFit (lines : List Text) : Prop :=
  ∀ before text after ls name rest, lines = before ++ text::after → ReadFile before ls →
    (∀ l ∈ ls, Short l) → Named text name rest → ∀ os u r, ReadUpTo rest os u →
      Tokenizer.next isConditionDelimiter u = some ("-i".toList, r) → ConditionFits r

def Bounded (l : Line) : Prop :=
  l.tokens.length ≤ rpnMaxElements ∧
    (l.values = [] → ∀ m vs, Yields l m vs → vs.length ≤ maxValues)

def WithinLimits (lines : List Text) : Prop :=
  ((∀ text ∈ lines, ¬ Blank (· == ' ') text) → ConditionsFit lines) ∧
    ∀ ls, ReadFile lines ls → (∀ l ∈ ls, Short l ∧ Ends l) →
      (∀ l ∈ ls, Bounded l) ∧ ∀ text ∈ lines, ¬ TabComment text

end Claim

section Conditions

variable {rest token : Text} {n : ℕ}

theorem write_in_bounds : (∀ e ∈ writeCondition n, InBounds e) ↔ n < conditionLength := by
  rw [writeCondition, List.forall_mem_map]
  constructor
  · exact fun h => h n (List.mem_range.mpr (Nat.lt_succ_self n))
  · exact fun h i hi => lt_of_le_of_lt (Nat.lt_succ_iff.mp (List.mem_range.mp hi)) h

theorem forall_token {t r : Text} {Q : Text → Text → Prop} :
    (∀ t' r', some (t, r) = some (t', r') → Q t' r') ↔ Q t r := by
  constructor
  · exact fun hall => hall t r rfl
  · rintro hQ t' r' h
    cases h
    exact hQ

theorem quoted_in_bounds {t r : Text} : (∀ e ∈ withToken isQuote r fun u _ =>
      if conditionLength < u.length+t.tail.length+1 then []
      else writeCondition (u.length+t.tail.length+1), InBounds e) ↔
    ∀ u v, Tokenizer.next isQuote r = some (u, v) →
      u.length+t.tail.length+1 ≠ conditionLength := by
  rw [withToken]
  cases hnext : Tokenizer.next isQuote r with
  | none => exact iff_of_true (List.forall_mem_singleton.mpr trivial) fun u v h => by cases h
  | some q =>
    rw [forall_token]
    dsimp only
    split_ifs with hlong
    · exact iff_of_true (List.forall_mem_nil _) hlong.ne'
    · rw [write_in_bounds]
      omega

theorem condition_in_bounds :
    (∀ e ∈ conditionEvents rest, InBounds e) ↔ ConditionFits rest := by
  rw [conditionEvents, ConditionFits, withToken]
  cases hnext : Tokenizer.next isConditionDelimiter rest with
  | none => exact iff_of_true (List.forall_mem_singleton.mpr trivial) fun t r h => by cases h
  | some q =>
    rw [forall_token]
    dsimp only
    split_ifs
    · exact quoted_in_bounds
    · exact write_in_bounds

theorem option_in_bounds : (∀ e ∈ optionEvents rest token, InBounds e) ↔
    (token = "-i".toList → ConditionFits rest) := by
  constructor
  · rintro h rfl
    exact condition_in_bounds.mp h
  · refine fun h => option_events_all trivial first_string rest token fun hi => ?_
    exact condition_in_bounds.mpr (h hi)

end Conditions

section Parsing

variable {lines texts : List Text} {ls : List Line} {r r' t : Text} {scan scan' : Scan}
variable {ps qs : List ListParam} {p : ListParam} {n fuel : ℕ}

theorem count_in_bounds (k : ℕ) : ∀ e ∈ (traceCount lines k).events, InBounds e := by
  induction lines generalizing k with
  | nil => exact List.forall_mem_nil _
  | cons text lines ih =>
    by_cases h : Blank (· == ' ') text
    · rw [count_blank h]
      exact List.forall_mem_singleton.mpr trivial
    · rw [count_line h]
      exact ih _

theorem count_spaces {k : ℕ} (h : (traceCount lines k).outcome = some (.ok n)) :
    ∀ text ∈ lines, ¬ Blank (· == ' ') text := by
  induction lines generalizing k with
  | nil => exact List.forall_mem_nil _
  | cons text lines ih =>
    by_cases hspaces : Blank (· == ' ') text
    · rw [count_blank hspaces] at h
      cases h
    · rw [count_line hspaces] at h
      exact List.forall_mem_cons.mpr ⟨hspaces, ih h⟩

/-- The accesses of the parser. -/
theorem parse_in_bounds (hspaces : ∀ text ∈ lines, ¬ Blank (· == ' ') text)
    (hn : n = lines.countP counts) :
    (∀ e ∈ (traceParse n lines []).events, InBounds e) ↔ ConditionsFit lines := by
  have hline : ∀ {text : Text} {qs : List ListParam},
      (∀ e ∈ (traceLine n text qs).events, InBounds e) ↔ _ := fun {text qs} =>
    line_events (n := n) (P := InBounds) trivial (fun _ => trivial) first_condition (fun _ hi => hi)
  rw [parse_events]
  constructor
  · rintro h before text after ls name rest rfl hread hshort hnamed os u r hupto htoken
    obtain ⟨qs, hparse, hlength⟩ := lines_parsed hread hshort (entries_left hspaces hread)
    rw [← hn] at hparse
    have hroom : qs.length < n := by
      rw [← hlength, hn]
      exact entry_left hspaces hread hnamed
    have hevents := h before text after qs rfl hparse
    exact option_in_bounds.mp (hline.mp hevents name rest hnamed hroom os u _ r hupto htoken) rfl
  · rintro h before text after qs rfl hparse
    obtain ⟨ls, hread, hshort, -⟩ := parsed_lines hparse
    refine hline.mpr fun name rest hnamed _ os u token r hupto htoken => ?_
    refine option_in_bounds.mpr fun hi => ?_
    subst hi
    exact h before text after ls name rest rfl hread hshort hnamed os u r hupto htoken

def Roomy (p : ListParam) : Prop := p.condition.length < conditionLength

theorem traversal_roomy {q : Text × Scan} (h : parseTraversal r scan = .ok q)
    (hs : Roomy scan.param) : Roomy q.2.param := by
  obtain ⟨⟨t, u⟩, -, h⟩ := bind_ok.mp h
  dsimp only at h
  split_ifs at h
  obtain ⟨⟨v, w⟩, -, h⟩ := bind_ok.mp h
  dsimp only at h
  split at h
  · cases h
  · obtain ⟨⟨x, y⟩, -, h⟩ := bind_ok.mp h
    obtain ⟨increment, -, h⟩ := bind_ok.mp h
    cases h
    exact hs

theorem condition_roomy {q : Text × Scan} (h : parseCondition r scan = .ok q)
    (hs : Roomy scan.param) : Roomy q.2.param := by
  obtain ⟨⟨t, u⟩, -, h⟩ := bind_ok.mp h
  dsimp only at h
  split_ifs at h with hquote hlong
  · obtain ⟨⟨v, w⟩, -, h⟩ := bind_ok.mp h
    dsimp only at h
    split_ifs at h with hlong hfull
    · cases h
      exact hs
    · cases h
      have hlength : (t.tail ++ ' '::v).length = v.length+t.tail.length+1 := by
        rw [List.length_append, List.length_cons]
        omega
      exact hlength.trans_lt (lt_of_le_of_ne (Nat.not_lt.mp hlong) (Ne.symm hfull))
  · cases h
    exact Nat.not_le.mp hlong

theorem option_roomy (h : parseOption r scan t = .ok (r', scan')) (hs : Roomy scan.param) :
    Roomy scan'.param := by
  rw [parseOption] at h
  split_ifs at h
  · cases h
    exact hs
  · obtain ⟨⟨u, v⟩, -, h⟩ := bind_ok.mp h
    cases h
    exact hs
  · obtain ⟨⟨u, v⟩, -, h⟩ := bind_ok.mp h
    cases h
    exact hs
  · obtain ⟨⟨u, v⟩, -, h⟩ := bind_ok.mp h
    cases h
    exact hs
  · obtain ⟨⟨u, v⟩, -, h⟩ := bind_ok.mp h
    obtain ⟨startValue, -, h⟩ := bind_ok.mp h
    obtain ⟨⟨w, x⟩, -, h⟩ := bind_ok.mp h
    obtain ⟨endValue, -, h⟩ := bind_ok.mp h
    cases h
    exact hs
  · exact traversal_roomy h hs
  · exact condition_roomy h hs

theorem loop_roomy {s : Text} (h : parseLoop fuel s scan = .ok p) (hs : Roomy scan.param) :
    Roomy p := by
  induction fuel generalizing s scan with
  | zero => cases h
  | succ fuel ih =>
    rw [parseLoop] at h
    split at h
    · rw [finishLine] at h
      split at h
      · cases h
        exact hs
      · rw [setValues] at h
        split_ifs at h
        cases h
        exact hs
    · split at h
      · cases h
      · next hparse => exact ih h (option_roomy hparse hs)

/-- All conditions that the parser leaves. -/
theorem parse_roomy (h : parse n texts ps = .ok qs) (hps : ∀ p ∈ ps, Roomy p) :
    ∀ p ∈ qs, Roomy p := by
  induction texts generalizing ps with
  | nil =>
    cases h
    exact hps
  | cons text texts ih =>
    rcases text_cases text with hskip | ⟨name, rest, hnamed⟩ | ⟨hline, hblank⟩
    · rw [parse_skipped hskip] at h
      exact ih h hps
    · rw [parse_named hnamed] at h
      split_ifs at h
      split at h
      · cases h
      · next p hp =>
        have hnew : Roomy (newParam name) := show 0 < conditionLength by decide
        exact ih h (List.forall_mem_append.mpr
          ⟨hps, List.forall_mem_singleton.mpr (loop_roomy hp hnew)⟩)
    · rw [parse_blank hline hblank] at h
      cases h

end Parsing

section Elements

variable {m : Memory} {p : ListParam} {ps : List ListParam} {slots : List (Option ListParam)}
variable {slot : Option ListParam} {names : List Text} {ess : List (List RpnElement)} {fuel n : ℕ}
variable {memory : ℕ → Memory}

theorem field_in_bounds {A : Type} (x : Option A) (a : A) :
    ∀ e ∈ (field x a).events, InBounds e := by
  cases x with
  | none => exact List.forall_mem_singleton.mpr trivial
  | some a => exact List.forall_mem_nil _

/-- The loop over a range touches none of the arrays. -/
theorem range_in_bounds (tmp : ℤ) (values : List ℤ) (num : ℕ) :
    ∀ e ∈ (traceRange m p fuel tmp values num).events, InBounds e := by
  induction fuel generalizing tmp values num with
  | zero => exact List.forall_mem_nil _
  | succ fuel ih =>
    refine Traced.forall_events_bind.mpr ⟨field_in_bounds _ _, fun endValue _ => ?_⟩
    split_ifs
    · exact List.forall_mem_nil _
    · refine Traced.forall_events_bind.mpr ⟨field_in_bounds _ _, fun o _ => ?_⟩
      refine Traced.forall_events_bind.mpr ⟨?_, fun k _ => ?_⟩
      · rw [readIncrement]
        split_ifs
        · exact field_in_bounds _ _
        · exact List.forall_mem_nil _
      · refine Traced.forall_events_bind.mpr ⟨List.forall_mem_nil _, fun q _ => ?_⟩
        dsimp only
        split_ifs
        · exact ih _ _ _
        · exact ih _ _ _
        · exact ih _ _ _

theorem all_values_in_bounds :
    ∀ e ∈ (traceAllValues fuel memory slots).events, InBounds e := by
  induction slots generalizing memory with
  | nil => exact List.forall_mem_nil _
  | cons slot slots ih =>
    refine Traced.forall_events_bind.mpr ⟨?_, fun _ _ => ?_⟩
    · refine Traced.forall_events_bind.mpr ⟨field_in_bounds _ _, fun p _ => ?_⟩
      split_ifs
      · exact List.forall_mem_nil _
      · refine Traced.forall_events_bind.mpr ⟨field_in_bounds _ _, fun s _ => ?_⟩
        refine Traced.forall_events_bind.mpr ⟨range_in_bounds _ _ _, fun q _ => ?_⟩
        dsimp only
        split_ifs <;> exact List.forall_mem_nil _
    · exact Traced.forall_events_bind.mpr ⟨ih, fun _ _ => List.forall_mem_nil _⟩

theorem strings_in_bounds {k : ℕ} :
    (∀ e ∈ (List.range k).map Event.stringValues, InBounds e) ↔ k ≤ maxValues := by
  rw [List.forall_mem_map]
  constructor
  · intro h
    by_contra hlt
    exact absurd (h maxValues (List.mem_range.mpr (Nat.not_le.mp hlt))) (lt_irrefl maxValues)
  · exact fun h i hi => lt_of_lt_of_le (List.mem_range.mp hi) h

theorem rpn_in_bounds {k : ℕ} :
    (∀ e ∈ (List.range k).map Event.rpnElements, InBounds e) ↔ k ≤ rpnMaxElements := by
  rw [List.forall_mem_map]
  constructor
  · intro h
    by_contra hlt
    exact absurd (h rpnMaxElements (List.mem_range.mpr (Nat.not_le.mp hlt)))
      (lt_irrefl rpnMaxElements)
  · exact fun h i hi => lt_of_lt_of_le (List.mem_range.mp hi) h

theorem condition_read {k : ℕ} (h : k < conditionLength) :
    ∀ e ∈ (List.range (k+1)).map Event.condition, InBounds e := write_in_bounds.mpr h

/-- The elements of a condition are written before they are counted. -/
theorem elements_within (hroomy : Roomy p)
    (htokens : (strtok isConditionDelimiter p.condition).length ≤ rpnMaxElements) :
    ∀ e ∈ elementsEvents p.condition, InBounds e := by
  rw [elementsEvents, List.forall_mem_cons, and_iff_right first_condition]
  split_ifs
  · exact List.forall_mem_nil _
  · rw [List.forall_mem_append, and_iff_right (condition_read hroomy), rpn_in_bounds]
    omega

theorem elements_bounding (h : ∀ e ∈ elementsEvents p.condition, InBounds e) :
    (strtok isConditionDelimiter p.condition).length ≤ rpnMaxElements := by
  rw [elementsEvents, List.forall_mem_cons] at h
  split_ifs at h with hnil
  · rw [hnil]
    exact Nat.zero_le _
  · have hrpn := rpn_in_bounds.mp (List.forall_mem_append.mp h.2).2
    omega

theorem elements_in_bounds (names : List Text) (hps : ∀ p ∈ ps, Roomy p ∧
    (strtok isConditionDelimiter p.condition).length ≤ rpnMaxElements) :
    ∀ e ∈ (traceElements names ps).events, InBounds e := by
  induction ps with
  | nil => exact List.forall_mem_nil _
  | cons p ps ih =>
    rw [List.forall_mem_cons] at hps
    refine Traced.forall_events_bind.mpr ⟨elements_within hps.1.1 hps.1.2, fun _ _ => ?_⟩
    refine Traced.forall_events_bind.mpr ⟨List.forall_mem_nil _, fun _ _ => ?_⟩
    exact Traced.forall_events_bind.mpr ⟨ih hps.2, fun _ _ => List.forall_mem_nil _⟩

/-- If the arrays are respected, no condition has too many elements. -/
theorem in_bounds_elements (h : ∀ e ∈ (traceElements names ps).events, InBounds e) :
    ∀ p ∈ ps, (strtok isConditionDelimiter p.condition).length ≤ rpnMaxElements := by
  induction ps with
  | nil => exact List.forall_mem_nil _
  | cons p ps ih =>
    rw [traceElements, Traced.forall_events_bind] at h
    have hp := elements_bounding h.1
    obtain ⟨es, hes⟩ := set_elements_ok.mpr hp
    have hrest := (Traced.forall_events_bind.mp (h.2 () rfl)).2 es (congrArg some hes)
    exact List.forall_mem_cons.mpr ⟨hp, ih (Traced.forall_events_bind.mp hrest).1⟩

theorem elements_bounded (h : (traceElements names ps).outcome = some (.ok ess)) :
    ∀ es ∈ ess, es.length ≤ rpnMaxElements := by
  induction ps generalizing ess with
  | nil =>
    cases h
    exact List.forall_mem_nil _
  | cons p ps ih =>
    rw [traceElements, emits_outcome] at h
    obtain ⟨es, hes, h⟩ := Traced.outcome_bind_ok.mp h
    obtain ⟨rest, hrest, h⟩ := Traced.outcome_bind_ok.mp h
    cases h
    exact List.forall_mem_cons.mpr
      ⟨set_rpn_stack_elements_bounded (Option.some.inj hes), ih hrest⟩

theorem values_loop_in_bounds : (∀ e ∈ valuesLoop p, InBounds e) ↔ numValues p ≤ maxValues :=
  strings_in_bounds

theorem unset_in_bounds {A : Type} (x : Option A) : ∀ e ∈ unsetEvents x, InBounds e := by
  rw [unsetEvents]
  split_ifs
  · exact List.forall_mem_singleton.mpr trivial
  · exact List.forall_mem_nil _

theorem dump_in_bounds {es : List RpnElement} (hroomy : Roomy p) (hvalues : numValues p ≤ maxValues)
    (hes : es.length ≤ rpnMaxElements) : ∀ e ∈ dumpEvents (p, es), InBounds e := by
  simp only [dumpEvents, List.forall_mem_append]
  refine ⟨⟨⟨values_loop_in_bounds.mpr hvalues, List.forall_mem_singleton.mpr first_string⟩, ?_⟩,
    rpn_in_bounds.mpr hes⟩
  split_ifs
  · simp only [List.forall_mem_append]
    exact ⟨⟨⟨⟨⟨⟨unset_in_bounds _, unset_in_bounds _⟩, unset_in_bounds _⟩, unset_in_bounds _⟩,
      unset_in_bounds _⟩, List.forall_mem_singleton.mpr first_condition⟩, List.forall_mem_nil _⟩
  · simp only [List.forall_mem_append]
    exact ⟨⟨⟨⟨⟨⟨unset_in_bounds _, unset_in_bounds _⟩, unset_in_bounds _⟩, unset_in_bounds _⟩,
      unset_in_bounds _⟩, List.forall_mem_singleton.mpr first_condition⟩, condition_read hroomy⟩
  · exact List.forall_mem_nil _

end Elements

section Program

variable {memory : ℕ → Memory} {fuel n : ℕ} {debug : Bool} {lines : List Text} {ls : List Line}
variable {ps ps' : List ListParam} {l : Line} {p p' : ListParam} {m : Memory}

theorem initialize_in_bounds :
    (∀ e ∈ (traceInitialize memory fuel n lines).events, InBounds e) ↔
      (∀ e ∈ (traceParse n lines []).events, InBounds e) ∧ ∀ ps, parse n lines [] = .ok ps →
        ∀ ps', (traceAllValues fuel memory (slots n ps)).outcome = some (.ok ps') →
          ∀ e ∈ (traceElements (ps'.map ListParam.name) ps').events, InBounds e := by
  rw [traceInitialize, Traced.forall_events_bind]
  simp only [trace_parse_outcome, Option.some.injEq]
  refine and_congr_right fun _ => forall_congr' fun ps => forall_congr' fun _ => ?_
  rw [Traced.forall_events_bind, and_iff_right all_values_in_bounds]
  refine forall_congr' fun ps' => forall_congr' fun _ => ?_
  rw [Traced.forall_events_bind]
  exact and_iff_left fun _ _ => List.forall_mem_nil _

theorem loops_in_bounds :
    (∀ e ∈ ps.flatMap valuesLoop, InBounds e) ↔ ∀ p ∈ ps, numValues p ≤ maxValues := by
  rw [List.forall_mem_flatMap]
  exact forall₂_congr fun _ _ => values_loop_in_bounds

theorem dump_list_in_bounds {es : List (List RpnElement)} :
    (∀ e ∈ if debug then (ps.zip es).flatMap dumpEvents else [], InBounds e) ↔
      (debug = true → ∀ q ∈ ps.zip es, ∀ e ∈ dumpEvents q, InBounds e) := by
  split_ifs with hdebug
  · rw [List.forall_mem_flatMap, forall_prop_of_true hdebug]
  · exact iff_of_true (List.forall_mem_nil _) fun h => absurd h hdebug

/-- What the accesses of the program come to. -/
theorem program_in_bounds :
    (∀ e ∈ (traceProgram memory fuel debug lines).events, InBounds e) ↔
      ∀ n, (traceCount lines 0).outcome = some (.ok n) → n ≠ 0 →
        (∀ e ∈ (traceInitialize memory fuel n lines).events, InBounds e) ∧
          ∀ ps es, (traceInitialize memory fuel n lines).outcome = some (.ok (ps, es)) →
            (debug = true → ∀ q ∈ ps.zip es, ∀ e ∈ dumpEvents q, InBounds e) ∧
              ∀ p ∈ ps, numValues p ≤ maxValues := by
  rw [traceProgram, Traced.forall_events_bind, and_iff_right (count_in_bounds 0)]
  refine forall_congr' fun n => forall_congr' fun _ => ?_
  by_cases hn : n = 0
  · rw [if_pos hn]
    exact iff_of_true (List.forall_mem_nil _) fun hne => absurd hn hne
  · rw [if_neg hn, forall_prop_of_true hn, Traced.forall_events_bind]
    refine and_congr_right fun _ => Prod.forall.trans ?_
    refine forall_congr' fun ps => forall_congr' fun es => forall_congr' fun _ => ?_
    dsimp only
    rw [Traced.emits_bind, List.forall_mem_append, dump_list_in_bounds, Traced.emits_bind,
      List.forall_mem_append, Traced.emits, loops_in_bounds, and_self]

/-- The conditions of a file whose arrays are respected. -/
theorem respected_tokens (h : Respected lines) (hn : n ≠ 0)
    (hcount : (traceCount lines 0).outcome = some (.ok n)) (hparse : parse n lines [] = .ok ps)
    (hdecodes : List.Forall₂ Decodes ls ps) (hends : ∀ l ∈ ls, Ends l) :
    ∀ l ∈ ls, l.tokens.length ≤ rpnMaxElements := by
  intro l hl
  obtain ⟨p, hlp, hslot⟩ := entry_of_line (n := n) hdecodes hl
  obtain ⟨ps', hfills⟩ := RelatedLists.exists_related fun slot hslot =>
    (slots_fill (n := n) hdecodes hends slot hslot).imp fun _ hp => hp.1
  obtain ⟨memory, fuel, hvalues⟩ := fill_all_values hfills (zeroed [])
  have hinit := (program_in_bounds.mp (h memory fuel false) n hcount hn).1
  have hevents := (initialize_in_bounds.mp hinit).2 ps hparse ps' (hvalues fuel (le_refl fuel))
  obtain ⟨p', hp', m, hp⟩ := RelatedLists.right_of_left hfills hslot
  rw [← fills_tokens hlp hp]
  exact in_bounds_elements hevents p' hp'

/-- An entry that may pass has no more values than the array. -/
theorem respected_values (h : Respected lines) (hn : n ≠ 0)
    (hcount : (traceCount lines 0).outcome = some (.ok n)) (hparse : parse n lines [] = .ok ps)
    (hdecodes : List.Forall₂ Decodes ls ps)
    (hls : ∀ l ∈ ls, Ends l ∧ l.tokens.length ≤ rpnMaxElements) {slot : Option ListParam}
    (hslot : slot ∈ slots n ps) (hpass : Passes slot p') : numValues p' ≤ maxValues := by
  obtain ⟨ps', hps', hmem⟩ := RelatedLists.exists_related_mem (slots_pass hdecodes hls) hslot hpass
  obtain ⟨memory, fuel, es, hok⟩ := initialize_succeeds hparse hps'
  exact ((program_in_bounds.mp (h memory fuel false) n hcount hn).2 ps' es hok).2 p' hmem

/-- One string more than there is room for. -/
theorem unfilled_exceeds : ∃ p', Passes none p' ∧ ¬ numValues p' ≤ maxValues := by
  have hne : List.replicate (maxValues+1) ([] : Text) ≠ [] := List.cons_ne_nil _ _
  refine ⟨_, listed_passes hne, ?_⟩
  rw [numValues, if_neg hne, List.length_replicate]
  exact Nat.not_succ_le_self maxValues

theorem range_values (h : Decodes l p) (hvalues : l.values = []) (vs : List ℤ) :
    numValues { p with possibleValues := some vs } = vs.length := by
  rw [numValues, if_pos ((decodes_values h).trans hvalues)]
  rfl

structure Within (p : ListParam) : Prop where
  roomy : Roomy p
  tokens : (strtok isConditionDelimiter p.condition).length ≤ rpnMaxElements
  values : numValues p ≤ maxValues

theorem line_within (h : Decodes l p) (hroomy : Roomy p) (hshort : Short l) (hbounded : Bounded l)
    (hfills : Fills m (some p) p') : Within p' where
  roomy := by
    rw [Roomy, fills_condition h hfills]
    exact hroomy
  tokens := by
    rw [fills_tokens h hfills]
    exact hbounded.1
  values := by
    by_cases hvalues : l.values = []
    · obtain ⟨vs, hvs, rfl⟩ := (fills_range h hvalues).mp hfills
      rw [range_values h hvalues]
      exact hbounded.2 hvalues m vs hvs
    · obtain rfl := (fills_listed h hvalues).mp hfills
      rw [← decodes_values h] at hvalues
      rw [numValues, if_neg hvalues, decodes_values h]
      exact hshort

/-- All entries of a file that is within its limits. -/
theorem filled_within (h : WithinLimits lines)
    (hcount : (traceCount lines 0).outcome = some (.ok n)) (hparse : parse n lines [] = .ok ps)
    (hfills : List.Forall₂ (fun slot p => ∃ m, Fills m slot p) (slots n ps) ps') :
    ∀ p' ∈ ps', Within p' := by
  intro p' hp'
  obtain ⟨ls, rs, hread, hshort, rfl, hdecodes⟩ := parse_read hparse
  obtain ⟨hbounded, htab⟩ :=
    h.2 ls hread fun l hl => ⟨hshort l hl, filled_ends hdecodes hfills l hl⟩
  obtain ⟨n', -, hcount', -, -, -, hiff⟩ := read_counted hread hshort
  cases hcount.symm.trans hcount'
  obtain ⟨slot, hslot, m, hp⟩ := RelatedLists.left_of_right hfills hp'
  obtain ⟨l, hl, p, hmem, hlp, rfl⟩ :=
    line_of_entry hdecodes (hdecodes.length_eq ▸ (hiff.mpr htab).ge) hslot
  have hroomy : Roomy p := parse_roomy hparse (List.forall_mem_nil _) p hmem
  exact line_within hlp hroomy (hshort l hl) (hbounded l hl) hp

/-- The arrays of a file that is within its limits. -/
theorem limits_respected (h : WithinLimits lines) : Respected lines := by
  intro memory fuel debug
  refine program_in_bounds.mpr fun n hcount _ => ?_
  have hspaces := count_spaces hcount
  have hn : n = lines.countP counts := by
    have hcounted := hcount.symm.trans (count_outcome hspaces)
    rw [Nat.zero_add] at hcounted
    cases hcounted
    rfl
  constructor
  · refine initialize_in_bounds.mpr ⟨(parse_in_bounds hspaces hn).mpr (h.1 hspaces), ?_⟩
    intro ps hparse ps' hvalues
    have hwithin := filled_within h hcount hparse (all_values_fill hvalues)
    exact elements_in_bounds _ fun p hp => ⟨(hwithin p hp).roomy, (hwithin p hp).tokens⟩
  · intro ps' es hok
    obtain ⟨ps, hparse, hvalues, hes⟩ := initialize_ok.mp hok
    have hwithin := filled_within h hcount hparse (all_values_fill hvalues)
    refine ⟨?_, fun p hp => (hwithin p hp).values⟩
    rintro - ⟨p, es'⟩ hq
    have hp := hwithin p (List.of_mem_zip hq).1
    exact dump_in_bounds hp.roomy hp.values (elements_bounded hes es' (List.of_mem_zip hq).2)

/-- The limits of a file whose arrays are respected. -/
theorem respected_limits (h : Respected lines) (hn : n ≠ 0)
    (hcount : (traceCount lines 0).outcome = some (.ok n)) (hread : ReadFile lines ls)
    (hls : ∀ l ∈ ls, Short l ∧ Ends l) :
    (∀ l ∈ ls, Bounded l) ∧ ∀ text ∈ lines, ¬ TabComment text := by
  obtain ⟨n', ps, hcount', hparse, hdecodes, hle, htab⟩ :=
    read_counted hread fun l hl => (hls l hl).1
  cases hcount.symm.trans hcount'
  have htokens := respected_tokens h hn hcount hparse hdecodes fun l hl => (hls l hl).2
  have hpasses : ∀ l ∈ ls, Ends l ∧ l.tokens.length ≤ rpnMaxElements :=
    fun l hl => ⟨(hls l hl).2, htokens l hl⟩
  constructor
  · refine fun l hl => ⟨htokens l hl, fun hvalues m vs hvs => ?_⟩
    obtain ⟨p, hlp, hslot⟩ := entry_of_line (n := n) hdecodes hl
    have hfills := (fills_range hlp hvalues).mpr ⟨vs, hvs, rfl⟩
    have hshort := (congrArg List.length (fills_tokens hlp hfills)).trans_le (htokens l hl)
    rw [← range_values hlp hvalues vs]
    exact respected_values h hn hcount hparse hdecodes hpasses hslot ⟨⟨m, hfills⟩, hshort⟩
  · refine htab.mp (le_antisymm hle ?_)
    by_contra hlt
    rw [hdecodes.length_eq] at hlt
    obtain ⟨p', hpass, hexceeds⟩ := unfilled_exceeds
    have hslot : none ∈ slots n ps :=
      List.mem_append_right _ (List.mem_replicate.mpr ⟨by omega, rfl⟩)
    exact hexceeds (respected_values h hn hcount hparse hdecodes hpasses hslot hpass)

theorem respected_iff (lines : List Text) : Respected lines ↔ WithinLimits lines := by
  refine ⟨fun h => ⟨fun hspaces => ?_, fun ls hread hls => ?_⟩, limits_respected⟩
  · have hcount := count_outcome (k := 0) hspaces
    rw [Nat.zero_add] at hcount
    by_cases hn : lines.countP counts = 0
    · rintro before text after ls name rest rfl hread - hnamed
      exact absurd (entry_left hspaces hread hnamed) (by rw [hn]; exact Nat.not_lt_zero _)
    · have hinit := (program_in_bounds.mp (h (fun _ => zeroed []) 0 false) _ hcount hn).1
      exact (parse_in_bounds hspaces rfl).mp (initialize_in_bounds.mp hinit).1
  · obtain ⟨n, -, hcount, -, -, hle, htab⟩ := read_counted hread fun l hl => (hls l hl).1
    by_cases hn : n = 0
    · subst hn
      have hnil := List.length_eq_zero_iff.mp (Nat.le_zero.mp hle)
      subst hnil
      exact ⟨List.forall_mem_nil _, htab.mp rfl⟩
    · exact respected_limits h hn hcount hread hls

/-- A range of a hundred and one numbers. -/
theorem long_range_exceeds : ¬ Respected ["a -r 1 101 -t increment + 1\n".toList] := by
  intro h
  have hmem : Event.stringValues 100 ∈ (traceProgram (fun _ => zeroed []) 102 false
    ["a -r 1 101 -t increment + 1\n".toList]).events := by decide +kernel
  exact absurd (h _ 102 false _ hmem) (lt_irrefl maxValues)

end Program

end Otpo.ArrayBounds
