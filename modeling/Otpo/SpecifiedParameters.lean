import Otpo.InitializeTrace
import Otpo.PassAgreement

/-!
# Parameters that are fully specified

A parameter is to have its values from a list, a format, or a range with its
traversal. The parser sets defaults for a part of the record only and rejects
no line for what it leaves out.
-/

set_option autoImplicit false

namespace Otpo.SpecifiedParameters
open Otpo.ParamList Otpo.ResultFile Otpo.ParseLine Otpo.InitializeList Otpo.RangeTraversal
open Otpo.FormatLine Otpo.ParseFormat Otpo.LineReading Otpo.ParseTrace Otpo.InitializeTrace
open Otpo.PassAgreement

section Claim

def FieldsSet (p : ListParam) : Prop :=
  p.stringValues ≠ [] ∨ p.startValue.isSome ∧ p.endValue.isSome ∧ p.traverse.isSome ∧
    p.operation.isSome ∧ p.increment.isSome

def Specified (p : ListParam) : Prop := numValues p ≠ 0 ∧ FieldsSet p

def AcceptedSpecified (lines : List Text) : Prop :=
  ∀ memory fuel n, (traceCount lines 0).outcome = some (.ok n) →
    ∀ ps es, (traceInitialize memory fuel n lines).outcome = some (.ok (ps, es)) →
      (∀ e ∈ (traceInitialize memory fuel n lines).events, e ≠ .unset) ∧
        (∀ e ∈ (ps.zip es).flatMap dumpEvents, e ≠ .unset) ∧ ∀ p ∈ ps, Specified p

def Provides (l : Line) : Prop := l.values ≠ [] ∨ l.range.isSome ∧ l.traversal.isSome

def Acceptable (lines : List Text) (ls : List Line) : Prop :=
  ReadFile lines ls ∧ ∀ l ∈ ls, Short l ∧ Ends l ∧ l.tokens.length ≤ rpnMaxElements

def Providing (lines : List Text) : Prop :=
  ∀ ls, Acceptable lines ls → (∀ l ∈ ls, Provides l) ∧ ∀ text ∈ lines, ¬ TabComment text

end Claim

section Records

variable {l : Line} {p p' : ListParam} {m : Memory}

theorem fields_set_iff (h : Decodes l p) : FieldsSet p ↔ Provides l := by
  rw [FieldsSet, Provides, decodes_values h, h.1]
  cases hrange : l.range <;> cases htraversal : l.traversal <;>
    simp [record, scanned, hrange, htraversal]

theorem specified_iff (h : Decodes l p) (hfills : Fills m (some p) p') :
    Specified p' ↔ Provides l := by
  rw [← fields_set_iff h, Specified]
  by_cases hvalues : l.values = []
  · obtain ⟨vs, ⟨ws, -, rfl⟩, rfl⟩ := (fills_range h hvalues).mp hfills
    refine and_iff_right ?_
    rw [numValues, if_pos ((decodes_values h).trans hvalues)]
    exact Nat.succ_ne_zero _
  · obtain rfl := (fills_listed h hvalues).mp hfills
    refine and_iff_right ?_
    rw [← decodes_values h] at hvalues
    rw [numValues, if_neg hvalues]
    exact fun h0 => hvalues (List.length_eq_zero_iff.mp h0)

end Records

section Unset

variable {m : Memory} {p : ListParam} {ps ps' : List ListParam} {slots : List (Option ListParam)}
variable {fuel n : ℕ} {memory : ℕ → Memory}

theorem parse_set (n : ℕ) (lines : List Text) :
    ∀ e ∈ (traceParse n lines []).events, e ≠ .unset := by
  refine parse_events.mpr fun before text after qs _ _ => ?_
  refine (line_events Event.noConfusion (fun _ => Event.noConfusion) Event.noConfusion
    fun _ _ => Event.noConfusion).mpr fun _ _ _ _ _ _ token r _ _ => ?_
  exact option_events_all Event.noConfusion Event.noConfusion r token fun _ =>
    condition_events_all Event.noConfusion (fun _ => Event.noConfusion) r

theorem field_some {A : Type} {x : Option A} {a : A} (h : x = some a) (memory : A) :
    field x memory = Traced.lift (.ok a) := by
  rw [h]
  rfl

/-- The loop over a range that is given reads no field that is not set. -/
theorem range_set {e k : ℤ} {o : Operator} (hend : p.endValue = some e)
    (hoperation : p.operation = some o) (hincrement : p.increment = some k) (tmp : ℤ)
    (values : List ℤ) (num : ℕ) : (traceRange m p fuel tmp values num).events = [] := by
  induction fuel generalizing tmp values num with
  | zero => rfl
  | succ fuel ih =>
    have hread : readIncrement m p o tmp = Traced.lift (.ok k) := by
      rw [readIncrement, field_some hincrement, hincrement]
      exact ite_self _
    rw [traceRange, field_some hend, Traced.lift_ok_bind]
    split_ifs
    · rfl
    · rw [field_some hoperation, Traced.lift_ok_bind, hread, Traced.lift_ok_bind]
      cases nextNumber (some o) (some k) tmp with
      | error fault => rfl
      | ok q =>
        obtain ⟨t, passed⟩ := q
        rw [Traced.lift_ok_bind]
        dsimp only
        split_ifs
        · exact ih _ _ _
        · exact ih _ _ _
        · exact ih _ _ _

theorem possible_values_set (h : FieldsSet p) :
    ∀ e ∈ (tracePossibleValues m fuel (some p)).events, e ≠ .unset := by
  rw [tracePossibleValues, field_some rfl, Traced.lift_ok_bind]
  split_ifs with hlisted
  · exact List.forall_mem_nil _
  · obtain ⟨hstart, hend, -, hoperation, hincrement⟩ := h.resolve_left fun hne =>
      hlisted fun hlength => hne (List.length_eq_zero_iff.mp hlength)
    obtain ⟨s, hs⟩ := Option.isSome_iff_exists.mp hstart
    obtain ⟨e, he⟩ := Option.isSome_iff_exists.mp hend
    obtain ⟨o, ho⟩ := Option.isSome_iff_exists.mp hoperation
    obtain ⟨k, hk⟩ := Option.isSome_iff_exists.mp hincrement
    rw [field_some hs, Traced.lift_ok_bind, Traced.forall_events_bind, range_set he ho hk]
    refine ⟨List.forall_mem_nil _, fun q _ => ?_⟩
    dsimp only
    split_ifs <;> exact List.forall_mem_nil _

theorem all_values_set (h : ∀ p ∈ ps, FieldsSet p) :
    ∀ e ∈ (traceAllValues fuel memory (ps.map some)).events, e ≠ .unset := by
  induction ps generalizing memory with
  | nil => exact List.forall_mem_nil _
  | cons p ps ih =>
    rw [List.forall_mem_cons] at h
    refine Traced.forall_events_bind.mpr ⟨possible_values_set h.1, fun _ _ => ?_⟩
    exact Traced.forall_events_bind.mpr ⟨ih h.2, fun _ _ => List.forall_mem_nil _⟩

/-- An entry that was not filled is seen when its values are asked for. -/
theorem all_values_filled (hok : (traceAllValues fuel memory slots).outcome = some (.ok ps'))
    (h : ∀ e ∈ (traceAllValues fuel memory slots).events, e ≠ .unset) : none ∉ slots := by
  induction slots generalizing memory ps' with
  | nil => exact List.not_mem_nil
  | cons slot slots ih =>
    obtain ⟨p, hp, hrest⟩ := Traced.outcome_bind_ok.mp hok
    obtain ⟨qs, hqs, -⟩ := Traced.outcome_bind_ok.mp hrest
    obtain ⟨hslot, hslots⟩ := Traced.forall_events_bind.mp h
    rw [List.mem_cons, not_or]
    refine ⟨?_, ih hqs (Traced.forall_events_bind.mp (hslots p hp)).1⟩
    rintro rfl
    have hfield := (Traced.forall_events_bind.mp hslot).1
    exact hfield .unset List.mem_cons_self rfl

theorem condition_set (is : List ℕ) : ∀ e ∈ is.map Event.condition, e ≠ .unset :=
  List.forall_mem_map.mpr fun _ _ => Event.noConfusion

theorem rpn_set (is : List ℕ) : ∀ e ∈ is.map Event.rpnElements, e ≠ .unset :=
  List.forall_mem_map.mpr fun _ _ => Event.noConfusion

theorem elements_set (names : List Text) (ps : List ListParam) :
    ∀ e ∈ (traceElements names ps).events, e ≠ .unset := by
  induction ps with
  | nil => exact List.forall_mem_nil _
  | cons p ps ih =>
    refine Traced.forall_events_bind.mpr ⟨?_, fun _ _ => ?_⟩
    · refine List.forall_mem_cons.mpr ⟨Event.noConfusion, ?_⟩
      split_ifs
      · exact List.forall_mem_nil _
      · exact List.forall_mem_append.mpr ⟨condition_set _, rpn_set _⟩
    · refine Traced.forall_events_bind.mpr ⟨List.forall_mem_nil _, fun _ _ => ?_⟩
      exact Traced.forall_events_bind.mpr ⟨ih, fun _ _ => List.forall_mem_nil _⟩

theorem unset_none {A : Type} {x : Option A} (h : x.isSome) :
    ∀ e ∈ unsetEvents x, e ≠ .unset := by
  have hset : ¬ x.isNone = true := by
    rw [Option.isNone_iff_eq_none]
    rintro rfl
    cases h
  rw [unsetEvents, if_neg hset]
  exact List.forall_mem_nil _

theorem dump_set {es : List RpnElement} (h : FieldsSet p) :
    ∀ e ∈ dumpEvents (p, es), e ≠ .unset := by
  have hvalues : ∀ e ∈ valuesLoop p, e ≠ .unset :=
    List.forall_mem_map.mpr fun _ _ => Event.noConfusion
  simp only [dumpEvents, List.forall_mem_append]
  refine ⟨⟨⟨hvalues, List.forall_mem_singleton.mpr Event.noConfusion⟩, ?_⟩, rpn_set _⟩
  by_cases hlisted : p.stringValues = []
  · obtain ⟨hstart, hend, htraverse, hoperation, hincrement⟩ :=
      h.resolve_left (not_not_intro hlisted)
    rw [if_pos hlisted]
    simp only [List.forall_mem_append]
    refine ⟨⟨⟨⟨⟨⟨unset_none hstart, unset_none hend⟩, unset_none htraverse⟩,
      unset_none hoperation⟩, unset_none hincrement⟩,
        List.forall_mem_singleton.mpr Event.noConfusion⟩, ?_⟩
    split_ifs
    · exact List.forall_mem_nil _
    · exact condition_set _
  · rw [if_neg hlisted]
    exact List.forall_mem_nil _

end Unset

section Theorem

variable {lines : List Text} {ls : List Line} {ps ps' : List ListParam} {n : ℕ}

/-- A file that can be read has no line of spaces. -/
theorem read_spaces (h : ReadFile lines ls) :
    ∀ text ∈ lines, ¬ Tokenizer.Blank (· == ' ') text := by
  have hblank : ∀ {text : Text}, Tokenizer.Blank (· == ' ') text →
      Tokenizer.next isBlank text = none := fun h =>
    Tokenizer.next_blank fun c hc => by rw [eq_of_beq (h c hc)]; rfl
  induction h with
  | nil => exact List.forall_mem_nil _
  | skip hskip _ ih =>
    refine List.forall_mem_cons.mpr ⟨fun hspaces => ?_, ih⟩
    rcases hskip with hline | ⟨name, rest, hname, -⟩
    · rw [blank_starts rfl hspaces] at hline
      cases hline
    · cases (hblank hspaces).symm.trans hname
  | line hline _ ih =>
    refine List.forall_mem_cons.mpr ⟨fun hspaces => ?_, ih⟩
    obtain ⟨name, rest, os, hnamed, -⟩ := hline
    cases (hblank hspaces).symm.trans hnamed.2.1

/-- A file that can be read is counted and parsed. -/
theorem read_counted (h : ReadFile lines ls) (hshort : ∀ l ∈ ls, Short l) :
    ∃ n ps, (traceCount lines 0).outcome = some (.ok n) ∧ parse n lines [] = .ok ps ∧
      List.Forall₂ Decodes ls ps ∧ ls.length ≤ n ∧
        (ls.length = n ↔ ∀ text ∈ lines, ¬ TabComment text) := by
  have hspaces := read_spaces h
  obtain ⟨hle, hiff⟩ := read_counts hspaces h
  obtain ⟨ps, hparse, hdecodes⟩ := read_parse h hshort
    (show ([] : List ListParam).length+ls.length ≤ lines.countP counts by
      rwa [List.length_nil, Nat.zero_add])
  exact ⟨_, ps, by rw [count_outcome hspaces, Nat.zero_add], hparse, hdecodes, hle, hiff⟩

/-- Some contents let the list of an acceptable file be initialized. -/
theorem acceptable_passes (h : ∀ l ∈ ls, Ends l ∧ l.tokens.length ≤ rpnMaxElements)
    (hparse : parse n lines [] = .ok ps) (hdecodes : List.Forall₂ Decodes ls ps) :
    ∃ ps' memory fuel es, List.Forall₂ Passes (slots n ps) ps' ∧
      (traceInitialize memory fuel n lines).outcome = some (.ok (ps', es)) := by
  obtain ⟨ps', hps'⟩ := RelatedLists.exists_related (slots_pass (n := n) hdecodes h)
  obtain ⟨memory, fuel, es, hok⟩ := initialize_succeeds hparse hps'
  exact ⟨ps', memory, fuel, es, hps', hok⟩

/-- A list that is initialized without a field that is not set has all entries
filled. -/
theorem initialized_filled {memory : ℕ → Memory} {fuel : ℕ} {es : List (List RpnElement)}
    (hparse : parse n lines [] = .ok ps)
    (hok : (traceInitialize memory fuel n lines).outcome = some (.ok (ps', es)))
    (h : ∀ e ∈ (traceInitialize memory fuel n lines).events, e ≠ .unset) : n ≤ ps.length := by
  obtain ⟨qs, hqs, hvalues, -⟩ := initialize_ok.mp hok
  cases hparse.symm.trans hqs
  have htrace : (traceParse n lines []).outcome = some (.ok ps) := by
    rw [trace_parse_outcome, hparse]
  obtain ⟨-, hrest⟩ := Traced.forall_events_bind.mp h
  have hentries := (Traced.forall_events_bind.mp (hrest ps htrace)).1
  by_contra hlt
  refine all_values_filled hvalues hentries (List.mem_append_right _ ?_)
  exact List.mem_replicate.mpr ⟨by omega, rfl⟩

/-- The lines of a list that is initialized. -/
theorem initialized_acceptable {memory : ℕ → Memory} {fuel : ℕ} {es : List (List RpnElement)}
    (hok : (traceInitialize memory fuel n lines).outcome = some (.ok (ps', es))) :
    ∃ ls ps, Acceptable lines ls ∧ parse n lines [] = .ok ps ∧ List.Forall₂ Decodes ls ps ∧
      List.Forall₂ Passes (slots n ps) ps' := by
  obtain ⟨ps, hparse, hpass⟩ := initialized_passes hok
  obtain ⟨ls, rs, hread, hshort, rfl, hdecodes⟩ := parse_read hparse
  refine ⟨ls, ps, ⟨hread, fun l hl => ⟨hshort l hl, ?_, ?_⟩⟩, hparse, hdecodes, hpass⟩
  · exact filled_ends hdecodes (hpass.imp fun _ _ hp => hp.1) l hl
  · obtain ⟨p, hlp, hslot⟩ := entry_of_line (n := n) hdecodes hl
    obtain ⟨p', -, ⟨m, hfills⟩, htokens⟩ := RelatedLists.right_of_left hpass hslot
    rwa [fills_tokens hlp hfills] at htokens

/-- The lines of a file that is specified whenever it is accepted. -/
theorem specified_provides (h : AcceptedSpecified lines) (hacceptable : Acceptable lines ls) :
    (∀ l ∈ ls, Provides l) ∧ ∀ text ∈ lines, ¬ TabComment text := by
  obtain ⟨hread, hall⟩ := hacceptable
  obtain ⟨n, ps, hcount, hparse, hdecodes, hle, hiff⟩ :=
    read_counted hread fun l hl => (hall l hl).1
  obtain ⟨ps', memory, fuel, es, hpass, hok⟩ :=
    acceptable_passes (fun l hl => (hall l hl).2) hparse hdecodes
  obtain ⟨hevents, -, hspecified⟩ := h memory fuel n hcount ps' es hok
  constructor
  · intro l hl
    obtain ⟨p, hlp, hslot⟩ := entry_of_line (n := n) hdecodes hl
    obtain ⟨p', hp', ⟨m, hfills⟩, -⟩ := RelatedLists.right_of_left hpass hslot
    exact (specified_iff hlp hfills).mp (hspecified p' hp')
  · have hfilled := initialized_filled hparse hok hevents
    rw [← hdecodes.length_eq] at hfilled
    exact hiff.mp (le_antisymm hle hfilled)

/-- If all lines provide values and all entries are filled, no field is read that
is not set. -/
theorem provided_set {memory : ℕ → Memory} {fuel : ℕ} (hparse : parse n lines [] = .ok ps)
    (hdecodes : List.Forall₂ Decodes ls ps) (hn : n ≤ ps.length) (h : ∀ l ∈ ls, Provides l) :
    ∀ e ∈ (traceInitialize memory fuel n lines).events, e ≠ .unset := by
  have hset : ∀ p ∈ ps, FieldsSet p := fun p hp => by
    obtain ⟨l, hl, hlp⟩ := RelatedLists.left_of_right hdecodes hp
    exact (fields_set_iff hlp).mpr (h l hl)
  refine Traced.forall_events_bind.mpr ⟨parse_set n lines, fun qs hqs => ?_⟩
  rw [trace_parse_outcome, hparse] at hqs
  cases hqs
  rw [slots_some hn]
  refine Traced.forall_events_bind.mpr ⟨all_values_set hset, fun rs _ => ?_⟩
  exact Traced.forall_events_bind.mpr ⟨elements_set _ _, fun _ _ => List.forall_mem_nil _⟩

theorem accepted_specified_iff (lines : List Text) :
    AcceptedSpecified lines ↔ Providing lines := by
  refine ⟨fun h ls hacceptable => specified_provides h hacceptable, ?_⟩
  intro h memory fuel n hcount ps' es hok
  obtain ⟨ls, ps, hacceptable, hparse, hdecodes, hpass⟩ := initialized_acceptable hok
  obtain ⟨hprovides, htab⟩ := h ls hacceptable
  obtain ⟨n', -, hcount', -, -, -, hiff⟩ :=
    read_counted hacceptable.1 fun l hl => (hacceptable.2 l hl).1
  cases hcount.symm.trans hcount'
  have hn : n ≤ ps.length := hdecodes.length_eq ▸ (hiff.mpr htab).ge
  have hspecified : ∀ p' ∈ ps', Specified p' := fun p' hp' => by
    obtain ⟨slot, hslot, ⟨m, hfills⟩, -⟩ := RelatedLists.left_of_right hpass hp'
    obtain ⟨l, hl, p, -, hlp, rfl⟩ := line_of_entry hdecodes hn hslot
    exact (specified_iff hlp hfills).mpr (hprovides l hl)
  refine ⟨provided_set hparse hdecodes hn hprovides, fun e he => ?_, hspecified⟩
  obtain ⟨⟨p', es'⟩, hmem, hdump⟩ := List.mem_flatMap.mp he
  exact dump_set (hspecified p' (List.of_mem_zip hmem).1).2 e hdump

/-- A range without a traversal is accepted when it runs downwards. -/
theorem untraversed_accepted : ¬ AcceptedSpecified ["a -r 5 1\n".toList] := by
  intro h
  have hcount : (traceCount ["a -r 5 1\n".toList] 0).outcome = some (.ok 1) := by decide
  have hok : ∃ p es, (traceInitialize (fun _ => zeroed []) 1 1 ["a -r 5 1\n".toList]).outcome =
      some (.ok ([p], es)) ∧ p.stringValues = [] ∧ p.traverse = none := ⟨_, _, rfl, rfl, rfl⟩
  obtain ⟨p, es, hok, hstrings, htraverse⟩ := hok
  obtain ⟨-, -, hspecified⟩ := h _ 1 1 hcount [p] es hok
  rcases (hspecified p List.mem_cons_self).2 with hne | ⟨-, -, hset, -⟩
  · exact hne hstrings
  · rw [htraverse] at hset
    cases hset

end Theorem

end Otpo.SpecifiedParameters
