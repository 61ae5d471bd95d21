import Otpo.ParseTrace
import Otpo.RangeTraversal
import Otpo.Library.RelatedLists

/-!
# What the parameter list touches

The list is allocated without being cleared, so that a field which the parser
has not set holds whatever was there. Behind the parser come the values of
ranges, the conditions, and the loops over the values of all parameters.
-/

set_option autoImplicit false

namespace Otpo.InitializeTrace
open Otpo.ParamList Otpo.ResultFile Otpo.ParseLine Otpo.InitializeList Otpo.RangeTraversal
open Otpo.FormatLine Otpo.ParseFormat Otpo.LineReading Otpo.ParseTrace

/-- What `malloc` leaves in a record: the fields that the parser need not set,
and all of a record that it does not come to. -/
structure Memory where
  startValue : ℤ
  endValue : ℤ
  operation : Operator
  increment : ℤ
  record : ListParam
  start_int : Int32 startValue
  end_int : Int32 endValue
  increment_int : Int32 increment

def zeroed (stringValues : List Text) : Memory where
  startValue := 0
  endValue := 0
  operation := .equal
  increment := 0
  record := { newParam [] with stringValues := stringValues }
  start_int := by decide
  end_int := by decide
  increment_int := by decide

def field {A : Type} (x : Option A) (memory : A) : Action A :=
  match x with
  | some a => pure a
  | none => do
    Traced.emit .unset
    pure memory

def readsIncrement (operation : Operator) (tmp : ℤ) : Bool :=
  match operation with
  | .add | .subtract => true
  | .multiply | .divide => tmp != 0
  | _ => false

section Values

variable (m : Memory)

def readIncrement (p : ListParam) (operation : Operator) (tmp : ℤ) : Action ℤ :=
  if readsIncrement operation tmp then field p.increment m.increment
  else pure (p.increment.getD m.increment)

def traceRange (p : ListParam) : ℕ → ℤ → List ℤ → ℕ → Action (List ℤ × ℕ)
  | 0, _, _, _ => Traced.running
  | fuel+1, tmp, values, num => do
    let endValue ← field p.endValue m.endValue
    if endValue < tmp then pure (values, num)
    else do
      let operation ← field p.operation m.operation
      let increment ← readIncrement m p operation tmp
      let (tmp, passed) ← Traced.lift (nextNumber (some operation) (some increment) tmp)
      if passed then traceRange p fuel tmp values (num-1+1)
      else if endValue < tmp then traceRange p fuel tmp values num
      else traceRange p fuel tmp (values ++ [tmp]) (num+1)

def tracePossibleValues (fuel : ℕ) (slot : Option ListParam) : Action ListParam := do
  let p ← field slot m.record
  if p.stringValues.length ≠ 0 then pure p
  else do
    let startValue ← field p.startValue m.startValue
    let (values, num) ← traceRange m p fuel startValue [startValue] 1
    if values.length = num then pure { p with possibleValues := some values }
    else Traced.lift (.error .undefined)

end Values

def traceAllValues (fuel : ℕ) : (ℕ → Memory) → List (Option ListParam) → Action (List ListParam)
  | _, [] => pure []
  | memory, slot::slots => do
    let p ← tracePossibleValues (memory 0) fuel slot
    let ps ← traceAllValues fuel (fun i => memory (i+1)) slots
    pure (p::ps)

def elementsEvents (condition : Text) : List Event :=
  .condition 0::
    if condition = [] then []
    else (List.range (condition.length+1)).map .condition ++
      (List.range (min (strtok isConditionDelimiter condition).length (rpnMaxElements+1))).map
        .rpnElements

def traceElements (names : List Text) : List ListParam → Action (List (List RpnElement))
  | [] => pure []
  | p::ps => do
    Traced.emits (elementsEvents p.condition)
    let es ← Traced.lift (setRpnStackElements names p.condition)
    let rest ← traceElements names ps
    pure (es::rest)

def slots (numParameters : ℕ) (ps : List ListParam) : List (Option ListParam) :=
  ps.map some ++ List.replicate (numParameters-ps.length) none

def traceInitialize (memory : ℕ → Memory) (fuel numParameters : ℕ) (lines : List Text) :
    Action (List ListParam × List (List RpnElement)) := do
  let ps ← traceParse numParameters lines []
  let ps ← traceAllValues fuel memory (slots numParameters ps)
  let es ← traceElements (ps.map ListParam.name) ps
  pure (ps, es)

def numValues (p : ListParam) : ℕ :=
  if p.stringValues = [] then (p.possibleValues.getD []).length else p.stringValues.length

def valuesLoop (p : ListParam) : List Event := (List.range (numValues p)).map .stringValues

def unsetEvents {A : Type} (x : Option A) : List Event := if x.isNone then [.unset] else []

def dumpEvents (q : ListParam × List RpnElement) : List Event :=
  valuesLoop q.1 ++ [.stringValues 0] ++
    (if q.1.stringValues = [] then
      unsetEvents q.1.startValue ++ unsetEvents q.1.endValue ++ unsetEvents q.1.traverse ++
        unsetEvents q.1.operation ++ unsetEvents q.1.increment ++ [.condition 0] ++
          if q.1.condition = [] then []
          else (List.range (q.1.condition.length+1)).map .condition
    else []) ++ (List.range q.2.length).map .rpnElements

def traceProgram (memory : ℕ → Memory) (fuel : ℕ) (debug : Bool) (lines : List Text) :
    Action Unit := do
  let n ← traceCount lines 0
  if n = 0 then Traced.lift (.error (.exit "File contains no Data"))
  else do
    let (ps, es) ← traceInitialize memory fuel n lines
    Traced.emits (if debug then (ps.zip es).flatMap dumpEvents else [])
    Traced.emits (ps.flatMap valuesLoop)
    Traced.emits (ps.flatMap valuesLoop)

section Ranges

variable {m : Memory} {p p' : ListParam} {fuel : ℕ} {tmp e : ℤ} {values vs : List ℤ} {num : ℕ}

def settled {A : Type} : Except Fault (Option A) → Option (Except Fault A)
  | .error fault => some (.error fault)
  | .ok none => none
  | .ok (some a) => some (.ok a)

theorem field_outcome {A B : Type} (x : Option A) (memory : A) (f : A → Action B) :
    (field x memory >>= f).outcome = (f (x.getD memory)).outcome := by
  cases x <;> rfl

theorem increment_outcome {B : Type} (o : Operator) (f : ℤ → Action B) :
    (readIncrement m p o tmp >>= f).outcome = (f (p.increment.getD m.increment)).outcome := by
  rw [readIncrement]
  split_ifs
  · exact field_outcome _ _ f
  · rfl

def startFound (m : Memory) (p : ListParam) : ℤ := p.startValue.getD m.startValue
def endFound (m : Memory) (p : ListParam) : ℤ := p.endValue.getD m.endValue
def operationFound (m : Memory) (p : ListParam) : Operator := p.operation.getD m.operation
def incrementFound (m : Memory) (p : ListParam) : ℤ := p.increment.getD m.increment

/-- The loop on the fields as they are found. -/
theorem trace_range_outcome (m : Memory) (p : ListParam) (fuel : ℕ) (tmp : ℤ) (values : List ℤ)
    (num : ℕ) : (traceRange m p fuel tmp values num).outcome =
      settled (rangeLoop (some (operationFound m p)) (some (incrementFound m p)) (endFound m p)
        fuel tmp values num) := by
  induction fuel generalizing tmp values num with
  | zero => rfl
  | succ fuel ih =>
    rw [traceRange, rangeLoop, field_outcome]
    change (if endFound m p < tmp then _ else _ : Action (List ℤ × ℕ)).outcome = _
    split_ifs with htmp
    · rfl
    · rw [field_outcome, increment_outcome]
      change (Traced.lift (nextNumber (some (operationFound m p)) (some (incrementFound m p)) tmp)
        >>= _ : Action (List ℤ × ℕ)).outcome = _
      cases nextNumber (some (operationFound m p)) (some (incrementFound m p)) tmp with
      | error fault => rfl
      | ok q =>
        obtain ⟨tmp, passed⟩ := q
        cases passed with
        | true => exact ih tmp values (num-1+1)
        | false =>
          change (if endFound m p < tmp then _ else _ : Action (List ℤ × ℕ)).outcome = _
          dsimp only
          split_ifs
          · exact ih tmp values num
          · exact ih tmp (values ++ [tmp]) (num+1)

/-- An operation that the switch does not know stays where it is. -/
theorem unknown_stays {o : Operator} (k : ℤ)
    (ho : o ∉ [Operator.add, .subtract, .multiply, .divide]) (tmp : ℤ) :
    nextNumber (some o) (some k) tmp = .ok (tmp, false) := by
  cases o <;> first | rfl | exact absurd (by decide) ho

theorem unknown_runs {o : Operator} {k : ℤ} {r : List ℤ × ℕ}
    (ho : o ∉ [Operator.add, .subtract, .multiply, .divide]) (htmp : ¬ e < tmp) :
    rangeLoop (some o) (some k) e fuel tmp values num ≠ .ok (some r) := by
  induction fuel generalizing values num with
  | zero => exact fun h => by cases h
  | succ fuel ih =>
    rw [rangeLoop, if_neg htmp, unknown_stays k ho]
    simp only [if_neg htmp]
    exact ih

/-- Every loop that ends visits the numbers that it appends. -/
theorem loop_ends {o : Operator} {k : ℤ} {values' : List ℤ} {num' : ℕ}
    (h : rangeLoop (some o) (some k) e fuel tmp values num = .ok (some (values', num'))) :
    ∃ vs, Visits o k e tmp vs ∧ values' = values ++ vs := by
  by_cases ho : o ∈ [Operator.add, .subtract, .multiply, .divide]
  · exact loop_visits ho h
  · by_cases htmp : e < tmp
    · cases fuel with
      | zero => cases h
      | succ fuel =>
        rw [rangeLoop, if_pos htmp] at h
        cases h
        exact ⟨[], .stop htmp, (List.append_nil _).symm⟩
    · exact absurd h (unknown_runs ho htmp)

/-- A loop that visits these numbers ends. -/
theorem ends_loop {o : Operator} {k : ℤ} (h : Visits o k e tmp vs) : ∃ fuel, ∀ values num, 0 < num →
    rangeLoop (some o) (some k) e fuel tmp values num =
      .ok (some (values ++ vs, num+vs.length)) := by
  by_cases ho : o ∈ [Operator.add, .subtract, .multiply, .divide]
  · exact visits_loop ho h
  · have hcombine : ∀ x, combine o k x = none := fun x => by
      cases o <;> first | rfl | exact absurd (by decide) ho
    cases h with
    | stop h =>
      refine ⟨1, fun values num _ => ?_⟩
      rw [rangeLoop, if_pos h, List.append_nil]
      rfl
    | skip _ hscales =>
      rcases hscales with rfl | rfl <;> exact absurd (by decide) ho
    | pass _ hs => exact absurd ((hcombine tmp).symm.trans hs.combined) (by simp)
    | keep _ hs => exact absurd ((hcombine tmp).symm.trans hs.combined) (by simp)

/-- More fuel does not matter. -/
theorem range_loop_succ {o : Option Operator} {k : Option ℤ} {r : List ℤ × ℕ}
    (h : rangeLoop o k e fuel tmp values num = .ok (some r)) :
    rangeLoop o k e (fuel+1) tmp values num = .ok (some r) := by
  induction fuel generalizing tmp values num with
  | zero => cases h
  | succ fuel ih =>
    rw [rangeLoop] at h
    rw [rangeLoop]
    split_ifs at h ⊢ with htmp
    · exact h
    · split at h
      · cases h
      · exact ih h
      · split_ifs at h ⊢
        · exact ih h
        · exact ih h

theorem range_loop_mono {o : Option Operator} {k : Option ℤ} {r : List ℤ × ℕ} {fuel' : ℕ}
    (h : rangeLoop o k e fuel tmp values num = .ok (some r)) (hle : fuel ≤ fuel') :
    rangeLoop o k e fuel' tmp values num = .ok (some r) := by
  induction hle with
  | refl => exact h
  | step _ ih => exact range_loop_succ ih

end Ranges

section Lists

variable {m : Memory} {slot : Option ListParam} {p p' : ListParam} {fuel : ℕ}
variable {ps : List ListParam}

def Fills (m : Memory) (slot : Option ListParam) (p' : ListParam) : Prop :=
  let p := slot.getD m.record
  if p.stringValues = [] then
    ∃ vs, Visits (operationFound m p) (incrementFound m p) (endFound m p) (startFound m p) vs ∧
      p' = { p with possibleValues := some (startFound m p::vs) }
  else p' = p

theorem possible_values_outcome (m : Memory) (fuel : ℕ) (slot : Option ListParam) :
    (tracePossibleValues m fuel slot).outcome =
      if (slot.getD m.record).stringValues.length ≠ 0 then some (.ok (slot.getD m.record))
      else
        (do
          let (values, num) ← traceRange m (slot.getD m.record) fuel
            (startFound m (slot.getD m.record)) [startFound m (slot.getD m.record)] 1
          if values.length = num then
            pure { slot.getD m.record with possibleValues := some values }
          else Traced.lift (.error .undefined) : Action ListParam).outcome := by
  rw [tracePossibleValues, field_outcome]
  split_ifs
  · rfl
  · exact field_outcome _ _ _

theorem settled_ok {A : Type} {x : Except Fault (Option A)} {a : A} :
    settled x = some (.ok a) ↔ x = .ok (some a) := by
  rcases x with fault | _ | b <;> simp [settled]

theorem possible_values_fill (h : (tracePossibleValues m fuel slot).outcome = some (.ok p')) :
    Fills m slot p' := by
  rw [possible_values_outcome] at h
  rw [Fills]
  split_ifs at h with hlisted
  · rw [if_neg fun hnil => hlisted (List.length_eq_zero_iff.mpr hnil)]
    cases h
    rfl
  · rw [if_pos (List.length_eq_zero_iff.mp (not_not.mp hlisted))]
    obtain ⟨⟨values, num⟩, hrange, hvalues⟩ := Traced.outcome_bind_ok.mp h
    rw [trace_range_outcome, settled_ok] at hrange
    obtain ⟨vs, hvisits, rfl⟩ := loop_ends hrange
    dsimp only at hvalues
    split_ifs at hvalues
    · cases hvalues
      exact ⟨vs, hvisits, rfl⟩
    · cases hvalues

theorem fill_possible_values (h : Fills m slot p') : ∃ least, ∀ fuel, least ≤ fuel →
    (tracePossibleValues m fuel slot).outcome = some (.ok p') := by
  rw [Fills] at h
  split_ifs at h with hlisted
  · obtain ⟨vs, hvisits, rfl⟩ := h
    obtain ⟨least, hleast⟩ := ends_loop hvisits
    refine ⟨least, fun fuel hfuel => ?_⟩
    have hloop := range_loop_mono (hleast [startFound m (slot.getD m.record)] 1 Nat.one_pos) hfuel
    have hlength : ([startFound m (slot.getD m.record)] ++ vs).length = 1+vs.length := by
      rw [List.length_append, List.length_singleton]
    rw [possible_values_outcome, if_neg fun hne => hne (List.length_eq_zero_iff.mpr hlisted)]
    refine Traced.outcome_bind_ok.mpr
      ⟨([startFound m (slot.getD m.record)] ++ vs, 1+vs.length), ?_, ?_⟩
    · rw [trace_range_outcome, hloop]
      rfl
    · dsimp only
      rw [if_pos hlength]
      rfl
  · refine ⟨0, fun fuel _ => ?_⟩
    rw [possible_values_outcome, if_pos fun hnil => hlisted (List.length_eq_zero_iff.mp hnil), h]

/-- All entries, each with what its memory holds. -/
theorem all_values_fill {slots : List (Option ListParam)} {memory : ℕ → Memory}
    (h : (traceAllValues fuel memory slots).outcome = some (.ok ps)) :
    List.Forall₂ (fun slot p => ∃ m, Fills m slot p) slots ps := by
  induction slots generalizing memory ps with
  | nil =>
    cases h
    exact .nil
  | cons slot slots ih =>
    obtain ⟨p, hp, h⟩ := Traced.outcome_bind_ok.mp h
    obtain ⟨qs, hqs, h⟩ := Traced.outcome_bind_ok.mp h
    cases h
    exact .cons ⟨memory 0, possible_values_fill hp⟩ (ih hqs)

theorem fill_all_values {slots : List (Option ListParam)}
    (h : List.Forall₂ (fun slot p => ∃ m, Fills m slot p) slots ps) (m : Memory) :
    ∃ memory least, ∀ fuel, least ≤ fuel →
      (traceAllValues fuel memory slots).outcome = some (.ok ps) := by
  induction h with
  | nil => exact ⟨fun _ => m, 0, fun fuel _ => rfl⟩
  | cons hp _ ih =>
    obtain ⟨m₀, hp⟩ := hp
    obtain ⟨least₀, h₀⟩ := fill_possible_values hp
    obtain ⟨memory, least, hrest⟩ := ih
    refine ⟨fun i => if i = 0 then m₀ else memory (i-1), max least₀ least, fun fuel hfuel => ?_⟩
    refine Traced.outcome_bind_ok.mpr ⟨_, h₀ fuel (le_of_max_le_left hfuel), ?_⟩
    exact Traced.outcome_bind_ok.mpr ⟨_, hrest fuel (le_of_max_le_right hfuel), rfl⟩

theorem set_elements_ok {names : List Text} {condition : Text} :
    (∃ es, setRpnStackElements names condition = .ok es) ↔
      (strtok isConditionDelimiter condition).length ≤ rpnMaxElements := by
  rw [setRpnStackElements]
  split_ifs with h
  · refine iff_of_false ?_ (Nat.not_le.mpr h)
    rintro ⟨es, hes⟩
    cases hes
  · exact iff_of_true ⟨_, rfl⟩ (Nat.not_lt.mp h)

theorem elements_ok {names : List Text} {ess : List (List RpnElement)}
    (h : (traceElements names ps).outcome = some (.ok ess)) :
    ∀ p ∈ ps, (strtok isConditionDelimiter p.condition).length ≤ rpnMaxElements := by
  induction ps generalizing ess with
  | nil => exact List.forall_mem_nil _
  | cons p ps ih =>
    rw [traceElements, emits_outcome] at h
    obtain ⟨es, hes, h⟩ := Traced.outcome_bind_ok.mp h
    obtain ⟨rest, hrest, -⟩ := Traced.outcome_bind_ok.mp h
    exact List.forall_mem_cons.mpr ⟨set_elements_ok.mp ⟨es, Option.some.inj hes⟩, ih hrest⟩

theorem ok_elements (names : List Text)
    (h : ∀ p ∈ ps, (strtok isConditionDelimiter p.condition).length ≤ rpnMaxElements) :
    ∃ ess, (traceElements names ps).outcome = some (.ok ess) := by
  induction ps with
  | nil => exact ⟨[], rfl⟩
  | cons p ps ih =>
    rw [List.forall_mem_cons] at h
    obtain ⟨es, hes⟩ := set_elements_ok.mpr h.1
    obtain ⟨rest, hrest⟩ := ih h.2
    refine ⟨es::rest, ?_⟩
    rw [traceElements, emits_outcome]
    exact Traced.outcome_bind_ok.mpr
      ⟨es, congrArg some hes, Traced.outcome_bind_ok.mpr ⟨rest, hrest, rfl⟩⟩

theorem initialize_ok {memory : ℕ → Memory} {n : ℕ} {lines : List Text}
    {q : List ListParam × List (List RpnElement)} :
    (traceInitialize memory fuel n lines).outcome = some (.ok q) ↔
      ∃ ps, parse n lines [] = .ok ps ∧
        (traceAllValues fuel memory (slots n ps)).outcome = some (.ok q.1) ∧
          (traceElements (q.1.map ListParam.name) q.1).outcome = some (.ok q.2) := by
  rw [traceInitialize, Traced.outcome_bind_ok]
  simp only [trace_parse_outcome, Option.some.injEq]
  refine exists_congr fun ps => and_congr_right fun _ => ?_
  rw [Traced.outcome_bind_ok]
  constructor
  · rintro ⟨qs, hqs, h⟩
    obtain ⟨es, hes, h⟩ := Traced.outcome_bind_ok.mp h
    cases h
    exact ⟨hqs, hes⟩
  · rintro ⟨hqs, hes⟩
    exact ⟨q.1, hqs, Traced.outcome_bind_ok.mpr ⟨q.2, hes, rfl⟩⟩

end Lists

section Lines

variable {m : Memory} {p p' : ListParam} {l : Line} {ls : List Line} {ps : List ListParam}
variable {vs : List ℤ} {n : ℕ}

def Yields (l : Line) (m : Memory) (vs : List ℤ) : Prop :=
  let startValue := (l.range.map Prod.fst).getD m.startValue
  ∃ ws, Visits ((l.traversal.map Prod.fst).getD m.operation)
    ((l.traversal.map Prod.snd).getD m.increment) ((l.range.map Prod.snd).getD m.endValue)
      startValue ws ∧ vs = startValue::ws

def Ends (l : Line) : Prop := l.values ≠ [] ∨ ∃ m vs, Yields l m vs

theorem decodes_values (h : Decodes l p) : p.stringValues = l.values := by
  rw [h.1]
  rfl

theorem fills_listed (h : Decodes l p) (hvalues : l.values ≠ []) :
    Fills m (some p) p' ↔ p' = p := by
  have hlisted : ¬ ((some p).getD m.record).stringValues = [] := by
    rw [Option.getD_some, decodes_values h]
    exact hvalues
  rw [Fills, if_neg hlisted]
  rfl

theorem fills_range (h : Decodes l p) (hvalues : l.values = []) : Fills m (some p) p' ↔
    ∃ vs, Yields l m vs ∧ p' = { p with possibleValues := some vs } := by
  have hrange : ((some p).getD m.record).stringValues = [] := by
    rw [Option.getD_some, decodes_values h]
    exact hvalues
  have hstart : startFound m p = (l.range.map Prod.fst).getD m.startValue := by
    rw [startFound, h.1]
    rfl
  have hend : endFound m p = (l.range.map Prod.snd).getD m.endValue := by
    rw [endFound, h.1]
    rfl
  have hoperation : operationFound m p = (l.traversal.map Prod.fst).getD m.operation := by
    rw [operationFound, h.1]
    rfl
  have hincrement : incrementFound m p = (l.traversal.map Prod.snd).getD m.increment := by
    rw [incrementFound, h.1]
    rfl
  rw [Fills, if_pos hrange, Option.getD_some, hstart, hend, hoperation, hincrement]
  constructor
  · rintro ⟨ws, hws, rfl⟩
    exact ⟨_, ⟨ws, hws, rfl⟩, rfl⟩
  · rintro ⟨vs, ⟨ws, hws, rfl⟩, rfl⟩
    exact ⟨ws, hws, rfl⟩

theorem fills_ends (h : Decodes l p) (hfills : Fills m (some p) p') : Ends l := by
  by_cases hvalues : l.values = []
  · obtain ⟨vs, hvs, -⟩ := (fills_range h hvalues).mp hfills
    exact Or.inr ⟨m, vs, hvs⟩
  · exact Or.inl hvalues

theorem ends_fills (h : Decodes l p) (hends : Ends l) : ∃ p' m, Fills m (some p) p' := by
  by_cases hvalues : l.values = []
  · obtain ⟨m, vs, hvs⟩ := hends.resolve_left (not_not_intro hvalues)
    exact ⟨_, m, (fills_range h hvalues).mpr ⟨vs, hvs, rfl⟩⟩
  · exact ⟨p, zeroed [], (fills_listed h hvalues).mpr rfl⟩

theorem fills_none {ss : List Text} (h : ss ≠ []) :
    Fills (zeroed ss) none { newParam [] with stringValues := ss } := by
  have hlisted : ¬ (Option.getD none (zeroed ss).record).stringValues = [] := h
  rw [Fills, if_neg hlisted]
  rfl

/-- A record keeps its condition. -/
theorem fills_condition (h : Decodes l p) (hfills : Fills m (some p) p') :
    p'.condition = p.condition := by
  by_cases hvalues : l.values = []
  · obtain ⟨vs, -, rfl⟩ := (fills_range h hvalues).mp hfills
    rfl
  · rw [(fills_listed h hvalues).mp hfills]

theorem fills_tokens (h : Decodes l p) (hfills : Fills m (some p) p') :
    strtok isConditionDelimiter p'.condition = l.tokens := by
  rw [fills_condition h hfills, h.2]

theorem slots_some (h : n ≤ ps.length) : slots n ps = ps.map some := by
  rw [slots, Nat.sub_eq_zero_of_le h, List.replicate_zero, List.append_nil]

/-- The entry of a line. -/
theorem entry_of_line (hdecodes : List.Forall₂ Decodes ls ps) (hl : l ∈ ls) :
    ∃ p, Decodes l p ∧ some p ∈ slots n ps := by
  obtain ⟨p, hp, hlp⟩ := RelatedLists.right_of_left hdecodes hl
  exact ⟨p, hlp, List.mem_append_left _ (List.mem_map_of_mem hp)⟩

/-- The line of an entry, if all of them have been filled. -/
theorem line_of_entry (hdecodes : List.Forall₂ Decodes ls ps) (hn : n ≤ ps.length)
    {slot : Option ListParam} (hslot : slot ∈ slots n ps) :
    ∃ l ∈ ls, ∃ p ∈ ps, Decodes l p ∧ some p = slot := by
  rw [slots_some hn] at hslot
  obtain ⟨p, hp, hsome⟩ := List.mem_map.mp hslot
  obtain ⟨l, hl, hlp⟩ := RelatedLists.left_of_right hdecodes hp
  exact ⟨l, hl, p, hp, hlp, hsome⟩

/-- If the loops over all ranges may end, each entry may be filled, with a
condition that is no longer than those of the lines. -/
theorem slots_fill (hdecodes : List.Forall₂ Decodes ls ps) (hends : ∀ l ∈ ls, Ends l) :
    ∀ slot ∈ slots n ps, ∃ p', (∃ m, Fills m slot p') ∧
      ∀ k, (∀ l ∈ ls, l.tokens.length ≤ k) →
        (strtok isConditionDelimiter p'.condition).length ≤ k := by
  intro slot hslot
  rcases List.mem_append.mp hslot with hsome | hnone
  · obtain ⟨p, hp, rfl⟩ := List.mem_map.mp hsome
    obtain ⟨l, hl, hlp⟩ := RelatedLists.left_of_right hdecodes hp
    obtain ⟨p', m, hfills⟩ := ends_fills hlp (hends l hl)
    refine ⟨p', ⟨m, hfills⟩, fun k hk => ?_⟩
    rw [fills_tokens hlp hfills]
    exact hk l hl
  · rw [List.eq_of_mem_replicate hnone]
    exact ⟨_, ⟨_, fills_none (List.cons_ne_nil [] [])⟩, fun k _ => Nat.zero_le k⟩

theorem filled_ends (hdecodes : List.Forall₂ Decodes ls ps) {ps' : List ListParam}
    (h : List.Forall₂ (fun slot p => ∃ m, Fills m slot p) (slots n ps) ps') : ∀ l ∈ ls, Ends l := by
  intro l hl
  obtain ⟨p, hlp, hslot⟩ := entry_of_line (n := n) hdecodes hl
  obtain ⟨p', -, m, hfills⟩ := RelatedLists.right_of_left h hslot
  exact fills_ends hlp hfills

end Lines

section Success

variable {ls : List Line} {ps ps' : List ListParam} {lines : List Text} {n : ℕ}

def Passes (slot : Option ListParam) (p' : ListParam) : Prop :=
  (∃ m, Fills m slot p') ∧ (strtok isConditionDelimiter p'.condition).length ≤ rpnMaxElements

theorem listed_passes {ss : List Text} (h : ss ≠ []) :
    Passes none { newParam [] with stringValues := ss } :=
  ⟨⟨zeroed ss, fills_none h⟩, Nat.zero_le _⟩

/-- If the loops over all ranges may end, all entries may pass. -/
theorem slots_pass (hdecodes : List.Forall₂ Decodes ls ps)
    (h : ∀ l ∈ ls, Ends l ∧ l.tokens.length ≤ rpnMaxElements) :
    ∀ slot ∈ slots n ps, ∃ p', Passes slot p' := by
  intro slot hslot
  obtain ⟨p', hfills, hshort⟩ := slots_fill hdecodes (fun l hl => (h l hl).1) slot hslot
  exact ⟨p', hfills, hshort rpnMaxElements fun l hl => (h l hl).2⟩

/-- Entries that pass are the result for some contents. -/
theorem initialize_succeeds (hparse : parse n lines [] = .ok ps)
    (h : List.Forall₂ Passes (slots n ps) ps') :
    ∃ memory fuel es, (traceInitialize memory fuel n lines).outcome = some (.ok (ps', es)) := by
  obtain ⟨memory, fuel, hvalues⟩ := fill_all_values (h.imp fun _ _ hp => hp.1) (zeroed [])
  obtain ⟨es, hes⟩ := ok_elements (ps'.map ListParam.name) fun p' hp' =>
    (RelatedLists.left_of_right h hp').choose_spec.2.2
  exact ⟨memory, fuel, es, initialize_ok.mpr ⟨ps, hparse, hvalues fuel (le_refl fuel), hes⟩⟩

/-- What the entries of a list that is initialized come from. -/
theorem initialized_passes {memory : ℕ → Memory} {fuel : ℕ} {es : List (List RpnElement)}
    (h : (traceInitialize memory fuel n lines).outcome = some (.ok (ps', es))) :
    ∃ ps, parse n lines [] = .ok ps ∧ List.Forall₂ Passes (slots n ps) ps' := by
  obtain ⟨ps, hparse, hvalues, hes⟩ := initialize_ok.mp h
  refine ⟨ps, hparse, ?_⟩
  have hfills := all_values_fill hvalues
  have hshort := elements_ok hes
  refine List.forall₂_iff_zip.mpr ⟨hfills.length_eq, fun hmem => ?_⟩
  exact ⟨(List.forall₂_iff_zip.mp hfills).2 hmem, hshort _ (List.of_mem_zip hmem).2⟩

end Success

end Otpo.InitializeTrace
