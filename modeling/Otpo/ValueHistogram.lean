import Otpo.ResultLines
import Otpo.Library.FirstFit
import Otpo.Library.Substring

/-!
# The histogram of values

A tool reads a result file and counts how often each parameter has each value.
Only lines of the transport layer are looked at. Both tables are filled from
the front; a slot that was never used holds the value zero.
-/

set_option autoImplicit false

namespace Otpo.ValueHistogram
open Otpo.ParamList Otpo.NumberText Otpo.ResultFile Otpo.ResultLines

section Program

def maxLine : ℕ := 180

def maxNumParameters : ℕ := 140

def maxValues : ℕ := 140

def maxParamNameLen : ℕ := 80

def btl : Text := "btl_".toList

structure Slot where
  value : ℤ
  count : ℕ
  deriving DecidableEq, Repr

structure Parameters where
  parameterName : Text
  inUse : Bool
  slots : List Slot
  deriving DecidableEq, Repr

def noSlot : Slot := ⟨0, 0⟩

def noParameters : Parameters := ⟨[], false, List.replicate maxValues noSlot⟩

/-- `add_value` on the two arrays of a parameter. A place whose value is the
one that is looked for is taken, whether it is free or not; without any place
the first one is overwritten. -/
def addValue (slots : List Slot) (value : ℤ) : List Slot :=
  match FirstFit.find Slot.value (fun s => s.count == 0) value slots with
  | some n => slots.modify n fun s =>
    if s.value = value then { s with count := s.count+1 } else ⟨value, 1⟩
  | none => slots.set 0 ⟨value, 1⟩

def checkAndAdd (param : List Parameters) (paramName : Text) : Option (ℕ × List Parameters) :=
  (FirstFit.find Parameters.parameterName (fun p => !p.inUse) paramName param).map fun m =>
    (m, param.modify m fun p =>
      if p.parameterName = paramName then p
      else { p with parameterName := paramName, inUse := true })

def addValues (param : List Parameters) (pos : ℕ) (tokens : List Text) : List Parameters :=
  tokens.foldl (fun param token =>
    param.modify pos fun p => { p with slots := addValue p.slots (atoi token) }) param

/-- One line; nothing is left if a slot is missing. A name that fills its array
is not terminated. -/
def addLine (param : List Parameters) (line : Text) : Except Fault (Option (List Parameters)) :=
  if btl <:+: line then
    match strtok (· == ' ') line with
    | [] => .ok (some param)
    | name::tokens =>
      if maxParamNameLen ≤ name.length then .error .undefined
      else .ok ((checkAndAdd param name).map fun q => addValues q.2 q.1 tokens)
  else .ok (some param)

def addLines : List Text → List Parameters → Except Fault (Option (List Parameters))
  | [], param => .ok (some param)
  | line::lines, param =>
    match addLine param line with
    | .error fault => .error fault
    | .ok none => .ok none
    | .ok (some param) => addLines lines param

def dumpParameters (param : List Parameters) : List (Text × ℤ × ℕ) :=
  (param.takeWhile Parameters.inUse).flatMap fun p =>
    (p.slots.filter fun s => 0 < s.count).map fun s => (p.parameterName, s.value, s.count)

def otpoParser (text : Text) : Except Fault (Option (List (Text × ℤ × ℕ))) :=
  (addLines (BoundedLines.lines '\n' (maxLine-1) text)
    (List.replicate maxNumParameters noParameters)).map (Option.map dumpParameters)

end Program

section Purpose

def entries (names : List Text) (buckets : List Bucket) : List (Text × Text) :=
  buckets.flatMap fun b => b.rows.flatMap fun row => names.zip row

def valuesOf (es : List (Text × Text)) (name : Text) : List ℤ :=
  (es.filter fun q => q.1 = name).map fun q => atoi q.2

def occurrences (es : List (Text × Text)) (name : Text) (value : ℤ) : ℕ :=
  (valuesOf es name).count value

def Lists (es : List (Text × Text)) (table : List (Text × ℤ × ℕ)) : Prop :=
  (table.map fun e => (e.1, e.2.1)).Nodup ∧ ∀ name value count,
    (name, value, count) ∈ table ↔ 0 < count ∧ count = occurrences es name value

structure IntegerText (v : Text) : Prop where
  form : ∃ ds, ds ≠ [] ∧ (∀ c ∈ ds, c.isDigit = true) ∧ (v = ds ∨ v = '-'::ds)
  short : v.length < 99
  range : -2147483648 ≤ decimal v ∧ decimal v ≤ 2147483647

structure Countable (names : List Text) (buckets : List Bucket) : Prop where
  names : ∀ n ∈ names, n ≠ [] ∧ Unbroken n ∧ n.length < maxParamNameLen
  values : ∀ b ∈ buckets, ∀ row ∈ b.rows, ∀ v ∈ row, IntegerText v

def btlEntries (names : List Text) (buckets : List Bucket) : List (Text × Text) :=
  (entries names buckets).filter fun q => btl <:+: q.1

def distinctValues (es : List (Text × Text)) (name : Text) : Finset ℤ :=
  (valuesOf es name).toFinset

def distinctNames (es : List (Text × Text)) : Finset Text := (es.map Prod.fst).toFinset

end Purpose

section Slots

variable {slots : List Slot} {occ : List ℤ} {v : ℤ}

def Slots (slots : List Slot) (occ : List ℤ) : Prop :=
  ∃ used, slots = used ++ List.replicate (maxValues-used.length) noSlot ∧
    used.length ≤ maxValues ∧ (used.map Slot.value).Nodup ∧
    (∀ s ∈ used, 0 < s.count ∧ s.count = occ.count s.value) ∧
    ∀ v, v ∈ occ ↔ v ∈ used.map Slot.value

theorem no_slots : Slots noParameters.slots [] :=
  ⟨[], rfl, Nat.zero_le _, List.nodup_nil, List.forall_mem_nil _, fun _ => Iff.rfl⟩

theorem slot_used {used : List Slot} (h : ∀ s ∈ used, 0 < s.count ∧ s.count = occ.count s.value) :
    ∀ s ∈ used, (s.count == 0) = false := by
  intro s hs
  rw [beq_eq_false_iff_ne]
  exact (h s hs).1.ne'

/-- A value of the table is counted once more. -/
theorem add_value_old (h : Slots slots occ) (hv : v ∈ occ) :
    Slots (addValue slots v) (occ ++ [v]) := by
  obtain ⟨used, rfl, hlength, hnodup, hcount, hmem⟩ := h
  obtain ⟨s, hs, rfl⟩ := List.mem_map.mp ((hmem v).mp hv)
  obtain ⟨front, back, rfl⟩ := List.append_of_mem hs
  have hne := FirstFit.beside_ne hnodup
  have hfind := FirstFit.find_used (FirstFit.front_ne hnodup)
    (fun a ha => slot_used hcount a (List.mem_append_left _ ha))
    (back ++ List.replicate (maxValues-(front ++ s::back).length) noSlot)
  have hkeys : (front ++ { s with count := s.count+1 }::back).map Slot.value =
      (front ++ s::back).map Slot.value := by
    simp only [List.map_append, List.map_cons]
  refine ⟨front ++ { s with count := s.count+1 }::back, ?_, ?_, hkeys ▸ hnodup, ?_, ?_⟩
  · rw [List.append_assoc, List.cons_append, addValue, hfind]
    simp only [FirstFit.modify_length, if_true, List.length_append, List.length_cons,
      List.append_assoc, List.cons_append]
  · simpa using hlength
  · intro a ha
    rcases FirstFit.mem_replaced ha with rfl | ha
    · refine ⟨Nat.succ_pos _, ?_⟩
      rw [List.count_append, List.count_singleton_self, ← (hcount s hs).2]
    · rw [List.count_append, List.count_eq_zero_of_not_mem (l := [s.value])
        fun hc => hne a ha (List.mem_singleton.mp hc)]
      exact hcount a (FirstFit.mem_beside ha)
  · intro v
    rw [hkeys, ← hmem, List.mem_append, List.mem_singleton]
    exact or_iff_left_of_imp fun h => h ▸ hv

/-- A new value takes the first free place. -/
theorem add_value_new (h : Slots slots occ) (hv : v ∉ occ)
    (hroom : (occ ++ [v]).toFinset.card ≤ maxValues) :
    Slots (addValue slots v) (occ ++ [v]) := by
  obtain ⟨used, rfl, hlength, hnodup, hcount, hmem⟩ := h
  have hne : ∀ a ∈ used, a.value ≠ v := fun a ha heq =>
    hv ((hmem v).mpr (heq ▸ List.mem_map_of_mem ha))
  have hdistinct : ((used ++ [(⟨v, 1⟩ : Slot)]).map Slot.value).Nodup :=
    FirstFit.nodup_new hnodup fun hmem' => hv ((hmem v).mpr hmem')
  have hkeys : ∀ w, w ∈ occ ++ [v] ↔ w ∈ (used ++ [(⟨v, 1⟩ : Slot)]).map Slot.value := by
    intro w
    rw [List.map_append, List.mem_append, List.mem_append, hmem w]
    rfl
  have hcard : used.length+1 ≤ maxValues := by
    rwa [FirstFit.card_keys hdistinct hkeys, List.length_append, List.length_singleton] at hroom
  have hrest : List.replicate (maxValues-used.length) noSlot =
      noSlot::List.replicate (maxValues-(used.length+1)) noSlot := by
    rw [← List.replicate_succ]
    congr 1
    omega
  have hfind := FirstFit.find_free (x := noSlot) hne (slot_used hcount) rfl
    (List.replicate (maxValues-(used.length+1)) noSlot)
  refine ⟨used ++ [⟨v, 1⟩], ?_, ?_, hdistinct, ?_, hkeys⟩
  · rw [hrest, addValue, hfind]
    simp only [FirstFit.modify_length, List.length_append, List.length_singleton,
      List.append_assoc, List.singleton_append]
    congr 2
    by_cases hzero : noSlot.value = v
    · rw [if_pos hzero, ← hzero]
      rfl
    · rw [if_neg hzero]
  · simpa using hcard
  · intro a ha
    rcases List.mem_append.mp ha with ha | ha
    · rw [List.count_append, List.count_eq_zero_of_not_mem (l := [v])
        fun hc => hne a ha (List.mem_singleton.mp hc)]
      exact hcount a ha
    · rw [List.mem_singleton.mp ha, List.count_append, List.count_eq_zero_of_not_mem hv,
        List.count_singleton_self]
      exact ⟨Nat.one_pos, rfl⟩

theorem add_value_keeps (h : Slots slots occ)
    (hroom : (occ ++ [v]).toFinset.card ≤ maxValues) :
    Slots (addValue slots v) (occ ++ [v]) := by
  by_cases hv : v ∈ occ
  · exact add_value_old h hv
  · exact add_value_new h hv hroom

end Slots

section Entries

variable {param : List Parameters} {es : List (Text × Text)} {q : Text × Text}

def record (param : List Parameters) (q : Text × Text) : Option (List Parameters) :=
  (checkAndAdd param q.1).map fun r => addValues r.2 r.1 [q.2]

def Moderate (es : List (Text × Text)) : Prop :=
  ∀ name, (distinctValues es name).card ≤ maxValues

def Params (param : List Parameters) (es : List (Text × Text)) : Prop :=
  ∃ used, param = used ++ List.replicate (maxNumParameters-used.length) noParameters ∧
    used.length ≤ maxNumParameters ∧ (used.map Parameters.parameterName).Nodup ∧
    (∀ p ∈ used, p.inUse = true) ∧
    (∀ n, n ∈ es.map Prod.fst ↔ n ∈ used.map Parameters.parameterName) ∧
    (Moderate es → ∀ p ∈ used, Slots p.slots (valuesOf es p.parameterName))

theorem no_params : Params (List.replicate maxNumParameters noParameters) [] :=
  ⟨[], rfl, Nat.zero_le _, List.nodup_nil, List.forall_mem_nil _, fun _ => Iff.rfl,
    fun _ => List.forall_mem_nil _⟩

theorem values_same : valuesOf (es ++ [q]) q.1 = valuesOf es q.1 ++ [atoi q.2] := by
  rw [valuesOf, List.filter_append, List.filter_singleton, decide_eq_true rfl, List.map_append]
  rfl

theorem values_other {name : Text} (h : name ≠ q.1) :
    valuesOf (es ++ [q]) name = valuesOf es name := by
  rw [valuesOf, List.filter_append, List.filter_singleton, decide_eq_false h.symm]
  exact congrArg _ (List.append_nil _)

theorem values_nil {name : Text} (h : name ∉ es.map Prod.fst) : valuesOf es name = [] := by
  rw [valuesOf, List.map_eq_nil_iff, List.filter_eq_nil_iff]
  intro q hq
  rw [decide_eq_true_eq]
  exact fun heq => h (heq ▸ List.mem_map_of_mem hq)

theorem moderate_append {es' : List (Text × Text)} (h : Moderate (es ++ es')) : Moderate es := by
  intro name
  refine le_trans (Finset.card_le_card fun v hv => ?_) (h name)
  rw [distinctValues, List.mem_toFinset] at hv ⊢
  rw [valuesOf, List.filter_append, List.map_append]
  exact List.mem_append_left _ hv

theorem slots_room (h : Moderate (es ++ [q])) :
    (valuesOf es q.1 ++ [atoi q.2]).toFinset.card ≤ maxValues := by
  rw [← values_same]
  exact h q.1

theorem param_used {used : List Parameters} (h : ∀ p ∈ used, p.inUse = true) :
    ∀ p ∈ used, (!p.inUse) = false := fun p hp => by rw [h p hp]; rfl

/-- A line of a parameter that is in the table. -/
theorem record_old (h : Params param es) (hq : q.1 ∈ es.map Prod.fst) :
    ∃ param', record param q = some param' ∧ Params param' (es ++ [q]) := by
  obtain ⟨used, rfl, hlength, hnodup, huse, hmem, hslots⟩ := h
  obtain ⟨p, hp, hname⟩ := List.mem_map.mp ((hmem q.1).mp hq)
  obtain ⟨front, back, rfl⟩ := List.append_of_mem hp
  have hne := FirstFit.beside_ne hnodup
  have hfind := FirstFit.find_used (FirstFit.front_ne hnodup)
    (fun a ha => param_used huse a (List.mem_append_left _ ha))
    (back ++ List.replicate (maxNumParameters-(front ++ p::back).length) noParameters)
  have hkeys : (front ++ { p with slots := addValue p.slots (atoi q.2) }::back).map
      Parameters.parameterName = (front ++ p::back).map Parameters.parameterName := by
    simp only [List.map_append, List.map_cons]
  refine ⟨_, ?_, front ++ { p with slots := addValue p.slots (atoi q.2) }::back, rfl, ?_,
    hkeys ▸ hnodup, ?_, ?_, ?_⟩
  · rw [record, checkAndAdd, ← hname, List.append_assoc, List.cons_append, hfind]
    simp only [Option.map_some, addValues, List.foldl_cons, List.foldl_nil,
      FirstFit.modify_length, if_true, List.length_append, List.length_cons,
      List.append_assoc, List.cons_append]
  · simpa using hlength
  · intro a ha
    rcases FirstFit.mem_replaced ha with rfl | ha
    · exact huse p hp
    · exact huse a (FirstFit.mem_beside ha)
  · intro n
    rw [hkeys, ← hmem, List.map_append, List.mem_append]
    exact or_iff_left_of_imp fun h => List.mem_singleton.mp h ▸ hq
  · intro hmoderate a ha
    have hbefore := hslots (moderate_append hmoderate)
    rcases FirstFit.mem_replaced ha with rfl | ha
    · have hp := hbefore p hp
      rw [hname] at hp
      change Slots (addValue p.slots (atoi q.2)) (valuesOf (es ++ [q]) p.parameterName)
      rw [hname, values_same]
      exact add_value_keeps hp (slots_room hmoderate)
    · rw [values_other (hname ▸ hne a ha)]
      exact hbefore a (FirstFit.mem_beside ha)

/-- A line of a new parameter takes the first free place. -/
theorem record_new (h : Params param es) (hq : q.1 ∉ es.map Prod.fst) (hne : q.1 ≠ [])
    (hroom : (distinctNames (es ++ [q])).card ≤ maxNumParameters) :
    ∃ param', record param q = some param' ∧ Params param' (es ++ [q]) := by
  obtain ⟨used, rfl, hlength, hnodup, huse, hmem, hslots⟩ := h
  let p : Parameters := ⟨q.1, true, addValue noParameters.slots (atoi q.2)⟩
  have hother : ∀ a ∈ used, a.parameterName ≠ q.1 := fun a ha heq =>
    hq ((hmem q.1).mpr (heq ▸ List.mem_map_of_mem ha))
  have hdistinct : ((used ++ [p]).map Parameters.parameterName).Nodup :=
    FirstFit.nodup_new hnodup fun hmem' => hq ((hmem q.1).mpr hmem')
  have hkeys : ∀ n, n ∈ (es ++ [q]).map Prod.fst ↔
      n ∈ (used ++ [p]).map Parameters.parameterName := by
    intro n
    rw [List.map_append, List.map_append, List.mem_append, List.mem_append, hmem n]
    rfl
  have hcard : used.length+1 ≤ maxNumParameters := by
    rwa [distinctNames, FirstFit.card_keys hdistinct hkeys, List.length_append,
      List.length_singleton] at hroom
  have hrest : List.replicate (maxNumParameters-used.length) noParameters =
      noParameters::List.replicate (maxNumParameters-(used.length+1)) noParameters := by
    rw [← List.replicate_succ]
    congr 1
    omega
  have hfind := FirstFit.find_free (x := noParameters) hother (param_used huse) rfl
    (List.replicate (maxNumParameters-(used.length+1)) noParameters)
  refine ⟨_, ?_, used ++ [p], rfl, ?_, hdistinct, ?_, hkeys, ?_⟩
  · have hempty : ¬ noParameters.parameterName = q.1 := fun heq => hne heq.symm
    rw [record, checkAndAdd, hrest, hfind]
    simp only [Option.map_some, addValues, List.foldl_cons, List.foldl_nil,
      FirstFit.modify_length, if_neg hempty, List.length_append, List.length_singleton,
      List.append_assoc, List.singleton_append]
    rfl
  · simpa using hcard
  · intro a ha
    rcases List.mem_append.mp ha with ha | ha
    · exact huse a ha
    · rw [List.mem_singleton.mp ha]
  · intro hmoderate a ha
    rcases List.mem_append.mp ha with ha | ha
    · rw [values_other (hother a ha)]
      exact hslots (moderate_append hmoderate) a ha
    · rw [List.mem_singleton.mp ha]
      have hroom := slots_room hmoderate
      change Slots (addValue noParameters.slots (atoi q.2)) (valuesOf (es ++ [q]) q.1)
      rw [values_same]
      rw [values_nil hq] at hroom ⊢
      exact add_value_keeps no_slots hroom

/-- A line of a new parameter in a full table. -/
theorem record_full (h : Params param es) (hroom : (distinctNames es).card ≤ maxNumParameters)
    (hfull : maxNumParameters < (distinctNames (es ++ [q])).card) : record param q = none := by
  obtain ⟨used, rfl, hlength, hnodup, huse, hmem, -⟩ := h
  have hcard : (distinctNames es).card = used.length := FirstFit.card_keys hnodup hmem
  have hset : distinctNames (es ++ [q]) = insert q.1 (distinctNames es) := by
    ext n
    simp [distinctNames]
  have hq : q.1 ∉ distinctNames es := fun hq => by
    rw [hset, Finset.insert_eq_of_mem hq] at hfull
    omega
  rw [hset, Finset.card_insert_of_notMem hq, hcard] at hfull
  have hother : ∀ a ∈ used, a.parameterName ≠ q.1 := fun a ha heq =>
    hq (List.mem_toFinset.mpr ((hmem q.1).mpr (heq ▸ List.mem_map_of_mem ha)))
  rw [record, checkAndAdd, Nat.sub_eq_zero_of_le (by omega), List.replicate_zero, List.append_nil,
    FirstFit.find_none hother (param_used huse)]
  rfl

theorem record_keeps (h : Params param es) (hne : q.1 ≠ [])
    (hroom : (distinctNames (es ++ [q])).card ≤ maxNumParameters) :
    ∃ param', record param q = some param' ∧ Params param' (es ++ [q]) := by
  by_cases hq : q.1 ∈ es.map Prod.fst
  · exact record_old h hq
  · exact record_new h hq hne hroom

def recordAll : List (Text × Text) → List Parameters → Option (List Parameters)
  | [], param => some param
  | q::qs, param => (record param q).bind (recordAll qs)

theorem distinct_names_append (es es' : List (Text × Text)) :
    distinctNames es ⊆ distinctNames (es ++ es') := by
  intro n hn
  rw [distinctNames, List.mem_toFinset] at hn ⊢
  rw [List.map_append]
  exact List.mem_append_left _ hn

variable {qs : List (Text × Text)}

theorem record_all_keeps (hne : ∀ q ∈ qs, q.1 ≠ []) (h : Params param es)
    (hroom : (distinctNames (es ++ qs)).card ≤ maxNumParameters) :
    ∃ param', recordAll qs param = some param' ∧ Params param' (es ++ qs) := by
  induction qs generalizing param es with
  | nil => exact ⟨param, rfl, by rwa [List.append_nil]⟩
  | cons q qs ih =>
    rw [List.append_cons] at hroom
    have hfirst := (Finset.card_le_card (distinct_names_append (es ++ [q]) qs)).trans hroom
    obtain ⟨param', hrecord, hparams⟩ := record_keeps h (hne q List.mem_cons_self) hfirst
    obtain ⟨last, hlast, hkeeps⟩ := ih (fun p hp => hne p (List.mem_cons_of_mem q hp)) hparams hroom
    refine ⟨last, ?_, by rwa [List.append_cons]⟩
    rw [recordAll, hrecord]
    exact hlast

theorem record_all_full (hne : ∀ q ∈ qs, q.1 ≠ []) (h : Params param es)
    (hroom : (distinctNames es).card ≤ maxNumParameters)
    (hfull : maxNumParameters < (distinctNames (es ++ qs)).card) : recordAll qs param = none := by
  induction qs generalizing param es with
  | nil =>
    rw [List.append_nil] at hfull
    omega
  | cons q qs ih =>
    by_cases hfirst : (distinctNames (es ++ [q])).card ≤ maxNumParameters
    · obtain ⟨param', hrecord, hparams⟩ := record_keeps h (hne q List.mem_cons_self) hfirst
      rw [recordAll, hrecord]
      refine ih (fun p hp => hne p (List.mem_cons_of_mem q hp)) hparams hfirst ?_
      rwa [← List.append_cons]
    · rw [recordAll, record_full h hroom (Nat.lt_of_not_le hfirst)]
      rfl

end Entries

section Dump

variable {param : List Parameters} {es : List (Text × Text)}

theorem dump_used {used : List Parameters} (h : ∀ p ∈ used, p.inUse = true) (n : ℕ) :
    dumpParameters (used ++ List.replicate n noParameters) = used.flatMap fun p =>
      (p.slots.filter fun s => 0 < s.count).map fun s => (p.parameterName, s.value, s.count) := by
  have htake : (used ++ List.replicate n noParameters).takeWhile Parameters.inUse = used := by
    rw [List.takeWhile_append_of_pos h]
    cases n with
    | zero => exact List.append_nil _
    | succ n => exact List.append_nil _
  rw [dumpParameters, htake]

theorem slots_filter {slots : List Slot} {occ : List ℤ} (h : Slots slots occ) :
    ((slots.filter fun s => 0 < s.count).map Slot.value).Nodup ∧ ∀ v count,
      (⟨v, count⟩ : Slot) ∈ slots.filter (fun s => 0 < s.count) ↔
        0 < count ∧ count = occ.count v := by
  obtain ⟨used, rfl, -, hnodup, hcount, hmem⟩ := h
  have hfree : (List.replicate (maxValues-used.length) noSlot).filter
      (fun s => 0 < s.count) = [] := by
    rw [List.filter_eq_nil_iff]
    intro s hs
    rw [List.eq_of_mem_replicate hs]
    decide
  have hused : used.filter (fun s => 0 < s.count) = used :=
    List.filter_eq_self.mpr fun s hs => decide_eq_true (hcount s hs).1
  rw [List.filter_append, hfree, List.append_nil, hused]
  refine ⟨hnodup, fun v count => ⟨hcount _, fun ⟨hpos, heq⟩ => ?_⟩⟩
  have hv : v ∈ occ := List.count_pos_iff.mp (heq ▸ hpos)
  obtain ⟨s, hs, rfl⟩ := List.mem_map.mp ((hmem v).mp hv)
  rwa [heq, ← (hcount s hs).2]

theorem dump_lists (h : Params param es) (hmoderate : Moderate es) :
    Lists es (dumpParameters param) := by
  obtain ⟨used, rfl, -, hnodup, huse, hmem, hslots⟩ := h
  rw [dump_used huse]
  constructor
  · rw [List.map_flatMap, List.nodup_flatMap]
    constructor
    · intro p hp
      have hvalues := (slots_filter (hslots hmoderate p hp)).1.map
        (Prod.mk_right_injective p.parameterName)
      rw [List.map_map] at hvalues ⊢
      exact hvalues
    · refine (List.pairwise_map.mp hnodup).imp fun {a b} hne e ha hb => hne ?_
      simp only [List.mem_map] at ha hb
      obtain ⟨_, ⟨_, _, rfl⟩, rfl⟩ := ha
      obtain ⟨_, ⟨_, _, rfl⟩, heq⟩ := hb
      exact (congrArg Prod.fst heq).symm
  · intro name value count
    rw [List.mem_flatMap]
    constructor
    · rintro ⟨p, hp, hentry⟩
      obtain ⟨s, hs, heq⟩ := List.mem_map.mp hentry
      cases heq
      exact ((slots_filter (hslots hmoderate p hp)).2 _ _).mp hs
    · rintro ⟨hpos, heq⟩
      have hname : name ∈ es.map Prod.fst := by
        by_contra hname
        rw [heq, occurrences, values_nil hname] at hpos
        exact absurd hpos (lt_irrefl 0)
      obtain ⟨p, hp, rfl⟩ := List.mem_map.mp ((hmem name).mp hname)
      refine ⟨p, hp, List.mem_map.mpr ⟨⟨value, count⟩, ?_, rfl⟩⟩
      exact ((slots_filter (hslots hmoderate p hp)).2 value count).mpr ⟨hpos, heq⟩

end Dump

section Reading

def Reads (text : Text) (qs : List (Text × Text)) : Prop := ∀ rest param,
  addLines (BoundedLines.lines '\n' (maxLine-1) (text ++ rest)) param =
    match recordAll qs param with
    | none => .ok none
    | some param => addLines (BoundedLines.lines '\n' (maxLine-1) rest) param

theorem reads_nil : Reads [] [] := fun _ _ => rfl

theorem record_all_append (qs qs' : List (Text × Text)) (param : List Parameters) :
    recordAll (qs ++ qs') param = (recordAll qs param).bind (recordAll qs') := by
  induction qs generalizing param with
  | nil => rfl
  | cons q qs ih =>
    rw [List.cons_append, recordAll, recordAll, Option.bind_assoc]
    exact congrArg _ (funext ih)

theorem reads_append {text text' : Text} {qs qs' : List (Text × Text)} (h : Reads text qs)
    (h' : Reads text' qs') : Reads (text ++ text') (qs ++ qs') := by
  intro rest param
  rw [List.append_assoc, h, record_all_append]
  cases recordAll qs param with
  | none => rfl
  | some param => exact h' rest param

theorem reads_flat_map {A : Type} {as : List A} {f : A → Text} {g : A → List (Text × Text)}
    (h : ∀ a ∈ as, Reads (f a) (g a)) : Reads (as.flatMap f) (as.flatMap g) := by
  induction as with
  | nil => exact reads_nil
  | cons a as ih =>
    rw [List.flatMap_cons, List.flatMap_cons]
    exact reads_append (h a List.mem_cons_self) (ih fun b hb => h b (List.mem_cons_of_mem a hb))

/-- Pieces without the letters of the transport layer are passed over. -/
theorem add_lines_other {ps : List Text} (h : ∀ p ∈ ps, '_' ∉ p) (ls : List Text)
    (param : List Parameters) : addLines (ps ++ ls) param = addLines ls param := by
  induction ps with
  | nil => rfl
  | cons p ps ih =>
    have hother : ¬ btl <:+: p := fun hp => h p List.mem_cons_self (hp.subset (by decide))
    rw [List.cons_append, addLines, addLine, if_neg hother]
    exact ih fun p' hp' => h p' (List.mem_cons_of_mem p hp')

theorem reads_other {l : Text} (h : '_' ∉ l) : Reads (line l) [] := by
  intro rest param
  obtain ⟨ps, hpieces, hparts⟩ := BoundedLines.lines_split '\n' (maxLine-1) l rest
  rw [line, List.append_assoc, List.singleton_append, hpieces, add_lines_other]
  · rfl
  · intro p hp hc
    rcases List.mem_append.mp ((hparts p hp).subset hc) with hc | hc
    · exact h hc
    · exact absurd hc (by decide)

theorem integer_chars {v : Text} (h : IntegerText v) : ∀ c ∈ v, c.isDigit = true ∨ c = '-' := by
  obtain ⟨ds, -, hds, rfl | rfl⟩ := h.form
  · exact fun c hc => Or.inl (hds c hc)
  · intro c hc
    rcases List.mem_cons.mp hc with rfl | hc
    · exact Or.inr rfl
    · exact Or.inl (hds c hc)

theorem integer_other {v : Text} (h : IntegerText v) {c : Char} (hdigit : c.isDigit = false)
    (hminus : c ≠ '-') : c ∉ v := by
  intro hc
  rcases integer_chars h c hc with hc | hc
  · rw [hdigit] at hc
    cases hc
  · exact hminus hc

theorem decimal_line {v : Text} (h : IntegerText v) : decimal (line v) = decimal v := by
  have hdigits : ∀ ds : Text, (∀ c ∈ ds, c.isDigit = true) →
      digits (line ds) 0 = digits ds 0 := by
    intro ds hds
    have hend : digits (ds ++ []) 0 = Nat.ofDigitChars 10 ds 0 :=
      digits_all hds (fun c hc => by cases hc) 0
    rw [List.append_nil] at hend
    rw [line, digits_all hds (fun c hc => by cases hc; decide), hend]
  obtain ⟨ds, hne, hds, rfl | rfl⟩ := h.form
  · obtain ⟨c, cs, rfl⟩ := List.exists_cons_of_ne_nil hne
    have hc := hds c List.mem_cons_self
    rw [decimal_digit hc, line, List.cons_append, decimal_digit hc]
    exact congrArg Nat.cast (hdigits _ hds)
  · have hminus : ∀ s : Text, decimal ('-'::s) = -(digits s 0:ℤ) := fun s => rfl
    rw [hminus, line, List.cons_append, hminus]
    exact congrArg (fun n : ℕ => -(n:ℤ)) (hdigits _ hds)

theorem atoi_line {v : Text} (h : IntegerText v) : atoi (line v) = atoi v := by
  rw [atoi, atoi, decimal_line h]

theorem unbroken_other {n : Text} (h : Unbroken n) {c : Char} (hc : isSpace c = true) :
    c ∉ n := fun hmem => by
  rw [h c hmem] at hc
  cases hc

variable {q : Text × Text}

theorem btl_entry (hv : IntegerText q.2) : btl <:+: line (entryLine q) ↔ btl <:+: q.1 := by
  rw [line, entryLine, List.append_assoc]
  constructor
  · intro h
    rcases Substring.infix_seam (by decide) h with h | h
    · exact h
    · have hmem : 'b' ∈ q.2 ++ ['\n'] := h.subset (by decide)
      rcases List.mem_append.mp hmem with hb | hb
      · exact absurd hb (integer_other hv (by decide) (by decide))
      · exact absurd hb (by decide)
  · exact fun h => h.trans (List.prefix_append _ _).isInfix

theorem add_entry (hn : q.1 ≠ [] ∧ Unbroken q.1 ∧ q.1.length < maxParamNameLen)
    (hv : IntegerText q.2) (hbtl : btl <:+: q.1) (param : List Parameters) :
    addLine param (line (entryLine q)) = .ok (record param q) := by
  have hname : Tokenizer.Clean (· == ' ') q.1 := by
    refine ⟨hn.1, fun c hc => beq_eq_false_iff_ne.mpr ?_⟩
    rintro rfl
    exact unbroken_other hn.2.1 (by decide) hc
  have hvalue : Tokenizer.Clean (· == ' ') (line q.2) := by
    refine ⟨List.append_ne_nil_of_right_ne_nil _ (List.cons_ne_nil _ _), fun c hc => ?_⟩
    rw [beq_eq_false_iff_ne]
    rintro rfl
    rcases List.mem_append.mp hc with hc | hc
    · exact integer_other hv (by decide) (by decide) hc
    · exact absurd hc (by decide)
  have htokens : strtok (· == ' ') (line (entryLine q)) = [q.1, line q.2] := by
    have hfirst := Tokenizer.tokens_token (s := line q.2) hname (x := ' ') (by decide)
    rw [Tokenizer.tokens_last hvalue] at hfirst
    rwa [line, entryLine, List.append_assoc]
  rw [addLine, if_pos ((btl_entry hv).mpr hbtl), htokens]
  simp only [if_neg (Nat.not_le_of_lt hn.2.2), record, addValues, List.foldl_cons, List.foldl_nil,
    atoi_line hv]

theorem reads_entry (hn : q.1 ≠ [] ∧ Unbroken q.1 ∧ q.1.length < maxParamNameLen)
    (hv : IntegerText q.2) :
    Reads (line (entryLine q)) ([q].filter fun q => btl <:+: q.1) := by
  intro rest param
  have hnewline : '\n' ∉ entryLine q := by
    rw [entryLine, List.mem_append, List.mem_cons]
    rintro (hc | hc | hc)
    · exact unbroken_other hn.2.1 (by decide) hc
    · exact absurd hc (by decide)
    · exact integer_other hv (by decide) (by decide) hc
  have hfits : (entryLine q).length < maxLine-1 := by
    have hname := hn.2.2
    have hvalue := hv.short
    rw [entryLine, List.length_append, List.length_cons, maxLine]
    rw [maxParamNameLen] at hname
    omega
  rw [line, List.append_assoc, List.singleton_append, BoundedLines.lines_line hnewline hfits,
    addLines, List.filter_singleton]
  by_cases hbtl : btl <:+: q.1
  · have hadd := add_entry hn hv hbtl param
    rw [line] at hadd
    rw [hadd, decide_eq_true hbtl]
    cases hrecord : record param q with
    | none => simp only [recordAll, hrecord, cond_true, Option.bind_none]
    | some param => simp only [recordAll, hrecord, cond_true, Option.bind_some]
  · have hother : ¬ btl <:+: entryLine q ++ ['\n'] := fun h => hbtl ((btl_entry hv).mp h)
    rw [addLine, if_neg hother, decide_eq_false hbtl]
    rfl

variable {names : List Text} {buckets : List Bucket}

theorem reads_row {row : List Text}
    (hn : ∀ n ∈ names, n ≠ [] ∧ Unbroken n ∧ n.length < maxParamNameLen)
    (hv : ∀ v ∈ row, IntegerText v) :
    Reads ((rowLines names row).flatMap line)
      ((names.zip row).filter fun q => btl <:+: q.1) := by
  rw [rowLines, List.flatMap_append, List.flatMap_map]
  have hentries : Reads ((names.zip row).flatMap fun q => line (entryLine q))
      ((names.zip row).flatMap fun q => [q].filter fun q => btl <:+: q.1) :=
    reads_flat_map fun q hq =>
      reads_entry (hn q.1 (List.of_mem_zip hq).1) (hv q.2 (List.of_mem_zip hq).2)
  have hstars : Reads ([stars].flatMap line) [] := by
    rw [List.flatMap_singleton]
    exact reads_other (by decide)
  have hfilter : ((names.zip row).flatMap fun q => [q].filter fun q => btl <:+: q.1) =
      (names.zip row).filter fun q => btl <:+: q.1 := by
    rw [← List.filter_flatMap, List.flatMap_singleton']
  rw [hfilter] at hentries
  have happend := reads_append hentries hstars
  rwa [List.append_nil] at happend

theorem reads_bucket {b : Bucket}
    (hn : ∀ n ∈ names, n ≠ [] ∧ Unbroken n ∧ n.length < maxParamNameLen)
    (hv : ∀ row ∈ b.rows, ∀ v ∈ row, IntegerText v) :
    Reads ((bucketLines names b).flatMap line)
      (b.rows.flatMap fun row => (names.zip row).filter fun q => btl <:+: q.1) := by
  have hheader : '_' ∉ header b := by
    rw [header, List.mem_append, List.mem_cons]
    rintro (hc | hc | hc)
    · rcases mem_print_f hc with hc | hc | hc <;> exact absurd hc (by decide)
    · exact absurd hc (by decide)
    · exact absurd (print_digits hc) (by decide)
  rw [bucketLines, List.flatMap_cons, List.flatMap_cons, List.flatMap_cons, List.flatMap_assoc]
  exact reads_append (reads_other List.not_mem_nil) (reads_append (reads_other (by decide))
    (reads_append (reads_other hheader)
      (reads_flat_map fun row hrow => reads_row hn (hv row hrow))))

/-- A written file has the lines that the tool looks at. -/
theorem reads_file (h : Countable names buckets) :
    Reads (writeFile names buckets) (btlEntries names buckets) := by
  have hread := reads_flat_map fun b hb => reads_bucket h.names (h.values b hb)
  rw [← List.flatMap_assoc] at hread
  rw [btlEntries, entries, List.filter_flatMap]
  simp only [List.filter_flatMap]
  exact hread

end Reading

/-- With too many parameters the tool reports it. Otherwise, if no parameter
has too many values, each value of each parameter of the transport layer is
listed once, with its number. -/
theorem histogram_lists {names : List Text} {buckets : List Bucket}
    (h : Countable names buckets) :
    (maxNumParameters < (distinctNames (btlEntries names buckets)).card →
      otpoParser (writeFile names buckets) = .ok none) ∧
    ((distinctNames (btlEntries names buckets)).card ≤ maxNumParameters →
      (∀ name, (distinctValues (btlEntries names buckets) name).card ≤ maxValues) →
      ∃ table, otpoParser (writeFile names buckets) = .ok (some table) ∧
        Lists (btlEntries names buckets) table) := by
  have hread := reads_file h [] (List.replicate maxNumParameters noParameters)
  rw [List.append_nil] at hread
  have hne : ∀ q ∈ btlEntries names buckets, q.1 ≠ [] := by
    intro q hq
    obtain ⟨b, -, hq⟩ := List.mem_flatMap.mp (List.mem_filter.mp hq).1
    obtain ⟨row, -, hq⟩ := List.mem_flatMap.mp hq
    exact (h.names q.1 (List.of_mem_zip hq).1).1
  constructor
  · intro hfull
    rw [otpoParser, hread, record_all_full hne no_params (Nat.zero_le _) hfull]
    rfl
  · intro hroom hvalues
    obtain ⟨param, hrecord, hparams⟩ := record_all_keeps hne no_params hroom
    refine ⟨dumpParameters param, ?_, dump_lists hparams hvalues⟩
    rw [otpoParser, hread, hrecord]
    rfl

theorem countable_digits {names : List Text} {buckets : List Bucket}
    (hn : ∀ n ∈ names, n ≠ [] ∧ n.all (fun c => !isSpace c) = true ∧ n.length < maxParamNameLen)
    (hv : ∀ b ∈ buckets, ∀ row ∈ b.rows, ∀ v ∈ row, v ≠ [] ∧ v.all Char.isDigit = true ∧
      v.length < 99 ∧ -2147483648 ≤ decimal v ∧ decimal v ≤ 2147483647) :
    Countable names buckets where
  names n hin := by
    obtain ⟨hne, hspace, hshort⟩ := hn n hin
    exact ⟨hne, fun c hc => by simpa using List.all_eq_true.mp hspace c hc, hshort⟩
  values b hb row hrow v hin := by
    obtain ⟨hne, hdigits, hshort, hrange⟩ := hv b hb row hrow v hin
    exact ⟨⟨v, hne, List.all_eq_true.mp hdigits, Or.inl rfl⟩, hshort, hrange⟩

/-- Two parameters of the transport layer with one of another between them, in
three combinations, and an empty bucket. -/
theorem histogram_layers :
    let names := ["btl_a".toList, "coll_x".toList, "btl_b".toList]
    let buckets : List Bucket := [⟨1, [["7".toList, "1".toList, "64".toList],
      ["8".toList, "1".toList, "64".toList]]⟩, ⟨101/100, []⟩,
        ⟨102/100, [["7".toList, "2".toList, "128".toList]]⟩]
    ∃ table, otpoParser (writeFile names buckets) = .ok (some table) ∧
      ("btl_a".toList, 7, 2) ∈ table ∧ ("btl_a".toList, 8, 1) ∈ table ∧
      ("btl_b".toList, 64, 2) ∈ table ∧ ("btl_b".toList, 128, 1) ∈ table ∧
      ∀ value count, ("coll_x".toList, value, count) ∉ table := by
  intro names buckets
  have hcountable : Countable names buckets := countable_digits (by decide) (by decide)
  have hvalues : ∀ name, (distinctValues (btlEntries names buckets) name).card ≤ maxValues := by
    intro name
    refine (List.toFinset_card_le _).trans ?_
    rw [valuesOf, List.length_map]
    exact (List.length_filter_le _ _).trans (by decide)
  obtain ⟨table, hrun, -, hlists⟩ := (histogram_lists hcountable).2 (by decide) hvalues
  refine ⟨table, hrun, (hlists _ 7 2).mpr ⟨by decide, by decide⟩,
    (hlists _ 8 1).mpr ⟨by decide, by decide⟩, (hlists _ 64 2).mpr ⟨by decide, by decide⟩,
    (hlists _ 128 1).mpr ⟨by decide, by decide⟩, fun value count hin => ?_⟩
  obtain ⟨hpos, hcount⟩ := (hlists _ value count).mp hin
  have hnone : valuesOf (btlEntries names buckets) "coll_x".toList = [] := by decide
  rw [occurrences, hnone, List.count_nil] at hcount
  omega

/-- A parameter of another layer is not listed at all. -/
theorem histogram_skips :
    let names := ["a".toList]
    let buckets : List Bucket := [⟨1, [["7".toList], ["7".toList]]⟩]
    Countable names buckets ∧ ¬ ∃ result, otpoParser (writeFile names buckets) = .ok result ∧
      ∀ table, result = some table → Lists (entries names buckets) table := by
  intro names buckets
  have hcountable : Countable names buckets := countable_digits (by decide) (by decide)
  refine ⟨hcountable, ?_⟩
  rintro ⟨result, hrun, hlists⟩
  have hread := reads_file hcountable [] (List.replicate maxNumParameters noParameters)
  rw [List.append_nil, show btlEntries names buckets = [] by decide] at hread
  rw [otpoParser, hread] at hrun
  cases hrun
  have hlisted := ((hlists _ rfl).2 "a".toList 7 2).mpr ⟨by decide, by decide⟩
  rw [show dumpParameters (List.replicate maxNumParameters noParameters) = [] from rfl] at hlisted
  cases hlisted

end Otpo.ValueHistogram
