import Otpo.RpnSemantics

/-!
# The check reads the condition

The machine's stack shows what the reading of the condition has on its stack.
Where the reading goes through, no operator takes a union for a member that was
not written and each one writes the result element, so that neither the first
bytes of a string nor the leftover of `e3` can show. Where it does not, the
machine comes to such an operator or stops.
-/

set_option autoImplicit false

namespace Otpo.RpnReading
open Otpo.ParamList Otpo.RpnStack Otpo.RpnSemantics

section Defect

def Proper : Operator → RpnElement → RpnElement → Prop
  | .equal, .integer _, .integer _ => True
  | .equal, .integer _, _ => False
  | .equal, _, .integer _ => False
  | .equal, _, _ => True
  | .nequal, .integer _, .integer _ => True
  | .nequal, .integer _, _ => False
  | .nequal, _, .integer _ => False
  | .nequal, _, _ => True
  | .and, .integer n, e1 => n = 1 → ∃ m, e1 = .integer m
  | .or, .integer n, e1 => n ≠ 1 → ∃ m, e1 = .integer m
  | _, .integer _, .integer _ => True
  | _, _, _ => False

def Undisturbed (e : RpnElement) (s : List RpnElement) : Prop :=
  ∀ type e1 e2 r, e = .operator type → s = e1::e2::r → Proper type e2 e1

variable (bytes : Text → ℤ) (ps : List Param) (attrVals : List ℤ)

def CleanElements : List RpnElement → Machine → Prop
  | [], m => ∃ n, m.stack = [.integer n]
  | e::es, m =>
    Undisturbed e m.stack ∧
      ∃ m', element bytes ps attrVals e m = .ok m' ∧ CleanElements es m'

end Defect

section Machine

variable (bytes : Text → ℤ) {ps : List Param} {attrVals : List ℤ}

theorem from_values {p : Param} {v : ℤ} {i : ℕ}
    (h : List.Forall₂ (fun p v => v ∈ p.possibleValues) ps attrVals)
    (hp : ps[i]? = some p) (hv : attrVals[i]? = some v) : v ∈ p.possibleValues := by
  induction h generalizing i with
  | nil => cases hp
  | cons hm _ ih =>
    cases i with
    | zero =>
      cases hp
      cases hv
      exact hm
    | succ i => exact ih (by simpa using hp) (by simpa using hv)

theorem value_string {p : Param} {v : ℤ} (hs : p.stringValues ≠ []) (hm : v ∈ p.possibleValues) :
    ∃ k s, p.possibleValues.findIdx? (· == v) = some k ∧ p.stringValues[k]? = some s ∧
      valueText p v = s := by
  have hlen : p.stringValues.length = p.possibleValues.length := p.strings.resolve_left hs
  cases hk : p.possibleValues.findIdx? (· == v) with
  | none =>
    rw [List.findIdx?_eq_none_iff] at hk
    simpa using hk v hm
  | some k =>
    have hlt := (List.findIdx?_eq_some_iff_getElem.mp hk).1
    have hget := List.getElem?_eq_getElem (hlen ▸ hlt : k < p.stringValues.length)
    exact ⟨k, _, rfl, hget, by simp [valueText, hk, hget]⟩

inductive Held (ps : List Param) (attrVals : List ℤ) : RpnElement → Prop
  | integer (n : ℤ) : Held ps attrVals (.integer n)
  | text {e : RpnElement} {s : Text} (hn : ∀ n, e ≠ .integer n)
      (hs : operandString ps attrVals e = .ok (some s)) (hshown : shown ps attrVals e = .text s) :
      Held ps attrVals e
  | null {e : RpnElement} (hn : ∀ n, e ≠ .integer n)
      (hs : operandString ps attrVals e = .error .undefined)
      (hshown : shown ps attrVals e = .null) : Held ps attrVals e

theorem held (hfrom : List.Forall₂ (fun p v => v ∈ p.possibleValues) ps attrVals)
    {e : RpnElement} (he : ∀ o, e ≠ .operator o) : Held ps attrVals e := by
  cases e with
  | operator o => exact absurd rfl (he o)
  | integer n => exact .integer n
  | string s => exact .text (s := s) (by simp) rfl rfl
  | param i =>
    cases hp : ps[i]? with
    | none => exact .null (by simp) (by simp [operandString, hp]) (by simp [shown, hp])
    | some p =>
      cases hv : attrVals[i]? with
      | none => exact .null (by simp) (by simp [operandString, hp, hv]) (by simp [shown, hp, hv])
      | some v =>
        by_cases hs : p.stringValues = []
        · refine .null (by simp) ?_ (by simp [shown, hp, hv, hs])
          simp only [operandString, hp, hv, hs]
          split <;> rfl
        · obtain ⟨k, s, hk, hget, hval⟩ := value_string hs (from_values hfrom hp hv)
          exact .text (s := s) (by simp) (by simp [operandString, hp, hv, hk, hget])
            (by simp [shown, hp, hv, hs, hval])

theorem shown_number {e : RpnElement} {n : ℤ} (h : shown ps attrVals e = .number n) :
    e = .integer n := by
  cases e with
  | integer m =>
    cases h
    rfl
  | param i =>
    simp only [shown] at h
    repeat' split at h
    all_goals cases h
  | string s => cases h
  | operator o => cases h

theorem truth_decide (q : Prop) [Decidable q] : truth (decide q) = if q then 1 else 0 := by
  by_cases h : q <;> simp [truth, h]

theorem int32_fits (x : ℤ) : (int32 x).toOption = fits x := by
  unfold int32 fits
  split <;> rfl

theorem proper_integer {o : Operator} {y : ℤ} {e : RpnElement} (hn : ∀ n, e ≠ .integer n)
    (h : Proper o (.integer y) e) : o = .and ∧ y ≠ 1 ∨ o = .or ∧ y = 1 := by
  cases e with
  | integer n => exact absurd rfl (hn n)
  | _ =>
    cases o
    case and => exact Or.inl ⟨rfl, fun hy => by simpa using h hy⟩
    case or => exact Or.inr ⟨rfl, by_contra fun hy => by simpa using h hy⟩
    all_goals exact False.elim h

theorem proper_text {o : Operator} {f e : RpnElement} (hf : ∀ n, f ≠ .integer n)
    (h : Proper o f e) : (o = .equal ∨ o = .nequal) ∧ ∀ n, e ≠ .integer n := by
  cases f with
  | integer y => exact absurd rfl (hf y)
  | _ => cases e <;> cases o <;> simp_all [Proper]

/-- What an operator writes on two integers is what it reads. -/
theorem result_numbers (e3 : ℤ) (o : Operator) (y x : ℤ) :
    reading o (.number y) (.number x) =
      (result bytes o none none (.integer x) (.integer y) e3).toOption.map .number := by
  cases o
  case divide =>
    by_cases h : x = 0
    · simp [reading, arithmetic, result, integerValue, h, Except.toOption]
    · simp only [reading, arithmetic, result, integerValue, h, if_false, int32_fits]
  case add =>
    simp only [reading, arithmetic, result, integerValue, int32_fits]
    rw [Int.add_comm]
  case subtract | multiply =>
    simp only [reading, arithmetic, result, integerValue, int32_fits]
  case equal | nequal => simp only [reading, result, compareResult, Except.toOption, Option.map]
  all_goals exact congrArg (fun n => some (Shown.number n)) (truth_decide _).symm

/-- The same of a proper operator on any two operands with no null among them. -/
theorem result_read (e3 : ℤ) {o : Operator} {e f : RpnElement} {t u : Option Text}
    (he : Held ps attrVals e) (hf : Held ps attrVals f)
    (ht : operandString ps attrVals e = .ok t) (hu : operandString ps attrVals f = .ok u)
    (hproper : Proper o f e) :
    reading o (shown ps attrVals f) (shown ps attrVals e) =
      (result bytes o t u e f e3).toOption.map .number := by
  cases hf with
  | null hn hs _ =>
    rw [hs] at hu
    cases hu
  | integer y =>
    cases he with
    | null hn hs _ =>
      rw [hs] at ht
      cases ht
    | integer x =>
      cases ht
      cases hu
      exact result_numbers bytes e3 o y x
    | text hn hs hshown =>
      rw [hshown]
      rcases proper_integer hn hproper with ⟨rfl, hy⟩ | ⟨rfl, hy⟩ <;>
        simp [shown, reading, result, integerValue, truth, hy, Except.toOption]
  | text hn hs hshown =>
    rw [hs] at hu
    cases hu
    obtain ⟨ho, hne⟩ := proper_text hn hproper
    cases he with
    | null hn' hs' _ =>
      rw [hs'] at ht
      cases ht
    | integer x => exact absurd rfl (hne x)
    | @text _ s hn' hs' hshown' =>
      rw [hs'] at ht
      cases ht
      rw [hshown, hshown']
      have hcompare (same differ : ℤ) (a b : Text) :
          compareResult same differ (some b) (some a) e f e3 = if a = b then same else differ := by
        unfold compareResult
        split
        · exact absurd rfl (hn _)
        · rfl
      rcases ho with rfl | rfl <;> simp only [reading, result, hcompare] <;> rfl

/-- Where it reads anything the operator is proper. -/
theorem reading_proper {o : Operator} {e f : RpnElement} {c : Shown}
    (he : Held ps attrVals e) (hf : Held ps attrVals f)
    (h : reading o (shown ps attrVals f) (shown ps attrVals e) = some c) : Proper o f e := by
  cases hf with
  | null hn hs hshown =>
    rw [hshown] at h
    cases o <;> simp [reading] at h
  | integer y =>
    cases he with
    | null hn hs hshown =>
      rw [hshown] at h
      cases o <;> simp [shown, reading] at h
    | integer x => cases o <;> simp [Proper]
    | text hn hs hshown =>
      rw [hshown] at h
      cases o
      case and =>
        intro hy
        simp [shown, reading, hy] at h
      case or =>
        intro hy
        simp [shown, reading, hy] at h
      all_goals cases h
  | text hn hs hshown =>
    rw [hshown] at h
    cases he with
    | null hn' hs' hshown' =>
      rw [hshown'] at h
      cases o <;> cases h
    | integer x => cases o <;> cases h
    | text hn' hs' hshown' =>
      rw [hshown'] at h
      cases f with
      | integer y => exact absurd rfl (hn y)
      | _ =>
        cases e with
        | integer x => exact absurd rfl (hn' x)
        | _ => cases o <;> trivial

theorem held_string {e : RpnElement} (he : Held ps attrVals e)
    (h : shown ps attrVals e ≠ .null) : ∃ t, operandString ps attrVals e = .ok t := by
  cases he with
  | integer x => exact ⟨none, rfl⟩
  | text _ hs _ => exact ⟨_, hs⟩
  | null _ _ hshown => exact absurd hshown h

theorem push_room (e : RpnElement) {m : Machine} (h : m.stack.length < rpnMaxElements) :
    push e m = .ok { m with stack := e::m.stack } := if_pos h

theorem operate_ok {o : Operator} {e f : RpnElement} {s : List RpnElement} {m : Machine} (e3 : ℤ)
    (hroom : s.length < rpnMaxElements) :
    operate bytes ps attrVals o ⟨e::f::s, e3⟩ = .ok m ↔
      ∃ t u r, operandString ps attrVals e = .ok t ∧ operandString ps attrVals f = .ok u ∧
        result bytes o t u e f e3 = .ok r ∧ m = ⟨.integer r::s, r⟩ := by
  simp only [operate, pop, bind, Except.bind]
  cases operandString ps attrVals e with
  | error => simp
  | ok t =>
    cases operandString ps attrVals f with
    | error => simp
    | ok u =>
      cases hr : result bytes o t u e f e3 with
      | error => simp [hr]
      | ok r =>
        have hpush := push_room (.integer r) (m := ⟨s, r⟩) hroom
        simp [hr, hpush, eq_comm]

def Operands (s : List RpnElement) : Prop := ∀ e ∈ s, ∀ o, e ≠ .operator o

/-- An operator that reads its operands does what it reads. -/
theorem operate_reading {o : Operator} {e f : RpnElement} {s : List RpnElement} {c : Shown}
    (e3 : ℤ) (he : Held ps attrVals e) (hf : Held ps attrVals f)
    (hroom : s.length < rpnMaxElements) :
    reading o (shown ps attrVals f) (shown ps attrVals e) = some c ↔
      Proper o f e ∧ ∃ r, c = .number r ∧
        operate bytes ps attrVals o ⟨e::f::s, e3⟩ = .ok ⟨.integer r::s, r⟩ := by
  constructor
  · intro h
    have hproper := reading_proper he hf h
    obtain ⟨t, ht⟩ := held_string he (reading_null h).2
    obtain ⟨u, hu⟩ := held_string hf (reading_null h).1
    rw [result_read bytes e3 he hf ht hu hproper, Option.map_eq_some_iff] at h
    obtain ⟨r, hr, rfl⟩ := h
    refine ⟨hproper, r, rfl, (operate_ok bytes e3 hroom).mpr ⟨t, u, r, ht, hu, ?_, rfl⟩⟩
    cases hres : result bytes o t u e f e3 with
    | error =>
      rw [hres] at hr
      cases hr
    | ok x =>
      rw [hres] at hr
      cases hr
      rfl
  · rintro ⟨hproper, r, rfl, h⟩
    obtain ⟨t, u, x, ht, hu, hr, hm⟩ := (operate_ok bytes e3 hroom).mp h
    cases hm
    rw [result_read bytes e3 he hf ht hu hproper, hr]
    rfl

end Machine

section Condition

variable (bytes : Text → ℤ) {ps : List Param} {attrVals : List ℤ}

theorem element_operands {e : RpnElement} {m m' : Machine} (hs : Operands m.stack)
    (hroom : m.stack.length < rpnMaxElements) (h : element bytes ps attrVals e m = .ok m') :
    Operands m'.stack ∧ m'.stack.length ≤ m.stack.length+1 := by
  obtain ⟨s, e3⟩ := m
  cases e with
  | operator o =>
    match s, hs, hroom with
    | [], _, _ => cases h
    | [e1], _, _ =>
      simp only [element, operate, pop, bind, Except.bind] at h
      split at h <;> cases h
    | e1::e2::s, hs, hroom =>
      simp only [List.length_cons] at hroom
      obtain ⟨t, u, r, -, -, -, rfl⟩ := (operate_ok bytes e3 (by omega)).mp h
      refine ⟨?_, by simp⟩
      rintro e (_ | ⟨_, he⟩)
      · simp
      · exact hs e (List.mem_cons_of_mem _ (List.mem_cons_of_mem _ he))
  | _ =>
    rw [element, push_room _ hroom] at h
    · cases h
      refine ⟨?_, by simp⟩
      rintro e (_ | ⟨_, he⟩)
      · simp
      · exact hs e he
    · simp

/-- One element does to the stack what the reading of it does to what the stack shows. -/
theorem element_reading (hfrom : List.Forall₂ (fun p v => v ∈ p.possibleValues) ps attrVals)
    {e : RpnElement} {m : Machine} (hs : Operands m.stack)
    (hroom : m.stack.length < rpnMaxElements) (bs : List Shown) :
    Postfix.step reading (readToken ps attrVals e) (m.stack.map (shown ps attrVals)) = some bs ↔
      Undisturbed e m.stack ∧ ∃ m', element bytes ps attrVals e m = .ok m' ∧
        m'.stack.map (shown ps attrVals) = bs := by
  obtain ⟨s, e3⟩ := m
  cases e with
  | operator o =>
    match s, hs, hroom with
    | [], _, _ => simp [Postfix.step, readToken, element, operate, pop, bind, Except.bind]
    | [e1], _, _ =>
      have hstuck : ∀ m', element bytes ps attrVals (.operator o) ⟨[e1], e3⟩ ≠ .ok m' := by
        intro m' h
        simp only [element, operate, pop, bind, Except.bind] at h
        split at h <;> cases h
      simp [Postfix.step, readToken, hstuck]
    | e1::e2::s, hs, hroom =>
      simp only [List.length_cons] at hroom
      have hspace : s.length < rpnMaxElements := by omega
      have he := held hfrom (hs e1 (by simp))
      have hf := held hfrom (hs e2 (by simp))
      constructor
      · intro h
        obtain ⟨c, hc, rfl⟩ := Option.map_eq_some_iff.mp h
        obtain ⟨hproper, r, rfl, hok⟩ := (operate_reading bytes e3 he hf hspace).mp hc
        refine ⟨?_, _, hok, rfl⟩
        rintro _ _ _ _ ⟨⟩ ⟨⟩
        exact hproper
      · rintro ⟨hproper, m', hok, rfl⟩
        obtain ⟨t, u, r, -, -, -, rfl⟩ := (operate_ok bytes e3 hspace).mp hok
        have hread := (operate_reading bytes e3 he hf hspace).mpr
          ⟨hproper o e1 e2 s rfl rfl, r, rfl, hok⟩
        exact Option.map_eq_some_iff.mpr ⟨_, hread, rfl⟩
  | _ =>
    simp [Postfix.step, readToken, Undisturbed, element, push_room _ hroom]

theorem stack_number {s : List RpnElement} {n : ℤ}
    (h : s.map (shown ps attrVals) = [.number n]) : s = [.integer n] := by
  obtain ⟨e, rfl, he⟩ := List.map_eq_singleton_iff.mp h
  rw [shown_number he]

/-- A whole condition, by induction on its elements: where the reading comes to
a number the check misreads nothing and comes to the same number. -/
theorem elements_reading (hfrom : List.Forall₂ (fun p v => v ∈ p.possibleValues) ps attrVals)
    {es : List RpnElement} {m : Machine} {n : ℤ} (hs : Operands m.stack)
    (hroom : m.stack.length+es.length ≤ rpnMaxElements)
    (h : Postfix.run reading (es.map (readToken ps attrVals)) (m.stack.map (shown ps attrVals)) =
      some [.number n]) :
    CleanElements bytes ps attrVals es m ∧
      ∃ x, elements bytes ps attrVals es m = .ok ⟨[.integer n], x⟩ := by
  induction es generalizing m with
  | nil =>
    have hstack := stack_number (Option.some.inj h)
    exact ⟨⟨n, hstack⟩, m.e3, by rw [← hstack]; rfl⟩
  | cons e es ih =>
    rw [List.length_cons] at hroom
    obtain ⟨bs, hstep, hrun⟩ := Postfix.run_cons h
    obtain ⟨hread, m', hm, rfl⟩ := (element_reading bytes hfrom hs (by omega) bs).mp hstep
    obtain ⟨hs', hlen⟩ := element_operands bytes hs (by omega) hm
    obtain ⟨hclean, x, hx⟩ := ih hs' (by omega) hrun
    exact ⟨⟨hread, m', hm, hclean⟩, x, by rw [elements, hm]; exact hx⟩

theorem elements_clean (hfrom : List.Forall₂ (fun p v => v ∈ p.possibleValues) ps attrVals)
    {es : List RpnElement} {m : Machine} (hs : Operands m.stack)
    (hroom : m.stack.length+es.length ≤ rpnMaxElements)
    (h : CleanElements bytes ps attrVals es m) :
    ∃ n, Postfix.run reading (es.map (readToken ps attrVals))
      (m.stack.map (shown ps attrVals)) = some [.number n] := by
  induction es generalizing m with
  | nil =>
    obtain ⟨n, hn⟩ := h
    exact ⟨n, by rw [hn]; rfl⟩
  | cons e es ih =>
    rw [List.length_cons] at hroom
    obtain ⟨hread, m', hm, hclean⟩ := h
    obtain ⟨hs', hlen⟩ := element_operands bytes hs (by omega) hm
    obtain ⟨n, hn⟩ := ih hs' (by omega) hclean
    have hstep := (element_reading bytes hfrom hs (by omega) _).mpr ⟨hread, m', hm, rfl⟩
    exact ⟨n, by rw [List.map_cons, Postfix.run, hstep]; exact hn⟩

theorem readValue_eq {es : List RpnElement} {n : ℤ} : readValue ps attrVals es = some n ↔
    Postfix.run reading (es.map (readToken ps attrVals)) [] = some [.number n] := by
  unfold readValue
  split
  · rename_i h
    simp [h]
  · rename_i h
    exact iff_of_false (by simp) (h n)

/-- One condition from the empty stack, whatever is left over in `e3`. -/
theorem condition_reading (hfrom : List.Forall₂ (fun p v => v ∈ p.possibleValues) ps attrVals)
    (p : Param) (e3 : ℤ) :
    CleanElements bytes ps attrVals p.rpnElements ⟨[], e3⟩ ↔
      readValue ps attrVals p.rpnElements ≠ none := by
  have hroom : (⟨[], e3⟩ : Machine).stack.length+p.rpnElements.length ≤ rpnMaxElements := by
    simpa using p.bounded
  have hs : Operands (⟨[], e3⟩ : Machine).stack := by simp [Operands]
  constructor
  · intro h
    obtain ⟨n, hn⟩ := elements_clean bytes hfrom hs hroom h
    rw [readValue_eq.mpr hn]
    exact Option.some_ne_none n
  · intro h
    obtain ⟨n, hn⟩ := Option.ne_none_iff_exists'.mp h
    exact (elements_reading bytes hfrom hs hroom (readValue_eq.mp hn)).1

theorem condition_value (hfrom : List.Forall₂ (fun p v => v ∈ p.possibleValues) ps attrVals)
    {p : Param} {n : ℤ} (e3 : ℤ) (h : readValue ps attrVals p.rpnElements = some n) :
    ∃ x, elements bytes ps attrVals p.rpnElements ⟨[], e3⟩ = .ok ⟨[.integer n], x⟩ :=
  (elements_reading bytes hfrom (by simp [Operands]) (by simpa using p.bounded)
    (readValue_eq.mp h)).2

end Condition

end Otpo.RpnReading
