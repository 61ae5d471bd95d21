import Otpo.RpnAgreement
import Otpo.Combinations

/-!
# The depth of the stack

Whether the stack runs empty or full, or a condition leaves more than one
value, depends on the elements of the condition only and on no value in the
combination.
-/

set_option autoImplicit false

namespace Otpo.RpnBalance
open Otpo.ParamList Otpo.RpnStack Otpo.Combinations

def token : RpnElement → Postfix.Token Operator RpnElement
  | .operator type => .operator type
  | e => .operand e

def WellFormed (p : Param) : Prop :=
  p.rpnElements = [] ∨ Postfix.Balanced (p.rpnElements.map token)

instance (p : Param) : Decidable (WellFormed p) :=
  inferInstanceAs (Decidable (p.rpnElements = [] ∨ Postfix.Balanced (p.rpnElements.map token)))

section Depth

variable {bytes : Text → ℤ} {ps : List Param} {attrVals : List ℤ}
variable {e : RpnElement} {es : List RpnElement} {m m' : Machine}

def NoExit {α : Type} (x : Except Fault α) : Prop := ∀ message, x ≠ .error (.exit message)

theorem no_exit_undefined {α : Type} {x : Except Fault α} (h : NoExit x) :
    (∃ a, x = .ok a) ∨ x = .error .undefined := by
  match x, h with
  | .ok a, _ => exact Or.inl ⟨a, rfl⟩
  | .error .undefined, _ => exact Or.inr rfl
  | .error (.exit message), h => exact absurd rfl (h message)

theorem int32_no_exit (x : ℤ) : NoExit (int32 x) := by
  intro message
  rw [int32]
  split_ifs <;> exact fun h => by cases h

theorem operand_no_exit (ps : List Param) (attrVals : List ℤ) (e : RpnElement) :
    NoExit (operandString ps attrVals e) := by
  intro message h
  cases e <;> simp only [operandString] at h
  case param =>
    repeat' split at h
    all_goals cases h
  all_goals cases h

theorem result_no_exit (bytes : Text → ℤ) (type : Operator) (temp1 temp2 : Option Text)
    (e1 e2 : RpnElement) (e3 : ℤ) : NoExit (result bytes type temp1 temp2 e1 e2 e3) := by
  intro message h
  cases type <;> simp only [result] at h
  case add | subtract | multiply => exact int32_no_exit _ message h
  case divide =>
    split_ifs at h
    · cases h
    · exact int32_no_exit _ message h
  all_goals cases h

/-- An operator with two operands in front of it and room for its result. -/
theorem operate_two (bytes : Text → ℤ) (ps : List Param) (attrVals : List ℤ) (e1 e2 : RpnElement)
    {s : List RpnElement} (e3 : ℤ) (type : Operator) (hroom : s.length < rpnMaxElements) :
    (∃ r, operate bytes ps attrVals type ⟨e1::e2::s, e3⟩ = .ok ⟨.integer r::s, r⟩) ∨
      operate bytes ps attrVals type ⟨e1::e2::s, e3⟩ = .error .undefined := by
  rcases no_exit_undefined (operand_no_exit ps attrVals e1) with
    ⟨temp1, h1⟩ | h1
  · rcases no_exit_undefined (operand_no_exit ps attrVals e2) with
      ⟨temp2, h2⟩ | h2
    · rcases no_exit_undefined (result_no_exit bytes type temp1 temp2 e1 e2 e3) with
        ⟨r, hr⟩ | hr
      · have hpush : push (.integer r) ⟨s, r⟩ = .ok ⟨.integer r::s, r⟩ := if_pos hroom
        refine Or.inl ⟨r, ?_⟩
        simp only [operate, pop, h1, h2, hr, hpush, bind, Except.bind]
      · refine Or.inr ?_
        simp only [operate, pop, h1, h2, hr, bind, Except.bind]
    · refine Or.inr ?_
      simp only [operate, pop, h1, h2, bind, Except.bind]
  · refine Or.inr ?_
    simp only [operate, pop, h1, bind, Except.bind]

/-- An operator that finds one operand at most. -/
theorem operate_short (type : Operator) (h : m.stack.length < 2) (m' : Machine) :
    operate bytes ps attrVals type m ≠ .ok m' := by
  intro hok
  obtain ⟨stack, e3⟩ := m
  match stack, h with
  | [], _ => cases hok
  | [e1], _ =>
    rcases no_exit_undefined (operand_no_exit ps attrVals e1) with
      ⟨temp1, h1⟩ | h1 <;> simp only [operate, pop, h1, bind, Except.bind] at hok <;> cases hok

theorem depth_operator {type : Operator} {n : ℕ} :
    Postfix.depthStep (token (.operator type)) n = if 2 ≤ n then some (n-1) else none := by
  match n with
  | 0 => rfl
  | 1 => rfl
  | n+2 => exact (if_pos (by omega)).symm

theorem element_ok (hroom : m.stack.length < rpnMaxElements)
    (h : element bytes ps attrVals e m = .ok m') :
    Postfix.depthStep (token e) m.stack.length = some m'.stack.length := by
  cases e with
  | operator type =>
    rw [depth_operator]
    obtain ⟨stack, e3⟩ := m
    match stack, hroom with
    | [], _ => cases h
    | [e1], _ =>
      have hone : (⟨[e1], e3⟩ : Machine).stack.length < 2 := Nat.lt_succ_self 1
      exact absurd h (operate_short type hone m')
    | e1::e2::s, hroom =>
      have hshort : s.length < rpnMaxElements := by
        simp only [List.length_cons] at hroom
        omega
      rcases operate_two bytes ps attrVals e1 e2 e3 type hshort with ⟨r, hr⟩ | hr
      · rw [element, hr] at h
        cases h
        rfl
      · rw [element, hr] at h
        cases h
  | param index | integer value | string value =>
    change push _ m = .ok m' at h
    rw [push, if_pos hroom] at h
    cases h
    rfl

theorem element_exit {message : String} (hroom : m.stack.length < rpnMaxElements)
    (h : element bytes ps attrVals e m = .error (.exit message)) :
    Postfix.depthStep (token e) m.stack.length = none := by
  cases e with
  | operator type =>
    rw [depth_operator, if_neg]
    intro htwo
    obtain ⟨stack, e3⟩ := m
    match stack, htwo, hroom with
    | e1::e2::s, _, hroom =>
      have hshort : s.length < rpnMaxElements := by
        simp only [List.length_cons] at hroom
        omega
      rcases operate_two bytes ps attrVals e1 e2 e3 type hshort with ⟨r, hr⟩ | hr
      · rw [element, hr] at h
        cases h
      · rw [element, hr] at h
        cases h
  | param index | integer value | string value =>
    change push _ m = .error (.exit message) at h
    rw [push, if_pos hroom] at h
    cases h

/-- The depth behind a condition whose elements have been worked through. -/
theorem elements_ok (hroom : m.stack.length+es.length ≤ rpnMaxElements)
    (h : elements bytes ps attrVals es m = .ok m') :
    Postfix.depth (es.map token) m.stack.length = some m'.stack.length := by
  induction es generalizing m with
  | nil =>
    cases h
    rfl
  | cons e es ih =>
    rw [List.length_cons] at hroom
    rw [elements] at h
    cases hm : element bytes ps attrVals e m with
    | error f =>
      rw [hm] at h
      cases h
    | ok n =>
      rw [hm] at h
      have hstep := element_ok (by omega) hm
      have hdepth := Postfix.depth_step_le hstep
      rw [List.map_cons, Postfix.depth_cons hstep]
      exact ih (by omega) h

theorem elements_exit {message : String} (hroom : m.stack.length+es.length ≤ rpnMaxElements)
    (h : elements bytes ps attrVals es m = .error (.exit message)) :
    Postfix.depth (es.map token) m.stack.length = none := by
  induction es generalizing m with
  | nil => cases h
  | cons e es ih =>
    rw [List.length_cons] at hroom
    rw [elements] at h
    cases hm : element bytes ps attrVals e m with
    | error f =>
      rw [hm] at h
      cases h
      exact Postfix.depth_stopped (element_exit (by omega) hm) _
    | ok n =>
      rw [hm] at h
      have hstep := element_ok (by omega) hm
      have hdepth := Postfix.depth_step_le hstep
      rw [List.map_cons, Postfix.depth_cons hstep]
      exact ih (by omega) h

end Depth

section Conditions

variable {bytes : Text → ℤ} {ps : List Param} {attrVals : List ℤ} {p : Param}

theorem condition_room (p : Param) (e3 : ℤ) :
    (⟨[], e3⟩ : Machine).stack.length+p.rpnElements.length ≤ rpnMaxElements := by
  rw [List.length_nil, Nat.zero_add]
  exact p.bounded

/-- A condition that is worked through leaves one value if it is well-formed. -/
theorem condition_ok {e3 : ℤ} {m : Machine} (hne : p.rpnElements ≠ [])
    (h : elements bytes ps attrVals p.rpnElements ⟨[], e3⟩ = .ok m) :
    WellFormed p ↔ m.stack.length = 1 := by
  have hdepth := elements_ok (condition_room p e3) h
  rw [WellFormed, Postfix.Balanced]
  rw [List.length_nil] at hdepth
  rw [hdepth, Option.some.injEq]
  exact or_iff_right hne

theorem condition_no_exit {e3 : ℤ} (hne : p.rpnElements ≠ []) (h : WellFormed p) :
    NoExit (elements bytes ps attrVals p.rpnElements ⟨[], e3⟩) := by
  intro message herror
  have hdepth := elements_exit (condition_room p e3) herror
  rw [List.length_nil, h.resolve_left hne] at hdepth
  cases hdepth

theorem conditions_no_exit {qs : List (Param × ℤ)} (h : ∀ q ∈ qs, WellFormed q.1) (e3 ret : ℤ) :
    NoExit (conditions bytes ps attrVals qs e3 ret) := by
  induction qs generalizing e3 ret with
  | nil =>
    intro message herror
    cases herror
  | cons q qs ih =>
    obtain ⟨p, v⟩ := q
    have hrest : ∀ q ∈ qs, WellFormed q.1 := fun q hq => h q (List.mem_cons_of_mem _ hq)
    have hp : WellFormed p := h (p, v) List.mem_cons_self
    intro message herror
    rw [conditions] at herror
    split_ifs at herror with hret hne
    · exact ih hrest e3 ret message herror
    · cases helements : elements bytes ps attrVals p.rpnElements ⟨[], e3⟩ with
      | error f =>
        rw [helements] at herror
        cases herror
        exact condition_no_exit hne hp message helements
      | ok m =>
        obtain ⟨e, he⟩ := List.length_eq_one_iff.mp ((condition_ok hne helements).mp hp)
        simp only [helements, he] at herror
        split_ifs at herror
        · exact ih hrest _ _ message herror
        · exact ih hrest _ _ message herror

/-- At the first values no verdict hides a condition behind it. -/
theorem conditions_stop {qs : List Param} (h : ∃ p ∈ qs, ¬ WellFormed p) (e3 ret : ℤ)
    (hret : ret ≠ 0) (r : ℤ) :
    conditions bytes ps attrVals (qs.map fun q => (q, q.first)) e3 ret ≠ .ok r := by
  induction qs generalizing e3 ret with
  | nil =>
    obtain ⟨p, hp, -⟩ := h
    cases hp
  | cons q qs ih =>
    intro hok
    rw [List.map_cons, conditions, if_neg hret] at hok
    have hrest : WellFormed q → ∃ p ∈ qs, ¬ WellFormed p := by
      intro hq
      obtain ⟨p, hp, hbad⟩ := h
      rcases List.mem_cons.mp hp with rfl | hp
      · exact absurd hq hbad
      · exact ⟨p, hp, hbad⟩
    split_ifs at hok with hne
    · exact ih (hrest (Or.inl hne)) e3 ret hret hok
    · cases helements : elements bytes ps attrVals q.rpnElements ⟨[], e3⟩ with
      | error f =>
        rw [helements] at hok
        cases hok
      | ok m =>
        simp only [helements] at hok
        split at hok
        · next e he =>
          have hwell : WellFormed q := (condition_ok hne helements).mpr (by rw [he]; rfl)
          split_ifs at hok with hz
          · exact ih (hrest hwell) _ 1 one_ne_zero hok
          · exact ih (hrest hwell) _ _ (fun h0 => hz ⟨h0, trivial⟩) hok
        · cases hok

end Conditions

/-- Well-formed conditions are never reported, on any combination; one that is
not stops the process at the first combination. -/
theorem stack_errors (bytes : Text → ℤ) (ps : List Param) :
    ((∀ p ∈ ps, WellFormed p) → ∀ attrVals e3 message,
      checkRpn bytes ps attrVals e3 ≠ .error (.exit message)) ∧
    ((∃ p ∈ ps, ¬ WellFormed p) → ∀ e3,
      ∃ f, checkRpn bytes ps (firstCombination ps) e3 = .error f ∧
        ∀ n, populateFunctionSet (fun v => checkRpn bytes ps v e3) ps (n+1) =
          some (.error f)) := by
  constructor
  · intro h attrVals e3
    exact conditions_no_exit (fun q hq => h q.1 (List.of_mem_zip hq).1) e3 1
  · intro h e3
    have hzip : ps.zip (ps.map Param.first) = ps.map (fun p => (p, p.first)) := by
      simpa using List.zip_map' (f := id) (g := Param.first) (l := ps)
    cases hcheck : checkRpn bytes ps (firstCombination ps) e3 with
    | ok r =>
      rw [checkRpn, firstCombination, hzip] at hcheck
      exact absurd hcheck (conditions_stop h e3 1 one_ne_zero r)
    | error f =>
      refine ⟨f, rfl, fun n => ?_⟩
      simp only [populateFunctionSet, populateLoop, populateStep, hcheck]

/-- `a 1 =` is well-formed on one parameter; `a =` ends the first check. -/
theorem stack_errors_letter :
    let p := Param.listed "a".toList "1".toList ["2".toList]
    let q := p.withElements [.param 0, .integer 1, .operator .equal] (by decide)
    let r := p.withElements [.param 0, .operator .equal] (by decide)
    (∀ attrVals e3 message, checkRpn (fun _ => 0) [q] attrVals e3 ≠ .error (.exit message)) ∧
      ∃ f, populateFunctionSet (fun v => checkRpn (fun _ => 0) [r] v 0) [r] 1 =
        some (.error f) := by
  intro p q r
  have hq : ∀ p ∈ [q], WellFormed p := by decide
  have hr : ∃ p ∈ [r], ¬ WellFormed p := by decide
  obtain ⟨f, -, hf⟩ := (stack_errors (fun _ => 0) [r]).2 hr 0
  exact ⟨(stack_errors (fun _ => 0) [q]).1 hq, f, hf 0⟩

end Otpo.RpnBalance
