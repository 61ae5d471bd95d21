import Otpo.InitializeList
import Otpo.Library.Progression
import Mathlib.Tactic.Linarith

/-!
# Traversing a range

A range is given by its bounds, an operation and an operand. The loop tests the
upper bound only and treats zero apart, so that it need not come to an end, nor
stay between the bounds, nor come to every value between them.
-/

set_option autoImplicit false

namespace Otpo.RangeTraversal
open Otpo.ParamList Otpo.ParseLine Otpo.InitializeList

def Int32 (x : ℤ) : Prop := -2147483648 ≤ x ∧ x ≤ 2147483647

instance (x : ℤ) : Decidable (Int32 x) :=
  inferInstanceAs (Decidable (-2147483648 ≤ x ∧ x ≤ 2147483647))

structure Range where
  startValue : ℤ
  endValue : ℤ
  operation : Operator
  increment : ℤ
  start_int : Int32 startValue
  end_int : Int32 endValue
  arithmetic : operation ∈ [Operator.add, .subtract, .multiply, .divide]
  increment_int : Int32 increment

def combine (operation : Operator) (increment v : ℤ) : Option ℤ :=
  match operation with
  | .add => some (v+increment)
  | .subtract => some (v-increment)
  | .multiply => some (v*increment)
  | .divide => if increment = 0 then none else some (v.tdiv increment)
  | _ => none

def withRange (r : Range) (p : ListParam) : ListParam :=
  { p with stringValues := [], startValue := some r.startValue, endValue := some r.endValue,
           traverse := some .increment, operation := some r.operation,
           increment := some r.increment }

def Traverses (r : Range) (p : ListParam) : Prop :=
  ∃ fuel values num,
    rangeLoop (some r.operation) (some r.increment) r.endValue fuel r.startValue [r.startValue] 1 =
      .ok (some (values, num)) ∧ values.length = num ∧
    getPossibleValues fuel (withRange r p) =
      .ok (some { withRange r p with possibleValues := some values }) ∧
    Progression.Covers (combine r.operation r.increment) r.startValue r.endValue values

section Conditions

variable (s e k : ℤ)

def Ascends : Prop :=
  if e < s then 0 ≤ k ∨ s+k < e else 0 < k ∧ s+k*((e-s)/k+1) ≤ 2147483647

def Multiplies : Prop :=
  if e < s then s*k < e ∨ s ≤ s*k
  else 0 < s ∧ 2 ≤ k ∧ (∃ n < 32, e < s*k^n ∧ s*k^n ≤ 2147483647) ∨
    s < 0 ∧ (e < s*k ∧ s*k ≤ 2147483647 ∨ e = 0 ∧ k = 0) ∨ s = 0 ∧ (e = 0 ∨ e < k)

def Divides : Prop :=
  if e < s then k = 0 ∨ s.tdiv k < e ∨ s ≤ s.tdiv k
  else s < 0 ∧ (2 ≤ k ∧ e ≤ 0 ∨
      k < 0 ∧ s.tdiv k ≤ 2147483647 ∧ (e < s.tdiv k ∨ e = 0 ∧ s.tdiv k = 0)) ∨ s = 0 ∧ e = 0

end Conditions

def Traversable (r : Range) : Prop :=
  match r.operation with
  | .add => Ascends r.startValue r.endValue r.increment
  | .subtract => Ascends r.startValue r.endValue (-r.increment)
  | .multiply => Multiplies r.startValue r.endValue r.increment
  | .divide => Divides r.startValue r.endValue r.increment
  | _ => False

section Loop

variable {o : Operator} {k e tmp t : ℤ} {vs values values' : List ℤ} {num num' fuel : ℕ}

def Scales (o : Operator) : Prop := o = .multiply ∨ o = .divide

structure Steps (o : Operator) (k tmp t : ℤ) : Prop where
  combined : combine o k tmp = some t
  fits : Int32 t
  nonzero : Scales o → tmp ≠ 0

theorem int32_ok {x y : ℤ} : int32 x = .ok y ↔ x = y ∧ Int32 y := by
  rw [int32]
  split_ifs with h
  · rw [Except.ok.injEq]
    exact ⟨fun hxy => ⟨hxy, hxy ▸ h⟩, And.left⟩
  · refine iff_of_false (fun hx => by cases hx) ?_
    rintro ⟨rfl, hy⟩
    exact h hy

theorem int32_map {x : ℤ} {q : ℤ × Bool} :
    (int32 x).map (·, false) = .ok q ↔ q = (x, false) ∧ Int32 x := by
  by_cases h : Int32 x
  · have hx : int32 x = .ok x := int32_ok.mpr ⟨rfl, h⟩
    rw [hx, Except.map, Except.ok.injEq]
    exact ⟨fun hq => ⟨hq.symm, h⟩, fun hq => hq.1.symm⟩
  · have hx : int32 x = .error .undefined := if_neg h
    rw [hx]
    exact iff_of_false (fun hq => by cases hq) fun hq => h hq.2

theorem number_steps {x : ℤ} (hx : combine o k tmp = some x) (hzero : Scales o → tmp ≠ 0)
    {q : ℤ × Bool} : (q = (x, false) ∧ Int32 x) ↔
      q = (1, true) ∧ Scales o ∧ tmp = 0 ∨ ∃ t, q = (t, false) ∧ Steps o k tmp t := by
  constructor
  · rintro ⟨hq, hfit⟩
    exact Or.inr ⟨x, hq, hx, hfit, hzero⟩
  · rintro (⟨-, hs, h0⟩ | ⟨t, hq, hcombined, hfit, -⟩)
    · exact absurd h0 (hzero hs)
    · rw [hx, Option.some.injEq] at hcombined
      exact ⟨by rw [hq, hcombined], hcombined ▸ hfit⟩

theorem number_skips (hs : Scales o) (h0 : tmp = 0) {q : ℤ × Bool} :
    (.ok (1, true) : Except Fault (ℤ × Bool)) = .ok q ↔
      q = (1, true) ∧ Scales o ∧ tmp = 0 ∨ ∃ t, q = (t, false) ∧ Steps o k tmp t := by
  rw [Except.ok.injEq]
  constructor
  · exact fun hq => Or.inl ⟨hq.symm, hs, h0⟩
  · rintro (⟨hq, -, -⟩ | ⟨t, -, -, -, hnonzero⟩)
    · exact hq.symm
    · exact absurd h0 (hnonzero hs)

/-- What the switch of the loop can do. -/
theorem next_number_iff (ho : o ∈ [Operator.add, .subtract, .multiply, .divide])
    {q : ℤ × Bool} : nextNumber (some o) (some k) tmp = .ok q ↔
      q = (1, true) ∧ Scales o ∧ tmp = 0 ∨ ∃ t, q = (t, false) ∧ Steps o k tmp t := by
  simp only [List.mem_cons, List.not_mem_nil, or_false] at ho
  rcases ho with rfl | rfl | rfl | rfl
  · rw [nextNumber, int32_map]
    exact number_steps rfl fun hs => by rcases hs with h | h <;> cases h
  · rw [nextNumber, int32_map]
    exact number_steps rfl fun hs => by rcases hs with h | h <;> cases h
  · rw [nextNumber]
    split_ifs with h0
    · exact number_skips (Or.inl rfl) h0
    · rw [int32_map]
      exact number_steps rfl fun _ => h0
  · rw [nextNumber]
    split_ifs with h0 hk
    · exact number_skips (Or.inr rfl) h0
    · refine iff_of_false (fun h => by cases h) ?_
      rintro (⟨-, -, h⟩ | ⟨t, -, hcombined, -, -⟩)
      · exact h0 h
      · rw [combine, if_pos hk] at hcombined
        cases hcombined
    · rw [int32_map]
      have hcombined : combine .divide k tmp = some (tmp.tdiv k) := if_neg hk
      exact number_steps hcombined fun _ => h0

inductive Visits (o : Operator) (k e : ℤ) : ℤ → List ℤ → Prop
  | stop {tmp : ℤ} (h : e < tmp) : Visits o k e tmp []
  | skip {vs : List ℤ} (h : 0 ≤ e) (scales : Scales o) (rest : Visits o k e 1 vs) :
      Visits o k e 0 vs
  | pass {tmp t : ℤ} (h : tmp ≤ e) (hs : Steps o k tmp t) (ht : e < t) : Visits o k e tmp []
  | keep {tmp t : ℤ} {vs : List ℤ} (h : tmp ≤ e) (hs : Steps o k tmp t) (ht : t ≤ e)
      (rest : Visits o k e t vs) : Visits o k e tmp (t::vs)

theorem loop_visits (ho : o ∈ [Operator.add, .subtract, .multiply, .divide])
    (h : rangeLoop (some o) (some k) e fuel tmp values num = .ok (some (values', num'))) :
    ∃ vs, Visits o k e tmp vs ∧ values' = values ++ vs := by
  induction fuel generalizing tmp values num with
  | zero => cases h
  | succ fuel ih =>
    rw [rangeLoop] at h
    split_ifs at h with htmp
    · cases h
      exact ⟨[], .stop htmp, (List.append_nil _).symm⟩
    · have hle : tmp ≤ e := not_lt.mp htmp
      split at h
      · cases h
      · next hn =>
        rcases (next_number_iff ho).mp hn with ⟨hq, hscales, rfl⟩ | ⟨_, hq, _⟩
        · cases hq
          obtain ⟨vs, hv, hvalues⟩ := ih h
          exact ⟨vs, .skip hle hscales hv, hvalues⟩
        · cases hq
      · next hn =>
        rcases (next_number_iff ho).mp hn with ⟨hq, _, _⟩ | ⟨t, hq, hs⟩
        · cases hq
        · cases hq
          split_ifs at h with ht
          · obtain ⟨vs, hv, hvalues⟩ := ih h
            cases hv with
            | stop => exact ⟨[], .pass hle hs ht, hvalues⟩
            | skip he => exact absurd ht (not_lt.mpr he)
            | pass he => exact absurd ht (not_lt.mpr he)
            | keep he => exact absurd ht (not_lt.mpr he)
          · obtain ⟨vs, hv, hvalues⟩ := ih h
            exact ⟨_, .keep hle hs (not_lt.mp ht) hv, by rw [hvalues, List.append_assoc]; rfl⟩

theorem visits_loop (ho : o ∈ [Operator.add, .subtract, .multiply, .divide])
    (h : Visits o k e tmp vs) : ∃ fuel, ∀ values num, 0 < num →
      rangeLoop (some o) (some k) e fuel tmp values num =
        .ok (some (values ++ vs, num+vs.length)) := by
  induction h with
  | stop h =>
    refine ⟨1, fun values num _ => ?_⟩
    rw [rangeLoop, if_pos h, List.append_nil]
    rfl
  | skip h hscales _ ih =>
    obtain ⟨fuel, hf⟩ := ih
    refine ⟨fuel+1, fun values num hnum => ?_⟩
    have hnext : nextNumber (some o) (some k) 0 = .ok (1, true) :=
      (next_number_iff ho).mpr (Or.inl ⟨rfl, hscales, rfl⟩)
    rw [rangeLoop, if_neg (not_lt.mpr h), hnext]
    simp only [Nat.sub_add_cancel hnum, hf _ _ hnum]
  | @pass tmp t h hs ht =>
    refine ⟨2, fun values num _ => ?_⟩
    have hnext : nextNumber (some o) (some k) tmp = .ok (t, false) :=
      (next_number_iff ho).mpr (Or.inr ⟨t, rfl, hs⟩)
    rw [rangeLoop, if_neg (not_lt.mpr h), hnext]
    simp only [rangeLoop, if_pos ht, List.append_nil, List.length_nil, Nat.add_zero]
  | @keep tmp t vs h hs ht _ ih =>
    obtain ⟨fuel, hf⟩ := ih
    refine ⟨fuel+1, fun values num _ => ?_⟩
    have hnext : nextNumber (some o) (some k) tmp = .ok (t, false) :=
      (next_number_iff ho).mpr (Or.inr ⟨t, rfl, hs⟩)
    rw [rangeLoop, if_neg (not_lt.mpr h), hnext]
    simp only [if_neg (not_lt.mpr ht), hf _ (num+1) (Nat.succ_pos _), List.append_assoc,
      List.singleton_append, List.length_cons, Nat.add_assoc, Nat.add_comm 1]

/-- A step is never passed over, and appends unless it leaves. -/
theorem visits_step {x : ℤ} (h : Visits o k e x vs) (hx : x ≤ e) :
    x = 0 ∧ Scales o ∧ Visits o k e 1 vs ∨
      ∃ t, Steps o k x t ∧ (e < t ∨ ∃ rest, vs = t::rest ∧ t ≤ e ∧ Visits o k e t rest) := by
  cases h with
  | stop h => exact absurd h (not_lt.mpr hx)
  | skip h hscales rest => exact Or.inl ⟨rfl, hscales, rest⟩
  | pass h hs ht => exact Or.inr ⟨_, hs, Or.inl ht⟩
  | keep h hs ht rest => exact Or.inr ⟨_, hs, Or.inr ⟨_, rfl, ht, rest⟩⟩

/-- Where each step leads to numbers that are not above the bound again, the
loop does not end. -/
theorem visits_trapped {P : ℤ → Prop} (hle : ∀ x, P x → x ≤ e)
    (hzero : Scales o → P 0 → P 1) (hstep : ∀ x t, P x → Steps o k x t → P t) {x : ℤ}
    (hx : P x) : ¬ Visits o k e x vs := by
  intro h
  induction h with
  | stop h => exact absurd h (not_lt.mpr (hle _ hx))
  | skip _ hscales _ ih => exact ih (hzero hscales hx)
  | pass _ hs ht => exact absurd ht (not_lt.mpr (hle _ (hstep _ _ hx hs)))
  | keep _ hs _ _ ih => exact ih (hstep _ _ hx hs)

/-- Where each step rises or is the last one, the loop ends. -/
theorem visits_rising {P : ℤ → Prop}
    (h : ∀ x, P x → x ≤ e →
      (Visits o k e x [] ∧ ∀ b, combine o k x = some b → b = x ∨ e < b) ∨
        ∃ y, Steps o k x y ∧ x < y ∧ y ≤ e ∧ P y) {x : ℤ} (hx : P x) (hle : x ≤ e) :
    ∃ vs, Visits o k e x vs ∧ Progression.Rises (combine o k) e x vs := by
  obtain ⟨n, hn⟩ : ∃ n, (e-x).toNat = n := ⟨_, rfl⟩
  induction n using Nat.strong_induction_on generalizing x with
  | _ n ih =>
    rcases h x hx hle with ⟨hv, hdone⟩ | ⟨y, hs, hxy, hy, hP⟩
    · exact ⟨[], hv, .done hdone⟩
    · obtain ⟨vs, hv, hr⟩ := ih (e-y).toNat (by omega) hP hy rfl
      exact ⟨y::vs, .keep hle hs hy hv, .step hs.combined hxy hy hr⟩

end Loop

end Otpo.RangeTraversal
