import Otpo.RpnReading

/-!
# The check computes the standard meaning

A condition that can be read has its standard value. The check of a combination
misreads nothing exactly when all conditions it comes to can be read, and then
its verdict is the documented one.
-/

set_option autoImplicit false

namespace Otpo.RpnAgreement
open Otpo.ParamList Otpo.RpnStack Otpo.RpnSemantics Otpo.RpnReading

section Meaning

variable {ps : List Param} {attrVals : List ℤ}

inductive Shows : Shown → Operand → Prop
  | number (n : ℤ) : Shows (.number n) (.number n)
  | text (s : Text) : Shows (.text s) (.text s)
  | parameter {p : Param} (v : ℤ) (hp : p.stringValues ≠ []) :
      Shows (.text (valueText p v)) (.parameter p v)

theorem same_texts {s t : Text} {a b : Operand} (ha : Shows (.text s) a)
    (hb : Shows (.text t) b) : a.same b = some (decide (s = t)) := by
  cases ha with
  | text => cases hb <;> rfl
  | parameter v hp =>
    cases hb with
    | text => rfl
    | parameter w hq => simp [Operand.same, hp, hq]

theorem reading_text {o : Operator} {s : Text} {b c : Shown} (h : reading o (.text s) b = some c) :
    ∃ t, b = .text t ∧ (o = .equal ∧ c = .number (if s = t then 1 else 0) ∨
      o = .nequal ∧ c = .number (if s = t then 0 else 1)) := by
  cases b with
  | text t => cases o <;> simp_all [reading]
  | number m => cases o <;> cases h
  | null => exact absurd rfl (reading_null h).2

theorem reading_decided {o : Operator} {n : ℤ} {s : Text} {c : Shown}
    (h : reading o (.number n) (.text s) = some c) :
    o = .and ∧ n ≠ 1 ∧ c = .number 0 ∨ o = .or ∧ n = 1 ∧ c = .number 1 := by
  cases o <;> simp_all [reading]

theorem standard_numbers {o : Operator} {n m : ℤ} {c : Shown}
    (h : reading o (.number n) (.number m) = some c) :
    ∃ r, c = .number r ∧ standard o (.number n) (.number m) = some (.number r) := by
  cases o
  case equal | nequal | and | or =>
    cases h
    exact ⟨_, rfl, by simp [standard, Operand.same, Operand.isOne]⟩
  all_goals
    simp only [reading, Option.map_eq_some_iff] at h
    obtain ⟨r, hr, rfl⟩ := h
    exact ⟨r, rfl, by simp only [standard, Operand.number?, hr, Option.map_some]⟩

theorem standard_texts {s t : Text} {x y : Operand} (hx : Shows (.text s) x)
    (hy : Shows (.text t) y) :
    standard .equal x y = some (.number (if s = t then 1 else 0)) ∧
      standard .nequal x y = some (.number (if s = t then 0 else 1)) := by
  rw [standard, standard, same_texts hx hy]
  simp

/-- Where an operator can be read it means the same. -/
theorem reading_standard {o : Operator} {a b c : Shown} {x y : Operand}
    (ha : Shows a x) (hb : Shows b y) (h : reading o a b = some c) :
    ∃ z, standard o x y = some z ∧ Shows c z := by
  cases a with
  | null => exact absurd rfl (reading_null h).1
  | text s =>
    obtain ⟨t, rfl, ⟨rfl, rfl⟩ | ⟨rfl, rfl⟩⟩ := reading_text h
    · exact ⟨_, (standard_texts ha hb).1, .number _⟩
    · exact ⟨_, (standard_texts ha hb).2, .number _⟩
  | number n =>
    cases ha
    cases b with
    | null => exact absurd rfl (reading_null h).2
    | number m =>
      cases hb
      obtain ⟨r, rfl, hr⟩ := standard_numbers h
      exact ⟨_, hr, .number r⟩
    | text t =>
      rcases reading_decided h with ⟨rfl, hn, rfl⟩ | ⟨rfl, hn, rfl⟩
      · exact ⟨_, by simp [standard, Operand.isOne, hn], .number 0⟩
      · exact ⟨_, by simp [standard, Operand.isOne, hn], .number 1⟩

theorem shown_token {e : RpnElement} (he : ∀ o, e ≠ .operator o)
    (h : shown ps attrVals e ≠ .null) :
    ∃ x, token ps attrVals e = some (.operand x) ∧ Shows (shown ps attrVals e) x := by
  cases e with
  | operator o => exact absurd rfl (he o)
  | integer n => exact ⟨_, rfl, .number n⟩
  | string s => exact ⟨_, rfl, .text s⟩
  | param i =>
    cases hp : ps[i]? with
    | none => simp [shown, hp] at h
    | some p =>
      cases hv : attrVals[i]? with
      | none => simp [shown, hp, hv] at h
      | some v =>
        by_cases hs : p.stringValues = []
        · simp [shown, hp, hv, hs] at h
        · refine ⟨.parameter p v, by simp [token, hp, hv], ?_⟩
          simp only [shown, hp, hv, hs, if_false]
          exact .parameter v hs

/-- A null operand is read by no operator, so it stays on the stack. -/
theorem null_step {t : Postfix.Token Operator Shown} {s r : List Shown} (hs : .null ∈ s)
    (h : Postfix.step reading t s = some r) : .null ∈ r := by
  cases t with
  | operand v =>
    cases h
    exact List.mem_cons_of_mem _ hs
  | operator o =>
    obtain ⟨a, b, c, rest, rfl, hc, rfl⟩ := Postfix.step_operator h
    obtain ⟨ha, hb⟩ := reading_null hc
    simp only [List.mem_cons, hb.symm, ha.symm, false_or] at hs
    exact List.mem_cons_of_mem _ hs

theorem null_run {ts : List (Postfix.Token Operator Shown)} {s r : List Shown} (hs : .null ∈ s)
    (h : Postfix.run reading ts s = some r) : .null ∈ r := by
  induction ts generalizing s with
  | nil =>
    cases h
    exact hs
  | cons t ts ih =>
    obtain ⟨m, hstep, hrun⟩ := Postfix.run_cons h
    exact ih (null_step hs hstep) hrun

/-- The standard run of the elements behind a run of their reading. -/
theorem run_standard {es : List RpnElement} {s r : List Shown} {xs : List Operand}
    (hr : Shown.null ∉ r) (hs : List.Forall₂ Shows s xs)
    (h : Postfix.run reading (es.map (readToken ps attrVals)) s = some r) :
    ∃ ts ys, es.mapM (token ps attrVals) = some ts ∧ Postfix.run standard ts xs = some ys ∧
      List.Forall₂ Shows r ys := by
  induction es generalizing s xs with
  | nil =>
    cases h
    exact ⟨[], xs, rfl, rfl, hs⟩
  | cons e es ih =>
    obtain ⟨m, hstep, hrun⟩ := Postfix.run_cons h
    have hm : Shown.null ∉ m := fun hnull => hr (null_run hnull hrun)
    have hone : ∃ t ys, token ps attrVals e = some t ∧ Postfix.step standard t xs = some ys ∧
        List.Forall₂ Shows m ys := by
      cases e with
      | operator o =>
        obtain ⟨a, b, c, rest, rfl, hc, rfl⟩ := Postfix.step_operator hstep
        obtain _ | ⟨hb, _ | ⟨ha, hrest⟩⟩ := hs
        obtain ⟨z, hz, hshows⟩ := reading_standard ha hb hc
        exact ⟨_, _, rfl, by rw [Postfix.step, hz, Option.map_some], .cons hshows hrest⟩
      | _ =>
        cases hstep
        obtain ⟨x, hx, hshows⟩ :=
          shown_token (by simp) fun hnull => hm (List.mem_cons.mpr (Or.inl hnull.symm))
        exact ⟨_, _, hx, rfl, .cons hshows hs⟩
    obtain ⟨t, ys, ht, hys, hshows⟩ := hone
    obtain ⟨ts, zs, hts, hzs, hend⟩ := ih hshows hrun
    refine ⟨t::ts, zs, ?_, ?_, hend⟩
    · simp [List.mapM_cons, ht, hts]
    · rw [Postfix.run, hys]
      exact hzs

/-- The value that can be read is the standard one. -/
theorem readValue_standard {es : List RpnElement} {n : ℤ}
    (h : readValue ps attrVals es = some n) : conditionValue ps attrVals es = some n := by
  obtain ⟨ts, ys, hts, hys, hshows⟩ := run_standard (by simp) .nil (readValue_eq.mp h)
  obtain _ | ⟨hy, hnil⟩ := hshows
  cases hnil
  cases hy
  simp [conditionValue, hts, Postfix.value, hys, Operand.number?]

end Meaning

section Conditions

variable (bytes : Text → ℤ) (ps : List Param) (attrVals : List ℤ)

def CleanConditions : List (Param × ℤ) → ℤ → ℤ → Prop
  | [], _, _ => True
  | (p, v)::rest, e3, ret =>
    ret ≠ 0 →
      if p.rpnElements = [] then CleanConditions rest e3 ret
      else CleanElements bytes ps attrVals p.rpnElements ⟨[], e3⟩ ∧
        ∀ x n, elements bytes ps attrVals p.rpnElements ⟨[], e3⟩ = .ok ⟨[.integer n], x⟩ →
          CleanConditions rest x (if n = 0 ∧ v = p.first then 1 else n)

def Clean (e3 : ℤ) : Prop := CleanConditions bytes ps attrVals (ps.zip attrVals) e3 1

def Readable (qs : List (Param × ℤ)) : Prop :=
  ∀ k q, qs[k]? = some q → q.1.rpnElements ≠ [] →
    (∀ x ∈ qs.take k, Accepts ps attrVals x.1 x.2) → readValue ps attrVals q.1.rpnElements ≠ none

variable {ps attrVals}

theorem readable_cons {q : Param × ℤ} {qs : List (Param × ℤ)} :
    Readable ps attrVals (q::qs) ↔
      (q.1.rpnElements ≠ [] → readValue ps attrVals q.1.rpnElements ≠ none) ∧
        (Accepts ps attrVals q.1 q.2 → Readable ps attrVals qs) := by
  constructor
  · intro h
    refine ⟨fun he => h 0 q rfl he (by simp), fun hq k r hk he htake => ?_⟩
    refine h (k+1) r hk he ?_
    rw [List.take_succ_cons, List.forall_mem_cons]
    exact ⟨hq, htake⟩
  · rintro ⟨hfirst, hrest⟩ k r hk he htake
    cases k with
    | zero =>
      cases hk
      exact hfirst he
    | succ k =>
      rw [List.take_succ_cons, List.forall_mem_cons] at htake
      exact hrest htake.1 k r hk he htake.2

theorem conditions_rejected (qs : List (Param × ℤ)) (e3 : ℤ) :
    conditions bytes ps attrVals qs e3 0 = .ok 0 := by
  cases qs <;> rfl

/-- The verdict that a condition's value leaves for the next one. -/
theorem accepts_verdict {p : Param} {v n : ℤ} (he : p.rpnElements ≠ [])
    (hn : readValue ps attrVals p.rpnElements = some n) :
    Accepts ps attrVals p v ↔ (if n = 0 ∧ v = p.first then 1 else n) ≠ 0 := by
  have hacc : Accepts ps attrVals p v ↔ v = p.first ∨ n ≠ 0 := by
    simp [Accepts, he, readValue_standard hn]
  rw [hacc]
  by_cases hz : n = 0 ∧ v = p.first
  · simp [hz]
  · rw [if_neg hz]
    tauto

/-- The loop over the conditions misreads nothing if they can be read. -/
theorem clean_readable (hfrom : List.Forall₂ (fun p v => v ∈ p.possibleValues) ps attrVals)
    (qs : List (Param × ℤ)) (e3 ret : ℤ) :
    CleanConditions bytes ps attrVals qs e3 ret ↔ (ret ≠ 0 → Readable ps attrVals qs) := by
  induction qs generalizing e3 ret with
  | nil => simp [CleanConditions, Readable]
  | cons q qs ih =>
    obtain ⟨p, v⟩ := q
    refine imp_congr_right fun hret => ?_
    rw [readable_cons]
    by_cases he : p.rpnElements = []
    · have hacc : Accepts ps attrVals p v := Or.inl he
      rw [if_pos he, ih]
      simp [he, hret, hacc]
    · rw [if_neg he, condition_reading bytes hfrom p e3]
      simp only [ne_eq, he, not_false_eq_true, forall_const]
      refine and_congr_right fun hread => ?_
      obtain ⟨n, hn⟩ := Option.ne_none_iff_exists'.mp hread
      obtain ⟨x, hx⟩ := condition_value bytes hfrom e3 hn
      rw [accepts_verdict he hn]
      constructor
      · intro h
        exact (ih _ _).mp (h x n hx)
      · intro h y m hy
        rw [hx] at hy
        cases hy
        exact (ih _ _).mpr h

/-- The verdict of the loop, from any leftover result. -/
theorem conditions_standard (hfrom : List.Forall₂ (fun p v => v ∈ p.possibleValues) ps attrVals)
    (qs : List (Param × ℤ)) (e3 ret : ℤ) (hq : ret ≠ 0 → Readable ps attrVals qs) :
    ∃ r, conditions bytes ps attrVals qs e3 ret = .ok r ∧
      (r ≠ 0 ↔ ret ≠ 0 ∧ ∀ q ∈ qs, Accepts ps attrVals q.1 q.2) := by
  induction qs generalizing e3 ret with
  | nil => exact ⟨ret, rfl, by simp⟩
  | cons q qs ih =>
    obtain ⟨p, v⟩ := q
    by_cases hret : ret = 0
    · subst hret
      exact ⟨0, conditions_rejected bytes _ e3, by simp⟩
    obtain ⟨hread, hrest⟩ := readable_cons.mp (hq hret)
    simp only [List.forall_mem_cons, ne_eq, hret, not_false_eq_true, true_and]
    by_cases he : p.rpnElements = []
    · have hacc : Accepts ps attrVals p v := Or.inl he
      obtain ⟨r, hr, hiff⟩ := ih e3 ret fun _ => hrest hacc
      refine ⟨r, by simp [conditions, hret, he, hr], ?_⟩
      simpa [hret, hacc] using hiff
    · obtain ⟨n, hn⟩ := Option.ne_none_iff_exists'.mp (hread he)
      obtain ⟨x, hx⟩ := condition_value bytes hfrom e3 hn
      obtain ⟨r, hr, hiff⟩ := ih x (if n = 0 ∧ v = p.first then 1 else n)
        fun hne => hrest ((accepts_verdict he hn).mpr hne)
      refine ⟨r, ?_, by rw [accepts_verdict he hn]; exact hiff⟩
      rw [conditions, if_neg hret, if_neg he, hx, ← hr]
      exact (apply_ite (conditions bytes ps attrVals qs x) _ 1 n).symm

end Conditions

/-- The check misreads nothing exactly if every condition that it comes to can
be read, and then it returns with the standard verdict, whatever the first bytes
of strings and the leftover of `e3` are. -/
theorem check_rpn_standard (bytes : Text → ℤ) (ps : List Param) (attrVals : List ℤ) (e3 : ℤ)
    (hfrom : List.Forall₂ (fun p v => v ∈ p.possibleValues) ps attrVals) :
    (Clean bytes ps attrVals e3 ↔ Readable ps attrVals (ps.zip attrVals)) ∧
      (Readable ps attrVals (ps.zip attrVals) → ∃ r, checkRpn bytes ps attrVals e3 = .ok r ∧
        (r ≠ 0 ↔ ∀ q ∈ ps.zip attrVals, Accepts ps attrVals q.1 q.2)) := by
  constructor
  · rw [Clean, clean_readable bytes hfrom, imp_iff_right (by decide)]
  · intro h
    obtain ⟨r, hr, hiff⟩ := conditions_standard bytes hfrom (ps.zip attrVals) e3 1 fun _ => h
    exact ⟨r, hr, by simpa using hiff⟩

def conditioned (es : List RpnElement) (h : es.length ≤ rpnMaxElements) : Param :=
  (Param.listed "a".toList "1".toList ["2".toList]).withElements es h

/-- `a -p {1 2}` and `b -p {off on}` with the condition `b on = 1 a || &&`,
in which `a` is no operand that decides. -/
def switched : List Param :=
  [.listed "a".toList "1".toList ["2".toList],
    (Param.listed "b".toList "off".toList ["on".toList]).withElements [.param 1,
      .string "on".toList, .operator .equal, .integer 1, .param 0, .operator .or,
      .operator .and] (by decide)]

theorem check_rpn_standard_switched :
    Clean (fun _ => 0) switched [2, 1] 7 ∧
      ∃ r, checkRpn (fun _ => 0) switched [2, 1] 7 = .ok r ∧
        (r ≠ 0 ↔ ∀ q ∈ switched.zip [2, 1], Accepts switched [2, 1] q.1 q.2) := by
  have hread : Readable switched [2, 1] (switched.zip [2, 1]) := by
    intro k q hk he _
    match k, hk with
    | 0, hk =>
      cases hk
      exact absurd rfl he
    | 1, hk =>
      cases hk
      decide
  have h := check_rpn_standard (fun _ => 0) switched [2, 1] 7
    (.cons (by decide) (.cons (by decide) .nil))
  exact ⟨h.1.mpr hread, h.2 hread⟩

/-- `a 1 >` compares the index of `a`, and `a 2 =` repeats what the operator
before it computed, or what was on the C stack. -/
theorem check_rpn_misread :
    (setStringValues "a".toList "1 2".toList >>= withCondition ["a".toList] "a 1 >".toList) =
      .ok (conditioned [.param 0, .integer 1, .operator .greater] (by decide)) ∧
    (setStringValues "a".toList "1 2".toList >>= withCondition ["a".toList] "a 2 =".toList) =
      .ok (conditioned [.param 0, .integer 2, .operator .equal] (by decide)) ∧
    (∀ bytes e3, checkRpn bytes [conditioned [.param 0, .integer 1, .operator .greater]
      (by decide)] [2] e3 = .ok 0) ∧
    Accepts [conditioned [.param 0, .integer 1, .operator .greater] (by decide)] [2]
      (conditioned [.param 0, .integer 1, .operator .greater] (by decide)) 2 ∧
    ∀ bytes e3, checkRpn bytes [conditioned [.param 0, .integer 2, .operator .equal]
      (by decide)] [2] e3 = .ok e3 := by
  refine ⟨rfl, rfl, fun _ _ => rfl, Or.inr (Or.inr ⟨1, rfl, by decide⟩), fun _ e3 => ?_⟩
  exact if_neg fun h => absurd h.2 (by decide)

end Otpo.RpnAgreement
