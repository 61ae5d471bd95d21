import Otpo.Combinations
import Otpo.RpnStack
import Mathlib.Data.List.TakeWhile

/-!
# What the stepping visits

One parameter shows its values up to the first one that is not below the last
listed value, provided no earlier value repeats. On strictly ascending lists
that is the whole list, and the loop visits the full product.
-/

set_option autoImplicit false

namespace Otpo.Enumeration
open Otpo.ParamList Otpo.RpnStack Otpo.Combinations

def front (p : Param) : List ℤ := p.possibleValues.takeWhile (· < p.last)

theorem front_below {p : Param} {v : ℤ} (h : v ∈ front p) : v < p.last := by
  simpa using List.mem_takeWhile_imp h

theorem values_split (p : Param) :
    ∃ x post, p.possibleValues = front p ++ x::post ∧ p.last ≤ x := by
  cases hd : p.possibleValues.dropWhile (· < p.last) with
  | nil =>
    have h := List.dropWhile_eq_nil_iff.mp hd p.last p.last_mem
    simp at h
  | cons x post =>
    refine ⟨x, post, ?_, ?_⟩
    · rw [front, ← hd, List.takeWhile_append_dropWhile]
    · have h := List.head_dropWhile_not (· < p.last) (l := p.possibleValues) (by simp [hd])
      simpa [hd] using h

theorem get_next_val_at {p : Param} {a rest : List ℤ} {y z : ℤ}
    (h : p.possibleValues = a ++ y::z::rest) (hy : y ∉ a) : getNextVal p y = z := by
  have hidx : p.possibleValues.findIdx? (· == y) = some a.length := by
    rw [List.findIdx?_eq_some_iff_getElem]
    refine ⟨by simp [h], by simp [h], fun j hj => ?_⟩
    simp only [h, List.getElem_append_left hj, beq_iff_eq]
    exact fun he => hy (he ▸ List.getElem_mem hj)
  have hne : a.length ≠ p.numValues-1 := by
    simp only [Param.numValues, h, List.length_append, List.length_cons]
    omega
  simp only [getNextVal, hidx, if_pos hne]
  simp [h]

theorem turn_front {p : Param} {a b post : List ℤ} {x y : ℤ}
    (h : p.possibleValues = a ++ (b ++ x::post)) (hx : p.last ≤ x)
    (hb : ∀ v ∈ b, v < p.last) (hn : (a++b).Nodup) (hy : (b++[x]).head? = some y) :
    Odometer.Turn (wheel p) y (b++[x]) ((wheel p).carry x) := by
  induction b generalizing a y with
  | nil =>
    cases hy
    exact Odometer.Turn.last (by simp [wheel, not_lt.mpr hx])
  | cons v b ih =>
    cases hy
    obtain ⟨z, hz⟩ : ∃ z, (b++[x]).head? = some z := by cases b <;> exact ⟨_, rfl⟩
    have hsplit : ∃ rest, b ++ x::post = z::rest := by
      cases b <;> cases hz <;> exact ⟨_, rfl⟩
    obtain ⟨rest, hrest⟩ := hsplit
    have hv : v ∉ a := by
      intro hm
      exact (List.nodup_append.mp hn).2.2 v hm v (by simp) rfl
    have hnext : getNextVal p v = z := get_next_val_at (a := a) (by rw [h, ← hrest]; rfl) hv
    refine Odometer.Turn.next ?_ (ih (a := a++[v]) (by simpa using h)
      (fun w hw => hb w (by simp [hw])) (by simpa using hn) hz)
    simp [wheel, hb v (by simp), hnext]

theorem first_head (p : Param) : p.possibleValues.head? = some p.first :=
  List.head?_eq_some_head p.nonempty

theorem turn_of_nodup {p : Param} (h : (front p).Nodup) :
    ∃ x post, p.possibleValues = front p ++ x::post ∧ p.last ≤ x ∧
      Odometer.Turn (wheel p) p.first (front p ++ [x]) ((wheel p).carry x) := by
  obtain ⟨x, post, hv, hx⟩ := values_split p
  refine ⟨x, post, hv, hx, turn_front (a := []) hv hx (fun v => front_below) (by simpa) ?_⟩
  have hf := first_head p
  rw [hv] at hf
  cases hfr : front p <;> simpa [hfr] using hf

def Ordered (p : Param) : Prop :=
  p.possibleValues.dropLast.Nodup ∧ ∀ v ∈ p.possibleValues.dropLast, v < p.last

instance (p : Param) : Decidable (Ordered p) :=
  inferInstanceAs (Decidable (p.possibleValues.dropLast.Nodup ∧ ∀ v ∈ p.possibleValues.dropLast, v < p.last))

theorem values_last (p : Param) : p.possibleValues = p.possibleValues.dropLast ++ [p.last] :=
  (List.dropLast_append_getLast p.nonempty).symm

theorem front_ordered {p : Param} (h : Ordered p) : front p = p.possibleValues.dropLast := by
  have hw : ∀ v ∈ p.possibleValues.dropLast, decide (v < p.last) = true := by simpa using h.2
  calc front p = (p.possibleValues.dropLast ++ [p.last]).takeWhile (· < p.last) := by
        rw [← values_last p, front]
    _ = p.possibleValues.dropLast := by
        rw [List.takeWhile_append_of_pos hw, List.takeWhile_cons_of_neg (by simp),
          List.append_nil]

theorem ordered_ascending {p : Param} (h : p.possibleValues.Pairwise (· < ·)) : Ordered p := by
  rw [values_last p, List.pairwise_append] at h
  exact ⟨h.1.imp ne_of_lt, fun v hv => h.2.2 v hv p.last (by simp)⟩

theorem nodup_ordered {p : Param} (h : Ordered p) : p.possibleValues.Nodup := by
  rw [values_last p, List.nodup_append]
  refine ⟨h.1, by simp, fun v hv w hw => ?_⟩
  rw [List.mem_singleton] at hw
  subst hw
  exact ne_of_lt (h.2 v hv)

theorem turn_ordered {p : Param} (h : Ordered p) :
    Odometer.Turn (wheel p) p.first p.possibleValues p.first := by
  have hfront := front_ordered h
  obtain ⟨x, post, hv, _, ht⟩ := turn_of_nodup (hfront ▸ h.1)
  have hx : x::post = [p.last] := by
    have := (values_last p).symm.trans hv
    rw [hfront] at this
    exact (List.append_cancel_left this).symm
  cases hx
  rw [hv]
  simpa [wheel] using ht

theorem returning_ordered {ps : List Param} (h : ∀ p ∈ ps, Ordered p) :
    Odometer.Returning (ps.map wheel) (firstCombination ps) (ps.map Param.possibleValues) := by
  induction ps with
  | nil => exact .nil
  | cons p ps ih =>
    exact .cons (turn_ordered (h p (by simp))) (ih fun q hq => h q (by simp [hq]))

def product (ps : List Param) : List (List ℤ) := (ps.map Param.possibleValues).sections

theorem mem_product {ps : List Param} {x : List ℤ} :
    x ∈ product ps ↔ List.Forall₂ (fun p v => v ∈ p.possibleValues) ps x := by
  rw [product, List.mem_sections, List.forall₂_map_right_iff]
  exact ⟨List.Forall₂.flip, List.Forall₂.flip⟩

theorem length_product (ps : List Param) :
    (product ps).length = (ps.map Param.numValues).prod := by
  rw [product, Odometer.length_sections, List.map_map]
  rfl

theorem head_product (ps : List Param) : (product ps).head? = some (firstCombination ps) := by
  induction ps with
  | nil => rfl
  | cons p ps ih =>
    obtain ⟨rest, hr⟩ : ∃ rest, product ps = firstCombination ps :: rest := by
      cases hp : product ps with
      | nil => simp [hp] at ih
      | cons y rest =>
        simp only [hp, List.head?_cons, Option.some.injEq] at ih
        exact ⟨rest, by rw [ih]⟩
    have hf := first_head p
    cases hv : p.possibleValues with
    | nil => exact absurd hv p.nonempty
    | cons v vs =>
      rw [hv] at hf
      cases hf
      simp only [product] at hr
      simp [product, List.sections, hr, hv, firstCombination]

theorem nodup_product {ps : List Param} (h : ∀ p ∈ ps, p.possibleValues.Nodup) :
    (product ps).Nodup := by
  refine Odometer.nodup_sections fun o ho => ?_
  obtain ⟨p, hp, rfl⟩ := List.mem_map.mp ho
  exact h p hp

/-- On returning wheels the loop visits the product and stops, or is stopped
by the check of one of its combinations. -/
theorem populate_product (check : List ℤ → Except Fault ℤ) {ps : List Param}
    (hr : Odometer.Returning (ps.map wheel) (firstCombination ps)
      (ps.map Param.possibleValues)) (n : ℕ) (hn : (product ps).length ≤ n) :
    (∃ t, populateFunctionSet check ps n = some (.ok t) ∧ t.visited = product ps ∧
      t.attrVals = firstCombination ps ∧ t.functions = (product ps).filter (accepts check)) ∨
    (∃ f, populateFunctionSet check ps n = some (.error f) ∧
      ∃ x ∈ product ps, check x = .error f) := by
  rcases populateLoop_of_run check (Odometer.run_sections hr) [] [] rfl n hn with
    ⟨t, ht, ha, hv, hs⟩ | hf
  · have hv : t.visited = product ps := by simpa [product] using hv
    exact Or.inl ⟨t, ht, hv, ha, by rw [← hv]; exact hs⟩
  · exact Or.inr hf

theorem registered_pos {bytes : Text → ℤ} {leftover : List ℤ → ℤ} {ps : List Param} {n : ℕ}
    {t : Population}
    (h : populateFunctionSet (fun v => checkRpn bytes ps v (leftover v)) ps n = some (.ok t))
    (hf : t.functions = (product ps).filter (accepts fun v => checkRpn bytes ps v (leftover v))) :
    1 ≤ t.functions.length := by
  obtain ⟨m, rfl⟩ : ∃ m, n = m+1 := by
    cases n with
    | zero => cases h
    | succ m => exact ⟨m, rfl⟩
  have hmem : firstCombination ps ∈ product ps := List.mem_of_head? (head_product ps)
  cases hc : checkRpn bytes ps (firstCombination ps) (leftover (firstCombination ps)) with
  | error f => simp [populateFunctionSet, populateLoop, populateStep, hc] at h
  | ok r =>
    have hne := check_rpn_first bytes ps (leftover (firstCombination ps)) hc
    refine List.length_pos_of_mem (a := firstCombination ps) ?_
    rw [hf, List.mem_filter]
    exact ⟨hmem, by simp [accepts, hc, hne]⟩

/-- The loop still runs while it has not visited the whole product. -/
theorem populate_early {check : List ℤ → Except Fault ℤ} {ps : List Param} {m n : ℕ}
    {t : Population} (h : populateFunctionSet check ps m = some (.ok t))
    (hv : t.visited = product ps) (hn : n < (product ps).length) :
    populateFunctionSet check ps n = none := by
  rw [Option.eq_none_iff_forall_not_mem]
  intro r hr
  have hleft := populateLoop_mono check h (Nat.le_max_left m n)
  have hright := populateLoop_mono check hr (Nat.le_max_right m n)
  obtain rfl := Option.some.inj (hleft.symm.trans hright)
  have hlen := populateLoop_length check hr
  rw [hv, List.length_nil] at hlen
  omega

/-- Strictly ascending values and an array length that an `int` holds: the loop
takes exactly one iteration for every element of the product and registers the
accepted ones, the first combination among them, unless a check exits. The
checks are those that C defines. -/
theorem populate_complete (bytes : Text → ℤ) (leftover : List ℤ → ℤ) (ps : List Param) (num : ℤ)
    (h : ∀ p ∈ ps, p.possibleValues.Pairwise (· < ·)) (hnum : getNumCombinations ps = .ok num)
    (hdefined : ∀ x ∈ product ps, checkRpn bytes ps x (leftover x) ≠ .error .undefined) :
    ((product ps).Nodup ∧ (product ps).length = (ps.map Param.numValues).prod ∧
      num = (product ps).length ∧ (product ps).head? = some (firstCombination ps) ∧
      ∀ x, x ∈ product ps ↔ List.Forall₂ (fun p v => v ∈ p.possibleValues) ps x) ∧
    ((∃ t, t.visited = product ps ∧ t.attrVals = firstCombination ps ∧
      t.functions = (product ps).filter (accepts fun v => checkRpn bytes ps v (leftover v)) ∧
      1 ≤ t.functions.length ∧
      ∀ n, registerFunctions (fun v => checkRpn bytes ps v (leftover v)) ps n =
        if (product ps).length ≤ n then some (.ok t) else none) ∨
    (∃ message, ∃ x ∈ product ps, checkRpn bytes ps x (leftover x) = .error (.exit message) ∧
      ∀ n, (product ps).length ≤ n →
        registerFunctions (fun v => checkRpn bytes ps v (leftover v)) ps n =
          some (.error (.exit message)))) := by
  obtain ⟨-, -, rfl⟩ := get_num_combinations_ok.mp hnum
  refine ⟨⟨nodup_product fun p hp => (h p hp).imp ne_of_lt, length_product ps,
    by rw [length_product], head_product ps, fun x => mem_product⟩, ?_⟩
  rcases populate_product (fun v => checkRpn bytes ps v (leftover v))
    (returning_ordered fun p hp => ordered_ascending (h p hp)) _ le_rfl with
    ⟨t, ht, hv, ha, hf⟩ | ⟨f, hf, x, hx, hc⟩
  · have hlen : t.functions.length ≤ (ps.map Param.numValues).prod := by
      rw [hf, ← length_product]
      exact List.length_filter_le ..
    refine Or.inl ⟨t, hv, ha, hf, registered_pos ht hf, fun n => ?_⟩
    split_ifs with hn
    · exact (registerFunctions_ok _).mpr
        ⟨_, hnum, populateLoop_mono _ ht hn, by exact_mod_cast hlen⟩
    · rw [registerFunctions, hnum, populate_early ht hv (by omega)]
      rfl
  · cases f with
    | undefined => exact absurd hc (hdefined x hx)
    | exit message =>
      refine Or.inr ⟨message, x, hx, hc, fun n hn => ?_⟩
      have herror : populateFunctionSet _ ps n = some (.error (.exit message)) :=
        populateLoop_mono _ hf hn
      rw [registerFunctions, hnum, herror]
      rfl

/-- `a -p {off on}` and `b -r 1 3 -t increment + 1` with the condition `a on =`,
that is, with its first value only where `a` is off. -/
def conditional : List Param :=
  [.listed "a".toList "off".toList ["on".toList],
    (Param.range "b".toList 1 [2, 3]).withElements
      [.param 0, .string "on".toList, .operator .equal] (by decide)]

theorem populate_complete_conditional :
    ∃ t : Population,
      t.visited = [[0, 1], [1, 1], [0, 2], [1, 2], [0, 3], [1, 3]] ∧
      t.functions = [[0, 1], [1, 1], [1, 2], [1, 3]] ∧
      ∀ n, registerFunctions (fun v => checkRpn (fun _ => 0) conditional v 0) conditional n =
        if 6 ≤ n then some (.ok t) else none := by
  have hdefined : ∀ x ∈ product conditional,
      ∃ r, checkRpn (fun _ => 0) conditional x 0 = .ok r := by
    have hall : ∀ x ∈ product conditional,
        checkRpn (fun _ => 0) conditional x 0 = .ok 0 ∨
          checkRpn (fun _ => 0) conditional x 0 = .ok 1 := by decide
    exact fun x hx => (hall x hx).elim (fun h => ⟨0, h⟩) fun h => ⟨1, h⟩
  obtain ⟨_, ⟨t, hv, -, hf, -, hn⟩ | ⟨message, x, hx, hc, -⟩⟩ :=
    populate_complete (fun _ => 0) (fun _ => 0) conditional 6 (by decide) rfl (by
      intro x hx hc
      obtain ⟨r, hr⟩ := hdefined x hx
      rw [hr] at hc
      cases hc)
  · exact ⟨t, hv, hf, hn⟩
  · obtain ⟨r, hr⟩ := hdefined x hx
    rw [hr] at hc
    cases hc

def range (es : List RpnElement) (h : es.length ≤ rpnMaxElements) : Param :=
  (Param.range "a".toList 1 [2]).withElements es h

/-- The condition `1 1` leaves two elements, which ends the process at once. -/
theorem populate_invalid_condition :
    ([range [.integer 1, .integer 1] (by decide)] : List Param).all
        (fun p => decide (p.possibleValues.Pairwise (· < ·))) ∧
      ∀ (bytes : Text → ℤ) (leftover : List ℤ → ℤ) (n : ℕ), populateFunctionSet
        (fun v => checkRpn bytes [range [.integer 1, .integer 1] (by decide)] v (leftover v))
        [range [.integer 1, .integer 1] (by decide)] (n+1) =
          some (.error (.exit "RPN Condition is not Valid")) :=
  ⟨by decide, fun _ _ _ => rfl⟩

end Otpo.Enumeration
