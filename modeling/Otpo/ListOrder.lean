import Otpo.FunctionArray

/-!
# The order of listed values

Two lists that differ by the order of the values in `-p` braces. A registered
combination is read back as the values it was made from: the strings of a
listed parameter, the numbers of a range.
-/

set_option autoImplicit false

namespace Otpo.ListOrder
open Otpo.ParamList Otpo.RpnStack Otpo.Combinations Otpo.Enumeration Otpo.ValueOrder

inductive Value
  | text (s : Text)
  | number (v : ℤ)
  deriving DecidableEq, Repr

def values (p : Param) : List Value :=
  if p.stringValues = [] then p.possibleValues.map .number else p.stringValues.map .text

def valueAt (p : Param) (v : ℤ) : Value :=
  ((p.possibleValues.findIdx? (· == v)).bind ((values p)[·]?)).getD (.number v)

/-- The same parameter, or a list with its values in another order. Values are
pairwise distinct and there is no condition. -/
def Permuted (p q : Param) : Prop :=
  p.rpnElements = [] ∧ q.rpnElements = [] ∧ (values p).Nodup ∧
    (p = q ∨ Listed p ∧ Listed q ∧ p.stringValues.Perm q.stringValues)

def Registered (ps : List Param) (t : Population) (c : List Value) : Prop :=
  ∃ x ∈ t.functions, List.zipWith valueAt ps x = c

def RegistersProduct (check : List ℤ → Except Fault ℤ) (ps : List Param) : Prop :=
  ∃ n t, registerFunctions check ps n = some (.ok t) ∧
    ∀ c, Registered ps t c ↔ List.Forall₂ (fun p y => y ∈ values p) ps c

theorem forall₂_zipWith {α β γ : Type} (R : α → β → Prop) (f : α → β → γ) (l : List α)
    (c : List γ) :
    (∃ x, List.Forall₂ R l x ∧ List.zipWith f l x = c) ↔
      List.Forall₂ (fun a y => ∃ v, R a v ∧ f a v = y) l c := by
  induction l generalizing c with
  | nil => simp
  | cons a l ih =>
    constructor
    · rintro ⟨x, hx, rfl⟩
      cases hx with
      | cons hr hx => exact .cons ⟨_, hr, rfl⟩ ((ih _).mp ⟨_, hx, rfl⟩)
    · intro h
      cases h with
      | cons hy ht =>
        obtain ⟨v, hr, rfl⟩ := hy
        obtain ⟨x, hx, rfl⟩ := (ih _).mpr ht
        exact ⟨v::x, .cons hr hx, rfl⟩

theorem forall₂_imp_mem {α β : Type} {R S : α → β → Prop} {l : List α} {c : List β}
    (h : List.Forall₂ R l c) (hi : ∀ a ∈ l, ∀ y, R a y → S a y) : List.Forall₂ S l c := by
  induction h with
  | nil => exact .nil
  | cons hr _ ih => exact .cons (hi _ (by simp) _ hr) (ih fun b hb => hi b (by simp [hb]))

/-- What holds of every choice holds at every place. -/
theorem forall₂_each {α β : Type} {A B : α → β → Prop} {l : List α}
    (hA : ∀ a ∈ l, ∃ y, A a y) (h : ∀ c, List.Forall₂ A l c → List.Forall₂ B l c) :
    ∀ a ∈ l, ∀ y, A a y → B a y := by
  induction l with
  | nil => simp
  | cons a l ih =>
    obtain ⟨c, hc⟩ : ∃ c, List.Forall₂ A l c := by
      have hl : ∀ b ∈ l, ∃ y, A b y := fun b hb => hA b (by simp [hb])
      clear h ih hA
      induction l with
      | nil => exact ⟨[], .nil⟩
      | cons b l ih =>
        obtain ⟨y, hy⟩ := hl b (by simp)
        obtain ⟨c, hc⟩ := ih fun d hd => hl d (by simp [hd])
        exact ⟨y::c, .cons hy hc⟩
    obtain ⟨z, hz⟩ := hA a (by simp)
    refine List.forall_mem_cons.mpr ⟨fun y hy => ?_, ?_⟩
    · cases h (y::c) (.cons hy hc) with
      | cons hb _ => exact hb
    · refine ih (fun b hb => hA b (by simp [hb])) fun d hd => ?_
      cases h (z::d) (.cons hz hd) with
      | cons _ ht => exact ht

theorem values_length (p : Param) : (values p).length = p.possibleValues.length := by
  unfold values
  split_ifs with h
  · simp
  · rw [List.length_map, p.strings.resolve_left h]

theorem values_ne_nil (p : Param) : ∃ y, y ∈ values p := by
  have h : values p ≠ [] := by
    rw [ne_eq, ← List.length_eq_zero_iff, values_length, List.length_eq_zero_iff]
    exact p.nonempty
  exact List.exists_mem_of_ne_nil _ h

theorem valueAt_mem {p : Param} {v : ℤ} (h : v ∈ p.possibleValues) : valueAt p v ∈ values p := by
  cases hk : p.possibleValues.findIdx? (· == v) with
  | none =>
    rw [List.findIdx?_eq_none_iff] at hk
    simpa using hk v h
  | some k =>
    have hlt : k < (values p).length := by
      rw [values_length]
      exact (List.findIdx?_eq_some_iff_getElem.mp hk).1
    simp only [valueAt, hk, Option.bind_some, List.getElem?_eq_getElem hlt, Option.getD_some]
    exact List.getElem_mem hlt

theorem valueAt_surjective {p : Param} (hn : p.possibleValues.Nodup) {y : Value}
    (hy : y ∈ values p) : ∃ v ∈ p.possibleValues, valueAt p v = y := by
  obtain ⟨k, hk, rfl⟩ := List.getElem_of_mem hy
  have hlt : k < p.possibleValues.length := values_length p ▸ hk
  refine ⟨p.possibleValues[k], List.getElem_mem hlt, ?_⟩
  have hidx : p.possibleValues.findIdx? (· == p.possibleValues[k]) = some k := by
    rw [List.findIdx?_eq_some_iff_getElem]
    refine ⟨hlt, by simp, fun j hj => ?_⟩
    simp only [beq_iff_eq]
    exact fun he => absurd ((hn.getElem_inj_iff).mp he) (by omega)
  simp only [valueAt, hidx, Option.bind_some, List.getElem?_eq_getElem hk, Option.getD_some]

/-- A parameter that shows as many values as it has shows them in order. -/
theorem ordered_of_shown {p : Param} (hd : (front p).Nodup) (hn : (values p).Nodup)
    (h : ∀ y, y ∈ values p → ∃ v, v ∈ shown p ∧ valueAt p v = y) : Ordered p := by
  have hsub : values p ⊆ (shown p).map (valueAt p) := fun y hy => List.mem_map.mpr (h y hy)
  have hle := (List.subperm_of_subset hn hsub).length_le
  obtain ⟨x, post, hv, _⟩ := values_split p
  rw [List.length_map, values_length, shown_split hv] at hle
  have hpost : post = [] := by
    have hlen := congrArg List.length hv
    simp only [List.length_append, List.length_cons, List.length_nil] at hlen hle
    exact List.length_eq_zero_iff.mp (by omega)
  subst hpost
  have hfront : p.possibleValues.dropLast = front p := by rw [hv, List.dropLast_concat]
  exact ⟨hfront ▸ hd, fun v hm => front_below (hfront ▸ hm)⟩

section Unconditioned

variable (check : List ℤ → Except Fault ℤ) (ps : List Param)

theorem mem_shown {x : List ℤ} :
    x ∈ (ps.map shown).sections ↔ List.Forall₂ (fun p v => v ∈ shown p) ps x := by
  rw [List.mem_sections, List.forall₂_map_right_iff]
  exact ⟨List.Forall₂.flip, List.Forall₂.flip⟩

theorem ordered_of_registers (hn : ∀ p ∈ ps, (values p).Nodup) (h : RegistersProduct check ps) :
    ∀ p ∈ ps, Ordered p := by
  obtain ⟨n, t, hcall, hreg⟩ := h
  obtain ⟨-, -, ht, -⟩ := (registerFunctions_ok check).mp hcall
  obtain ⟨l, e, hr, hl⟩ := run_of_populateLoop check n ht
  have hd := nodup_of_run hr
  obtain ⟨m, f, hm, _, hsec⟩ := Odometer.run_settling (settling_of_nodup hd)
  obtain ⟨rfl, rfl⟩ := Odometer.run_unique hm hr
  have hshown : ∀ c, List.Forall₂ (fun p y => y ∈ values p) ps c →
      List.Forall₂ (fun p y => ∃ v, v ∈ shown p ∧ valueAt p v = y) ps c := by
    intro c hall
    obtain ⟨x, hx, rfl⟩ := (hreg c).mpr hall
    have hvis : x ∈ t.visited := by
      rw [populateLoop_sound check ht rfl] at hx
      exact List.mem_of_mem_filter hx
    rw [hl, List.nil_append] at hvis
    exact (forall₂_zipWith _ _ _ _).mp ⟨x, (mem_shown ps).mp (hsec x hvis), rfl⟩
  intro p hp
  exact ordered_of_shown (hd p hp) (hn p hp)
    (forall₂_each (fun q _ => values_ne_nil q) hshown p hp)

theorem value_iff {p : Param} (h : Ordered p) (y : Value) :
    (∃ v, v ∈ p.possibleValues ∧ valueAt p v = y) ↔ y ∈ values p := by
  constructor
  · rintro ⟨v, hv, rfl⟩
    exact valueAt_mem hv
  · exact valueAt_surjective (nodup_ordered h)

theorem registers_of_ordered (hc : ∀ v, check v = .ok 1) {num : ℤ}
    (hnum : getNumCombinations ps = .ok num) (h : ∀ p ∈ ps, Ordered p) :
    RegistersProduct check ps := by
  rcases populate_product check (returning_ordered h) _ (Nat.le_refl _) with
    ⟨t, ht, _, _, hf⟩ | ⟨f, _, x, _, hx⟩
  · have hall : t.functions = product ps := by
      rw [hf]
      exact List.filter_eq_self.mpr fun v _ => by simp [accepts, hc v]
    have hlen : (t.functions.length:ℤ) ≤ num := by
      rw [(get_num_combinations_ok.mp hnum).2.2, hall, length_product]
    refine ⟨_, t, (registerFunctions_ok check).mpr ⟨num, hnum, ht, hlen⟩, fun c => ?_⟩
    simp only [Registered, hall, mem_product]
    rw [forall₂_zipWith]
    constructor
    · exact fun hv => forall₂_imp_mem hv fun p hp y => (value_iff (h p hp) y).mp
    · exact fun hv => forall₂_imp_mem hv fun p hp y => (value_iff (h p hp) y).mpr
  · rw [hc x] at hx
    cases hx

/-- One list: the full product is registered exactly when its length fits the
`int` and its values are in order. -/
theorem registers_product_iff (hc : ∀ v, check v = .ok 1) (hn : ∀ p ∈ ps, (values p).Nodup) :
    RegistersProduct check ps ↔
      (∃ num, getNumCombinations ps = .ok num) ∧ ∀ p ∈ ps, Ordered p := by
  constructor
  · intro h
    refine ⟨?_, ordered_of_registers check ps hn h⟩
    obtain ⟨n, t, hcall, -⟩ := h
    obtain ⟨num, hnum, -, -⟩ := (registerFunctions_ok check).mp hcall
    exact ⟨num, hnum⟩
  · rintro ⟨⟨num, hnum⟩, h⟩
    exact registers_of_ordered check ps hc hnum h

end Unconditioned

theorem permuted_values {p q : Param} (h : Permuted p q) : (values p).Perm (values q) := by
  obtain ⟨_, _, _, rfl | ⟨hp, hq, hperm⟩⟩ := h
  · exact .refl _
  · simp only [values, if_neg hp.1, if_neg hq.1]
    exact hperm.map _

theorem permuted_product {ps qs : List Param} (h : List.Forall₂ Permuted ps qs)
    (c : List Value) :
    List.Forall₂ (fun p y => y ∈ values p) ps c ↔ List.Forall₂ (fun q y => y ∈ values q) qs c := by
  induction h generalizing c with
  | nil => rfl
  | cons hp _ ih =>
    cases c with
    | nil => simp
    | cons y c =>
      rw [List.forall₂_cons, List.forall₂_cons, ih, (permuted_values hp).mem_iff]

def SameProduct (check check' : List ℤ → Except Fault ℤ) (ps qs : List Param) : Prop :=
  ∃ n m t u, registerFunctions check ps n = some (.ok t) ∧
    registerFunctions check' qs m = some (.ok u) ∧
    ∀ c, (Registered ps t c ↔ Registered qs u c) ∧
      (Registered ps t c ↔ List.Forall₂ (fun p y => y ∈ values p) ps c)

theorem same_product_iff {check check' : List ℤ → Except Fault ℤ} {ps qs : List Param}
    (h : List.Forall₂ Permuted ps qs) :
    SameProduct check check' ps qs ↔ RegistersProduct check ps ∧ RegistersProduct check' qs := by
  constructor
  · rintro ⟨n, m, t, u, ht, hu, hreg⟩
    refine ⟨⟨n, t, ht, fun c => (hreg c).2⟩, ⟨m, u, hu, fun c => ?_⟩⟩
    rw [← (hreg c).1, (hreg c).2, permuted_product h]
  · rintro ⟨⟨n, t, ht, hp⟩, ⟨m, u, hu, hq⟩⟩
    refine ⟨n, m, t, u, ht, hu, fun c => ⟨?_, hp c⟩⟩
    rw [hp, hq, permuted_product h]

theorem permuted_counts {ps qs : List Param} (h : List.Forall₂ Permuted ps qs) :
    ps.map Param.numValues = qs.map Param.numValues := by
  induction h with
  | nil => rfl
  | @cons p q _ _ hp _ ih =>
    have hlen := (permuted_values hp).length_eq
    rw [values_length, values_length] at hlen
    rw [List.map_cons, List.map_cons, ih, Param.numValues, Param.numValues, hlen]

/-- The order of the listed values does not matter exactly between lists in
which the codes before the last are distinct and below it, and whose product
the length of the function array holds. -/
theorem list_order_iff (bytes : Text → ℤ) (leftover : List ℤ → ℤ) {ps qs : List Param}
    (h : List.Forall₂ Permuted ps qs) :
    SameProduct (fun v => checkRpn bytes ps v (leftover v))
      (fun v => checkRpn bytes qs v (leftover v)) ps qs ↔
        ps ≠ [] ∧ (ps.map Param.numValues).prod ≤ 2147483647 ∧
          (∀ p ∈ ps, Ordered p) ∧ ∀ q ∈ qs, Ordered q := by
  have hps : ∀ p ∈ ps, p.rpnElements = [] ∧ (values p).Nodup := by
    intro p hp
    obtain ⟨i, hi, rfl⟩ := List.getElem_of_mem hp
    have hr := h.get hi (h.length_eq ▸ hi)
    exact ⟨hr.1, hr.2.2.1⟩
  have hqs : ∀ q ∈ qs, q.rpnElements = [] ∧ (values q).Nodup := by
    intro q hq
    obtain ⟨i, hi, rfl⟩ := List.getElem_of_mem hq
    have hr := h.get (h.length_eq ▸ hi) hi
    exact ⟨hr.2.1, (permuted_values hr).nodup_iff.mp hr.2.2.1⟩
  have hnil : ps = [] ↔ qs = [] := by
    rw [← List.length_eq_zero_iff, ← List.length_eq_zero_iff, h.length_eq]
  rw [same_product_iff h,
    registers_product_iff _ ps
      (fun v => check_rpn_unconditioned bytes (fun p hp => (hps p hp).1) v _)
      (fun p hp => (hps p hp).2),
    registers_product_iff _ qs
      (fun v => check_rpn_unconditioned bytes (fun q hq => (hqs q hq).1) v _)
      (fun q hq => (hqs q hq).2)]
  simp only [get_num_combinations_ok, permuted_counts h, ne_eq, hnil, exists_and_left,
    exists_eq, and_true]
  tauto

def ascending : Param := Param.listed "a".toList "1".toList ["2".toList, "3".toList]

def swapped : Param := Param.listed "a".toList "2".toList ["1".toList, "3".toList]

def rotated : Param := Param.listed "a".toList "3".toList ["1".toList, "2".toList]

def counted : Param := Param.range "b".toList 10 [11, 12]

theorem list_order_swapped :
    SameProduct (fun v => checkRpn (fun _ => 0) [ascending, counted] v 0)
      (fun v => checkRpn (fun _ => 0) [swapped, counted] v 0) [ascending, counted]
      [swapped, counted] := by
  have hperm : List.Forall₂ Permuted [ascending, counted] [swapped, counted] :=
    .cons ⟨rfl, rfl, by decide, Or.inr ⟨⟨by decide, rfl⟩, ⟨by decide, rfl⟩, by decide⟩⟩
      (.cons ⟨rfl, rfl, by decide, Or.inl rfl⟩ .nil)
  exact (list_order_iff (fun _ => 0) (fun _ => 0) hperm).mpr
    ⟨by simp, by decide, by decide, by decide⟩

/-- The first value of `{3 1 2}` is already above the last one, and stays. -/
theorem list_order_rotated :
    (setStringValues "a".toList "1 2 3".toList = .ok ascending ∧
      setStringValues "a".toList "3 1 2".toList = .ok rotated ∧ Permuted ascending rotated) ∧
    ∀ (bytes : Text → ℤ) (leftover : List ℤ → ℤ),
      (populateFunctionSet (fun v => checkRpn bytes [ascending] v (leftover v)) [ascending] 4).map
          (fun r => r.map Population.functions) = some (.ok [[1], [2], [3]]) ∧
      (populateFunctionSet (fun v => checkRpn bytes [rotated] v (leftover v)) [rotated] 4).map
          (fun r => r.map Population.functions) = some (.ok [[3]]) ∧
      ¬ SameProduct (fun v => checkRpn bytes [ascending] v (leftover v))
        (fun v => checkRpn bytes [rotated] v (leftover v)) [ascending] [rotated] := by
  have hperm : Permuted ascending rotated :=
    ⟨rfl, rfl, by decide, Or.inr ⟨⟨by decide, rfl⟩, ⟨by decide, rfl⟩, by decide⟩⟩
  refine ⟨⟨rfl, rfl, hperm⟩, fun bytes leftover => ⟨rfl, rfl, fun h => ?_⟩⟩
  have hreg := ((same_product_iff (.cons hperm .nil)).mp h).2
  rw [registers_product_iff _ _ (fun v => check_rpn_unconditioned bytes (by decide) v _)
    (by decide)] at hreg
  exact absurd ((hreg.2 rotated (by simp)).2 3) (by decide)

end Otpo.ListOrder
