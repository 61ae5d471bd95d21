import Otpo.TwokFactorial
import Mathlib.Data.List.Nodup

/-!
# The corners of a function set

The sign vectors in the order in which the 2k search writes them, and the
attribute values that they stand for. Two corners are the same as soon as one
attribute has a single value.
-/

set_option autoImplicit false

namespace Otpo.TwokCorners
open Otpo.ParamList Otpo.Statistics Otpo.Adcl

def signs : ℕ → List ℤ → List (List ℤ)
  | 0, attrValues => [-1, 1].map fun i => attrValues.set 0 i
  | level+1, attrValues => [-1, 1].flatMap fun i => signs level (attrValues.set (level+1) i)

def corners (a : Attrset) : List (List ℤ) :=
  (signs (a.maxnum-1) (List.replicate a.maxnum 0)).map (cornerVals a)

section Signs

variable {l : ℕ} {av s : List ℤ}

theorem signs_succ (l : ℕ) (av : List ℤ) :
    signs (l+1) av = signs l (av.set (l+1) (-1)) ++ signs l (av.set (l+1) 1) := by
  simp [signs]

theorem get_twok_functions_signs (f : Fnctset) (l : ℕ) (av : List ℤ) :
    getTwokFunctions f l av =
      (signs l av).map fun s => f.getFnctByAttrs (cornerVals f.attrset s) := by
  induction l generalizing av with
  | zero => rfl
  | succ l ih => simp [getTwokFunctions, signs, ih]

theorem length_signs (l : ℕ) (av : List ℤ) : (signs l av).length = 2^(l+1) := by
  induction l generalizing av with
  | zero => rfl
  | succ l ih =>
    rw [signs_succ, List.length_append, ih, ih]
    exact (Nat.two_pow_succ (l+1)).symm

theorem length_sign (h : s ∈ signs l av) : s.length = av.length := by
  induction l generalizing av with
  | zero =>
    obtain ⟨i, _, rfl⟩ := List.mem_map.mp h
    exact List.length_set
  | succ l ih =>
    obtain ⟨i, _, hs⟩ := List.mem_flatMap.mp h
    rw [ih hs, List.length_set]

theorem sign_above (h : s ∈ signs l av) {m : ℕ} (hm : l < m) : s[m]? = av[m]? := by
  induction l generalizing av with
  | zero =>
    obtain ⟨i, _, rfl⟩ := List.mem_map.mp h
    exact List.getElem?_set_ne (by omega)
  | succ l ih =>
    obtain ⟨i, _, hs⟩ := List.mem_flatMap.mp h
    rw [ih hs (by omega), List.getElem?_set_ne (by omega)]

theorem signs_set {m : ℕ} (hm : l < m) (i : ℤ) :
    signs l (av.set m i) = (signs l av).map (·.set m i) := by
  induction l generalizing av with
  | zero =>
    simp only [signs, List.map_map]
    refine List.map_congr_left fun j _ => ?_
    exact List.set_comm i j (by omega)
  | succ l ih =>
    rw [signs_succ, signs_succ, List.map_append, ← ih (by omega), ← ih (by omega),
      List.set_comm i (-1) (show m ≠ l+1 by omega), List.set_comm i 1 (show m ≠ l+1 by omega)]

theorem signs_head (h : ∀ x ∈ av, x ≠ 1) :
    ∃ s rest, signs l av = s::rest ∧ s.length = av.length ∧ ∀ x ∈ s, x ≠ 1 := by
  induction l generalizing av with
  | zero =>
    refine ⟨av.set 0 (-1), _, rfl, List.length_set, fun x hx => ?_⟩
    rcases List.mem_or_eq_of_mem_set hx with hx | rfl
    · exact h x hx
    · decide
  | succ l ih =>
    have hset : ∀ x ∈ av.set (l+1) (-1), x ≠ 1 := by
      intro x hx
      rcases List.mem_or_eq_of_mem_set hx with hx | rfl
      · exact h x hx
      · decide
    obtain ⟨s, rest, hs, hlen, hne⟩ := ih hset
    exact ⟨s, _, by rw [signs_succ, hs, List.cons_append], hlen.trans List.length_set, hne⟩

end Signs

section Values

variable {a : Attrset} {l m : ℕ} {av s : List ℤ}

theorem corner_value (s : List ℤ) (m : ℕ) : (cornerVals a s)[m]? =
    match s[m]?, a.baseval[m]?, a.maxval[m]? with
    | some sign, some base, some max => some (if sign = 1 then max else base)
    | _, _, _ => none := by
  rw [cornerVals, List.getElem?_zipWith, List.zip, List.getElem?_zipWith]
  cases s[m]? <;> cases a.baseval[m]? <;> cases a.maxval[m]? <;> rfl

theorem corner_value_cases {v : ℤ} (h : (cornerVals a s)[m]? = some v) :
    a.baseval[m]? = some v ∨ a.maxval[m]? = some v := by
  rw [corner_value] at h
  split at h
  · next hbase hmax =>
    split at h <;> cases h
    · exact Or.inr hmax
    · exact Or.inl hbase
  · cases h

theorem corner_single (h : a.baseval[m]? = a.maxval[m]?) (s : List ℤ) (i j : ℤ) :
    cornerVals a (s.set m i) = cornerVals a (s.set m j) := by
  refine List.ext_getElem? fun n => ?_
  rw [corner_value, corner_value]
  by_cases hn : m = n
  · subst hn
    rw [List.getElem?_set_self', List.getElem?_set_self', h]
    cases s[m]? <;> cases a.maxval[m]? <;> simp
  · rw [List.getElem?_set_ne hn, List.getElem?_set_ne hn]

theorem nodup_corners (hl : l < av.length)
    (h : ∀ m, m ≤ l → ∃ b x, a.baseval[m]? = some b ∧ a.maxval[m]? = some x ∧ b ≠ x) :
    ((signs l av).map (cornerVals a)).Nodup := by
  induction l generalizing av with
  | zero =>
    obtain ⟨b, x, hb, hx, hne⟩ := h 0 (Nat.le_refl 0)
    have hcorner : ∀ i : ℤ, (cornerVals a (av.set 0 i))[0]? = some (if i = 1 then x else b) := by
      intro i
      rw [corner_value, List.getElem?_set_self hl, hb, hx]
    simp only [signs, List.map_cons, List.map_nil, List.nodup_cons, List.mem_singleton,
      List.not_mem_nil, not_false_eq_true, List.nodup_nil, and_true]
    intro he
    have := congrArg (·[0]?) he
    simp only [hcorner] at this
    simp [hne] at this
  | succ l ih =>
    obtain ⟨b, x, hb, hx, hne⟩ := h (l+1) (Nat.le_refl _)
    have hbelow := fun m (hm : m ≤ l) => h m (by omega)
    have hlen : ∀ i : ℤ, l < (av.set (l+1) i).length := by
      intro i
      rw [List.length_set]
      omega
    have hlevel : ∀ (i : ℤ) (v : List ℤ), v ∈ (signs l (av.set (l+1) i)).map (cornerVals a) →
        v[l+1]? = some (if i = 1 then x else b) := by
      intro i v hv
      obtain ⟨s, hs, rfl⟩ := List.mem_map.mp hv
      rw [corner_value, sign_above hs (Nat.lt_succ_self l), List.getElem?_set_self hl, hb, hx]
    rw [signs_succ, List.map_append, List.nodup_append]
    refine ⟨ih (hlen _) hbelow, ih (hlen _) hbelow, fun c hc d hd he => ?_⟩
    have hc := hlevel _ c hc
    rw [he, hlevel _ d hd] at hc
    simp [hne.symm] at hc

theorem repeated_corner (hm : m ≤ l) (h : a.baseval[m]? = a.maxval[m]?) :
    ¬ ((signs l av).map (cornerVals a)).Nodup := by
  induction l generalizing av with
  | zero =>
    obtain rfl : m = 0 := Nat.le_zero.mp hm
    simp [signs, corner_single h av (-1) 1]
  | succ l ih =>
    rw [signs_succ, List.map_append, List.nodup_append]
    rintro ⟨hfirst, _, hdisjoint⟩
    rcases Nat.lt_or_eq_of_le hm with hlt | rfl
    · exact ih (by omega) hfirst
    · have hhalf : (signs l (av.set (l+1) (-1))).map (cornerVals a) =
          (signs l (av.set (l+1) 1)).map (cornerVals a) := by
        rw [signs_set (Nat.lt_succ_self l), signs_set (Nat.lt_succ_self l), List.map_map,
          List.map_map]
        exact List.map_congr_left fun s _ => corner_single h s (-1) 1
      obtain ⟨c, hc⟩ : ∃ c, c ∈ (signs l (av.set (l+1) 1)).map (cornerVals a) := by
        refine List.exists_mem_of_length_pos ?_
        rw [List.length_map, length_signs]
        exact Nat.two_pow_pos _
      exact hdisjoint c (hhalf ▸ hc) c hc rfl

/-- The corners are distinct exactly when every attribute has two values. -/
theorem corners_nodup_iff (hpos : 0 < a.maxnum) (hb : a.baseval.length = a.maxnum)
    (hx : a.maxval.length = a.maxnum) :
    (corners a).Nodup ↔ ∀ m, m < a.maxnum → a.baseval[m]? ≠ a.maxval[m]? := by
  constructor
  · intro h m hm he
    exact repeated_corner (by omega) he h
  · intro h
    refine nodup_corners (by rw [List.length_replicate]; omega) fun m hm => ?_
    have hlt : m < a.maxnum := by omega
    refine ⟨a.baseval[m], a.maxval[m], List.getElem?_eq_getElem _, List.getElem?_eq_getElem _,
      fun he => h m hlt ?_⟩
    rw [List.getElem?_eq_getElem (hb ▸ hlt), List.getElem?_eq_getElem (hx ▸ hlt), he]

end Values

structure Cornered (f : Fnctset) : Prop where
  attrs : 0 < f.attrset.maxnum
  base_length : f.attrset.baseval.length = f.attrset.maxnum
  max_length : f.attrset.maxval.length = f.attrset.maxnum
  corner : ∀ c ∈ corners f.attrset, ∃ g ∈ f.functions, g.attrVals = c
  distinct : f.functions.Nodup

def cornerPos (f : Fnctset) : List ℕ :=
  (corners f.attrset).map fun c => f.functions.findIdx (·.attrVals == c)

section Positions

variable {f : Fnctset}

theorem length_cornerPos (h : Cornered f) : (cornerPos f).length = 2^f.attrset.maxnum := by
  have := h.attrs
  rw [cornerPos, List.length_map, corners, List.length_map, length_signs,
    show f.attrset.maxnum-1+1 = f.attrset.maxnum by omega]

theorem corner_found (h : Cornered f) {c : List ℤ} (hc : c ∈ corners f.attrset) :
    ∃ g, f.functions[f.functions.findIdx (·.attrVals == c)]? = some g ∧ g.attrVals = c := by
  obtain ⟨g, hg, hv⟩ := h.corner c hc
  have hlt : f.functions.findIdx (·.attrVals == c) < f.functions.length :=
    List.findIdx_lt_length_of_exists ⟨g, hg, by simpa using hv⟩
  refine ⟨_, List.getElem?_eq_getElem hlt, ?_⟩
  simpa using List.findIdx_getElem (w := hlt)

theorem cornerPos_lt (h : Cornered f) {q : ℕ} (hq : q ∈ cornerPos f) : q < f.maxnum := by
  obtain ⟨c, hc, rfl⟩ := List.mem_map.mp hq
  obtain ⟨g, hg, _⟩ := corner_found h hc
  exact (List.getElem?_eq_some_iff.mp hg).1

theorem cornerPos_values (h : Cornered f) {q : ℕ} (hq : q ∈ cornerPos f) {g : Function}
    (hg : f.functions[q]? = some g) {m : ℕ} (hm : m < f.attrset.maxnum) :
    ∃ v, g.attrVals[m]? = some v ∧
      (f.attrset.baseval[m]? = some v ∨ f.attrset.maxval[m]? = some v) := by
  obtain ⟨c, hc, rfl⟩ := List.mem_map.mp hq
  obtain ⟨g', hg', hv⟩ := corner_found h hc
  rw [hg, Option.some.injEq] at hg'
  subst hg'
  obtain ⟨s, hs, rfl⟩ := List.mem_map.mp hc
  have hlen := length_sign hs
  rw [List.length_replicate] at hlen
  have hval : (cornerVals f.attrset s)[m]? ≠ none := by
    rw [corner_value, List.getElem?_eq_getElem (hlen.symm ▸ hm),
      List.getElem?_eq_getElem (h.base_length.symm ▸ hm),
      List.getElem?_eq_getElem (h.max_length.symm ▸ hm)]
    exact Option.some_ne_none _
  obtain ⟨v, hv'⟩ := Option.ne_none_iff_exists'.mp hval
  exact ⟨v, hv ▸ hv', corner_value_cases hv'⟩

theorem nodup_cornerPos_iff (h : Cornered f) :
    (cornerPos f).Nodup ↔ ∀ m, m < f.attrset.maxnum →
      f.attrset.baseval[m]? ≠ f.attrset.maxval[m]? := by
  rw [← corners_nodup_iff h.attrs h.base_length h.max_length]
  refine ⟨List.Nodup.of_map _, fun hn => List.Nodup.map_on ?_ hn⟩
  intro c hc d hd he
  obtain ⟨g, hg, hv⟩ := corner_found h hc
  obtain ⟨g', hg', hv'⟩ := corner_found h hd
  rw [he, hg', Option.some.injEq] at hg
  rw [← hv, ← hv', hg]

theorem mapM_some {α β : Type} (l : List α) (g : α → β) :
    (l.map fun c => some (g c)).mapM id = some (l.map g) := by
  induction l with
  | nil => rfl
  | cons c l ih => simp [ih]

theorem corners_found (h : Cornered f) {k : ℕ} (hk : f.attrset.maxnum = k+1) :
    (getTwokFunctions f k (List.replicate (k+1) 0)).mapM id = some (cornerPos f) := by
  have hget : ∀ c ∈ corners f.attrset,
      f.getFnctByAttrs c = some (f.functions.findIdx (·.attrVals == c)) := by
    intro c hc
    obtain ⟨g, hg, _⟩ := corner_found h hc
    exact List.findIdx?_eq_some_iff_findIdx_eq.mpr
      ⟨(List.getElem?_eq_some_iff.mp hg).1, rfl⟩
  have hcorners : corners f.attrset =
      (signs k (List.replicate (k+1) 0)).map (cornerVals f.attrset) := by
    rw [corners, hk, Nat.add_sub_cancel]
  have hlist : (signs k (List.replicate (k+1) 0)).map
      (fun s => f.getFnctByAttrs (cornerVals f.attrset s)) =
        (corners f.attrset).map f.getFnctByAttrs := by
    rw [hcorners, List.map_map]
    rfl
  rw [get_twok_functions_signs, hlist, List.map_congr_left hget]
  exact mapM_some _ _

end Positions

end Otpo.TwokCorners
