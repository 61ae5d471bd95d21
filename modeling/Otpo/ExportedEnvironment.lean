import Otpo.Environment

/-!
# Which combinations are exported

The buffer holds something else whenever an aggregate is expanded, so the only
formats that are dealt with as they should be are those that abort at their
first word.
-/

set_option autoImplicit false

namespace Otpo.ExportedEnvironment
open Otpo.ParamList Otpo.ResultFile Otpo.Environment

structure Refused (cs : List Attribute) (c : Attribute) : Prop where
  dollar : startsWith '$' c.valueName = true
  first : ∃ t ts, strtok isDollar c.valueName = t::ts ∧ t ∉ cs.map Attribute.name
  unknown : ∃ n ∈ placeholders (c.valueName.splitOn '$'), n ∉ cs.map Attribute.name

structure Exportable (cs : List Attribute) : Prop where
  short : ∀ c ∈ cs, (env c.name).length < lineSize
  kinds : ∀ c ∈ cs, ∀ d ∈ cs, c.name = d.name → c.kind = d.kind
  distinct : ((cs.filter (·.kind = .ordinary)).map Attribute.name).Nodup
  ordinary : ∀ c ∈ cs, c.kind = .ordinary → '=' ∉ env c.name ∧ c.valueName.length < lineSize
  aggregates : ∀ c ∈ cs, c.kind = .aggregate → Refused cs c

section Lookup

variable {cs qs : List Attribute} {c d : Attribute} {n : Text}

theorem kind_flagged : (c.isVirtual || c.isAggregate) = true ↔ c.kind ≠ .ordinary := by
  rw [Attribute.kind]
  cases c.isVirtual <;> cases c.isAggregate <;> decide

/-- The kind found is that of a flagged parameter of the name, if there is one. -/
theorem lookup_kind_cases (cs : List Attribute) (n : Text) :
    (lookupKind cs n = .ordinary ∧ ∀ c ∈ cs, c.name = n → c.kind = .ordinary) ∨
      ∃ c ∈ cs, c.name = n ∧ c.kind ≠ .ordinary ∧ lookupKind cs n = c.kind := by
  cases h : cs.find? fun c => c.name == n && (c.isVirtual || c.isAggregate) with
  | none =>
    refine Or.inl ⟨by rw [lookupKind, h], fun c hc hn => ?_⟩
    have hflag := List.find?_eq_none.mp h c hc
    rw [hn, beq_self_eq_true, Bool.true_and, kind_flagged, not_not] at hflag
    exact hflag
  | some c =>
    have hc := List.find?_some h
    rw [Bool.and_eq_true, beq_iff_eq, kind_flagged] at hc
    exact Or.inr ⟨c, List.mem_of_find?_eq_some h, hc.1, hc.2, by rw [lookupKind, h]⟩

theorem lookup_kind_same (hk : ∀ c ∈ cs, ∀ d ∈ cs, c.name = d.name → c.kind = d.kind)
    (hc : c ∈ cs) : lookupKind cs c.name = c.kind := by
  rcases lookup_kind_cases cs c.name with ⟨hlookup, hall⟩ | ⟨d, hd, hn, -, hlookup⟩
  · rw [hlookup, hall c hc rfl]
  · rw [hlookup, hk d hd c hc hn]

theorem lookup_kind_head (h : c.kind ≠ .ordinary) : lookupKind (c::cs) c.name = c.kind := by
  have hflag := kind_flagged.mpr h
  rw [lookupKind, List.find?_cons_of_pos]
  rw [beq_self_eq_true, Bool.true_and]
  exact hflag

theorem lookup_kind_second (hc : c.kind = .ordinary) (hn : c.name = d.name)
    (h : d.kind ≠ .ordinary) : lookupKind (c::d::cs) c.name = d.kind := by
  have hflag : ¬ (c.name == c.name && (c.isVirtual || c.isAggregate)) = true := by
    rw [beq_self_eq_true, Bool.true_and, kind_flagged, not_not]
    exact hc
  have hhead : lookupKind (d::cs) d.name = d.kind := lookup_kind_head h
  rw [lookupKind, List.find?_cons_of_neg (by exact hflag), hn]
  exact hhead

end Lookup

section Fresh

/-- The buffer is not read in vain: nothing is expanded into it before it is
initialized. -/
theorem expand_uninitialized (fault : Fault) (lookup : Text → Option Text) (s : Text) :
    (expand fault lookup s none = .error fault ∧
      startsWith '$' s = true ∧ ∃ t ts, strtok isDollar s = t::ts ∧ lookup t = none) ∨
    expand fault lookup s none = .error .undefined ∨ expand fault lookup s none = .ok none := by
  rw [expand]
  cases hs : startsWith '$' s with
  | false =>
    rw [if_neg Bool.false_ne_true]
    refine Or.inr (Or.inl ?_)
    cases strtok isDollar s <;> rfl
  | true =>
    rw [if_pos rfl]
    cases hts : strtok isDollar s with
    | nil => exact Or.inr (Or.inr rfl)
    | cons t ts =>
      rw [expandLoop]
      cases hl : lookup t with
      | none => exact Or.inl ⟨rfl, rfl, t, ts, rfl, hl⟩
      | some v => exact Or.inr (Or.inl rfl)

end Fresh

section Runs

variable {cs qs : List Attribute} {c : Attribute} {i : ℕ} {s : Child}

theorem Refused.perm (h : Refused cs c) (hp : qs.Perm cs) : Refused qs c := by
  have hnames : ∀ n, n ∈ qs.map Attribute.name ↔ n ∈ cs.map Attribute.name := fun n =>
    (hp.map _).mem_iff
  obtain ⟨hdollar, ⟨t, ts, hts, ht⟩, n, hn, hunknown⟩ := h
  exact ⟨hdollar, ⟨t, ts, hts, fun hin => ht ((hnames t).mp hin)⟩, n, hn,
    fun hin => hunknown ((hnames n).mp hin)⟩

theorem Exportable.perm (h : Exportable cs) (hp : qs.Perm cs) : Exportable qs where
  short c hc := h.short c (hp.mem_iff.mp hc)
  kinds c hc d hd := h.kinds c (hp.mem_iff.mp hc) d (hp.mem_iff.mp hd)
  distinct := (((hp.filter _).map _).nodup_iff).mpr h.distinct
  ordinary c hc := h.ordinary c (hp.mem_iff.mp hc)
  aggregates c hc hk := (h.aggregates c (hp.mem_iff.mp hc) hk).perm hp

def Before (cs : List Attribute) (c : Attribute) (i : ℕ) (s : Child) : Prop :=
  c ∈ cs ∧ s.valuesNames = cs.map Attribute.valueName ∧ cs[i]? = some c

theorem before_value (h : Before cs c i s) : (s.valuesNames[i]?).getD [] = c.valueName := by
  rw [h.2.1, List.getElem?_map, h.2.2]
  rfl

theorem value_of_unknown {valuesNames : List Text} {t : Text} (h : t ∉ cs.map Attribute.name) :
    valueOf cs valuesNames t = none := by
  rw [valueOf, Option.map_eq_none_iff, List.find?_eq_none]
  rintro ⟨c, v⟩ hc hn
  rw [beq_iff_eq] at hn
  exact h (List.mem_map.mpr ⟨c, (List.of_mem_zip hc).1, hn⟩)

theorem export_virtual (h : Exportable cs) (hb : Before cs c i s) (hk : c.kind = .isVirtual) :
    exportOne cs c i s = .ok s := by
  simp only [exportOne, if_neg (Nat.not_le.mpr (h.short c hb.1)),
    lookup_kind_same h.kinds hb.1, hk]

theorem export_ordinary (h : Exportable cs) (hb : Before cs c i s) (hk : c.kind = .ordinary) :
    exportOne cs c i s = .ok { s with
      envValue := some c.valueName
      exported := s.exported ++ [(env c.name, c.valueName)] } := by
  obtain ⟨hname, hvalue⟩ := h.ordinary c hb.1 hk
  simp only [exportOne, if_neg (Nat.not_le.mpr (h.short c hb.1)),
    lookup_kind_same h.kinds hb.1, hk, before_value hb, strcpy, if_neg (Nat.not_le.mpr hvalue),
    setenv, if_neg hname]

theorem export_aggregate (h : Exportable cs) (hb : Before cs c i s) (hk : c.kind = .aggregate) :
    exportOne cs c i s = .error (unresolved c.name) := by
  obtain ⟨hdollar, ⟨t, ts, hts, ht⟩, -⟩ := h.aggregates c hb.1 hk
  simp only [exportOne, if_neg (Nat.not_le.mpr (h.short c hb.1)),
    lookup_kind_same h.kinds hb.1, hk, before_value hb, expand, hdollar, if_true, hts, expandLoop,
    value_of_unknown ht]

theorem expected_refused (hk : c.kind = .aggregate) (h : Refused cs c) (rest : List Attribute) :
    expected cs (c::rest) = ([], some (unresolved c.name)) := by
  obtain ⟨n, hn, hunknown⟩ := h.unknown
  have hnone := (expansion_none (c.valueName.splitOn '$')).mpr
    ⟨n, hn, current_value_none.mpr hunknown⟩
  simp only [expected, hk, hnone]

/-- The loop does what is expected. -/
theorem export_all_expected (h : Exportable cs) {l : List (Attribute × ℕ)}
    (hl : ∀ q ∈ l, q.1 ∈ cs ∧ cs[q.2]? = some q.1)
    (hs : s.valuesNames = cs.map Attribute.valueName) :
    exportAll cs l s = (s.exported ++ (expected cs (l.map Prod.fst)).1,
      (expected cs (l.map Prod.fst)).2) := by
  induction l generalizing s with
  | nil => simp [exportAll, expected]
  | cons q l ih =>
    obtain ⟨c, i⟩ := q
    obtain ⟨hc, hi⟩ := hl (c, i) List.mem_cons_self
    have hb : Before cs c i s := ⟨hc, hs, hi⟩
    have htail : ∀ s : Child, s.valuesNames = cs.map Attribute.valueName → exportAll cs l s =
        (s.exported ++ (expected cs (l.map Prod.fst)).1, (expected cs (l.map Prod.fst)).2) :=
      fun s hs => ih (fun q hq => hl q (List.mem_cons_of_mem _ hq)) hs
    rw [exportAll, List.map_cons]
    cases hk : c.kind with
    | isVirtual => simp only [export_virtual h hb hk, htail s hs, expected, hk]
    | ordinary =>
      simp only [export_ordinary h hb hk]
      rw [htail _ (by exact hs)]
      simp only [expected, hk, List.append_assoc, List.singleton_append]
    | aggregate =>
      rw [expected_refused hk (h.aggregates c hc hk)]
      simp only [export_aggregate h hb hk, List.append_nil]

theorem mem_zipIdx_get {q : Attribute × ℕ} (h : q ∈ cs.zipIdx) :
    q.1 ∈ cs ∧ cs[q.2]? = some q.1 := by
  have hget := List.mem_zipIdx_iff_getElem?.mp h
  exact ⟨List.mem_of_getElem? hget, hget⟩

/-- Only variables of ordinary parameters are expected, each once. -/
theorem expected_sublist (h : Exportable cs) {l : List Attribute} (hl : ∀ c ∈ l, c ∈ cs) :
    ((expected cs l).1.map Prod.fst).Sublist
      ((l.filter (·.kind = .ordinary)).map fun c => env c.name) := by
  induction l with
  | nil => exact List.Sublist.slnil
  | cons c l ih =>
    have htail := ih fun d hd => hl d (List.mem_cons_of_mem c hd)
    cases hk : c.kind with
    | isVirtual =>
      rw [List.filter_cons_of_neg (by simp [hk])]
      simpa only [expected, hk] using htail
    | ordinary =>
      rw [List.filter_cons_of_pos (by simp [hk]), List.map_cons]
      simp only [expected, hk, List.map_cons]
      exact htail.cons_cons _
    | aggregate =>
      rw [expected_refused hk (h.aggregates c (hl c List.mem_cons_self) hk)]
      exact List.nil_sublist _

theorem env_injective : Function.Injective env := fun _ _ h => List.append_cancel_left h

theorem exportable_exports (h : Exportable cs) : ExportsCombination cs := by
  intro qs hp
  have hq := h.perm hp
  have hrun : testFunc qs = expected qs qs := by
    rw [testFunc, export_all_expected hq (fun q => mem_zipIdx_get) rfl, List.zipIdx_map_fst,
      List.nil_append]
  refine ⟨hrun, ?_⟩
  rw [hrun]
  refine (expected_sublist hq fun _ hc => hc).nodup ?_
  have hmap : ((qs.filter (·.kind = .ordinary)).map fun c => env c.name) =
      ((qs.filter (·.kind = .ordinary)).map Attribute.name).map env := by
    rw [List.map_map]
    rfl
  rw [hmap]
  exact hq.distinct.map env_injective

end Runs

section Faults

variable {cs : List Attribute} {c : Attribute} {i : ℕ} {s s' : Child} {f : Fault} {n : Text}
variable {fault : Fault} {lookup : Text → Option Text}

theorem unresolved_injective : Function.Injective unresolved := by
  intro n m h
  have hlist := congrArg String.toList (Fault.exit.inj h)
  simp only [String.toList_append, String.toList_ofList] at hlist
  exact List.append_cancel_left (List.append_cancel_right hlist)

theorem unresolved_not_setenv : unresolved n ≠ .exit "SETENV Failed" := by
  intro h
  have hlist := congrArg (fun s : String => s.toList.head?) (Fault.exit.inj h)
  simp only [String.toList_append] at hlist
  have hheads : some 'C' = some 'S' := hlist
  exact absurd hheads (by decide)

theorem strcat_error {e : Option Text} {t : Text} (h : strcat e t = .error f) :
    f = .undefined := by
  cases e with
  | none =>
    cases h
    rfl
  | some v =>
    rw [strcat] at h
    split_ifs at h
    cases h
    rfl

theorem expand_loop_error {b : Bool} {ts : List Text} {e : Option Text}
    (h : expandLoop fault lookup b ts e = .error f) : f = fault ∨ f = .undefined := by
  induction ts generalizing b e with
  | nil =>
    rw [expandLoop] at h
    cases h
  | cons t ts ih =>
    cases b with
    | true =>
      rw [expandLoop] at h
      split at h
      · cases h
        exact Or.inl rfl
      · split at h
        · next hcat =>
          cases h
          exact Or.inr (strcat_error hcat)
        · exact ih h
    | false =>
      rw [expandLoop] at h
      split at h
      · next hcat =>
        cases h
        exact Or.inr (strcat_error hcat)
      · exact ih h

theorem expand_error {t : Text} {e : Option Text} (h : expand fault lookup t e = .error f) :
    f = fault ∨ f = .undefined := by
  rw [expand] at h
  split at h
  · exact expand_loop_error h
  · split at h
    · cases h
      exact Or.inr rfl
    · exact expand_loop_error h

theorem setenv_cases (n : Text) (s : Child) : setenv n s = .error (.exit "SETENV Failed") ∨
    setenv n s = .error .undefined ∨
    ∃ v, setenv n s = .ok { s with exported := s.exported ++ [(n, v)] } := by
  rw [setenv]
  split_ifs
  · exact Or.inl rfl
  · cases s.envValue with
    | none => exact Or.inr (Or.inl rfl)
    | some v => exact Or.inr (Or.inr ⟨v, rfl⟩)

theorem setenv_exported (h : setenv n s = .ok s') : ∃ v, s'.exported = s.exported ++ [(n, v)] := by
  rcases setenv_cases n s with he | he | ⟨v, he⟩ <;> rw [he] at h <;> cases h
  exact ⟨v, rfl⟩

theorem setenv_error (h : setenv n s = .error f) :
    f = .exit "SETENV Failed" ∨ f = .undefined := by
  rcases setenv_cases n s with he | he | ⟨v, he⟩ <;> rw [he] at h <;> cases h
  · exact Or.inl rfl
  · exact Or.inr rfl

/-- One round exports nothing or the variable of its parameter, unless a virtual
one has that name. -/
theorem export_one_exported (h : exportOne cs c i s = .ok s') : s'.exported = s.exported ∨
    lookupKind cs c.name ≠ .isVirtual ∧ ∃ v, s'.exported = s.exported ++ [(env c.name, v)] := by
  rw [exportOne] at h
  split at h
  · cases h
  · cases hk : lookupKind cs c.name with
    | isVirtual =>
      simp only [hk] at h
      cases h
      exact Or.inl rfl
    | aggregate =>
      simp only [hk] at h
      split at h
      · cases h
      · have hset := setenv_exported h
        exact Or.inr ⟨by decide, hset⟩
    | ordinary =>
      simp only [hk] at h
      split at h
      · cases h
      · have hset := setenv_exported h
        exact Or.inr ⟨by decide, hset⟩

theorem export_one_unresolved (h : exportOne cs c i s = .error (unresolved n)) :
    lookupKind cs n ≠ .isVirtual := by
  rw [exportOne] at h
  split at h
  · cases h
  · cases hk : lookupKind cs c.name with
    | isVirtual =>
      simp only [hk] at h
      cases h
    | aggregate =>
      simp only [hk] at h
      split at h
      · next hexpand =>
        cases h
        rcases expand_error hexpand with hf | hf
        · rw [unresolved_injective hf, hk]
          decide
        · cases hf
      · rcases setenv_error h with hf | hf
        · exact absurd hf unresolved_not_setenv
        · cases hf
    | ordinary =>
      simp only [hk, strcpy] at h
      split at h
      · next hcopy =>
        split_ifs at hcopy
        cases hcopy
        cases h
      · rcases setenv_error h with hf | hf
        · exact absurd hf unresolved_not_setenv
        · cases hf

/-- No variable of a virtual name is exported, and none is unresolved. -/
theorem export_all_virtual (hk : lookupKind cs n = .isVirtual) {l : List (Attribute × ℕ)}
    (hs : ∀ v, (env n, v) ∉ s.exported) : (∀ v, (env n, v) ∉ (exportAll cs l s).1) ∧
      (exportAll cs l s).2 ≠ some (unresolved n) := by
  induction l generalizing s with
  | nil => exact ⟨hs, fun h => by cases h⟩
  | cons q l ih =>
    obtain ⟨c, i⟩ := q
    rw [exportAll]
    cases hone : exportOne cs c i s with
    | error f =>
      refine ⟨hs, fun h => ?_⟩
      rw [Option.some.inj h] at hone
      exact export_one_unresolved hone hk
    | ok s' =>
      refine ih fun v hin => ?_
      rcases export_one_exported hone with heq | ⟨hne, w, heq⟩
      · exact hs v (heq ▸ hin)
      · rw [heq] at hin
        rcases List.mem_append.mp hin with hin | hin
        · exact hs v hin
        · cases List.mem_singleton.mp hin
          exact hne hk

end Faults

section Orders

variable {cs qs l : List Attribute} {c d : Attribute}

def fresh (cs : List Attribute) : Child := ⟨none, cs.map Attribute.valueName, []⟩

theorem test_func_cons (c : Attribute) (l : List Attribute) : testFunc (c::l) =
    match exportOne (c::l) c 0 (fresh (c::l)) with
    | .error f => ([], some f)
    | .ok s => exportAll (c::l) (l.zipIdx 1) s := rfl

theorem exports_perm (h : ExportsCombination cs) (hp : qs.Perm cs) : ExportsCombination qs :=
  fun rs hr => h rs (hr.trans hp)

theorem exports_self (h : ExportsCombination cs) : testFunc cs = expected cs cs :=
  (h cs (List.Perm.refl cs)).1

theorem front (hc : c ∈ cs) : ∃ l, (c::l).Perm cs := by
  obtain ⟨l₁, l₂, rfl⟩ := List.append_of_mem hc
  exact ⟨l₁ ++ l₂, List.perm_middle.symm⟩

theorem front_two (hc : c ∈ cs) (hd : d ∈ cs) (hne : d ≠ c) : ∃ l, (c::d::l).Perm cs := by
  obtain ⟨l, hl⟩ := front hc
  obtain ⟨l', hl'⟩ := front (List.mem_of_ne_of_mem hne (hl.mem_iff.mpr hd))
  exact ⟨l', (hl'.cons c).trans hl⟩

theorem expected_defined (cs l : List Attribute) : (expected cs l).2 ≠ some .undefined := by
  induction l with
  | nil => exact fun h => by cases h
  | cons c l ih =>
    rw [expected]
    cases c.kind with
    | isVirtual => exact ih
    | ordinary => exact ih
    | aggregate =>
      cases expansion (currentValue cs) (c.valueName.splitOn '$') with
      | none => exact fun h => by cases h
      | some v => exact ih

theorem expected_ordinary (hk : c.kind = .ordinary) : expected cs (c::l) =
    ((env c.name, c.valueName)::(expected cs l).1, (expected cs l).2) := by
  simp only [expected, hk]

theorem head_short (h : ExportsCombination (c::l)) : (env c.name).length < lineSize := by
  by_contra hlong
  have hone : exportOne (c::l) c 0 (fresh (c::l)) = .error .undefined := by
    rw [exportOne, if_pos (Nat.not_lt.mp hlong)]
  have hself := exports_self h
  rw [test_func_cons, hone] at hself
  exact expected_defined _ _ (congrArg Prod.snd hself).symm

/-- An aggregate fails in the first round; as it should if its first word is
unknown. -/
theorem head_aggregate (hk : lookupKind (c::l) c.name = .aggregate)
    (hshort : (env c.name).length < lineSize) :
    ∃ f, testFunc (c::l) = ([], some f) ∧ (f = unresolved c.name →
      startsWith '$' c.valueName = true ∧ ∃ t ts, strtok isDollar c.valueName = t::ts ∧
        valueOf (c::l) ((fresh (c::l)).valuesNames.set 0 (cut c.valueName)) t = none) := by
  have hvalue : ((fresh (c::l)).valuesNames[0]?).getD [] = c.valueName := rfl
  have hbuffer : (fresh (c::l)).envValue = none := rfl
  rw [test_func_cons]
  simp only [exportOne, if_neg (Nat.not_le.mpr hshort), hk, hvalue, hbuffer]
  rcases expand_uninitialized (unresolved c.name)
    (valueOf (c::l) ((fresh (c::l)).valuesNames.set 0 (cut c.valueName)))
    c.valueName with ⟨hexpand, hdollar, hfirst⟩ | hexpand | hexpand
  · rw [hexpand]
    exact ⟨_, rfl, fun _ => ⟨hdollar, hfirst⟩⟩
  · rw [hexpand]
    exact ⟨_, rfl, fun h => by cases h⟩
  · simp only [hexpand, setenv]
    split_ifs
    · exact ⟨_, rfl, fun h => absurd h.symm unresolved_not_setenv⟩
    · exact ⟨_, rfl, fun h => by cases h⟩

theorem value_of_absent {valuesNames : List Text} (hlen : cs.length ≤ valuesNames.length)
    {t : Text} (h : valueOf cs valuesNames t = none) : t ∉ cs.map Attribute.name := by
  rw [valueOf, Option.map_eq_none_iff, List.find?_eq_none] at h
  intro hin
  obtain ⟨c, hc, hn⟩ := List.mem_map.mp hin
  rw [← List.map_fst_zip hlen] at hc
  obtain ⟨q, hq, rfl⟩ := List.mem_map.mp hc
  exact h q hq (beq_iff_eq.mpr hn)

theorem head_refused (h : ExportsCombination (c::l)) (hk : c.kind = .aggregate) :
    Refused (c::l) c := by
  have hlookup : lookupKind (c::l) c.name = .aggregate := by
    rw [lookup_kind_head (by rw [hk]; decide), hk]
  obtain ⟨f, htest, hfirst⟩ := head_aggregate hlookup (head_short h)
  have hself := exports_self h
  rw [htest] at hself
  simp only [expected, hk] at hself
  cases hexpansion : expansion (currentValue (c::l)) (c.valueName.splitOn '$') with
  | some v =>
    rw [hexpansion] at hself
    exact absurd (congrArg Prod.fst hself) (List.cons_ne_nil _ _).symm
  | none =>
    rw [hexpansion] at hself
    obtain ⟨hdollar, t, ts, hts, ht⟩ := hfirst (Option.some.inj (congrArg Prod.snd hself))
    obtain ⟨n, hn, hunknown⟩ := (expansion_none _).mp hexpansion
    refine ⟨hdollar, ⟨t, ts, hts, value_of_absent ?_ ht⟩, n, hn, current_value_none.mp hunknown⟩
    rw [List.length_set, fresh, List.length_map]

theorem head_ordinary (h : ExportsCombination (c::l)) (hk : c.kind = .ordinary)
    (hlookup : lookupKind (c::l) c.name = .ordinary) :
    '=' ∉ env c.name ∧ c.valueName.length < lineSize := by
  have hself := exports_self h
  have hvalue : ((fresh (c::l)).valuesNames[0]?).getD [] = c.valueName := rfl
  rw [expected_ordinary hk, test_func_cons] at hself
  simp only [exportOne, if_neg (Nat.not_le.mpr (head_short h)), hlookup, hvalue, strcpy] at hself
  by_cases hlong : lineSize ≤ c.valueName.length
  · rw [if_pos hlong] at hself
    exact absurd (congrArg Prod.fst hself) (List.cons_ne_nil _ _).symm
  · rw [if_neg hlong] at hself
    by_cases hname : '=' ∈ env c.name
    · simp only [setenv, if_pos hname] at hself
      exact absurd (congrArg Prod.fst hself) (List.cons_ne_nil _ _).symm
    · exact ⟨hname, Nat.not_le.mp hlong⟩

/-- An ordinary parameter has its name for itself, or it would be passed by or
expanded. -/
theorem ordinary_unshared (h : ExportsCombination (c::d::l)) (hk : c.kind = .ordinary)
    (hn : c.name = d.name) : d.kind = .ordinary := by
  by_contra hd
  have hlookup : lookupKind (c::d::l) c.name = d.kind := lookup_kind_second hk hn hd
  have hself := exports_self h
  rw [expected_ordinary hk] at hself
  cases hdk : d.kind with
  | ordinary => exact hd hdk
  | isVirtual =>
    have hnone : ∀ v, (env c.name, v) ∉ (testFunc (c::d::l)).1 :=
      (export_all_virtual (hlookup.trans hdk) fun v hin => by cases hin).1
    rw [hself] at hnone
    exact hnone _ List.mem_cons_self
  | aggregate =>
    obtain ⟨f, htest, -⟩ := head_aggregate (hlookup.trans hdk) (head_short h)
    rw [htest] at hself
    exact absurd (congrArg Prod.fst hself) (List.cons_ne_nil _ _).symm

/-- An aggregate of a virtual name would be passed by. -/
theorem aggregate_unshared (h : ExportsCombination (d::c::l)) (hd : d.kind = .isVirtual)
    (hk : c.kind = .aggregate) : c.name ≠ d.name := by
  intro hn
  have hlookup : lookupKind (d::c::l) d.name = .isVirtual := by
    rw [lookup_kind_head (by rw [hd]; decide), hd]
  obtain ⟨hnone, hstop⟩ : (∀ v, (env d.name, v) ∉ (testFunc (d::c::l)).1) ∧
      (testFunc (d::c::l)).2 ≠ some (unresolved d.name) :=
    export_all_virtual hlookup fun v hin => by cases hin
  rw [exports_self h] at hnone hstop
  simp only [expected, hd, hk] at hnone hstop
  cases hexpansion : expansion (currentValue (d::c::l)) (c.valueName.splitOn '$') with
  | none =>
    rw [hexpansion, hn] at hstop
    exact hstop rfl
  | some v =>
    rw [hexpansion, hn] at hnone
    exact hnone v List.mem_cons_self

theorem exports_kinds (h : ExportsCombination cs) (hc : c ∈ cs) (hd : d ∈ cs)
    (hn : c.name = d.name) : c.kind = d.kind := by
  by_contra hne
  obtain ⟨l, hl⟩ := front_two hc hd fun he => hne (he ▸ rfl)
  obtain ⟨l', hl'⟩ := front_two hd hc fun he => hne (he ▸ rfl)
  have hfirst := exports_perm h hl
  have hsecond := exports_perm h hl'
  cases hck : c.kind with
  | ordinary => exact hne (hck.trans (ordinary_unshared hfirst hck hn).symm)
  | isVirtual =>
    cases hdk : d.kind with
    | ordinary => exact hne ((ordinary_unshared hsecond hdk hn.symm).trans hdk.symm)
    | isVirtual => exact hne (hck.trans hdk.symm)
    | aggregate => exact aggregate_unshared hfirst hck hdk hn.symm
  | aggregate =>
    cases hdk : d.kind with
    | ordinary => exact hne ((ordinary_unshared hsecond hdk hn.symm).trans hdk.symm)
    | isVirtual => exact aggregate_unshared hsecond hdk hck hn
    | aggregate => exact hne (hck.trans hdk.symm)

theorem expected_ordinaries {os : List Attribute} (h : ∀ c ∈ os, c.kind = .ordinary) :
    (expected cs (os ++ l)).1 =
      os.map (fun c => (env c.name, c.valueName)) ++ (expected cs l).1 := by
  induction os with
  | nil => rfl
  | cons c os ih =>
    rw [List.cons_append, expected_ordinary (h c List.mem_cons_self),
      ih fun d hd => h d (List.mem_cons_of_mem c hd)]
    rfl

theorem exports_distinct (h : ExportsCombination cs) :
    ((cs.filter (·.kind = .ordinary)).map Attribute.name).Nodup := by
  obtain ⟨hself, hnodup⟩ := h _ (List.filter_append_perm (·.kind = .ordinary) cs)
  rw [hself, expected_ordinaries fun c hc => by simpa using (List.mem_filter.mp hc).2,
    List.map_append, List.map_map] at hnodup
  have hmap := (List.nodup_append.mp hnodup).1
  refine List.Nodup.of_map env ?_
  rw [List.map_map]
  exact hmap

theorem exports_exportable (h : ExportsCombination cs) : Exportable cs where
  short c hc := by
    obtain ⟨l, hl⟩ := front hc
    exact head_short (exports_perm h hl)
  kinds c hc d hd hn := exports_kinds h hc hd hn
  distinct := exports_distinct h
  ordinary c hc hk := by
    obtain ⟨l, hl⟩ := front hc
    have hfront := exports_perm h hl
    refine head_ordinary hfront hk ?_
    rw [lookup_kind_same (fun a ha b hb hn => exports_kinds hfront ha hb hn) List.mem_cons_self, hk]
  aggregates c hc hk := by
    obtain ⟨l, hl⟩ := front hc
    exact (head_refused (exports_perm h hl) hk).perm hl.symm

/-- The combination is exported exactly if nothing has to be expanded. -/
theorem exports_iff (cs : List Attribute) : ExportsCombination cs ↔ Exportable cs :=
  ⟨exports_exportable, exportable_exports⟩

end Orders

section Samples

def single (name value : Text) (isAggregate : Bool) : Attribute where
  name := name
  isVirtual := false
  isAggregate := isAggregate
  values := [0]
  valuesNames := [value]
  attrval := 0
  named := rfl
  current := List.mem_singleton_self 0

/-- A value in front of the format `x$a$`. -/
theorem exports_previous :
    let cs := [single "a".toList "1".toList false, single "f".toList "x$a$".toList true]
    testFunc cs =
        ([("OMPI_MCA_a".toList, "1".toList), ("OMPI_MCA_f".toList, "1x1".toList)], none) ∧
      expected cs cs =
        ([("OMPI_MCA_a".toList, "1".toList), ("OMPI_MCA_f".toList, "x1".toList)], none) ∧
      ¬ ExportsCombination cs := by
  intro cs
  have htest : testFunc cs =
      ([("OMPI_MCA_a".toList, "1".toList), ("OMPI_MCA_f".toList, "1x1".toList)], none) := by
    decide +kernel
  have hexpected : expected cs cs =
      ([("OMPI_MCA_a".toList, "1".toList), ("OMPI_MCA_f".toList, "x1".toList)], none) := by
    decide +kernel
  refine ⟨htest, hexpected, fun h => ?_⟩
  have heq := exports_self h
  rw [htest, hexpected] at heq
  exact absurd heq (by decide)

end Samples

end Otpo.ExportedEnvironment
