import Otpo.ValueIntersection

/-!
# When the intersection is one

Names are found if they stand at one index everywhere, and values if those
that share their number with the first other file are in all the files.
-/

set_option autoImplicit false

namespace Otpo.IntersectionExact
open Otpo.ParamList Otpo.ValueMerge Otpo.ValueIntersection

def Common (files : List (List ResultParam)) (n : Text) : Prop :=
  files ≠ [] ∧ ∀ f ∈ files, ∃ p ∈ f, p.name = n

def CommonValue (files : List (List ResultParam)) (n v : Text) : Prop :=
  ∀ f ∈ files, ∃ p ∈ f, p.name = n ∧ v ∈ p.values

structure IsIntersection (files : List (List ResultParam)) (cs : List CombinedParam) : Prop where
  distinct : (cs.map CombinedParam.name).Nodup
  names : ∀ n, n ∈ cs.map CombinedParam.name ↔ Common files n
  values : ∀ c ∈ cs, ∀ v, v ∈ c.values ↔ CommonValue files c.name v

def Intersects (files : List (List ResultParam)) : Prop :=
  ∃ cs, intersection files = .ok cs ∧ IsIntersection files cs

def SharesNumber (files : List (List ResultParam)) (e : Entry) (v : Text) : Prop :=
  ∀ f, (files.eraseIdx e.file).head? = some f →
    ∃ p, f.find? (e.param.name == ·.name) = some p ∧ ∃ w ∈ p.values, atoi w = atoi v

/-- What the branch presumes of its files. The last item holds of itself where
no file repeats a name. -/
structure Comparable (files : List (List ResultParam)) : Prop where
  aligned : ∀ n, Common files n → ∃ j, ∀ f ∈ files, nameAt f j = some n
  inside : ∀ e ∈ entries files, ¬ Common files e.param.name →
    ∀ before f after, files.eraseIdx e.file = before ++ f::after → f ≠ [] →
      f.length ≤ e.index → ∃ g ∈ before, nameAt g e.index ≠ some e.param.name
  shared : ∀ e ∈ entries files, Common files e.param.name → ∀ v ∈ e.param.values,
    SharesNumber files e v → CommonValue files e.param.name v
  found : ∀ n v, Common files n → CommonValue files n v →
    ∃ e ∈ entries files, e.param.name = n ∧ v ∈ e.param.values ∧ SharesNumber files e v

section Names

variable {files : List (List ResultParam)} {e : Entry} {es : List Entry}
variable {names out : List Text}

def verdict (files : List (List ResultParam)) (e : Entry) : Except Fault Bool :=
  inAll e.param.name e.index (files.eraseIdx e.file)

theorem add_name_verdict (files : List (List ResultParam)) (names : List Text) (e : Entry) :
    addName files names e =
      if e.param.name ∈ names then .ok names
      else
        match verdict files e with
        | .error f => .error f
        | .ok true => .ok (names ++ [e.param.name])
        | .ok false => .ok names := by
  rw [addName, in_others_all]
  have herase := others_erase files e.file 0
  rw [Nat.zero_add] at herase
  rw [herase]
  rfl

structure Collected (files : List (List ResultParam)) (es : List Entry) (names out : List Text) :
    Prop where
  nodup : out.Nodup
  mem : ∀ n, n ∈ out ↔ n ∈ names ∨ ∃ e ∈ es, e.param.name = n ∧ verdict files e = .ok true
  defined : ∀ e ∈ es, e.param.name ∉ out → ∃ b, verdict files e = .ok b

theorem fold_collects (hn : names.Nodup) (h : es.foldlM (addName files) names = .ok out) :
    Collected files es names out := by
  induction es generalizing names with
  | nil =>
    cases h
    exact ⟨hn, by simp, by simp⟩
  | cons e es ih =>
    rw [List.foldlM_cons, add_name_verdict] at h
    by_cases hin : e.param.name ∈ names
    · rw [if_pos hin] at h
      obtain ⟨hnodup, hmem, hdefined⟩ := ih hn h
      refine ⟨hnodup, fun n => ?_, List.forall_mem_cons.mpr ⟨fun hout => ?_, hdefined⟩⟩
      · rw [hmem, List.exists_mem_cons_iff]
        exact ⟨Or.imp_right Or.inr, fun h => by
          rcases h with h | ⟨rfl, _⟩ | h
          · exact Or.inl h
          · exact Or.inl hin
          · exact Or.inr h⟩
      · exact absurd ((hmem _).mpr (Or.inl hin)) hout
    · rw [if_neg hin] at h
      cases hv : verdict files e with
      | error f =>
        rw [hv] at h
        cases h
      | ok same =>
        rw [hv] at h
        cases same with
        | false =>
          obtain ⟨hnodup, hmem, hdefined⟩ := ih hn h
          refine ⟨hnodup, fun n => ?_, List.forall_mem_cons.mpr ⟨fun _ => ⟨_, hv⟩, hdefined⟩⟩
          rw [hmem, List.exists_mem_cons_iff]
          simp [hv]
        | true =>
          have hnext : (names ++ [e.param.name]).Nodup :=
            List.nodup_append.mpr ⟨hn, List.nodup_singleton _, fun x hx y hy hxy =>
              hin (List.mem_singleton.mp hy ▸ hxy ▸ hx)⟩
          obtain ⟨hnodup, hmem, hdefined⟩ := ih hnext h
          refine ⟨hnodup, fun n => ?_, List.forall_mem_cons.mpr ⟨fun _ => ⟨_, hv⟩, hdefined⟩⟩
          rw [hmem, List.exists_mem_cons_iff, List.mem_append, List.mem_singleton, or_assoc,
            eq_comm (a := n)]
          simp [hv]

/-- The fold ends in a list when every entry that is looked at has a verdict. -/
theorem fold_defined (h : ∀ before e after, es = before ++ e::after → e.param.name ∉ names →
      (∀ d ∈ before, d.param.name = e.param.name → verdict files d ≠ .ok true) →
      ∃ b, verdict files e = .ok b) :
    ∃ out, es.foldlM (addName files) names = .ok out := by
  induction es generalizing names with
  | nil => exact ⟨names, rfl⟩
  | cons e es ih =>
    rw [List.foldlM_cons, add_name_verdict]
    have hstep : ∀ next : List Text, names ⊆ next →
        (verdict files e = .ok true → e.param.name ∉ names → e.param.name ∈ next) →
        ∃ out, es.foldlM (addName files) next = .ok out := by
      intro next hsub htrue
      refine ih fun before d after he hd hbefore => ?_
      refine h (e::before) d after (by rw [he]; rfl) (fun hin => hd (hsub hin)) ?_
      refine List.forall_mem_cons.mpr ⟨fun hname hverdict => ?_, hbefore⟩
      by_cases hin : e.param.name ∈ names
      · exact hd (hname ▸ hsub hin)
      · exact hd (hname ▸ htrue hverdict hin)
    by_cases hin : e.param.name ∈ names
    · rw [if_pos hin]
      exact hstep names (List.Subset.refl _) fun _ hn => absurd hin hn
    · rw [if_neg hin]
      obtain ⟨same, hv⟩ := h [] e es rfl hin (by simp)
      rw [hv]
      cases same with
      | false => exact hstep names (List.Subset.refl _) fun ht => by rw [hv] at ht; cases ht
      | true => exact hstep _ (List.subset_append_left _ _) fun _ _ => by simp

end Names

section Order

variable {files : List (List ResultParam)} {d e : Entry} {before after : List Entry}

def Earlier (d e : Entry) : Prop := d.file < e.file ∨ d.file = e.file ∧ d.index < e.index

theorem zipIdx_order {α : Type} (l : List α) : l.zipIdx.Pairwise fun a b => a.2 < b.2 := by
  have h := List.pairwise_lt_range' (s := 0) (n := l.length)
  rw [← List.zipIdx_map_snd 0 l, List.pairwise_map] at h
  exact h

theorem entries_order (files : List (List ResultParam)) :
    (entries files).Pairwise Earlier := by
  rw [entries, List.pairwise_flatMap]
  constructor
  · intro f _
    rw [List.pairwise_map]
    exact (zipIdx_order f.1).imp fun h => Or.inr ⟨rfl, h⟩
  · refine (zipIdx_order files).imp fun {f g} h d hd e he => ?_
    obtain ⟨_, _, rfl⟩ := List.mem_map.mp hd
    obtain ⟨_, _, rfl⟩ := List.mem_map.mp he
    exact Or.inl h

theorem earlier_before (h : entries files = before ++ e::after) (hd : d ∈ entries files)
    (hde : Earlier d e) : d ∈ before := by
  have horder := entries_order files
  rw [h] at hd horder
  rcases List.mem_append.mp hd with hd | hd
  · exact hd
  · rcases List.mem_cons.mp hd with rfl | hd
    · exact absurd hde (by simp [Earlier])
    · have hed := (List.pairwise_cons.mp (List.pairwise_append.mp horder).2.1).1 d hd
      simp only [Earlier] at hde hed
      omega

theorem forall_mem_erase {P : List ResultParam → Prop} {i : ℕ} {f : List ResultParam}
    (hf : files[i]? = some f) :
    (∀ g ∈ files, P g) ↔ P f ∧ ∀ g ∈ files.eraseIdx i, P g := by
  obtain ⟨hi, rfl⟩ := List.getElem?_eq_some_iff.mp hf
  have hsplit : files = files.take i ++ files[i]::files.drop (i+1) := by
    rw [List.getElem_cons_drop, List.take_append_drop]
  rw [List.eraseIdx_eq_take_drop_succ]
  conv_lhs => rw [hsplit]
  simp only [List.forall_mem_append, List.forall_mem_cons]
  exact and_left_comm

/-- An accepted name stands at the entry's index in all the files. -/
theorem verdict_true (he : e ∈ entries files) :
    verdict files e = .ok true ↔ ∀ f ∈ files, nameAt f e.index = some e.param.name := by
  obtain ⟨f, hf, hp⟩ := mem_entries.mp he
  rw [verdict, in_all_true, forall_mem_erase hf]
  simp [nameAt, hp]

theorem common_of_aligned (he : e ∈ entries files)
    (h : ∀ f ∈ files, nameAt f e.index = some e.param.name) : Common files e.param.name := by
  obtain ⟨f, hf, _⟩ := mem_entries.mp he
  refine ⟨List.ne_nil_of_mem (List.mem_of_getElem? hf), fun g hg => ?_⟩
  obtain ⟨p, hp, hn⟩ := Option.map_eq_some_iff.mp (h g hg)
  exact ⟨p, List.mem_of_getElem? hp, hn⟩

/-- A name that stands at one index everywhere is accepted in the first file. -/
theorem entry_of_aligned {n : Text} {j : ℕ} (hne : files ≠ [])
    (h : ∀ f ∈ files, nameAt f j = some n) :
    ∃ e ∈ entries files, e.file = 0 ∧ e.index = j ∧ e.param.name = n ∧
      verdict files e = .ok true := by
  obtain ⟨f, rest, rfl⟩ := List.exists_cons_of_ne_nil hne
  obtain ⟨p, hp, rfl⟩ := Option.map_eq_some_iff.mp (h f List.mem_cons_self)
  have he : (⟨0, j, p⟩ : Entry) ∈ entries (f::rest) := mem_entries.mpr ⟨f, rfl, hp⟩
  exact ⟨_, he, rfl, rfl, rfl, (verdict_true he).mpr h⟩

end Order

section Exact

variable {files : List (List ResultParam)} {e : Entry} {n v : Text} {names : List Text}

theorem collected_common (h : Collected files (entries files) [] names)
    (halign : ∀ n, Common files n → ∃ j, ∀ f ∈ files, nameAt f j = some n) :
    n ∈ names ↔ Common files n := by
  rw [h.mem]
  constructor
  · rintro (hn | ⟨e, he, rfl, hv⟩)
    · exact absurd hn List.not_mem_nil
    · exact common_of_aligned he ((verdict_true he).mp hv)
  · intro hn
    obtain ⟨j, hj⟩ := halign n hn
    obtain ⟨e, he, _, _, hname, hv⟩ := entry_of_aligned hn.1 hj
    exact Or.inr ⟨e, he, hname, hv⟩

/-- No name is looked up behind the end of a file. -/
theorem names_defined (h : Comparable files) :
    ∃ names, (entries files).foldlM (addName files) [] = .ok names := by
  refine fold_defined fun before e after he _ hbefore => ?_
  have hmem : e ∈ entries files := he ▸ by simp
  by_cases hcommon : Common files e.param.name
  · obtain ⟨j, hj⟩ := h.aligned _ hcommon
    obtain ⟨d, hd, hfile, hindex, hname, hv⟩ := entry_of_aligned hcommon.1 hj
    have hle : e.index ≤ j := by
      by_contra hlt
      refine hbefore d (earlier_before he hd ?_) hname hv
      simp only [Earlier]
      omega
    refine in_all_defined.mpr fun _ f _ hsplit _ hlen => ?_
    have hin : f ∈ files.eraseIdx e.file := by
      rw [hsplit]
      exact List.mem_append_right _ List.mem_cons_self
    have hf : f ∈ files := List.mem_of_mem_eraseIdx hin
    obtain ⟨p, hp, _⟩ := Option.map_eq_some_iff.mp (hj f hf)
    have hlt := (List.getElem?_eq_some_iff.mp hp).1
    omega
  · exact in_all_defined.mpr (h.inside e hmem hcommon)

theorem find_in_file_iff (hs : ∀ f ∈ files, ∀ p ∈ f, p.values.Pairwise fun a b => atoi a ≤ atoi b)
    {f : List ResultParam} (hf : f ∈ files) : findInFile n (atoi v) f = true ↔
      ∃ p, f.find? (n == ·.name) = some p ∧ ∃ w ∈ p.values, atoi w = atoi v := by
  rw [findInFile]
  cases hfind : f.find? (n == ·.name) with
  | none => simp
  | some p => simp [find_value_iff (hs f hf p (List.mem_of_find?_eq_some hfind))]

theorem keep_value_iff (hs : ∀ f ∈ files, ∀ p ∈ f, p.values.Pairwise fun a b => atoi a ≤ atoi b)
    (e : Entry) : keepValue e.param.name (atoi v) e.file 0 false files = true ↔
      SharesNumber files e v := by
  have herase := others_erase files e.file 0
  rw [Nat.zero_add] at herase
  rw [keep_value_head, herase, SharesNumber]
  cases hhead : (files.eraseIdx e.file).head? with
  | none => simp
  | some f =>
    have hf : f ∈ files := List.mem_of_mem_eraseIdx (List.mem_of_mem_head? hhead)
    simp [find_in_file_iff hs hf]

theorem intersection_values
    (hs : ∀ f ∈ files, ∀ p ∈ f, p.values.Pairwise fun a b => atoi a ≤ atoi b) (n v : Text) :
    v ∈ (intersectionValues files n).1 ↔
      ∃ e ∈ entries files, e.param.name = n ∧ v ∈ e.param.values ∧ SharesNumber files e v := by
  obtain ⟨l, hl, hmem⟩ := fold_values (entries files) n
    (fun e => e.param.values.filter fun v => keepValue n (atoi v) e.file 0 false files)
    ValueList.empty
  have hvalues : intersectionValues files n = (l.values, l.count) := hl
  rw [hvalues, hmem]
  simp only [ValueList.empty, KeyedList.Keyed.empty, List.not_mem_nil, false_or, List.mem_filter]
  refine exists_congr fun e => and_congr_right fun _ => and_congr_right fun hn => ?_
  rw [← hn, keep_value_iff hs]

theorem intersects_of_comparable
    (hs : ∀ f ∈ files, ∀ p ∈ f, p.values.Pairwise fun a b => atoi a ≤ atoi b)
    (h : Comparable files) : Intersects files := by
  obtain ⟨names, hnames⟩ := names_defined h
  have hc := fold_collects .nil hnames
  have hmap : ∀ g : Text → CombinedParam, (∀ n, (g n).name = n) →
      (names.map g).map CombinedParam.name = names := by
    intro g hg
    rw [List.map_map]
    exact (List.map_congr_left fun n _ => hg n).trans (List.map_id names)
  refine ⟨_, by rw [intersection, hnames], ?_, fun n => ?_, fun c hin v => ?_⟩
  · rw [hmap _ fun _ => rfl]
    exact hc.nodup
  · rw [hmap _ fun _ => rfl]
    exact collected_common hc h.aligned
  · obtain ⟨n, hn, rfl⟩ := List.mem_map.mp hin
    have hcommon := (collected_common hc h.aligned).mp hn
    change v ∈ (intersectionValues files n).1 ↔ CommonValue files n v
    rw [intersection_values hs]
    constructor
    · rintro ⟨e, he, rfl, hv, hshares⟩
      exact h.shared e he hcommon v hv hshares
    · exact h.found n v hcommon

theorem comparable_of_intersects
    (hs : ∀ f ∈ files, ∀ p ∈ f, p.values.Pairwise fun a b => atoi a ≤ atoi b)
    (h : Intersects files) : Comparable files := by
  obtain ⟨cs, hcs, hint⟩ := h
  rw [intersection] at hcs
  cases hnames : (entries files).foldlM (addName files) [] with
  | error f =>
    rw [hnames] at hcs
    cases hcs
  | ok names =>
    rw [hnames] at hcs
    cases hcs
    have hc := fold_collects .nil hnames
    have hmem : ∀ n, n ∈ names ↔ Common files n := by
      intro n
      rw [← hint.names, List.map_map]
      exact (List.map_id names).symm ▸ Iff.rfl
    have hvalue : ∀ n v, Common files n →
        (v ∈ (intersectionValues files n).1 ↔ CommonValue files n v) := fun n v hn =>
      hint.values _ (List.mem_map_of_mem ((hmem n).mpr hn)) v
    refine ⟨fun n hn => ?_, fun e he hn => ?_, fun e he hn v hv hshares => ?_,
      fun n v hn hv => ?_⟩
    · obtain hnil | ⟨e, he, rfl, hv⟩ := (hc.mem n).mp ((hmem n).mpr hn)
      · exact absurd hnil List.not_mem_nil
      · exact ⟨e.index, (verdict_true he).mp hv⟩
    · exact in_all_defined.mp (hc.defined e he fun hin => hn ((hmem _).mp hin))
    · exact (hvalue _ v hn).mp ((intersection_values hs _ v).mpr ⟨e, he, rfl, hv, hshares⟩)
    · exact (intersection_values hs n v).mp ((hvalue n v hn).mpr hv)

end Exact

section Reordering

def Reordered (files files' : List (List ResultParam)) : Prop :=
  ∃ between, files.Perm between ∧ List.Forall₂ List.Perm between files'

variable {files files' : List (List ResultParam)} {n v : Text}

theorem reordered_forall (h : Reordered files files') (P : ResultParam → Prop) :
    (∀ f ∈ files, ∃ p ∈ f, P p) ↔ ∀ f ∈ files', ∃ p ∈ f, P p := by
  obtain ⟨between, hperm, hinner⟩ := h
  have houter : (∀ f ∈ files, ∃ p ∈ f, P p) ↔ ∀ f ∈ between, ∃ p ∈ f, P p :=
    forall_congr' fun f => imp_congr_left hperm.mem_iff
  rw [houter]
  clear houter hperm
  induction hinner with
  | nil => simp
  | cons hf _ ih =>
    rw [List.forall_mem_cons, List.forall_mem_cons]
    exact and_congr (exists_congr fun p => and_congr_left fun _ => hf.mem_iff) ih

theorem reordered_all {P : ResultParam → Prop} (h : Reordered files files')
    (hs : ∀ f ∈ files, ∀ p ∈ f, P p) : ∀ f ∈ files', ∀ p ∈ f, P p := by
  obtain ⟨between, hperm, hinner⟩ := h
  have hb : ∀ f ∈ between, ∀ p ∈ f, P p := fun f hf => hs f (hperm.mem_iff.mpr hf)
  clear hperm
  induction hinner with
  | nil => simp
  | cons hf _ ih =>
    rw [List.forall_mem_cons] at hb ⊢
    exact ⟨fun p hp => hb.1 p (hf.mem_iff.mpr hp), ih hb.2⟩

theorem reordered_nil (h : Reordered files files') : files ≠ [] ↔ files' ≠ [] := by
  obtain ⟨between, hperm, hinner⟩ := h
  rw [ne_eq, ne_eq, not_iff_not, ← List.length_eq_zero_iff, ← List.length_eq_zero_iff,
    hperm.length_eq, hinner.length_eq]

theorem reordered_common (h : Reordered files files') : Common files n ↔ Common files' n :=
  and_congr (reordered_nil h) (reordered_forall h _)

theorem reordered_value (h : Reordered files files') :
    CommonValue files n v ↔ CommonValue files' n v := reordered_forall h _

end Reordering

/-- The branch yields the intersection exactly for comparable files, and then
the same for all their orders. -/
theorem intersects_iff (files : List (List ResultParam))
    (hs : ∀ f ∈ files, ∀ p ∈ f, p.values.Pairwise fun a b => atoi a ≤ atoi b) :
    (Intersects files ↔ Comparable files) ∧
    ∀ files' cs cs', Reordered files files' → intersection files = .ok cs →
      intersection files' = .ok cs' → Comparable files → Comparable files' →
      (∀ n, n ∈ cs.map CombinedParam.name ↔ n ∈ cs'.map CombinedParam.name) ∧
      ∀ c ∈ cs, ∀ c' ∈ cs', c.name = c'.name → ∀ v, v ∈ c.values ↔ v ∈ c'.values := by
  refine ⟨⟨comparable_of_intersects hs, intersects_of_comparable hs⟩, ?_⟩
  intro files' cs cs' hr hcs hcs' hc hc'
  have hs' := reordered_all (P := fun p => p.values.Pairwise fun a b => atoi a ≤ atoi b) hr hs
  obtain ⟨_, hds, hint⟩ := intersects_of_comparable hs hc
  obtain ⟨_, hds', hint'⟩ := intersects_of_comparable hs' hc'
  cases hcs.symm.trans hds
  cases hcs'.symm.trans hds'
  refine ⟨fun n => ?_, fun c hin c' hin' he v => ?_⟩
  · rw [hint.names, hint'.names, reordered_common hr]
  · rw [hint.values c hin, hint'.values c' hin', he, reordered_value hr]

def three : List (List ResultParam) :=
  [[⟨"a".toList, ["1".toList, "2".toList, "3".toList]⟩, ⟨"b".toList, ["x".toList]⟩,
      ⟨"c".toList, ["7".toList]⟩],
    [⟨"a".toList, ["2".toList, "3".toList]⟩, ⟨"b".toList, ["x".toList]⟩,
      ⟨"d".toList, ["7".toList]⟩],
    [⟨"a".toList, ["2".toList, "3".toList, "9".toList]⟩, ⟨"b".toList, ["x".toList]⟩,
      ⟨"c".toList, ["7".toList]⟩]]

def turned : List (List ResultParam) :=
  [[⟨"b".toList, ["x".toList]⟩, ⟨"a".toList, ["2".toList, "3".toList, "9".toList]⟩,
      ⟨"c".toList, ["7".toList]⟩],
    [⟨"b".toList, ["x".toList]⟩, ⟨"a".toList, ["1".toList, "2".toList, "3".toList]⟩,
      ⟨"c".toList, ["7".toList]⟩],
    [⟨"b".toList, ["x".toList]⟩, ⟨"a".toList, ["2".toList, "3".toList]⟩,
      ⟨"d".toList, ["7".toList]⟩]]

theorem three_turned : Reordered three turned :=
  ⟨three.drop 2 ++ three.take 2, @List.perm_append_comm _ (three.take 2) (three.drop 2),
    .cons (.swap _ _ _) (.cons (.swap _ _ _) (.cons (.swap _ _ _) .nil))⟩

theorem three_names (n : Text) : n ∈ ["a".toList, "b".toList] ↔ Common three n := by
  constructor
  · intro h
    rcases List.mem_pair.mp h with rfl | rfl <;> unfold Common <;> decide
  · rintro ⟨-, h⟩
    have hfirst := h _ List.mem_cons_self
    have hsecond := h _ (List.mem_cons_of_mem _ List.mem_cons_self)
    simp only [List.exists_mem_cons_iff, List.not_mem_nil, false_and, exists_false, or_false]
      at hfirst hsecond
    rcases hfirst with rfl | rfl | rfl
    · decide
    · decide
    · exact absurd hsecond (by decide)

theorem three_values (v : Text) :
    (v ∈ ["2".toList, "3".toList] ↔ CommonValue three "a".toList v) ∧
      (v ∈ ["x".toList] ↔ CommonValue three "b".toList v) := by
  constructor
  · simp [three, CommonValue]
    tauto
  · simp [three, CommonValue]

theorem intersects_three : Comparable three ∧ Comparable turned ∧
    ∃ cs cs', intersection three = .ok cs ∧ intersection turned = .ok cs' ∧
      ∀ n, n ∈ cs.map CombinedParam.name ↔ n ∈ cs'.map CombinedParam.name := by
  have hthree : intersection three =
      .ok [⟨"a".toList, ["2".toList, "3".toList], 2⟩, ⟨"b".toList, ["x".toList], 1⟩] := by decide
  have hturned : intersection turned =
      .ok [⟨"b".toList, ["x".toList], 1⟩, ⟨"a".toList, ["2".toList, "3".toList], 2⟩] := by decide
  obtain ⟨hiff, horder⟩ := intersects_iff three (by decide)
  have hfirst : Comparable three := hiff.mp ⟨_, hthree, by decide, three_names, fun c hc v => by
    rcases List.mem_pair.mp hc with rfl | rfl
    · exact (three_values v).1
    · exact (three_values v).2⟩
  have hsecond : Comparable turned := (intersects_iff turned (by decide)).1.mp
    ⟨_, hturned, by decide, fun n => by
      rw [← reordered_common three_turned, ← three_names]
      exact (List.Perm.swap _ _ []).mem_iff, fun c hc v => by
      rw [← reordered_value three_turned]
      rcases List.mem_pair.mp hc with rfl | rfl
      · exact (three_values v).2
      · exact (three_values v).1⟩
  exact ⟨hfirst, hsecond, _, _, hthree, hturned,
    (horder turned _ _ three_turned hthree hturned hfirst hsecond).1⟩

def swapped : List (List ResultParam) :=
  [[⟨"a".toList, ["1".toList]⟩, ⟨"b".toList, ["2".toList]⟩],
    [⟨"b".toList, ["2".toList]⟩, ⟨"a".toList, ["1".toList]⟩]]

def third : List (List ResultParam) :=
  [[⟨"a".toList, ["1".toList, "2".toList]⟩], [⟨"a".toList, ["1".toList, "2".toList]⟩],
    [⟨"a".toList, ["2".toList]⟩]]

/-- Parameters in another order are not found, and the third file is not asked
for the value. -/
theorem intersection_misses : ¬ Intersects swapped ∧ ¬ Intersects third := by
  constructor
  · rintro ⟨cs, hcs, hint⟩
    have hnone : intersection swapped = .ok [] := by decide
    rw [hnone] at hcs
    cases hcs
    exact List.not_mem_nil ((hint.names "a".toList).mpr (by simp [swapped, Common]))
  · rintro ⟨cs, hcs, hint⟩
    have hall : intersection third =
        .ok [⟨"a".toList, ["1".toList, "2".toList], 2⟩] := by decide
    rw [hall] at hcs
    cases hcs
    have hone := (hint.values _ List.mem_cons_self "1".toList).mp (by decide)
    simp [third, CommonValue] at hone

end Otpo.IntersectionExact
