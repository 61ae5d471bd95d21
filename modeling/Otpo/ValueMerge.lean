import Otpo.ParamList
import Otpo.Library.KeyedList

/-!
# Merging result files

The parameters of several result files, and the union of their values. A value
list is ordered by the numbers that its strings convert to, and has no string
twice.
-/

set_option autoImplicit false

namespace Otpo.ValueMerge
open Otpo.ParamList

section Insert

def insertBehind (data : Text) : Text → List Text → Option (List Text)
  | q, next =>
    if data = q then none
    else
      match next with
      | [] => some [q, data]
      | r::rs =>
        if atoi r ≤ atoi data then (insertBehind data r rs).map (q::·)
        else some (q::data::r::rs)

def insert (data : Text) (list : List Text) (count : ℕ) : List Text × ℕ :=
  match list with
  | [] => ([data], count+1)
  | v::vs =>
    if atoi v > atoi data then (data::v::vs, count+1)
    else
      match insertBehind data v vs with
      | none => (v::vs, count)
      | some list => (list, count+1)

structure ValueList extends KeyedList.Keyed atoi where
  count : ℕ
  counted : count = values.length

open KeyedList

variable {data q : Text} {vs : List Text}

theorem insert_behind_sorted (h : (q::vs).Pairwise fun a b => atoi a ≤ atoi b)
    (hle : atoi q ≤ atoi data) : insertBehind data q vs =
      if data ∈ q::vs then none else some (q::place atoi data vs) := by
  induction vs generalizing q with
  | nil =>
    rw [insertBehind]
    by_cases he : data = q <;> simp [he, place]
  | cons r rs ih =>
    obtain ⟨hq, hr⟩ := List.pairwise_cons.mp h
    rw [insertBehind]
    by_cases he : data = q
    · simp [he]
    · rw [if_neg he]
      by_cases hlt : atoi data < atoi r
      · have hnot : data ∉ q::r::rs := by
          intro hin
          rcases List.mem_cons.mp hin with hin | hin
          · exact he hin
          · rcases List.mem_cons.mp hin with rfl | hin
            · exact lt_irrefl _ hlt
            · exact absurd hlt (not_lt.mpr ((List.pairwise_cons.mp hr).1 data hin))
        simp only [if_neg (not_le.mpr hlt), if_neg hnot, place_cons, if_pos hlt]
      · simp only [if_pos (not_lt.mp hlt), ih hr (not_lt.mp hlt), place_cons, if_neg hlt,
          List.mem_cons (a := data) (b := q), he, false_or]
        split <;> rfl

/-- On an ordered list `insert` is the insertion behind equal keys. -/
theorem insert_sorted (h : vs.Pairwise fun a b => atoi a ≤ atoi b) (count : ℕ) :
    insert data vs count =
      if data ∈ vs then (vs, count) else (place atoi data vs, count+1) := by
  cases vs with
  | nil => rfl
  | cons v vs =>
    rw [insert]
    by_cases hlt : atoi v > atoi data
    · have hnot : data ∉ v::vs := by
        intro hin
        rcases List.mem_cons.mp hin with rfl | hin
        · exact lt_irrefl _ hlt
        · exact absurd hlt (not_lt.mpr ((List.pairwise_cons.mp h).1 data hin))
      rw [if_pos hlt, if_neg hnot, place_cons, if_pos hlt]
    · rw [if_neg hlt, insert_behind_sorted h (not_lt.mp hlt), place_cons, if_neg hlt]
      by_cases hin : data ∈ v::vs
      · simp only [if_pos hin]
      · simp only [if_neg hin]

namespace ValueList

def empty : ValueList := ⟨Keyed.empty atoi, 0, rfl⟩

/-- `insert` keeps the order, the distinctness and the count. -/
theorem insert_keeps (l : ValueList) (data : Text) : ∃ l' : ValueList,
    insert data l.values l.count = (l'.values, l'.count) ∧
      l'.toKeyed = l.toKeyed.insert data := by
  refine ⟨⟨l.toKeyed.insert data, if data ∈ l.values then l.count else l.count+1, ?_⟩, ?_, rfl⟩
  · simp only [Keyed.insert]
    split
    · exact l.counted
    · rw [length_place, l.counted]
  · rw [insert_sorted l.sorted]
    simp only [Keyed.insert]
    split <;> rfl

end ValueList

end Insert

structure ResultParam where
  name : Text
  values : List Text
  deriving DecidableEq, Repr

structure Entry where
  file : ℕ
  index : ℕ
  param : ResultParam
  deriving DecidableEq, Repr

def entries (files : List (List ResultParam)) : List Entry :=
  files.zipIdx.flatMap fun f => f.1.zipIdx.map fun p => ⟨f.2, p.2, p.1⟩

structure CombinedParam where
  name : Text
  values : List Text
  numValues : ℕ
  deriving DecidableEq, Repr

def insertValues (acc : List Text × ℕ) (values : List Text) : List Text × ℕ :=
  values.foldl (fun acc value => insert value acc.1 acc.2) acc

section Union

instance (name : Text) (names : List Text) : Decidable (name ∈ names) :=
  List.instDecidableMemOfLawfulBEq name names

def unionNames (files : List (List ResultParam)) : List Text :=
  (entries files).foldl
    (fun names e => if e.param.name ∈ names then names else names ++ [e.param.name]) []

def unionValues (files : List (List ResultParam)) (name : Text) : List Text × ℕ :=
  (entries files).foldl
    (fun acc e => if e.param.name = name then insertValues acc e.param.values else acc) ([], 0)

def union (files : List (List ResultParam)) : List CombinedParam :=
  (unionNames files).map fun name =>
    let (values, numValues) := unionValues files name
    { name, values, numValues }

variable {files : List (List ResultParam)} {name v : Text}

theorem mem_entries {e : Entry} : e ∈ entries files ↔
    ∃ f, files[e.file]? = some f ∧ f[e.index]? = some e.param := by
  simp only [entries, List.mem_flatMap, List.mem_map, Prod.exists, List.mem_zipIdx_iff_getElem?]
  constructor
  · rintro ⟨f, i, hf, p, j, hp, rfl⟩
    exact ⟨f, hf, hp⟩
  · rintro ⟨f, hf, hp⟩
    exact ⟨f, e.file, hf, e.param, e.index, hp, rfl⟩

theorem exists_entry {P : ResultParam → Prop} :
    (∃ e ∈ entries files, P e.param) ↔ ∃ f ∈ files, ∃ p ∈ f, P p := by
  constructor
  · rintro ⟨e, he, hp⟩
    obtain ⟨f, hf, hg⟩ := mem_entries.mp he
    exact ⟨f, List.mem_of_getElem? hf, e.param, List.mem_of_getElem? hg, hp⟩
  · rintro ⟨f, hf, p, hp, h⟩
    obtain ⟨i, hi⟩ := List.getElem?_of_mem hf
    obtain ⟨j, hj⟩ := List.getElem?_of_mem hp
    exact ⟨⟨i, j, p⟩, mem_entries.mpr ⟨f, hi, hj⟩, h⟩

theorem insert_values_keeps (l : ValueList) (values : List Text) : ∃ l' : ValueList,
    insertValues (l.values, l.count) values = (l'.values, l'.count) ∧
      ∀ v, v ∈ l'.values ↔ v ∈ values ∨ v ∈ l.values := by
  induction values generalizing l with
  | nil => exact ⟨l, rfl, by simp⟩
  | cons w values ih =>
    obtain ⟨m, hm, hkeyed⟩ := l.insert_keeps w
    obtain ⟨l', hl, hmem⟩ := ih m
    refine ⟨l', ?_, fun v => ?_⟩
    · rw [← hl, insertValues, List.foldl_cons, hm]
      rfl
    · rw [hmem, hkeyed, KeyedList.Keyed.mem_insert, List.mem_cons, or_left_comm, or_assoc]

theorem fold_names (es : List Entry) (names : List Text) (hn : names.Nodup) :
    let out := es.foldl
      (fun names e => if e.param.name ∈ names then names else names ++ [e.param.name]) names
    out.Nodup ∧ ∀ n, n ∈ out ↔ n ∈ names ∨ ∃ e ∈ es, e.param.name = n := by
  induction es generalizing names with
  | nil => simp [hn]
  | cons e es ih =>
    by_cases he : e.param.name ∈ names
    · obtain ⟨hout, hmem⟩ := ih names hn
      simp only [List.foldl_cons, if_pos he]
      refine ⟨hout, fun n => ?_⟩
      rw [hmem, List.exists_mem_cons_iff]
      exact ⟨fun h => h.imp_right Or.inr, fun h => by
        rcases h with h | rfl | h
        · exact Or.inl h
        · exact Or.inl he
        · exact Or.inr h⟩
    · have hnext : (names ++ [e.param.name]).Nodup :=
        List.nodup_append.mpr ⟨hn, List.nodup_singleton _, fun x hx y hy hxy =>
          he (List.mem_singleton.mp hy ▸ hxy ▸ hx)⟩
      obtain ⟨hout, hmem⟩ := ih _ hnext
      simp only [List.foldl_cons, if_neg he]
      refine ⟨hout, fun n => ?_⟩
      rw [hmem, List.exists_mem_cons_iff, List.mem_append, List.mem_singleton, or_assoc, eq_comm]

theorem fold_values (es : List Entry) (name : Text) (values : Entry → List Text)
    (l : ValueList) : ∃ l' : ValueList,
    es.foldl (fun acc e => if e.param.name = name then insertValues acc (values e) else acc)
      (l.values, l.count) = (l'.values, l'.count) ∧
    ∀ v, v ∈ l'.values ↔ v ∈ l.values ∨ ∃ e ∈ es, e.param.name = name ∧ v ∈ values e := by
  induction es generalizing l with
  | nil => exact ⟨l, rfl, by simp⟩
  | cons e es ih =>
    rw [List.foldl_cons]
    by_cases he : e.param.name = name
    · obtain ⟨m, hm, hin⟩ := insert_values_keeps l (values e)
      obtain ⟨l', hl, hmem⟩ := ih m
      refine ⟨l', by rw [if_pos he, hm, hl], fun v => ?_⟩
      rw [hmem, hin, List.exists_mem_cons_iff, or_comm (a := v ∈ values e), or_assoc]
      simp [he]
    · obtain ⟨l', hl, hmem⟩ := ih l
      refine ⟨l', by rw [if_neg he, hl], fun v => ?_⟩
      rw [hmem, List.exists_mem_cons_iff]
      simp [he]

theorem union_values (files : List (List ResultParam)) (name : Text) : ∃ l : ValueList,
    unionValues files name = (l.values, l.count) ∧
      ∀ v, v ∈ l.values ↔ ∃ f ∈ files, ∃ p ∈ f, p.name = name ∧ v ∈ p.values := by
  obtain ⟨l, hl, hmem⟩ := fold_values (entries files) name (·.param.values) ValueList.empty
  refine ⟨l, hl, fun v => ?_⟩
  rw [hmem, exists_entry (P := fun p => p.name = name ∧ v ∈ p.values)]
  simp [ValueList.empty, KeyedList.Keyed.empty]

theorem mem_union_names {n : Text} :
    n ∈ unionNames files ↔ ∃ f ∈ files, ∃ p ∈ f, p.name = n := by
  rw [unionNames, (fold_names (entries files) [] .nil).2, ← exists_entry (P := fun p => p.name = n)]
  simp

theorem union_map_name (files : List (List ResultParam)) :
    (union files).map CombinedParam.name = unionNames files := by
  rw [union, List.map_map]
  exact List.map_id _

theorem union_names_nodup (files : List (List ResultParam)) :
    ((union files).map CombinedParam.name).Nodup := by
  rw [union_map_name]
  exact (fold_names (entries files) [] .nil).1

theorem union_list {c : CombinedParam} (hc : c ∈ union files) :
    (∀ v, v ∈ c.values ↔ ∃ f ∈ files, ∃ p ∈ f, p.name = c.name ∧ v ∈ p.values) ∧
      c.values.Nodup ∧ (c.values.Pairwise fun a b => atoi a ≤ atoi b) ∧
      c.numValues = c.values.length := by
  obtain ⟨name, _, rfl⟩ := List.mem_map.mp hc
  obtain ⟨l, hl, hmem⟩ := union_values files name
  simp only [hl]
  exact ⟨hmem, l.nodup, l.sorted, l.counted⟩

end Union

/-- `insert` keeps its lists, and the union has each name once with each of its
values once, in order and counted. -/
theorem union_is_union :
    (∀ (l : ValueList) (data : Text), ∃ l' : ValueList,
      insert data l.values l.count = (l'.values, l'.count) ∧
        ∀ v, v ∈ l'.values ↔ v = data ∨ v ∈ l.values) ∧
    ∀ files : List (List ResultParam),
      ((union files).map CombinedParam.name).Nodup ∧
      (∀ n, n ∈ (union files).map CombinedParam.name ↔ ∃ f ∈ files, ∃ p ∈ f, p.name = n) ∧
      ∀ c ∈ union files,
        (∀ v, v ∈ c.values ↔ ∃ f ∈ files, ∃ p ∈ f, p.name = c.name ∧ v ∈ p.values) ∧
        c.values.Nodup ∧ (c.values.Pairwise fun a b => atoi a ≤ atoi b) ∧
        c.numValues = c.values.length := by
  refine ⟨fun l data => ?_, fun files => ⟨union_names_nodup files, fun n => ?_,
    fun c hc => union_list hc⟩⟩
  · obtain ⟨l', hl, hkeyed⟩ := l.insert_keeps data
    exact ⟨l', hl, fun v => by rw [hkeyed, KeyedList.Keyed.mem_insert]⟩
  · rw [union_map_name]
    exact mem_union_names

end Otpo.ValueMerge
