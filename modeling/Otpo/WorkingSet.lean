import Otpo.Request
import Otpo.Library.Compaction
import Mathlib.Data.List.Zip

/-!
# The arrays behind the selection object

The working set has its own array of functions and its own copies of the
attributes; the original set is shared with other requests. Reducing the set
moves two arrays in place and writes into the copies.
-/

set_option autoImplicit false

namespace Otpo.WorkingSet
open Otpo.ParamList Otpo.Statistics Otpo.Adcl

section Objects

structure AttributeObject where
  maxnvalues : ℕ
  values : List ℤ
  filled : 0 < maxnvalues ∧ maxnvalues ≤ values.length

structure AttrsetObject where
  attrs : List ℕ
  baseval : List ℤ
  maxval : List ℤ
  numval : List ℕ
  sized : baseval.length = attrs.length ∧ maxval.length = attrs.length ∧
    numval.length = attrs.length

structure Heap where
  attributes : List AttributeObject
  attrsets : List AttrsetObject

structure FnctsetObject where
  maxnum : ℕ
  fptrs : List Function
  attrset : ℕ

structure EmethodObject where
  heap : Heap
  orgfnctset : FnctsetObject
  fnctset : FnctsetObject
  stats : List Stat
  orgstats : List Points

end Objects

section Duplicates

def AttributeObject.copy (org : AttributeObject) : AttributeObject :=
  ⟨org.maxnvalues, org.values.take org.maxnvalues, org.filled.1, by
    rw [List.length_take]
    exact le_min (le_refl _) org.filled.2⟩

def attributeDup (heap : Heap) (attr : ℕ) : Except Fault (ℕ × Heap) :=
  match heap.attributes[attr]? with
  | none => .error .undefined
  | some org => .ok (heap.attributes.length,
    { heap with attributes := heap.attributes ++ [org.copy] })

def attributesDup : List ℕ → Heap → Except Fault (List ℕ × Heap)
  | [], heap => .ok ([], heap)
  | attr::attrs, heap =>
    match attributeDup heap attr with
    | .error fault => .error fault
    | .ok (copy, heap) =>
      match attributesDup attrs heap with
      | .error fault => .error fault
      | .ok (copies, heap) => .ok (copy::copies, heap)

theorem copies_length {attrs copies : List ℕ} {heap heap' : Heap}
    (h : attributesDup attrs heap = .ok (copies, heap')) : copies.length = attrs.length := by
  induction attrs generalizing heap copies with
  | nil =>
    cases h
    rfl
  | cons attr attrs ih =>
    rw [attributesDup] at h
    split at h
    · cases h
    · split at h
      · cases h
      · next hcopies =>
        cases h
        rw [List.length_cons, List.length_cons, ih hcopies]

def attrsetDup (heap : Heap) (attrset : ℕ) : Except Fault (ℕ × Heap) :=
  match heap.attrsets[attrset]? with
  | none => .error .undefined
  | some org =>
    match h : attributesDup org.attrs heap with
    | .error fault => .error fault
    | .ok (copies, heap) => .ok (heap.attrsets.length,
      { heap with attrsets := heap.attrsets ++
          [⟨copies, org.baseval, org.maxval, org.numval, by
            rw [copies_length h]
            exact org.sized⟩] })

def fnctsetDup (heap : Heap) (org : FnctsetObject) : Except Fault (FnctsetObject × Heap) :=
  match attrsetDup heap org.attrset with
  | .error fault => .error fault
  | .ok (copy, heap) => .ok (⟨org.maxnum, org.fptrs.take org.maxnum, copy⟩, heap)

def statisticsCreate (maxnum : ℕ) : List Stat := (List.range maxnum).map freshStat

def emethodInit (heap : Heap) (f : FnctsetObject) : Except Fault EmethodObject :=
  match fnctsetDup heap f with
  | .error fault => .error fault
  | .ok (fnctset, heap) => .ok
    { heap, orgfnctset := f, fnctset
      stats := statisticsCreate f.maxnum
      orgstats := List.replicate f.maxnum noPoints }

end Duplicates

section Shrinking

def moveFront (attrPos : ℕ) (requiredValue : ℤ) :
    ℕ → ℕ → ℕ → List Function → List Stat → Except Fault (ℕ × List Function × List Stat)
  | 0, _, count, fptrs, stats => .ok (count, fptrs, stats)
  | left+1, i, count, fptrs, stats =>
    match fptrs[i]? with
    | none => .error .undefined
    | some tfunc =>
      match tfunc.attrVals[attrPos]? with
      | none => .error .undefined
      | some value =>
        if value = requiredValue then
          if count ≠ i then
            match stats[i]? with
            | none => .error .undefined
            | some s => moveFront attrPos requiredValue left (i+1) (count+1)
              (fptrs.set count tfunc) (stats.set count s)
          else moveFront attrPos requiredValue left (i+1) (count+1) fptrs stats
        else moveFront attrPos requiredValue left (i+1) count fptrs stats

def syncStatobjects : List Stat → List Points → Except Fault (List Points)
  | [], orgstats => .ok orgstats
  | s::stats, orgstats =>
    if s.pos < orgstats.length then syncStatobjects stats (orgstats.set s.pos s.gpts)
    else .error .undefined

def AttributeObject.require (attr : AttributeObject) (requiredValue : ℤ) : AttributeObject :=
  ⟨1, attr.values.set 0 requiredValue, Nat.one_pos, by
    rw [List.length_set]
    exact attr.filled.1.trans_le attr.filled.2⟩

def AttrsetObject.require (a : AttrsetObject) (attrPos : ℕ) (requiredValue : ℤ) :
    AttrsetObject :=
  ⟨a.attrs, a.baseval.set attrPos requiredValue, a.maxval.set attrPos requiredValue,
    a.numval.set attrPos 1, by
      rw [List.length_set, List.length_set, List.length_set]
      exact a.sized⟩

def requireValue (heap : Heap) (attrset attrPos : ℕ) (requiredValue : ℤ) : Except Fault Heap :=
  match heap.attrsets[attrset]? with
  | none => .error .undefined
  | some a =>
    match a.attrs[attrPos]? with
    | none => .error .undefined
    | some p =>
      match heap.attributes[p]? with
      | none => .error .undefined
      | some attr => .ok
        { attributes := heap.attributes.set p (attr.require requiredValue)
          attrsets := heap.attrsets.set attrset (a.require attrPos requiredValue) }

def shrinklistByattr (e : EmethodObject) (attrPos : ℕ) (requiredValue : ℤ) :
    Except Fault EmethodObject :=
  match moveFront attrPos requiredValue e.fnctset.maxnum 0 0 e.fnctset.fptrs e.stats with
  | .error fault => .error fault
  | .ok (count, fptrs, stats) =>
    match syncStatobjects (stats.take count) e.orgstats with
    | .error fault => .error fault
    | .ok orgstats =>
      match requireValue e.heap e.fnctset.attrset attrPos requiredValue with
      | .error fault => .error fault
      | .ok heap => .ok { e with
        heap, stats, orgstats
        fnctset := { e.fnctset with maxnum := count, fptrs } }

def shrinkAll : List (ℕ × ℤ) → EmethodObject → Except Fault EmethodObject
  | [], e => .ok e
  | (attrPos, requiredValue)::calls, e =>
    match shrinklistByattr e attrPos requiredValue with
    | .error fault => .error fault
    | .ok e => shrinkAll calls e

end Shrinking

section Sets

def FnctsetObject.functions (f : FnctsetObject) : List Function := f.fptrs.take f.maxnum

structure Created (heap : Heap) (f : FnctsetObject) (a : AttrsetObject) : Prop where
  array : f.maxnum ≤ f.fptrs.length
  attrset : heap.attrsets[f.attrset]? = some a
  attrs : ∀ p ∈ a.attrs, p < heap.attributes.length
  attrVals : ∀ g ∈ f.functions, g.attrVals.length = a.attrs.length

end Sets

section Arrays

variable {attrPos left i count : ℕ} {v : ℤ} {fptrs : List Function} {stats : List Stat}

theorem keeps_iff {g : Function} {value : ℤ} (h : g.attrVals[attrPos]? = some value) :
    keeps attrPos v g = true ↔ value = v := by
  rw [keeps, h, beq_iff_eq, Option.some.injEq]

theorem zip_set {g : Function} {s : Stat} : (fptrs.set count g).zip (stats.set count s) =
    (fptrs.zip stats).set count (g, s) := by
  induction fptrs generalizing count stats with
  | nil => rfl
  | cons g' fptrs ih =>
    cases stats with
    | nil => simp
    | cons s' stats =>
      cases count with
      | zero => rfl
      | succ count => simp [ih]

/-- The two arrays move as one array of pairs would. -/
theorem move_front (hlengths : stats.length = fptrs.length) (hcount : count ≤ i)
    (hleft : i+left ≤ fptrs.length)
    (hvals : ∀ j g, i ≤ j → j < i+left → fptrs[j]? = some g → attrPos < g.attrVals.length) :
    ∃ fptrs' stats', moveFront attrPos v left i count fptrs stats =
        .ok ((Compaction.compact (fun q => keeps attrPos v q.1) left i count
          (fptrs.zip stats)).1, fptrs', stats') ∧
      fptrs'.zip stats' =
        (Compaction.compact (fun q => keeps attrPos v q.1) left i count (fptrs.zip stats)).2 ∧
      fptrs'.length = fptrs.length ∧ stats'.length = fptrs.length := by
  induction left generalizing i count fptrs stats with
  | zero => exact ⟨fptrs, stats, rfl, rfl, rfl, hlengths⟩
  | succ left ih =>
    have hi : i < fptrs.length := by omega
    have hs : i < stats.length := by omega
    have hget : fptrs[i]? = some fptrs[i] := List.getElem?_eq_getElem hi
    have hgets : stats[i]? = some stats[i] := List.getElem?_eq_getElem hs
    have hpair : (fptrs.zip stats)[i]? = some (fptrs[i], stats[i]) :=
      List.getElem?_zip_eq_some.mpr ⟨hget, hgets⟩
    obtain ⟨value, hval⟩ : ∃ value, fptrs[i].attrVals[attrPos]? = some value :=
      ⟨_, List.getElem?_eq_getElem (hvals i _ (Nat.le_refl i) (by omega) hget)⟩
    have hkeeps : keeps attrPos v fptrs[i] = true ↔ value = v := keeps_iff hval
    have hrest : ∀ j g, i+1 ≤ j → j < i+1+left → fptrs[j]? = some g →
        attrPos < g.attrVals.length := fun j g hj hlt => hvals j g (by omega) (by omega)
    rw [moveFront, Compaction.compact, hpair, hget]
    simp only [hval, hgets]
    by_cases hv : value = v
    · rw [if_pos hv, if_pos (hkeeps.mpr hv), ← zip_set]
      have hmoved : ∀ j g, i+1 ≤ j → j < i+1+left → (fptrs.set count fptrs[i])[j]? = some g →
          attrPos < g.attrVals.length := by
        intro j g hj hlt hg
        rw [List.getElem?_set_ne (by omega)] at hg
        exact hrest j g hj hlt hg
      have hset : (stats.set count stats[i]).length = (fptrs.set count fptrs[i]).length := by
        rw [List.length_set, List.length_set, hlengths]
      have hbound : i+1+left ≤ (fptrs.set count fptrs[i]).length := by
        rw [List.length_set]
        omega
      obtain ⟨fptrs', stats', hmove, hzip, hf, hst⟩ :=
        ih hset (show count+1 ≤ i+1 by omega) hbound hmoved
      rw [List.length_set] at hf hst
      refine ⟨fptrs', stats', ?_, hzip, hf, hst⟩
      by_cases hne : count ≠ i
      · rw [if_pos hne, hmove]
      · rw [not_not] at hne
        subst hne
        rw [if_neg (not_not.mpr rfl)]
        rw [List.set_getElem_self, List.set_getElem_self] at hmove ⊢
        exact hmove
    · rw [if_neg hv, if_neg (fun h => hv (hkeeps.mp h))]
      exact ih hlengths (by omega) (by omega) hrest

/-- The statistics objects write into the original array at valid positions. -/
theorem sync_valid {orgstats : List Points} (h : ∀ s ∈ stats, s.pos < orgstats.length) :
    syncStatobjects stats orgstats =
      .ok (stats.foldl (fun o s => o.set s.pos s.gpts) orgstats) := by
  induction stats generalizing orgstats with
  | nil => rfl
  | cons s stats ih =>
    rw [syncStatobjects, if_pos (h s List.mem_cons_self), List.foldl_cons]
    apply ih
    intro t ht
    rw [List.length_set]
    exact h t (List.mem_cons_of_mem _ ht)

theorem sync_length (stats : List Stat) (orgstats : List Points) :
    (stats.foldl (fun o s => o.set s.pos s.gpts) orgstats).length = orgstats.length := by
  induction stats generalizing orgstats with
  | nil => rfl
  | cons s stats ih => rw [List.foldl_cons, ih, List.length_set]

end Arrays

section Heaps

variable {heap heap' : Heap} {attrs : List ℕ} {a : AttrsetObject} {f : FnctsetObject}

structure Extends (heap heap' : Heap) : Prop where
  attributes : ∀ p < heap.attributes.length, heap'.attributes[p]? = heap.attributes[p]?
  attrsets : ∀ p < heap.attrsets.length, heap'.attrsets[p]? = heap.attrsets[p]?

def Heap.values (heap : Heap) (p : ℕ) : List ℤ :=
  match heap.attributes[p]? with
  | some attr => attr.values.take attr.maxnvalues
  | none => []

def Heap.attrset (heap : Heap) (p : ℕ) : Attrset :=
  match heap.attrsets[p]? with
  | some a => ⟨a.attrs.map heap.values, a.baseval, a.maxval, a.numval⟩
  | none => ⟨[], [], [], []⟩

def Heap.fnctset (heap : Heap) (f : FnctsetObject) : Fnctset :=
  ⟨f.functions, heap.attrset f.attrset⟩

/-- The copies are new attributes, one behind the other. -/
theorem attributes_dup (h : ∀ p ∈ attrs, p < heap.attributes.length) :
    ∃ added, attributesDup attrs heap = .ok (List.range' heap.attributes.length attrs.length,
        ⟨heap.attributes ++ added, heap.attrsets⟩) ∧ added.length = attrs.length ∧
      ∀ (i p : ℕ), attrs[i]? = some p →
        added[i]? = heap.attributes[p]?.map AttributeObject.copy := by
  induction attrs generalizing heap with
  | nil => exact ⟨[], by simp [attributesDup], rfl, by simp⟩
  | cons attr attrs ih =>
    have hlt : attr < heap.attributes.length := h attr List.mem_cons_self
    have hget : heap.attributes[attr]? = some heap.attributes[attr] := List.getElem?_eq_getElem hlt
    have hrest : ∀ p ∈ attrs, p < heap.attributes.length :=
      fun p hp => h p (List.mem_cons_of_mem _ hp)
    have hgrown : ∀ p ∈ attrs, p < (Heap.mk (heap.attributes ++ [heap.attributes[attr].copy])
        heap.attrsets).attributes.length := by
      intro p hp
      rw [List.length_append]
      exact Nat.lt_add_right _ (hrest p hp)
    obtain ⟨added, hdup, hlength, hcopy⟩ := ih hgrown
    refine ⟨heap.attributes[attr].copy::added, ?_, congrArg Nat.succ hlength, ?_⟩
    · simp only [attributesDup, attributeDup, hget, hdup, List.length_append, List.length_cons,
        List.length_nil, List.append_assoc, List.singleton_append, List.range'_succ]
    · intro i p hp
      cases i with
      | zero =>
        rw [List.getElem?_cons_zero, Option.some.injEq] at hp
        rw [List.getElem?_cons_zero, ← hp, hget]
        rfl
      | succ i =>
        rw [List.getElem?_cons_succ] at hp ⊢
        rw [hcopy i p hp, List.getElem?_append_left (hrest p (List.mem_of_getElem? hp))]

theorem attrset_dup {p : ℕ} {copies : List ℕ} (hget : heap.attrsets[p]? = some a)
    (hdup : attributesDup a.attrs heap = .ok (copies, heap')) :
    ∃ b, attrsetDup heap p = .ok (heap'.attrsets.length,
        { heap' with attrsets := heap'.attrsets ++ [b] }) ∧
      b.attrs = copies ∧ b.baseval = a.baseval ∧ b.maxval = a.maxval ∧ b.numval = a.numval := by
  refine ⟨⟨copies, a.baseval, a.maxval, a.numval, by
    rw [copies_length hdup]
    exact a.sized⟩, ?_, rfl, rfl, rfl, rfl⟩
  rw [attrsetDup, hget]
  simp only
  split
  · next hfault =>
    rw [hdup] at hfault
    cases hfault
  · next hok =>
    rw [hdup] at hok
    cases hok
    rfl

/-- A fresh selection object: the working set is a copy in new memory. -/
theorem emethod_init (h : Created heap f a) : ∃ b added, emethodInit heap f = .ok
    ⟨⟨heap.attributes ++ added, heap.attrsets ++ [b]⟩, f,
      ⟨f.maxnum, f.functions, heap.attrsets.length⟩,
      statisticsCreate f.maxnum, List.replicate f.maxnum noPoints⟩ ∧
    b.attrs = List.range' heap.attributes.length a.attrs.length ∧ b.baseval = a.baseval ∧
      b.maxval = a.maxval ∧ b.numval = a.numval ∧ added.length = a.attrs.length ∧
      ∀ (i p : ℕ), a.attrs[i]? = some p →
        added[i]? = heap.attributes[p]?.map AttributeObject.copy := by
  obtain ⟨added, hdup, hlength, hcopy⟩ := attributes_dup h.attrs
  obtain ⟨b, hset, hattrs, hbase, hmax, hnum⟩ := attrset_dup h.attrset hdup
  refine ⟨b, added, ?_, hattrs, hbase, hmax, hnum, hlength, hcopy⟩
  simp only [emethodInit, fnctsetDup, hset]
  rfl

end Heaps

end Otpo.WorkingSet
