import Mathlib.Data.List.Basic
import Mathlib.Tactic.Ring
import Mathlib.Logic.Function.Basic

/-!
# The array of objects

Requests, functions, attributes and the like are registered in arrays that are
enlarged when they are full. The field `last` is lowered by one only when the
last element is removed, so it is a bound and not the last used position.
-/

set_option autoImplicit false

namespace Otpo.ObjectRegistry

section Operations

variable {P : Type}

structure ArrayElem (P : Type) where
  id : ℤ
  inUse : Bool
  ptr : Option P
  deriving DecidableEq, Repr

structure ObjectArray (P : Type) where
  size : ℕ
  last : ℤ
  array : List (ArrayElem P)
  deriving DecidableEq, Repr

inductive Fault
  | overflow
  | outside
  deriving DecidableEq, Repr

def unused : ArrayElem P := ⟨0, false, none⟩

def arrayInit (size : ℕ) : ObjectArray P := ⟨size, -1, List.replicate size unused⟩

def arrayGetNextFreePos (arr : ObjectArray P) : Except Fault (ℤ × ObjectArray P) :=
  if arr.last < arr.size-1 then
    match arr.array.findIdx? (!·.inUse) with
    | some i => .ok (i, arr)
    | none => .ok (-1, arr)
  else if 2^31 ≤ 2*arr.size then .error .overflow
  else .ok (arr.size,
    { arr with size := 2*arr.size, array := arr.array ++ List.replicate arr.size unused })

def arrayGetPtrByPos (arr : ObjectArray P) (pos : ℕ) : Option P :=
  if pos < arr.size then
    match arr.array[pos]? with
    | some e => if e.inUse then e.ptr else none
    | none => none
  else none

def arraySetElement (arr : ObjectArray P) (pos : ℤ) (id : ℤ) (ptr : P) :
    Except Fault (Bool × ObjectArray P) :=
  if pos < arr.size then
    if pos < 0 then .error .outside
    else
      match arr.array[pos.toNat]? with
      | none => .error .outside
      | some e =>
        if e.inUse then .ok (false, arr)
        else .ok (true, { arr with
          last := if arr.last < pos then pos else arr.last
          array := arr.array.set pos.toNat ⟨id, true, some ptr⟩ })
  else .ok (false, arr)

def arrayRemoveElement (mpiUndefined : ℤ) (arr : ObjectArray P) (pos : ℕ) :
    Except Fault (ObjectArray P) :=
  match arr.array[pos]? with
  | none => .error .outside
  | some e =>
    if e.inUse then .ok { arr with
      last := if pos = arr.last then arr.last-1 else arr.last
      array := arr.array.set pos ⟨mpiUndefined, false, none⟩ }
    else .ok arr

def register (arr : ObjectArray P) (id : ℤ) (ptr : P) :
    Except Fault (ℤ × Bool × ObjectArray P) :=
  match arrayGetNextFreePos arr with
  | .error fault => .error fault
  | .ok (pos, arr) =>
    match arraySetElement arr pos id ptr with
    | .error fault => .error fault
    | .ok (success, arr) => .ok (pos, success, arr)

end Operations

section Purpose

variable {P : Type}

inductive Reachable (mpiUndefined : ℤ) (size : ℕ) : ObjectArray P → (ℕ → Option P) → Prop
  | init : Reachable mpiUndefined size (arrayInit size) fun _ => none
  | register {arr arr' : ObjectArray P} {live : ℕ → Option P} {id : ℤ} {ptr : P} {pos : ℕ}
      {success : Bool} (reached : Reachable mpiUndefined size arr live)
      (registered : register arr id ptr = .ok (pos, success, arr')) :
      Reachable mpiUndefined size arr' (Function.update live pos (some ptr))
  | remove {arr arr' : ObjectArray P} {live : ℕ → Option P} {pos : ℕ}
      (reached : Reachable mpiUndefined size arr live) (used : live pos ≠ none)
      (removed : arrayRemoveElement mpiUndefined arr pos = .ok arr') :
      Reachable mpiUndefined size arr' (Function.update live pos none)

def Registers (arr : ObjectArray P) (live : ℕ → Option P) : Prop :=
  ∀ (id : ℤ) (ptr : P), ∃ (pos : ℕ) (arr' : ObjectArray P),
    register arr id ptr = .ok (pos, true, arr') ∧ pos < arr'.size ∧ live pos = none

structure Kept (mpiUndefined : ℤ) (arr : ObjectArray P) (live : ℕ → Option P) : Prop where
  found : ∀ pos, arrayGetPtrByPos arr pos = live pos
  removes : ∀ pos, live pos ≠ none → ∃ arr', arrayRemoveElement mpiUndefined arr pos = .ok arr'
  last_ge : ∀ pos : ℕ, live pos ≠ none → (pos:ℤ) ≤ arr.last
  last_lt : arr.last < arr.size

def HasRoom (arr : ObjectArray P) : Prop := arr.last < arr.size-1 ∨ 2*arr.size < 2^31

end Purpose

section Invariant

variable {P : Type} {arr arr' : ObjectArray P} {live : ℕ → Option P} {pos size : ℕ}
variable {mpiUndefined : ℤ}

def ArrayElem.object (e : ArrayElem P) : Option P := if e.inUse then e.ptr else none

structure Holds (arr : ObjectArray P) (live : ℕ → Option P) : Prop where
  length : arr.array.length = arr.size
  positive : 0 < arr.size
  cell : ∀ pos, live pos = arr.array[pos]?.bind ArrayElem.object
  filled : ∀ e ∈ arr.array, e.inUse = true → e.ptr ≠ none
  last_ge : ∀ pos : ℕ, live pos ≠ none → (pos:ℤ) ≤ arr.last
  last_lt : arr.last < arr.size

theorem init_holds (hsize : 0 < size) :
    Holds (arrayInit size : ObjectArray P) fun _ => none := by
  constructor
  · exact List.length_replicate
  · exact hsize
  · intro pos
    rw [arrayInit, List.getElem?_replicate]
    by_cases h : pos < size <;> simp [h, unused, ArrayElem.object]
  · intro e he
    rw [List.eq_of_mem_replicate he]
    exact fun h => absurd h Bool.false_ne_true
  · exact fun pos h => absurd rfl h
  · exact Int.lt_of_lt_of_le (by decide : (-1:ℤ) < 0) (Int.natCast_nonneg _)

/-- The element at a position in the array, unused if nothing is registered there. -/
theorem elem_at (h : Holds arr live) (hpos : pos < arr.size) :
    ∃ e, arr.array[pos]? = some e ∧ (e.inUse = false ↔ live pos = none) := by
  obtain ⟨e, he⟩ : ∃ e, arr.array[pos]? = some e :=
    ⟨_, List.getElem?_eq_getElem (by rw [h.length]; exact hpos)⟩
  refine ⟨e, he, ?_⟩
  rw [h.cell, he, Option.bind_some, ArrayElem.object]
  cases huse : e.inUse
  · simp
  · simp [h.filled e (List.mem_of_getElem? he) huse]

theorem live_lt (h : Holds arr live) (hlive : live pos ≠ none) : pos < arr.size := by
  by_contra hpos
  apply hlive
  rw [h.cell, List.getElem?_eq_none (by rw [h.length]; omega), Option.bind_none]

/-- Below the bound by more than one there is a free element. -/
theorem exists_free (h : Holds arr live) (hlast : arr.last < arr.size-1) :
    ∃ i, arr.array.findIdx? (!·.inUse) = some i ∧ i < arr.size ∧ live i = none := by
  have hpos := h.positive
  have hnone : live (arr.size-1) = none := by
    by_contra hlive
    have hle := h.last_ge _ hlive
    omega
  have hlt : arr.size-1 < arr.size := by omega
  obtain ⟨e, he, hfree⟩ := elem_at h hlt
  have hsome : (arr.array.findIdx? (!·.inUse)).isSome = true := by
    rw [List.findIdx?_isSome, List.any_eq_true]
    exact ⟨e, List.mem_of_getElem? he, by rw [hfree.mpr hnone]; rfl⟩
  obtain ⟨i, hi⟩ := Option.isSome_iff_exists.mp hsome
  obtain ⟨hlt, huse, -⟩ := List.findIdx?_eq_some_iff_getElem.mp hi
  rw [h.length] at hlt
  obtain ⟨e, he, hfree⟩ := elem_at h hlt
  refine ⟨i, hi, hlt, hfree.mp ?_⟩
  obtain ⟨_, heq⟩ := List.getElem?_eq_some_iff.mp he
  rw [heq] at huse
  simpa using huse

theorem behind_free (h : Holds arr live) (hpos : arr.size ≤ pos) : live pos = none := by
  by_contra hlive
  exact absurd (live_lt h hlive) (Nat.not_lt.mpr hpos)

/-- The position that is handed out is free, in an array that holds the same. -/
theorem free_pos_holds (h : Holds arr live) (hroom : HasRoom arr) :
    ∃ (pos : ℕ) (arr' : ObjectArray P), arrayGetNextFreePos arr = .ok (pos, arr') ∧
      Holds arr' live ∧ pos < arr'.size ∧ live pos = none := by
  rw [arrayGetNextFreePos]
  by_cases hlast : arr.last < arr.size-1
  · obtain ⟨i, hi, hlt, hnone⟩ := exists_free h hlast
    rw [if_pos hlast, hi]
    exact ⟨i, arr, rfl, h, hlt, hnone⟩
  · have hsize : 2*arr.size < 2^31 := hroom.resolve_left hlast
    rw [if_neg hlast, if_neg (Nat.not_le.mpr hsize)]
    have hpos := h.positive
    have hlt := h.last_lt
    refine ⟨arr.size, _, rfl, ?_, by simp only; omega, behind_free h (Nat.le_refl _)⟩
    constructor
    · simp only [List.length_append, h.length, List.length_replicate]
      omega
    · simp only
      omega
    · intro pos
      simp only [List.getElem?_append, h.length, List.getElem?_replicate]
      by_cases hold : pos < arr.size
      · rw [if_pos hold, h.cell]
      · rw [if_neg hold, behind_free h (Nat.not_lt.mp hold)]
        split_ifs <;> rfl
    · intro e he
      rcases List.mem_append.mp he with he | he
      · exact h.filled e he
      · rw [List.eq_of_mem_replicate he]
        exact fun h => absurd h Bool.false_ne_true
    · exact h.last_ge
    · simp only
      omega

theorem set_element_holds (h : Holds arr live) (hpos : pos < arr.size) (hnone : live pos = none)
    (id : ℤ) (ptr : P) : ∃ arr', arraySetElement arr pos id ptr = .ok (true, arr') ∧
      arr'.size = arr.size ∧ Holds arr' (Function.update live pos (some ptr)) := by
  obtain ⟨e, he, hfree⟩ := elem_at h hpos
  have hlt : (pos:ℤ) < arr.size := Int.ofNat_lt.mpr hpos
  have hneg : ¬ (pos:ℤ) < 0 := Int.not_lt.mpr (Int.natCast_nonneg pos)
  have hlast := h.last_lt
  rw [arraySetElement, if_pos hlt, if_neg hneg, Int.toNat_natCast, he]
  simp only [hfree.mpr hnone, Bool.false_eq_true, if_false]
  refine ⟨_, rfl, rfl, ?_⟩
  constructor
  · simp only [List.length_set, h.length]
  · exact h.positive
  · intro i
    simp only [List.getElem?_set, h.length]
    by_cases hi : pos = i
    · subst i
      simp [hpos, ArrayElem.object]
    · rw [if_neg hi, Function.update_of_ne (Ne.symm hi), h.cell]
  · intro e he
    rcases List.mem_or_eq_of_mem_set he with he | rfl
    · exact h.filled e he
    · simp
  · intro i hi
    by_cases heq : i = pos
    · subst i
      simp only
      split_ifs <;> omega
    · rw [Function.update_of_ne heq] at hi
      have hle := h.last_ge i hi
      simp only
      split_ifs <;> omega
  · simp only
    split_ifs <;> omega

theorem remove_element_holds (mpiUndefined : ℤ) (h : Holds arr live) (hlive : live pos ≠ none) :
    ∃ arr', arrayRemoveElement mpiUndefined arr pos = .ok arr' ∧
      Holds arr' (Function.update live pos none) := by
  obtain ⟨e, he, hfree⟩ := elem_at h (live_lt h hlive)
  have huse : e.inUse = true := by
    by_contra hfalse
    exact hlive (hfree.mp (Bool.not_eq_true _ ▸ hfalse))
  have hpos := live_lt h hlive
  have hlast := h.last_lt
  rw [arrayRemoveElement, he]
  simp only [huse, if_true]
  refine ⟨_, rfl, ?_⟩
  constructor
  · simp only [List.length_set, h.length]
  · exact h.positive
  · intro i
    simp only [List.getElem?_set, h.length]
    by_cases hi : pos = i
    · subst i
      simp [hpos, ArrayElem.object]
    · rw [if_neg hi, Function.update_of_ne (Ne.symm hi), h.cell]
  · intro e he
    rcases List.mem_or_eq_of_mem_set he with he | rfl
    · exact h.filled e he
    · exact fun h => absurd h Bool.false_ne_true
  · intro i hi
    have hne : i ≠ pos := by
      rintro rfl
      exact hi (Function.update_self _ _ _)
    rw [Function.update_of_ne hne] at hi
    have hle := h.last_ge i hi
    simp only
    split_ifs <;> omega
  · simp only
    split_ifs <;> omega

end Invariant

section Runs

variable {P : Type} {arr arr' : ObjectArray P} {live : ℕ → Option P} {pos size : ℕ}
variable {mpiUndefined : ℤ}

theorem register_holds (h : Holds arr live) (hroom : HasRoom arr) (id : ℤ) (ptr : P) :
    ∃ (pos : ℕ) (arr' : ObjectArray P), register arr id ptr = .ok (pos, true, arr') ∧
      pos < arr'.size ∧ live pos = none ∧ Holds arr' (Function.update live pos (some ptr)) := by
  obtain ⟨pos, enlarged, hnext, hholds, hpos, hnone⟩ := free_pos_holds h hroom
  obtain ⟨arr', hset, hsize, hkept⟩ := set_element_holds hholds hpos hnone id ptr
  refine ⟨pos, arr', ?_, by rw [hsize]; exact hpos, hnone, hkept⟩
  simp only [register, hnext, hset]

theorem register_overflow (h : ¬ HasRoom arr) (id : ℤ) (ptr : P) :
    register arr id ptr = .error .overflow := by
  obtain ⟨hlast, hsize⟩ := not_or.mp h
  simp only [register, arrayGetNextFreePos, if_neg hlast, if_pos (Nat.not_lt.mp hsize)]

theorem reachable_holds (hsize : 0 < size) (h : Reachable mpiUndefined size arr live) :
    Holds arr live := by
  induction h with
  | init => exact init_holds hsize
  | @register arr arr' live id ptr pos success _ hregister ih =>
    by_cases hroom : HasRoom arr
    · obtain ⟨pos', arr'', hok, -, -, hkept⟩ := register_holds ih hroom id ptr
      rw [hregister] at hok
      cases hok
      exact hkept
    · rw [register_overflow hroom] at hregister
      cases hregister
  | remove _ hused hremove ih =>
    obtain ⟨arr'', hok, hkept⟩ := remove_element_holds mpiUndefined ih hused
    rw [hremove] at hok
    cases hok
    exact hkept

theorem holds_kept (h : Holds arr live) : Kept mpiUndefined arr live := by
  constructor
  · intro pos
    rw [arrayGetPtrByPos]
    by_cases hpos : pos < arr.size
    · obtain ⟨e, he, -⟩ := elem_at h hpos
      rw [if_pos hpos, h.cell, he]
      rfl
    · rw [if_neg hpos, behind_free h (Nat.not_lt.mp hpos)]
  · intro pos hlive
    obtain ⟨arr', hok, -⟩ := remove_element_holds mpiUndefined h hlive
    exact ⟨arr', hok⟩
  · exact h.last_ge
  · exact h.last_lt

def filledUpTo (n m : ℕ) (ptr : P) : ObjectArray P :=
  ⟨n+m, n-1, List.replicate n ⟨0, true, some ptr⟩ ++ List.replicate m unused⟩

theorem register_next (n m : ℕ) (ptr : P) :
    register (filledUpTo n (m+1) ptr) 0 ptr = .ok (n, true, filledUpTo (n+1) m ptr) := by
  have hfind : (filledUpTo n (m+1) ptr).array.findIdx? (!·.inUse) = some n := by
    simp [filledUpTo, List.findIdx?_append, List.findIdx?_replicate, unused]
  have hget : (filledUpTo n (m+1) ptr).array[n]? = some unused := by
    simp [filledUpTo]
  have hlast : (filledUpTo n (m+1) ptr).last < (filledUpTo n (m+1) ptr).size-1 := by
    simp only [filledUpTo]
    omega
  have hpos : (n:ℤ) < (filledUpTo n (m+1) ptr).size := by
    simp only [filledUpTo]
    omega
  have hneg : ¬ (n:ℤ) < 0 := Int.not_lt.mpr (Int.natCast_nonneg n)
  rw [register, arrayGetNextFreePos, if_pos hlast, hfind]
  simp only [arraySetElement, if_pos hpos, if_neg hneg, Int.toNat_natCast, hget, unused,
    Bool.false_eq_true, if_false]
  have hset : (List.replicate n (⟨0, true, some ptr⟩ : ArrayElem P) ++
      List.replicate (m+1) unused).set n ⟨0, true, some ptr⟩ =
        List.replicate (n+1) ⟨0, true, some ptr⟩ ++ List.replicate m unused := by
    rw [List.set_append_right _ _ (by simp), List.length_replicate, Nat.sub_self,
      List.replicate_succ, List.set_cons_zero, List.replicate_succ', List.append_assoc,
      List.singleton_append]
  have hbound : (n:ℤ)-1 < n := by omega
  have hnext : ((n+1:ℕ):ℤ)-1 = n := by omega
  simp only [filledUpTo, hset, if_pos hbound, hnext, show n+(m+1) = n+1+m by omega]

theorem fills_up (mpiUndefined : ℤ) (ptr : P) (n m : ℕ) :
    ∃ live, Reachable mpiUndefined (n+m) (filledUpTo n m ptr) live := by
  induction n generalizing m with
  | zero =>
    rw [Nat.zero_add]
    refine ⟨fun _ => none, ?_⟩
    have hinit : filledUpTo 0 m ptr = arrayInit m := by
      simp [filledUpTo, arrayInit]
    rw [hinit]
    exact .init
  | succ n ih =>
    obtain ⟨live, hreached⟩ := ih (m+1)
    rw [show n+1+m = n+(m+1) by omega]
    exact ⟨_, .register hreached (register_next n m ptr)⟩

end Runs

/-- As long as the size can be doubled when the array is full, it is a finite map. -/
theorem registry_is_map {P : Type} {mpiUndefined : ℤ} {size : ℕ} {arr : ObjectArray P}
    {live : ℕ → Option P} (hsize : 1 ≤ size) (h : Reachable mpiUndefined size arr live) :
    Kept mpiUndefined arr live ∧ (HasRoom arr → Registers arr live) := by
  have hholds := reachable_holds hsize h
  refine ⟨holds_kept hholds, fun hroom id ptr => ?_⟩
  obtain ⟨pos, arr', hok, hpos, hnone, -⟩ := register_holds hholds hroom id ptr
  exact ⟨pos, arr', hok, hpos, hnone⟩

/-- Two registrations, the second one behind a doubling, and a removal. -/
theorem registry_of_one_grows :
    Kept 0 (⟨2, 1, [⟨0, false, none⟩, ⟨8, true, some 5⟩]⟩ : ObjectArray ℕ)
        (Function.update (Function.update (Function.update (fun _ => none) 0 (some 4)) 1 (some 5))
          0 none) ∧
      Registers (⟨2, 1, [⟨0, false, none⟩, ⟨8, true, some 5⟩]⟩ : ObjectArray ℕ)
        (Function.update (Function.update (Function.update (fun _ => none) 0 (some 4)) 1 (some 5))
          0 none) := by
  have hfirst : Reachable 0 1 (⟨1, 0, [⟨7, true, some 4⟩]⟩ : ObjectArray ℕ) _ :=
    .register .init (show register _ 7 4 = .ok ((0:ℕ), true, _) from rfl)
  have hsecond : Reachable 0 1 (⟨2, 1, [⟨7, true, some 4⟩, ⟨8, true, some 5⟩]⟩ : ObjectArray ℕ) _ :=
    .register hfirst (show register _ 8 5 = .ok ((1:ℕ), true, _) from rfl)
  have hthird : Reachable 0 1 (⟨2, 1, [⟨0, false, none⟩, ⟨8, true, some 5⟩]⟩ : ObjectArray ℕ) _ :=
    .remove hsecond (by decide) (show arrayRemoveElement 0 _ 0 = .ok _ from rfl)
  obtain ⟨hkept, hregisters⟩ := registry_is_map (Nat.le_refl 1) hthird
  exact ⟨hkept, hregisters (Or.inr (by decide))⟩

/-- An array of `2^30` elements that is full cannot be doubled. -/
theorem full_registry_overflows :
    ∃ (arr : ObjectArray Unit) (live : ℕ → Option Unit), Reachable 0 (2^30) arr live ∧
      register arr 0 () = .error .overflow ∧ ¬ Registers arr live := by
  obtain ⟨live, hreached⟩ := fills_up 0 () (2^30) 0
  have hfull : ¬ HasRoom (filledUpTo (2^30) 0 ()) := by
    simp only [HasRoom, filledUpTo]
    omega
  have hoverflow := register_overflow hfull 0 ()
  refine ⟨_, live, hreached, hoverflow, fun h => ?_⟩
  obtain ⟨pos, arr', hok, -⟩ := h 0 ()
  rw [hoverflow] at hok
  cases hok

end Otpo.ObjectRegistry
