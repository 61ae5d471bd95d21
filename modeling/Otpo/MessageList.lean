import Otpo.ParamList
import Otpo.Library.ExchangeSort
import Otpo.Library.Tally
import Otpo.Library.Compaction

/-!
# The list of message lengths

The tracing tool keeps a linked list of message lengths with their counters
and the position of its last node. For its output the list is sorted in place
and copied into two arrays of fixed size.
-/

set_option autoImplicit false

namespace Otpo.MessageList
open Otpo.ParamList

section Program

def topCount : ℕ := 10

def arraySize : ℕ := topCount*64

def intMax : ℕ := 2147483647

abbrev Node := ℤ × ℕ

structure Linked where
  nodes : List Node
  temp1 : Option ℕ
  deriving DecidableEq, Repr

structure Arrays where
  messageLengthArr : List ℤ
  counterArr : List ℕ
  deriving DecidableEq, Repr

def noNodes : Linked := ⟨[], none⟩

def zeroArrays : Arrays := ⟨List.replicate arraySize 0, List.replicate arraySize 0⟩

def insertBeg (l : Linked) (messageLength : ℤ) (counter : ℕ) : Linked :=
  if l.nodes = [] then ⟨[(messageLength, counter)], some 0⟩
  else ⟨(messageLength, counter)::l.nodes, none⟩

def insertEnd (l : Linked) (messageLength : ℤ) (counter : ℕ) : Except Fault Linked :=
  if l.nodes = [] then .ok ⟨[(messageLength, counter)], some 0⟩
  else
    match l.temp1 with
    | none => .error .undefined
    | some n =>
      if n < l.nodes.length then
        .ok ⟨l.nodes.take (n+1) ++ [(messageLength, counter)], some (n+1)⟩
      else .error .undefined

def updateCounter (messageLength : ℤ) (counter : ℕ) : List Node → Except Fault (List Node)
  | [] => .ok []
  | e::nodes =>
    if e.1 = messageLength then
      if e.2+counter ≤ intMax then .ok ((e.1, e.2+counter)::nodes) else .error .undefined
    else (updateCounter messageLength counter nodes).map (e::·)

def searchInc (l : Linked) (messageLength : ℤ) (counter : ℕ) : Except Fault Linked :=
  if l.nodes = [] then .ok (insertBeg l messageLength counter)
  else if l.nodes.any (fun e => e.1 == messageLength) then
    (updateCounter messageLength counter l.nodes).map fun nodes => { l with nodes }
  else insertEnd l messageLength counter

def freeList (l : Linked) : Linked := { l with nodes := [] }

def printLinkedlist : List Node → ℕ → Arrays → Except Fault Arrays
  | [], _, a => .ok a
  | e::nodes, j, a =>
    if j < arraySize then
      printLinkedlist nodes (j+1) ⟨a.messageLengthArr.set j e.1, a.counterArr.set j e.2⟩
    else .error .undefined

def sortOccurances (l : Linked) (a : Arrays) : Except Fault (Linked × Arrays) :=
  if l.nodes = [] then .ok (l, a)
  else
    let nodes := ExchangeSort.sort Prod.snd l.nodes
    (printLinkedlist nodes 0 a).map fun a => ({ l with nodes }, a)

end Program

section Linked

variable {l : Linked} {m : ℤ} {c : ℕ} {nodes : List Node}

def Sound (l : Linked) : Prop := l.nodes = [] ∨ l.temp1 = some (l.nodes.length-1)

def Fits (nodes : List Node) : Prop := ∀ e ∈ nodes, e.2 ≤ intMax

theorem update_counter_fits (h : m ∈ nodes.map Prod.fst) (hfits : Fits (Tally.add m c nodes)) :
    updateCounter m c nodes = .ok (Tally.add m c nodes) := by
  induction nodes with
  | nil => cases h
  | cons e nodes ih =>
    rw [updateCounter]
    by_cases he : e.1 = m
    · rw [Tally.add, if_pos he] at hfits ⊢
      rw [if_pos he, if_pos (hfits _ List.mem_cons_self)]
    · rw [Tally.add, if_neg he] at hfits ⊢
      rw [List.map_cons, List.mem_cons, or_iff_right (Ne.symm he)] at h
      rw [if_neg he, ih h fun d hd => hfits d (List.mem_cons_of_mem e hd)]
      rfl

theorem update_counter_overflow (hold : Fits nodes) (h : m ∈ nodes.map Prod.fst)
    (hfits : ¬ Fits (Tally.add m c nodes)) : updateCounter m c nodes = .error .undefined := by
  induction nodes with
  | nil => cases h
  | cons e nodes ih =>
    rw [updateCounter]
    by_cases he : e.1 = m
    · rw [Tally.add, if_pos he] at hfits
      rw [if_pos he, if_neg]
      exact fun hle => hfits fun d hd => by
        rcases List.mem_cons.mp hd with rfl | hd
        · exact hle
        · exact hold d (List.mem_cons_of_mem e hd)
    · rw [Tally.add, if_neg he] at hfits
      rw [List.map_cons, List.mem_cons, or_iff_right (Ne.symm he)] at h
      have hrest : ¬ Fits (Tally.add m c nodes) := fun hall => hfits fun d hd => by
        rcases List.mem_cons.mp hd with rfl | hd
        · exact hold d List.mem_cons_self
        · exact hall d hd
      rw [if_neg he, ih (fun d hd => hold d (List.mem_cons_of_mem e hd)) h hrest]
      rfl

theorem any_iff : nodes.any (fun e => e.1 == m) = true ↔ m ∈ nodes.map Prod.fst := by
  simp [List.any_eq_true]

theorem search_fits (h : Sound l) (hfits : Fits (Tally.add m c l.nodes)) :
    ∃ l', searchInc l m c = .ok l' ∧ l'.nodes = Tally.add m c l.nodes ∧ Sound l' := by
  rw [searchInc]
  by_cases hnil : l.nodes = []
  · rw [if_pos hnil, insertBeg, if_pos hnil, hnil]
    exact ⟨_, rfl, rfl, Or.inr rfl⟩
  · have hlast : l.temp1 = some (l.nodes.length-1) := h.resolve_left hnil
    have hpos : 0 < l.nodes.length := List.length_pos_iff.mpr hnil
    rw [if_neg hnil]
    by_cases hm : m ∈ l.nodes.map Prod.fst
    · rw [if_pos (any_iff.mpr hm), update_counter_fits hm hfits]
      refine ⟨_, rfl, rfl, Or.inr ?_⟩
      have hlength := congrArg List.length (Tally.add_keys (n := c) hm)
      rw [List.length_map, List.length_map] at hlength
      exact hlast.trans (by rw [hlength])
    · have hlt : l.nodes.length-1 < l.nodes.length := Nat.sub_lt hpos Nat.one_pos
      have hsucc : l.nodes.length-1+1 = l.nodes.length := Nat.sub_add_cancel hpos
      rw [if_neg fun hany => hm (any_iff.mp hany), insertEnd, if_neg hnil, hlast]
      simp only [if_pos hlt, hsucc, List.take_length, Tally.add_new hm]
      refine ⟨_, rfl, rfl, Or.inr ?_⟩
      rw [List.length_append, List.length_singleton, Nat.add_sub_cancel]

theorem search_overflow (hold : Fits l.nodes) (hc : c ≤ intMax)
    (hfits : ¬ Fits (Tally.add m c l.nodes)) : searchInc l m c = .error .undefined := by
  have hm : m ∈ l.nodes.map Prod.fst := by
    by_contra hm
    rw [Tally.add_new hm] at hfits
    refine hfits fun e he => ?_
    rcases List.mem_append.mp he with he | he
    · exact hold e he
    · rw [List.mem_singleton.mp he]
      exact hc
  have hnil : l.nodes ≠ [] := by
    intro hnil
    rw [hnil] at hm
    cases hm
  rw [searchInc, if_neg hnil, if_pos (any_iff.mpr hm), update_counter_overflow hold hm hfits]
  rfl

def searchAll : List Node → Linked → Except Fault Linked
  | [], l => .ok l
  | e::es, l =>
    match searchInc l e.1 e.2 with
    | .error fault => .error fault
    | .ok l => searchAll es l

variable {es es' : List Node}

theorem fits_tally : Fits (Tally.tally es) ↔ ∀ k, Tally.total es k ≤ intMax := by
  constructor
  · intro h k
    by_cases hk : k ∈ es.map Prod.fst
    · exact h (k, Tally.total es k) (Tally.mem_tally.mpr ⟨hk, rfl⟩)
    · rw [Tally.total_nil hk]
      exact Nat.zero_le _
  · intro h e he
    rw [(Tally.mem_tally.mp he).2]
    exact h e.1

theorem add_tally (e : Node) :
    Tally.add e.1 e.2 (Tally.tally es) = Tally.tally (es ++ [e]) :=
  (Tally.tally_append es [e]).symm

theorem total_le_append (k : ℤ) : Tally.total es k ≤ Tally.total (es ++ es') k := by
  rw [Tally.total_append]
  exact Nat.le_add_right _ _

/-- Where the sums fit, the list holds them. -/
theorem search_all_fits (h : Sound l) (hl : l.nodes = Tally.tally es)
    (hfits : ∀ k, Tally.total (es ++ es') k ≤ intMax) :
    ∃ l', searchAll es' l = .ok l' ∧ l'.nodes = Tally.tally (es ++ es') ∧ Sound l' := by
  induction es' generalizing l es with
  | nil => exact ⟨l, rfl, by rwa [List.append_nil], h⟩
  | cons e es' ih =>
    rw [List.append_cons] at hfits ⊢
    have hnext : Fits (Tally.add e.1 e.2 l.nodes) := by
      rw [hl, add_tally, fits_tally]
      exact fun k => (total_le_append k).trans (hfits k)
    obtain ⟨l', hsearch, hnodes, hsound⟩ := search_fits h hnext
    rw [hl, add_tally] at hnodes
    rw [searchAll, hsearch]
    exact ih hsound hnodes hfits

theorem search_all_overflow (h : Sound l) (hl : l.nodes = Tally.tally es)
    (hold : ∀ k, Tally.total es k ≤ intMax) (hes : ∀ e ∈ es', e.2 ≤ intMax)
    (hfits : ¬ ∀ k, Tally.total (es ++ es') k ≤ intMax) :
    searchAll es' l = .error .undefined := by
  induction es' generalizing l es with
  | nil =>
    rw [List.append_nil] at hfits
    exact absurd hold hfits
  | cons e es' ih =>
    rw [List.append_cons] at hfits
    rw [searchAll]
    by_cases hnext : ∀ k, Tally.total (es ++ [e]) k ≤ intMax
    · have hadd : Fits (Tally.add e.1 e.2 l.nodes) := by
        rw [hl, add_tally, fits_tally]
        exact hnext
      obtain ⟨l', hsearch, hnodes, hsound⟩ := search_fits h hadd
      rw [hl, add_tally] at hnodes
      rw [hsearch]
      exact ih hsound hnodes hnext (fun d hd => hes d (List.mem_cons_of_mem e hd)) hfits
    · have hover : searchInc l e.1 e.2 = .error .undefined := by
        refine search_overflow ?_ (hes e List.mem_cons_self) ?_
        · rw [hl, fits_tally]
          exact hold
        · rw [hl, add_tally, fits_tally]
          exact hnext
      rw [hover]

/-- An empty list is filled with the sums, whatever `temp1` is. -/
theorem search_all_tally (hl : l.nodes = []) (hfits : ∀ k, Tally.total es k ≤ intMax) :
    ∃ l', searchAll es l = .ok l' ∧ l'.nodes = Tally.tally es := by
  have hempty : l.nodes = Tally.tally [] := hl
  obtain ⟨l', hsearch, hnodes, -⟩ := search_all_fits (Or.inl hl) hempty hfits
  exact ⟨l', hsearch, hnodes⟩

theorem search_all_over (hl : l.nodes = []) (hes : ∀ e ∈ es, e.2 ≤ intMax)
    (hfits : ¬ ∀ k, Tally.total es k ≤ intMax) : searchAll es l = .error .undefined := by
  have hempty : l.nodes = Tally.tally [] := hl
  exact search_all_overflow (Or.inl hl) hempty (fun _ => Nat.zero_le _) hes hfits

end Linked

section Arrays

variable {l : Linked} {a : Arrays} {nodes : List Node} {j : ℕ}

structure Sized (a : Arrays) : Prop where
  lengths : a.messageLengthArr.length = arraySize
  counters : a.counterArr.length = arraySize

def fill {A : Type} : List A → ℕ → List A → List A
  | [], _, array => array
  | x::xs, j, array => fill xs (j+1) (array.set j x)

theorem fill_eq {A : Type} {xs array : List A} (h : j+xs.length ≤ array.length) :
    fill xs j array = array.take j ++ (xs ++ array.drop (j+xs.length)) := by
  induction xs generalizing j array with
  | nil => exact (List.take_append_drop j array).symm
  | cons x xs ih =>
    rw [List.length_cons] at h ⊢
    have hlength : j+1+xs.length ≤ (array.set j x).length := by
      rw [List.length_set]
      omega
    rw [fill, ih hlength, Compaction.take_set_succ (by omega), List.drop_set_of_lt (by omega),
      List.append_assoc, List.singleton_append, List.cons_append, Nat.add_right_comm,
      Nat.add_assoc]

theorem print_fill (h : j+nodes.length ≤ arraySize) : printLinkedlist nodes j a =
    .ok ⟨fill (nodes.map Prod.fst) j a.messageLengthArr,
      fill (nodes.map Prod.snd) j a.counterArr⟩ := by
  induction nodes generalizing j a with
  | nil => rfl
  | cons e nodes ih =>
    rw [List.length_cons] at h
    rw [printLinkedlist, if_pos (by omega), ih (by omega)]
    rfl

theorem print_overflow (h : arraySize < j+nodes.length) (hj : j ≤ arraySize) :
    printLinkedlist nodes j a = .error .undefined := by
  induction nodes generalizing j a with
  | nil =>
    rw [List.length_nil] at h
    omega
  | cons e nodes ih =>
    rw [List.length_cons] at h
    rw [printLinkedlist]
    by_cases hlt : j < arraySize
    · rw [if_pos hlt]
      exact ih (by omega) hlt
    · rw [if_neg hlt]

def sorted (nodes : List Node) : List Node := ExchangeSort.sort Prod.snd nodes

theorem sorted_perm (nodes : List Node) : (sorted nodes).Perm nodes :=
  ExchangeSort.sort_perm nodes

theorem sorted_down (nodes : List Node) : (sorted nodes).Pairwise fun d e => e.2 ≤ d.2 :=
  ExchangeSort.sort_sorted nodes

theorem sorted_length (nodes : List Node) : (sorted nodes).length = nodes.length :=
  (sorted_perm nodes).length_eq

/-- The arrays hold the sorted nodes in front of what was there before. -/
theorem sort_fits (ha : Sized a) (h : l.nodes.length ≤ arraySize) :
    sortOccurances l a = .ok ({ l with nodes := sorted l.nodes },
      ⟨(sorted l.nodes).map Prod.fst ++ a.messageLengthArr.drop l.nodes.length,
        (sorted l.nodes).map Prod.snd ++ a.counterArr.drop l.nodes.length⟩) := by
  rw [sortOccurances]
  by_cases hnil : l.nodes = []
  · rw [if_pos hnil, hnil]
    cases l
    cases hnil
    rfl
  · have hprint : printLinkedlist (sorted l.nodes) 0 a =
        .ok ⟨(sorted l.nodes).map Prod.fst ++ a.messageLengthArr.drop l.nodes.length,
          (sorted l.nodes).map Prod.snd ++ a.counterArr.drop l.nodes.length⟩ := by
      rw [print_fill (by rwa [Nat.zero_add, sorted_length]),
        fill_eq (by rwa [List.length_map, ha.lengths, Nat.zero_add, sorted_length]),
        fill_eq (by rwa [List.length_map, ha.counters, Nat.zero_add, sorted_length])]
      simp only [List.take_zero, List.nil_append, List.length_map, Nat.zero_add, sorted_length]
    rw [if_neg hnil]
    change (printLinkedlist (sorted l.nodes) 0 a).map _ = _
    rw [hprint]
    rfl

theorem sort_overflow (h : arraySize < l.nodes.length) :
    sortOccurances l a = .error .undefined := by
  have hnil : l.nodes ≠ [] := fun hnil => by
    rw [hnil] at h
    exact absurd h (Nat.not_lt_zero _)
  have hprint : printLinkedlist (sorted l.nodes) 0 a = .error .undefined :=
    print_overflow (by rwa [Nat.zero_add, sorted_length]) (Nat.zero_le _)
  rw [sortOccurances, if_neg hnil]
  change (printLinkedlist (sorted l.nodes) 0 a).map _ = _
  rw [hprint]
  rfl

end Arrays

end Otpo.MessageList
