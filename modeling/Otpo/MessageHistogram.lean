import Otpo.MessageList
import Mathlib.Algebra.Order.BigOperators.Group.List
import Mathlib.Algebra.Order.Ring.Nat

/-!
# The histogram of message lengths

Each rank records the lengths of its messages. At the end rank 0 gathers the
most frequent ones of each rank, adds them up in a list of its own and prints
this list.
-/

set_option autoImplicit false

namespace Otpo.MessageHistogram
open Otpo.ParamList Otpo.MessageList

section Program

structure Comm where
  size : ℕ
  pos : 0 < size
  small : size ≤ intMax

/-- The instrumented calls, with what they record; of the send counts of
`MPI_Alltoallv` that is the first one. -/
inductive Call
  | reduce (count typelen : ℤ)
  | allreduce (count typelen : ℤ)
  | alltoall (sendcount stypelen : ℤ) (comm : Comm)
  | alltoallv (sendcount stypelen : ℤ) (comm : Comm)
  | isend (count stypelen : ℤ)
  | send (count stypelen : ℤ)
  | irecv
  | recv
  | wait

def entry : Call → Option Node
  | .reduce count typelen => some (count*typelen, 1)
  | .allreduce count typelen => some (count*typelen, 1)
  | .alltoall sendcount stypelen comm => some (sendcount*stypelen, comm.size)
  | .alltoallv sendcount stypelen comm => some (sendcount*stypelen, comm.size)
  | .isend count stypelen => some (count*stypelen, 1)
  | .send count stypelen => some (count*stypelen, 1)
  | .irecv => none
  | .recv => none
  | .wait => none

def record : List Call → Linked → Except Fault Linked
  | [], l => .ok l
  | call::calls, l =>
    match entry call with
    | none => record calls l
    | some (m, c) =>
      match int32 m with
      | .error fault => .error fault
      | .ok m =>
        match searchInc l m c with
        | .error fault => .error fault
        | .ok l => record calls l

def dumpRank (calls : List Call) : Except Fault (Linked × Arrays) :=
  match record calls noNodes with
  | .error fault => .error fault
  | .ok l => sortOccurances l zeroArrays

def dumpRanks : List (List Call) → Except Fault (List (Linked × Arrays))
  | [] => .ok []
  | calls::ranks =>
    match dumpRank calls with
    | .error fault => .error fault
    | .ok r => (dumpRanks ranks).map (r::·)

def gather (ranks : List (Linked × Arrays)) : List Node :=
  (ranks.flatMap fun r => r.2.messageLengthArr.take topCount).zip
    (ranks.flatMap fun r => r.2.counterArr.take topCount)

def rebuild : List Node → ℕ → Linked → Arrays → Except Fault (Linked × Arrays)
  | [], _, l, a => .ok (l, a)
  | e::es, i, l, a =>
    if i < arraySize then
      match searchInc l e.1 e.2 with
      | .error fault => .error fault
      | .ok l => rebuild es (i+1) l ⟨a.messageLengthArr.set i 0, a.counterArr.set i 0⟩
    else .error .undefined

def printTop (size : ℕ) (a : Arrays) : List Node :=
  ((a.messageLengthArr.zip a.counterArr).take (size*topCount)).takeWhile (· ≠ (0, 0))

def mpiFinalize (ranks : List (List Call)) : Except Fault (List Node) :=
  match dumpRanks ranks with
  | .error fault => .error fault
  | .ok [] => .ok []
  | .ok (r::rs) =>
    match rebuild (gather (r::rs)) 0 (freeList r.1) r.2 with
    | .error fault => .error fault
    | .ok (l, a) => (sortOccurances l a).map fun q => printTop (r::rs).length q.2

end Program

section Purpose

def recorded (calls : List Call) : List Node := calls.filterMap entry

def kept (calls : List Call) : List Node :=
  (sorted (Tally.tally (recorded calls))).take topCount

def keptTotal (ranks : List (List Call)) (m : ℤ) : ℕ :=
  ((ranks.filter fun calls => m ∈ (kept calls).map Prod.fst).map fun calls =>
    Tally.total (recorded calls) m).sum

def Histogram (ranks : List (List Call)) : Prop :=
  ∃ lines, mpiFinalize ranks = .ok lines ∧ lines.Pairwise (fun d e => e.2 ≤ d.2) ∧
    (lines.map Prod.fst).Nodup ∧ ∀ e, e ∈ lines ↔ 0 < e.2 ∧ e.2 = keptTotal ranks e.1

def Int32 (m : ℤ) : Prop := -2147483648 ≤ m ∧ m ≤ 2147483647

structure Representable (ranks : List (List Call)) : Prop where
  lengths : ∀ calls ∈ ranks, ∀ e ∈ recorded calls, Int32 e.1
  counters : ∀ calls ∈ ranks, ∀ m, Tally.total (recorded calls) m ≤ intMax
  room : ∀ calls ∈ ranks, ((recorded calls).map Prod.fst).toFinset.card ≤ arraySize
  sums : ∀ m, keptTotal ranks m ≤ intMax

end Purpose

section Ranks

variable {calls : List Call} {l : Linked}

theorem entry_small {call : Call} {e : Node} (h : entry call = some e) :
    0 < e.2 ∧ e.2 ≤ intMax := by
  have hone : 0 < 1 ∧ 1 ≤ intMax := by decide
  cases call with
  | reduce | allreduce | isend | send =>
    cases h
    exact hone
  | alltoall _ _ comm | alltoallv _ _ comm =>
    cases h
    exact ⟨comm.pos, comm.small⟩
  | irecv | recv | wait => cases h

theorem recorded_small : ∀ e ∈ recorded calls, 0 < e.2 ∧ e.2 ≤ intMax := by
  intro e he
  obtain ⟨call, -, hcall⟩ := List.mem_filterMap.mp he
  exact entry_small hcall

theorem int32_fits {m : ℤ} (h : Int32 m) : int32 m = .ok m := if_pos h

theorem record_search (h : ∀ e ∈ recorded calls, Int32 e.1) (l : Linked) :
    record calls l = searchAll (recorded calls) l := by
  induction calls generalizing l with
  | nil => rfl
  | cons call calls ih =>
    cases hcall : entry call with
    | none =>
      rw [recorded, List.filterMap_cons_none hcall] at h ⊢
      simp only [record, hcall]
      exact ih h l
    | some e =>
      rw [recorded, List.filterMap_cons_some hcall] at h ⊢
      simp only [record, hcall, int32_fits (h e List.mem_cons_self), searchAll]
      cases searchInc l e.1 e.2 with
      | error fault => rfl
      | ok l => exact ih (fun d hd => h d (List.mem_cons_of_mem e hd)) l

theorem record_wide {e : Node} (he : e ∈ recorded calls) (hwide : ¬ Int32 e.1) (l l' : Linked) :
    record calls l ≠ .ok l' := by
  induction calls generalizing l with
  | nil => cases he
  | cons call calls ih =>
    cases hcall : entry call with
    | none =>
      rw [recorded, List.filterMap_cons_none hcall] at he
      simp only [record, hcall]
      exact ih he l
    | some d =>
      rw [recorded, List.filterMap_cons_some hcall] at he
      by_cases hd : Int32 d.1
      · have hrest : e ∈ recorded calls := by
          rcases List.mem_cons.mp he with rfl | he
          · exact absurd hd hwide
          · exact he
        simp only [record, hcall, int32_fits hd]
        cases searchInc l d.1 d.2 with
        | error fault => exact fun h => by cases h
        | ok l => exact ih hrest l
      · have hint : int32 d.1 = .error .undefined := if_neg hd
        simp only [record, hcall, hint]
        exact fun h => by cases h

structure Dumped (calls : List Call) (r : Linked × Arrays) : Prop where
  lengths : r.2.messageLengthArr = (sorted (Tally.tally (recorded calls))).map Prod.fst ++
    List.replicate (arraySize-(Tally.tally (recorded calls)).length) 0
  counters : r.2.counterArr = (sorted (Tally.tally (recorded calls))).map Prod.snd ++
    List.replicate (arraySize-(Tally.tally (recorded calls)).length) 0
  room : (Tally.tally (recorded calls)).length ≤ arraySize

theorem zero_sized : Sized zeroArrays := ⟨List.length_replicate, List.length_replicate⟩

structure Local (calls : List Call) : Prop where
  lengths : ∀ e ∈ recorded calls, Int32 e.1
  counters : ∀ m, Tally.total (recorded calls) m ≤ intMax
  room : ((recorded calls).map Prod.fst).toFinset.card ≤ arraySize

theorem dump_fits (h : Local calls) : ∃ r, dumpRank calls = .ok r ∧ Dumped calls r := by
  obtain ⟨hlengths, hcounters, hroom⟩ := h
  obtain ⟨l, hsearch, hnodes⟩ := search_all_tally (show noNodes.nodes = [] from rfl) hcounters
  rw [← Tally.tally_length] at hroom
  rw [dumpRank, record_search hlengths, hsearch]
  refine ⟨_, sort_fits zero_sized (hnodes ▸ hroom), ?_, ?_, hroom⟩
  · rw [hnodes]
    exact congrArg _ List.drop_replicate
  · rw [hnodes]
    exact congrArg _ List.drop_replicate

theorem dump_only {r : Linked × Arrays} (h : dumpRank calls = .ok r) : Local calls := by
  have hlengths : ∀ e ∈ recorded calls, Int32 e.1 := by
    intro e he
    by_contra hwide
    rw [dumpRank] at h
    split at h
    · cases h
    · next l hrecord => exact record_wide he hwide _ _ hrecord
  rw [dumpRank, record_search hlengths] at h
  have hcounters : ∀ m, Tally.total (recorded calls) m ≤ intMax := by
    by_contra hover
    rw [search_all_over rfl (fun e he => (recorded_small e he).2) hover] at h
    cases h
  refine ⟨hlengths, hcounters, ?_⟩
  obtain ⟨l, hsearch, hnodes⟩ := search_all_tally (show noNodes.nodes = [] from rfl) hcounters
  by_contra hroom
  rw [← Tally.tally_length, ← hnodes] at hroom
  rw [hsearch] at h
  simp only [sort_overflow (Nat.lt_of_not_le hroom)] at h
  cases h

theorem dump_ranks_fits {ranks : List (List Call)} (h : ∀ calls ∈ ranks, Local calls) :
    ∃ rs, dumpRanks ranks = .ok rs ∧ List.Forall₂ Dumped ranks rs := by
  induction ranks with
  | nil => exact ⟨[], rfl, List.Forall₂.nil⟩
  | cons calls ranks ih =>
    obtain ⟨rs, hdumps, hall⟩ := ih fun c hc => h c (List.mem_cons_of_mem calls hc)
    obtain ⟨r, hdump, hdumped⟩ := dump_fits (h calls List.mem_cons_self)
    refine ⟨r::rs, ?_, List.Forall₂.cons hdumped hall⟩
    rw [dumpRanks, hdump, hdumps]
    rfl

theorem dump_ranks_only {ranks : List (List Call)} {rs : List (Linked × Arrays)}
    (h : dumpRanks ranks = .ok rs) : ∀ calls ∈ ranks, Local calls := by
  induction ranks generalizing rs with
  | nil => exact List.forall_mem_nil _
  | cons calls ranks ih =>
    rw [dumpRanks] at h
    cases hdump : dumpRank calls with
    | error fault =>
      rw [hdump] at h
      cases h
    | ok r =>
      rw [hdump] at h
      cases hdumps : dumpRanks ranks with
      | error fault =>
        rw [hdumps] at h
        cases h
      | ok rest =>
        intro c hc
        rcases List.mem_cons.mp hc with rfl | hc
        · exact dump_only hdump
        · exact ih hdumps c hc

end Ranks

section Gathering

variable {calls : List Call} {ranks : List (List Call)} {rs : List (Linked × Arrays)}

/-- A list of nodes and zeros behind it, as two arrays. -/
theorem zip_zeros (nodes : List Node) (n : ℕ) :
    (nodes.map Prod.fst ++ List.replicate n 0).zip (nodes.map Prod.snd ++ List.replicate n 0) =
      nodes ++ List.replicate n (0, 0) := by
  have hzip : (nodes.map Prod.fst).zip (nodes.map Prod.snd) = nodes := by
    rw [← List.unzip_fst, ← List.unzip_snd, List.zip_unzip]
  rw [List.zip_append (by rw [List.length_map, List.length_map]), hzip, List.zip_replicate']

theorem dumped_block {r : Linked × Arrays} (h : Dumped calls r) :
    ∃ n, (r.2.messageLengthArr.take topCount).zip (r.2.counterArr.take topCount) =
      kept calls ++ List.replicate n (0, 0) ∧ (kept calls).length+n = topCount := by
  have hlength := sorted_length (Tally.tally (recorded calls))
  have hroom := h.room
  have hkept : (kept calls).length = min topCount (Tally.tally (recorded calls)).length := by
    rw [kept, List.length_take, hlength]
  refine ⟨topCount-(kept calls).length, ?_, by omega⟩
  have hzip : (r.2.messageLengthArr.take topCount).zip (r.2.counterArr.take topCount) =
      (r.2.messageLengthArr.zip r.2.counterArr).take topCount := List.take_zipWith.symm
  rw [hzip, h.lengths, h.counters, zip_zeros, List.take_append, hlength,
    List.take_replicate, kept, List.length_take, hlength]
  congr 2
  rw [arraySize] at hroom ⊢
  rw [topCount] at hroom ⊢
  omega

theorem dumped_lengths {r : Linked × Arrays} (h : Dumped calls r) :
    (r.2.messageLengthArr.take topCount).length = topCount ∧
      (r.2.counterArr.take topCount).length = topCount := by
  have hroom := h.room
  rw [arraySize, topCount] at hroom
  constructor
  · rw [h.lengths, List.length_take, List.length_append, List.length_map, sorted_length,
      List.length_replicate, arraySize, topCount]
    omega
  · rw [h.counters, List.length_take, List.length_append, List.length_map, sorted_length,
      List.length_replicate, arraySize, topCount]
    omega

inductive Gathered : List (List Call) → List Node → Prop
  | nil : Gathered [] []
  | cons {calls : List Call} {ranks : List (List Call)} {es : List Node} {n : ℕ}
      (full : (kept calls).length+n = topCount) (rest : Gathered ranks es) :
      Gathered (calls::ranks) (kept calls ++ List.replicate n (0, 0) ++ es)

theorem gather_gathered (h : List.Forall₂ Dumped ranks rs) : Gathered ranks (gather rs) := by
  induction h with
  | nil => exact Gathered.nil
  | @cons calls r ranks rs hdumped _ ih =>
    obtain ⟨n, hblock, hfull⟩ := dumped_block hdumped
    have hlengths := dumped_lengths hdumped
    have hcons : gather (r::rs) = kept calls ++ List.replicate n (0, 0) ++ gather rs := by
      rw [gather, List.flatMap_cons, List.flatMap_cons,
        List.zip_append (hlengths.1.trans hlengths.2.symm), hblock]
      rfl
    rw [hcons]
    exact Gathered.cons hfull ih

variable {es : List Node}

theorem gathered_length (h : Gathered ranks es) : es.length = ranks.length*topCount := by
  induction h with
  | nil => exact (Nat.zero_mul _).symm
  | cons hfull _ ih =>
    rw [List.length_append, List.length_append, List.length_replicate, hfull, ih, List.length_cons,
      Nat.succ_mul, Nat.add_comm]

theorem kept_mem {e : Node} (h : e ∈ kept calls) : e ∈ Tally.tally (recorded calls) :=
  (sorted_perm _).mem_iff.mp (List.mem_of_mem_take h)

theorem sorted_nodup (es : List Node) : ((sorted (Tally.tally es)).map Prod.fst).Nodup :=
  ((sorted_perm _).map Prod.fst).nodup_iff.mpr (Tally.tally_tallies es).nodup

theorem kept_nodup (calls : List Call) : ((kept calls).map Prod.fst).Nodup :=
  (sorted_nodup (recorded calls)).sublist ((List.take_sublist _ _).map Prod.fst)

/-- What is kept has no greater count behind it. -/
theorem kept_top {d e : Node} (hd : d ∈ kept calls) (he : e ∈ Tally.tally (recorded calls))
    (hout : e ∉ kept calls) : e.2 ≤ d.2 := by
  have hdown := sorted_down (Tally.tally (recorded calls))
  have hmem := (sorted_perm (Tally.tally (recorded calls))).mem_iff.mpr he
  rw [← List.take_append_drop topCount (sorted _), List.pairwise_append] at hdown
  rw [← List.take_append_drop topCount (sorted _), List.mem_append] at hmem
  exact hdown.2.2 d hd e (hmem.resolve_left hout)

theorem kept_pos {e : Node} (h : e ∈ kept calls) : 0 < e.2 := by
  obtain ⟨hkey, htotal⟩ := Tally.mem_tally.mp (kept_mem h)
  obtain ⟨d, hd, hsame⟩ := List.mem_map.mp hkey
  rw [htotal, ← hsame]
  exact (recorded_small d hd).1.trans_le (Tally.le_total hd)

theorem total_kept (calls : List Call) (m : ℤ) : Tally.total (kept calls) m =
    if m ∈ (kept calls).map Prod.fst then Tally.total (recorded calls) m else 0 := by
  split_ifs with hm
  · obtain ⟨e, he, rfl⟩ := List.mem_map.mp hm
    rw [Tally.total_of_mem (kept_nodup calls) he]
    exact (Tally.mem_tally.mp (kept_mem he)).2
  · exact Tally.total_nil hm

theorem gathered_total (h : Gathered ranks es) (m : ℤ) :
    Tally.total es m = keptTotal ranks m := by
  induction h with
  | nil => rfl
  | @cons calls ranks es n _ _ ih =>
    have hzeros : Tally.total (List.replicate n ((0:ℤ), 0)) m = 0 := by
      refine Tally.total_zero fun e he => ?_
      rw [List.eq_of_mem_replicate he]
    rw [Tally.total_append, Tally.total_append, hzeros, total_kept, ih, keptTotal, keptTotal,
      List.filter_cons]
    by_cases hm : m ∈ (kept calls).map Prod.fst
    · rw [if_pos hm, if_pos (decide_eq_true hm), List.map_cons, List.sum_cons, Nat.add_zero]
    · rw [if_neg hm, if_neg (by rw [decide_eq_true_eq]; exact hm), Nat.zero_add]

theorem gathered_mem (h : Gathered ranks es) {e : Node} (he : e ∈ es) :
    e = (0, 0) ∨ 0 < e.2 ∧ ∃ calls ∈ ranks, e ∈ kept calls := by
  induction h with
  | nil => cases he
  | @cons calls ranks es n _ _ ih =>
    rw [List.mem_append, List.mem_append] at he
    rcases he with (he | he) | he
    · exact Or.inr ⟨kept_pos he, calls, List.mem_cons_self, he⟩
    · exact Or.inl (List.eq_of_mem_replicate he)
    · refine (ih he).imp_right fun ⟨hpos, c, hc, hmem⟩ => ⟨hpos, c, ?_, hmem⟩
      exact List.mem_cons_of_mem calls hc

/-- Nothing but the zeros of the arrays has no count. -/
theorem gathered_zero (h : Gathered ranks es) {e : Node} (he : e ∈ Tally.tally es) :
    e ≠ (0, 0) ↔ 0 < e.2 := by
  constructor
  · intro hne
    by_contra hzero
    obtain ⟨hkey, htotal⟩ := Tally.mem_tally.mp he
    obtain ⟨d, hd, hsame⟩ := List.mem_map.mp hkey
    have hle : d.2 ≤ e.2 := by
      rw [htotal, ← hsame]
      exact Tally.le_total hd
    rcases gathered_mem h hd with rfl | ⟨hpos, -⟩
    · exact hne (Prod.ext hsame.symm (Nat.eq_zero_of_not_pos hzero))
    · omega
  · rintro hpos rfl
    exact absurd hpos (lt_irrefl 0)

end Gathering

section Printing

variable {ranks : List (List Call)} {es : List Node} {l : Linked} {a : Arrays}

theorem rebuild_search {i : ℕ} (h : i+es.length ≤ arraySize) (l : Linked) (a : Arrays) :
    rebuild es i l a = (searchAll es l).map fun l =>
      (l, ⟨fill (List.replicate es.length 0) i a.messageLengthArr,
        fill (List.replicate es.length 0) i a.counterArr⟩) := by
  induction es generalizing i l a with
  | nil => rfl
  | cons e es ih =>
    rw [List.length_cons] at h
    rw [rebuild, if_pos (by omega), searchAll]
    cases searchInc l e.1 e.2 with
    | error fault => rfl
    | ok l => exact ih (by omega) l _

def topLines (es : List Node) : List Node :=
  (sorted (Tally.tally es)).filter fun e => 0 < e.2

theorem tally_short (es : List Node) : (Tally.tally es).length ≤ es.length := by
  rw [Tally.tally_length]
  exact (List.toFinset_card_le _).trans (by rw [List.length_map])

theorem take_while_zeros (nodes : List Node) (n : ℕ) :
    (nodes ++ List.replicate n (0, 0)).takeWhile (· ≠ (0, 0)) =
      nodes.takeWhile (· ≠ ((0, 0):Node)) := by
  induction nodes with
  | nil => cases n <;> rfl
  | cons e nodes ih =>
    rw [List.cons_append, List.takeWhile_cons, List.takeWhile_cons, ih]

/-- The print stops where the counts end. -/
theorem sorted_lines (h : Gathered ranks es) :
    (sorted (Tally.tally es)).takeWhile (· ≠ (0, 0)) = topLines es := by
  have hmem : ∀ e ∈ sorted (Tally.tally es), e ≠ (0, 0) ↔ 0 < e.2 := fun e he =>
    gathered_zero h ((sorted_perm _).mem_iff.mp he)
  rw [ExchangeSort.take_while_filter]
  · exact List.filter_congr fun e he => decide_eq_decide.mpr (hmem e he)
  · refine (sorted_down _).imp_of_mem fun {d e} hd he hle hne => ?_
    rw [decide_eq_true_eq] at hne ⊢
    exact (hmem d hd).mpr (((hmem e he).mp hne).trans_le hle)

/-- The arrays with the nodes of rank 0, cleared places and what was there before. -/
theorem print_top (h : Gathered ranks es) (restLengths : List ℤ) (restCounters : List ℕ) :
    printTop ranks.length ⟨(sorted (Tally.tally es)).map Prod.fst ++
        (List.replicate es.length 0 ++ restLengths).drop (Tally.tally es).length,
      (sorted (Tally.tally es)).map Prod.snd ++
        (List.replicate es.length 0 ++ restCounters).drop (Tally.tally es).length⟩ =
      topLines es := by
  have hnodes := tally_short es
  have hlength := sorted_length (Tally.tally es)
  have hdrop : ∀ {A : Type} (zero : A) (rest : List A),
      (List.replicate es.length zero ++ rest).drop (Tally.tally es).length =
        List.replicate (es.length-(Tally.tally es).length) zero ++ rest := by
    intro A zero rest
    rw [List.drop_append_of_le_length (by rwa [List.length_replicate]), List.drop_replicate]
  have hwidth : (sorted (Tally.tally es) ++
      List.replicate (es.length-(Tally.tally es).length) ((0:ℤ), 0)).length =
        ranks.length*topCount := by
    rw [List.length_append, List.length_replicate, hlength, ← gathered_length h]
    omega
  rw [printTop, hdrop, hdrop, ← List.append_assoc, ← List.append_assoc, List.zip_append (by simp),
    zip_zeros, ← hwidth, List.take_left, take_while_zeros, sorted_lines h]

theorem gathered_room (h : Gathered ranks es) (hsize : ranks.length ≤ 64) :
    0+es.length ≤ arraySize := by
  rw [gathered_length h, Nat.zero_add, arraySize, Nat.mul_comm]
  exact Nat.mul_le_mul_left _ hsize

theorem print_lines (h : Gathered ranks es) (hsize : ranks.length ≤ 64) (ha : Sized a)
    (hl : l.nodes = []) (hfits : ∀ m, Tally.total es m ≤ intMax) :
    ∃ q, rebuild es 0 l a = .ok q ∧
      (sortOccurances q.1 q.2).map (fun q => printTop ranks.length q.2) = .ok (topLines es) := by
  have hzero := gathered_room h hsize
  have hroom : es.length ≤ arraySize := by rwa [Nat.zero_add] at hzero
  have hnodes := tally_short es
  obtain ⟨l', hsearch, htally⟩ := search_all_tally hl hfits
  rw [rebuild_search hzero, hsearch]
  refine ⟨_, rfl, ?_⟩
  have hlengths : fill (List.replicate es.length 0) 0 a.messageLengthArr =
      List.replicate es.length 0 ++ a.messageLengthArr.drop es.length := by
    rw [fill_eq (by rwa [List.length_replicate, ha.lengths]), List.length_replicate,
      Nat.zero_add]
    rfl
  have hcounters : fill (List.replicate es.length 0) 0 a.counterArr =
      List.replicate es.length 0 ++ a.counterArr.drop es.length := by
    rw [fill_eq (by rwa [List.length_replicate, ha.counters]), List.length_replicate,
      Nat.zero_add]
    rfl
  have hsized : Sized ⟨List.replicate es.length 0 ++ a.messageLengthArr.drop es.length,
      List.replicate es.length 0 ++ a.counterArr.drop es.length⟩ := by
    constructor
    · rw [List.length_append, List.length_replicate, List.length_drop, ha.lengths]
      omega
    · rw [List.length_append, List.length_replicate, List.length_drop, ha.counters]
      omega
  rw [hlengths, hcounters, sort_fits hsized (by rw [htally]; omega), htally]
  exact congrArg Except.ok (print_top h _ _)

theorem mem_lines (h : Gathered ranks es) (e : Node) :
    e ∈ topLines es ↔ 0 < e.2 ∧ e.2 = keptTotal ranks e.1 := by
  rw [topLines, List.mem_filter, decide_eq_true_eq, (sorted_perm _).mem_iff, Tally.mem_tally,
    gathered_total h, and_comm]
  refine and_congr_right fun hpos => and_iff_right_of_imp fun htotal => ?_
  by_contra hkey
  rw [htotal, ← gathered_total h, Tally.total_nil hkey] at hpos
  exact absurd hpos (lt_irrefl 0)

theorem lines_sorted (es : List Node) : (topLines es).Pairwise fun d e => e.2 ≤ d.2 :=
  (sorted_down (Tally.tally es)).filter _

theorem lines_nodup (es : List Node) : ((topLines es).map Prod.fst).Nodup :=
  (sorted_nodup es).sublist (List.filter_sublist.map Prod.fst)

theorem dumped_sized {calls : List Call} {r : Linked × Arrays} (h : Dumped calls r) :
    Sized r.2 := by
  have hroom := h.room
  constructor
  · rw [h.lengths, List.length_append, List.length_map, sorted_length, List.length_replicate]
    omega
  · rw [h.counters, List.length_append, List.length_map, sorted_length, List.length_replicate]
    omega

theorem gathered_small (h : Gathered ranks es)
    (hcounters : ∀ calls ∈ ranks, ∀ m, Tally.total (recorded calls) m ≤ intMax) :
    ∀ e ∈ es, e.2 ≤ intMax := by
  intro e he
  rcases gathered_mem h he with rfl | ⟨-, calls, hcalls, hkept⟩
  · exact Nat.zero_le _
  · rw [(Tally.mem_tally.mp (kept_mem hkept)).2]
    exact hcounters calls hcalls e.1

theorem finalize_local {lines : List Node} (h : mpiFinalize ranks = .ok lines) :
    ∀ calls ∈ ranks, Local calls := by
  cases hdumps : dumpRanks ranks with
  | error fault =>
    rw [mpiFinalize, hdumps] at h
    cases h
  | ok rs => exact dump_ranks_only hdumps

end Printing

/-- Rank 0 prints the histogram if and only if the numbers fit an `int` and no
rank has more distinct message lengths than the arrays have places. -/
theorem finalize_iff {ranks : List (List Call)} (hne : ranks ≠ []) (hsize : ranks.length ≤ 64) :
    Histogram ranks ↔ Representable ranks := by
  obtain ⟨calls, ranks, rfl⟩ := List.exists_cons_of_ne_nil hne
  constructor
  · rintro ⟨lines, hrun, -⟩
    have hlocal := finalize_local hrun
    refine ⟨fun c hc => (hlocal c hc).lengths, fun c hc => (hlocal c hc).counters,
      fun c hc => (hlocal c hc).room, ?_⟩
    by_contra hsums
    obtain ⟨rs, hdumps, hall⟩ := dump_ranks_fits hlocal
    have hgathered := gather_gathered hall
    cases hall with
    | @cons _ r _ rs hdumped hall =>
      have hover : ¬ ∀ m, Tally.total (gather (r::rs)) m ≤ intMax := fun hfits => hsums fun m => by
        rw [← gathered_total hgathered]
        exact hfits m
      have hsearch : searchAll (gather (r::rs)) (freeList r.1) = .error .undefined :=
        search_all_over rfl (gathered_small hgathered fun c hc => (hlocal c hc).counters) hover
      have hroom : 0+(gather (r::rs)).length ≤ arraySize := gathered_room hgathered hsize
      simp only [mpiFinalize, hdumps, rebuild_search hroom, hsearch] at hrun
      cases hrun
  · intro h
    obtain ⟨rs, hdumps, hall⟩ := dump_ranks_fits fun c hc =>
      ⟨h.lengths c hc, h.counters c hc, h.room c hc⟩
    have hgathered := gather_gathered hall
    cases hall with
    | @cons _ r _ rs hdumped hall =>
      have hfits : ∀ m, Tally.total (gather (r::rs)) m ≤ intMax := fun m => by
        rw [gathered_total hgathered]
        exact h.sums m
      obtain ⟨q, hrebuild, hprint⟩ :=
        print_lines hgathered hsize (dumped_sized hdumped) (l := freeList r.1) rfl hfits
      refine ⟨topLines (gather (r::rs)), ?_, lines_sorted _, lines_nodup _, mem_lines hgathered⟩
      have hlength : (r::rs).length = (calls::ranks).length := by
        rw [List.length_cons, List.length_cons, hall.length_eq]
      simp only [mpiFinalize, hdumps, hrebuild, hlength]
      exact hprint

theorem total_le (es : List Node) (m : ℤ) : Tally.total es m ≤ (es.map Prod.snd).sum :=
  (List.filter_sublist.map _).sum_le_sum fun _ _ => Nat.zero_le _

/-- A program with few messages. -/
theorem representable_few {ranks : List (List Call)}
    (hlengths : ∀ calls ∈ ranks, ∀ e ∈ recorded calls, Int32 e.1)
    (hroom : ∀ calls ∈ ranks, (recorded calls).length ≤ arraySize)
    (hsum : (ranks.map fun calls => ((recorded calls).map Prod.snd).sum).sum ≤ intMax) :
    Representable ranks where
  lengths := hlengths
  counters calls hcalls m := (total_le _ m).trans
    ((List.single_le_sum (fun _ _ => Nat.zero_le _) _ (List.mem_map_of_mem hcalls)).trans hsum)
  room calls hcalls := (List.toFinset_card_le _).trans (by
    rw [List.length_map]
    exact hroom calls hcalls)
  sums m := by
    refine le_trans ?_ hsum
    refine ((List.filter_sublist.map _).sum_le_sum fun _ _ => Nat.zero_le _).trans ?_
    exact List.sum_le_sum fun calls _ => total_le _ m

/-- Two ranks with a length in common, and one that records nothing. -/
theorem finalize_ranks : Histogram [[.send 2 4, .send 1 8, .allreduce 3 4],
    [.isend 1 8, .irecv, .alltoall 3 4 ⟨3, by decide, by decide⟩], [.recv]] := by
  refine (finalize_iff (List.cons_ne_nil _ _) (by decide)).mpr (representable_few ?_ ?_ ?_)
  · unfold Int32
    decide
  · decide
  · decide

/-- A rank with one length too many. -/
theorem finalize_many : ¬ Histogram [(List.range 641).map fun k : ℕ => .send k 1] := by
  rintro ⟨lines, hrun, -⟩
  have hroom := (finalize_local hrun _ (List.mem_singleton_self _)).room
  have hrecorded : (recorded ((List.range 641).map fun k : ℕ => .send k 1)).map Prod.fst =
      (List.range 641).map fun k : ℕ => (k:ℤ)*1 := by
    rw [recorded, List.filterMap_map]
    simp [Function.comp_def, entry]
  have hnodup : ((List.range 641).map fun k : ℕ => (k:ℤ)*1).Nodup := by
    refine List.nodup_range.map fun j k h => ?_
    rw [mul_one, mul_one] at h
    exact Int.ofNat_inj.mp h
  rw [hrecorded, List.toFinset_card_of_nodup hnodup, List.length_map, List.length_range] at hroom
  exact absurd hroom (by decide)

end Otpo.MessageHistogram
