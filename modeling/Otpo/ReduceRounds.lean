import Otpo.ReduceOverlap

/-!
# A round for each segment

In a round all ranks handle one segment. A rank takes in the segment from its
children and passes it on to its parent.
-/

set_option autoImplicit false

namespace Otpo.ReduceRounds
open Function MessagePassing Otpo.MpiCalls Otpo.ReduceTopo Otpo.Reduce Otpo.ReduceOverlap

section segments

variable {a : Args}

def done (a : Args) (segindex : ℕ) : ℕ := min (segindex*a.countBySegment) a.originalCount

theorem numSegments_le (hseg : 0 < a.countBySegment) :
    a.originalCount ≤ numSegments a*a.countBySegment := by
  have := Nat.div_add_mod' (a.originalCount+a.countBySegment-1) a.countBySegment
  have := Nat.mod_lt (a.originalCount+a.countBySegment-1) hseg
  unfold numSegments
  omega

theorem lt_numSegments (hseg : 0 < a.countBySegment) {segindex : ℕ} :
    segindex < numSegments a ↔ segindex*a.countBySegment < a.originalCount := by
  unfold numSegments
  rw [← Nat.succ_le_iff, Nat.le_div_iff_mul_le hseg, Nat.succ_mul]
  omega

theorem segment_eq (hseg : 0 < a.countBySegment) {segindex : ℕ} (h : segindex < numSegments a) :
    segmentOffset a segindex = done a segindex := by
  have := (lt_numSegments hseg).mp h
  rw [segmentOffset, done, Nat.min_eq_left this.le]

theorem done_succ (hseg : 0 < a.countBySegment) {segindex : ℕ} (h : segindex < numSegments a) :
    done a (segindex+1) = done a segindex+recvcount a segindex := by
  have hlow := (lt_numSegments hseg).mp h
  have hnext : segindex+1 < numSegments a ↔ _ := lt_numSegments hseg
  rw [done, done, recvcount, Nat.min_eq_left hlow.le, Nat.succ_mul] at *
  by_cases hlast : segindex+1 = numSegments a
  · rw [if_pos hlast, Nat.mul_comm a.countBySegment]
    omega
  · rw [if_neg hlast]
    omega

theorem recvcount_eq (hseg : 0 < a.countBySegment) {segindex : ℕ} (h : segindex < numSegments a) :
    recvcount a segindex = min a.countBySegment (a.originalCount-segindex*a.countBySegment) := by
  have hlow := (lt_numSegments hseg).mp h
  have hsucc := done_succ hseg h
  rw [done, done, Nat.min_eq_left hlow.le, Nat.succ_mul] at hsucc
  omega

end segments

variable (a : Args) (sendbuf : Option Place) (recvbuf : Place) (tree : Tree) (rank : ℕ)

def carried : Place :=
  if tree.nextsize > 0 then accumbuf a recvbuf rank else sendbuf.getD .sbuf

def pieces (segindex : ℕ) : List (Piece ℕ Memory (List Int32)) :=
  (List.range tree.nextsize).flatMap fun i =>
    takeIn a sendbuf recvbuf tree rank (tree.nextsize*segindex+i)

def dests : List ℕ := if rank ≠ tree.root then [tree.prev.toNat] else []

def payload (segindex : ℕ) : Memory → List Int32 :=
  read (carried a sendbuf recvbuf tree rank, segmentOffset a segindex) (recvcount a segindex)

def round (segindex : ℕ) : Code Int32 Memory :=
  wave (pieces a sendbuf recvbuf tree rank segindex) (dests tree rank)
    (fun _ => payload a sendbuf recvbuf tree rank segindex)

theorem sources_pieces (segindex : ℕ) :
    sources (pieces a sendbuf recvbuf tree rank segindex) = tree.children := by
  rw [pieces, sources, Tree.children, List.filterMap_flatMap, List.map_eq_flatMap]
  apply List.flatMap_congr
  intro i hi
  simp [takeIn, Piece.source?, ReduceOverlap.source, (pass_at (List.mem_range.mp hi)).2]

theorem flatMap_range_mul {X : Type} (f : ℕ → List X) (n k : ℕ) :
    (List.range (n*k)).flatMap f =
      (List.range n).flatMap fun s => (List.range k).flatMap fun i => f (k*s+i) := by
  induction n with
  | zero => simp
  | succ n ih =>
    rw [Nat.succ_mul, List.range_add, List.flatMap_append, ih, List.range_succ,
      List.flatMap_append, List.flatMap_singleton, List.flatMap_map, Nat.mul_comm n k]

/-- The passes for one segment are a round. -/
theorem passes_round (hk : 0 < tree.nextsize) (segindex : ℕ) :
    (List.range tree.nextsize).flatMap (fun i =>
      .post (ReduceOverlap.source tree (tree.nextsize*segindex+i))::
        work a sendbuf recvbuf tree rank (tree.nextsize*segindex+i)) =
      round a sendbuf recvbuf tree rank segindex := by
  obtain ⟨j, hj⟩ : ∃ j, tree.nextsize = j+1 := Nat.exists_eq_succ_of_ne_zero hk.ne'
  have hwork (i : ℕ) (hi : i < tree.nextsize) :
      Instruction.post (ReduceOverlap.source tree (tree.nextsize*segindex+i))::
        work a sendbuf recvbuf tree rank (tree.nextsize*segindex+i) =
      (takeIn a sendbuf recvbuf tree rank (tree.nextsize*segindex+i)).flatMap Piece.code++
        if i = j then passOn a recvbuf tree rank segindex else [] := by
    obtain ⟨hdiv, hmod⟩ := pass_at (s := segindex) hi
    have hlast : i+1 = tree.nextsize ↔ i = j := by omega
    simp only [work, takeIn, hdiv, hmod, hlast]
    rfl
  have hpass : passOn a recvbuf tree rank segindex =
      (dests tree rank).map
        (fun dest => .send dest (payload a sendbuf recvbuf tree rank segindex))++
        (dests tree rank).map .complete := by
    rw [passOn, dests, payload, carried, if_pos hk]
    split <;> rfl
  rw [List.flatMap_congr (fun i hi => hwork i (List.mem_range.mp hi)), round, wave, ← hpass,
    pieces, List.flatMap_assoc]
  generalize tree.nextsize = k at *
  subst hj
  rw [List.range_succ, List.flatMap_append, List.flatMap_append, List.flatMap_singleton,
    List.flatMap_singleton, if_pos rfl, List.append_assoc]
  congr 1
  apply List.flatMap_congr
  intro i hi
  rw [if_neg (List.mem_range.mp hi).ne, List.append_nil]

theorem leafLoop_eq (hseg : 0 < a.countBySegment) (n segindex countBySegment : ℕ)
    (hn : segindex+n = numSegments a) (hcount : countBySegment = a.countBySegment ∨ n = 0) :
    leafLoop a sendbuf tree (a.originalCount-segindex*a.countBySegment) countBySegment segindex =
      (List.range' segindex n).flatMap fun segindex =>
        send (sendbuf.getD .sbuf, segmentOffset a segindex) (recvcount a segindex)
          tree.prev.toNat := by
  induction n generalizing segindex countBySegment with
  | zero =>
    have := numSegments_le hseg
    rw [leafLoop, if_neg]
    · rfl
    · rw [← hn, Nat.add_zero] at this
      omega
  | succ n ih =>
    obtain rfl : countBySegment = a.countBySegment := by omega
    have hlow := (lt_numSegments hseg).mp (by omega : segindex < numSegments a)
    have hrecv := recvcount_eq hseg (by omega : segindex < numSegments a)
    have hthis : (if a.originalCount-segindex*a.countBySegment < a.countBySegment then
        a.originalCount-segindex*a.countBySegment else a.countBySegment) =
        recvcount a segindex := by
      rw [hrecv]
      split <;> omega
    have hrest : a.originalCount-segindex*a.countBySegment-recvcount a segindex =
        a.originalCount-(segindex+1)*a.countBySegment := by
      rw [hrecv, Nat.succ_mul]
      omega
    rw [leafLoop, if_pos (by omega), List.range'_succ, List.flatMap_cons]
    simp only [hthis, hrest]
    congr 1
    apply ih (segindex+1) _ (by omega)
    by_cases hzero : n = 0
    · exact Or.inr hzero
    · left
      have := (lt_numSegments hseg).mp (by omega : segindex+1 < numSegments a)
      rw [Nat.succ_mul] at this
      omega

/-- The code of a rank is made of rounds, up to receives that are posted early. -/
theorem rounds_ahead (hseg : 0 < a.countBySegment) (hcount : 0 < a.originalCount)
    (hleaf : tree.nextsize = 0 → rank ≠ tree.root) :
    Ahead (fun _ => 0) ((List.range (numSegments a)).flatMap
      (round a sendbuf recvbuf tree rank)) (reduceGeneric a sendbuf recvbuf tree rank) := by
  have hsegments : 0 < numSegments a := (lt_numSegments hseg).mpr (by omega)
  rw [reduceGeneric]
  by_cases hk : 0 < tree.nextsize
  · rw [if_pos hk, iterations_overlapped a sendbuf recvbuf tree rank hk hsegments]
    have hahead := ahead_overlapped (ReduceOverlap.source tree)
      (work a sendbuf recvbuf tree rank) (List.range (numSegments a*tree.nextsize))
    rw [flatMap_range_mul] at hahead
    rwa [List.flatMap_congr (fun s _ => passes_round a sendbuf recvbuf tree rank hk s)] at hahead
  · rw [if_neg hk]
    have hloop := leafLoop_eq a sendbuf tree hseg (numSegments a) 0 a.countBySegment (by omega)
      (Or.inl rfl)
    rw [Nat.zero_mul, Nat.sub_zero] at hloop
    rw [hloop, ← List.range_eq_range']
    have hround : round a sendbuf recvbuf tree rank = fun s =>
        send (sendbuf.getD .sbuf, segmentOffset a s) (recvcount a s) tree.prev.toNat := by
      funext s
      have hnone : tree.nextsize = 0 := by omega
      rw [round, wave, pieces, hnone, dests, if_pos (hleaf hnone)]
      simp [send, payload, carried, hnone]
    rw [hround]
    exact Ahead.refl _

end Otpo.ReduceRounds
