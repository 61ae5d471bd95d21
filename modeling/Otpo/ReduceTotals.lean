import Otpo.ReduceRounds
import Otpo.TopologySpans

/-!
# What a reduction along a tree leaves

After a round a rank has the combined data of all ranks below it for one segment
more. At the root these are all ranks.
-/

set_option autoImplicit false

namespace Otpo.ReduceTotals
open Function MessagePassing Combining Otpo.MpiCalls Otpo.ReduceTopo Otpo.Reduce
open Otpo.ReduceOverlap Otpo.ReduceRounds Otpo.TopologySpans

structure Placed (a : Args) (sendbuf : ℕ → Option Place) (recvbuf : ℕ → Place) : Prop where
  inplace {p : ℕ} : sendbuf p = none → p = a.root
  sendbuf_apart {p : ℕ} {b : Place} : sendbuf p = some b →
    b ≠ .accumbuf ∧ (∀ i, b ≠ .inbuf i) ∧ b ≠ recvbuf p
  recvbuf_apart {p : ℕ} : recvbuf p ≠ .accumbuf ∧ ∀ i, recvbuf p ≠ .inbuf i

section rank

variable (a : Args) (sendbuf : Option Place) (recvbuf : Place) (tree : Tree) (rank : ℕ)

structure Untouched (n : ℕ) (start m : Memory) : Prop where
  place {place : Place} : place ≠ accumbuf a recvbuf rank → (∀ i, place ≠ .inbuf i) →
    m place = start place
  beyond {z : ℤ} : z ∉ contiguous 0 n →
    m (accumbuf a recvbuf rank) z = start (accumbuf a recvbuf rank) z

end rank

variable {a : Args} {sendbuf : Option Place} {recvbuf : Place} {tree : Tree} {rank : ℕ}
  {segindex t : ℕ} {m : Memory} {b : Buffer Int32}

theorem mem_segment (hseg : 0 < a.countBySegment) (h : segindex < numSegments a) {z : ℤ} :
    z ∈ contiguous (segmentOffset a segindex) (recvcount a segindex) ↔
      ∃ k : ℕ, z = k ∧ done a segindex ≤ k ∧ k < done a (segindex+1) := by
  rw [mem_contiguous, segment_eq hseg h, done_succ hseg h]
  constructor
  · rintro ⟨k, hk, rfl⟩
    exact ⟨done a segindex+k, by simp, by omega, by omega⟩
  · rintro ⟨k, rfl, hlow, hhigh⟩
    exact ⟨k-done a segindex, by omega, by omega⟩

/-- Data that come first go into the accumulator and are combined with the own
ones there. -/
theorem takeIn_first (hdirect : direct sendbuf tree rank = true) (hpass : t%tree.nextsize = 0)
    (hown : sendtmpbuf sendbuf recvbuf ≠ accumbuf a recvbuf rank) (hs : t/tree.nextsize = segindex)
    {message : ℕ → List Int32} (hmessage : message (source tree t) =
      pack (contiguous (segmentOffset a segindex) (recvcount a segindex)) b)
    (rest : List (Piece ℕ Memory (List Int32))) :
    outcome message (takeIn a sendbuf recvbuf tree rank t++rest) m =
      outcome message rest (update m (accumbuf a recvbuf rank) fun z =>
        if z ∈ contiguous (segmentOffset a segindex) (recvcount a segindex) then
          a.op.apply (m (sendtmpbuf sendbuf recvbuf) z) (b z)
        else m (accumbuf a recvbuf rank) z) := by
  have htarget : (request a sendbuf recvbuf tree rank t).target =
      (accumbuf a recvbuf rank, segmentOffset a segindex) := by
    simp [request, irecv, hpass, hdirect, hs]
  rw [takeIn, List.cons_append, outcome, hmessage, htarget, hs, put_read, Option.bind_some,
    List.singleton_append, outcome, operand, if_pos ⟨hpass, hdirect⟩, hs, accumulator,
    opReduce_eq a.op _ hown]
  congr 1
  rw [update_idem, update_of_ne hown, update_self]
  congr 1
  funext z
  by_cases hz : z ∈ contiguous (segmentOffset a segindex) (recvcount a segindex)
  · simp [hz]
  · simp [hz]

/-- All other data go through a buffer. -/
theorem takeIn_later (hother : ¬ (t%tree.nextsize = 0 ∧ direct sendbuf tree rank = true))
    (haccum : ∀ i, accumbuf a recvbuf rank ≠ .inbuf i) (hs : t/tree.nextsize = segindex)
    {message : ℕ → List Int32} (hmessage : message (source tree t) =
      pack (contiguous (segmentOffset a segindex) (recvcount a segindex)) b)
    (rest : List (Piece ℕ Memory (List Int32))) :
    ∃ i c, outcome message (takeIn a sendbuf recvbuf tree rank t++rest) m =
      outcome message rest (update (update m (.inbuf i) c) (accumbuf a recvbuf rank) fun z =>
        if z ∈ contiguous (segmentOffset a segindex) (recvcount a segindex) then
          a.op.apply (b z) (m (accumbuf a recvbuf rank) z)
        else m (accumbuf a recvbuf rank) z) := by
  have htarget : (request a sendbuf recvbuf tree rank t).target = (.inbuf (odd t), 0) := by
    simp only [request, irecv, if_neg hother]
  have happart : Place.inbuf (odd t) ≠ accumbuf a recvbuf rank := (haccum _).symm
  rw [takeIn, List.cons_append, outcome, hmessage, htarget, hs, put_read, Option.bind_some,
    List.singleton_append, outcome, operand, if_neg hother, accumulator, opReduce_eq a.op _ happart]
  refine ⟨odd t, fun z => if z ∈ contiguous 0 (recvcount a segindex) then
    b (segmentOffset a segindex+(z-0)) else m (.inbuf (odd t)) z, ?_⟩
  congr 2
  simp only [update_self, update_of_ne happart.symm]
  funext z
  by_cases hz : z ∈ contiguous (segmentOffset a segindex) (recvcount a segindex)
  · obtain ⟨k, hk, rfl⟩ := mem_contiguous.mp hz
    have hbuffer : (0 : ℤ)+(segmentOffset a segindex+k-segmentOffset a segindex) ∈
        contiguous 0 (recvcount a segindex) := mem_contiguous.mpr ⟨k, hk, by omega⟩
    rw [if_pos hz, if_pos hz, if_pos hbuffer]
    congr 2
    omega
  · rw [if_neg hz, if_neg hz]

theorem Untouched.write {n : ℕ} {start : Memory} (h : Untouched a recvbuf rank n start m)
    (f : Buffer Int32) (hf : ∀ z, z ∉ contiguous 0 n → f z = m (accumbuf a recvbuf rank) z) :
    Untouched a recvbuf rank n start (update m (accumbuf a recvbuf rank) f) where
  place := by
    intro place haccum hinbuf
    rw [update_of_ne haccum]
    exact h.place haccum hinbuf
  beyond := by
    intro z hz
    rw [update_self, hf z hz]
    exact h.beyond hz

theorem Untouched.inbuf {n : ℕ} {start : Memory} (h : Untouched a recvbuf rank n start m)
    (haccum : ∀ i, accumbuf a recvbuf rank ≠ .inbuf i) (i : Bool) (c : Buffer Int32) :
    Untouched a recvbuf rank n start (update m (.inbuf i) c) where
  place := by
    intro place hplace hinbuf
    rw [update_of_ne (hinbuf i)]
    exact h.place hplace hinbuf
  beyond := by
    intro z hz
    rw [update_of_ne (haccum i)]
    exact h.beyond hz

structure Accumulated (a : Args) (recvbuf : Place) (rank segindex : ℕ) (start before m : Memory)
    (values : ℤ → List Int32) : Prop where
  untouched : Untouched a recvbuf rank (done a (segindex+1)) start m
  outside {z : ℤ} : z ∉ contiguous (segmentOffset a segindex) (recvcount a segindex) →
    m (accumbuf a recvbuf rank) z = before (accumbuf a recvbuf rank) z
  inside {z : ℤ} : z ∈ contiguous (segmentOffset a segindex) (recvcount a segindex) →
    some (m (accumbuf a recvbuf rank) z) = combine a.op.apply (values z)

theorem segment_done (hseg : 0 < a.countBySegment) (h : segindex < numSegments a) {z : ℤ}
    (hz : z ∉ contiguous 0 (done a (segindex+1))) :
    z ∉ contiguous (segmentOffset a segindex) (recvcount a segindex) := by
  intro hmem
  obtain ⟨k, rfl, -, hk⟩ := (mem_segment hseg h).mp hmem
  exact hz (mem_contiguous.mpr ⟨k, hk, by omega⟩)

section children

variable {start before : Memory} {message : ℕ → List Int32} {buffer : ℕ → Buffer Int32}
  {own : ℤ → Int32} {values : ℕ → ℤ → List Int32}

/-- The children from number `i` on, in the order of `tree_next`. -/
theorem later_children (hop : a.op ≠ .prod) (hseg : 0 < a.countBySegment)
    (hs : segindex < numSegments a) (haccum : ∀ i, accumbuf a recvbuf rank ≠ .inbuf i)
    (hmessage : ∀ q ∈ tree.children, message q =
      pack (contiguous (segmentOffset a segindex) (recvcount a segindex)) (buffer q))
    (hbuffer : ∀ q ∈ tree.children, ∀ z,
      z ∈ contiguous (segmentOffset a segindex) (recvcount a segindex) →
        some (buffer q z) = combine a.op.apply (values q z))
    (n i : ℕ) (hn : i+n = tree.nextsize) (hi : i = 0 → direct sendbuf tree rank = false)
    (hm : Accumulated a recvbuf rank segindex start before m
      (fun z => own z::(tree.children.take i).flatMap (values · z))) :
    ∃ m', outcome message ((List.range' i n).flatMap fun i =>
        takeIn a sendbuf recvbuf tree rank (tree.nextsize*segindex+i)) m = some m' ∧
      Accumulated a recvbuf rank segindex start before m'
        (fun z => own z::tree.children.flatMap (values · z)) := by
  have hlength : tree.children.length = tree.nextsize := by simp [Tree.children]
  induction n generalizing i m with
  | zero =>
    rw [List.take_of_length_le (by omega)] at hm
    exact ⟨m, rfl, hm⟩
  | succ n ih =>
    obtain ⟨hdiv, hmod⟩ := pass_at (s := segindex) (by omega : i < tree.nextsize)
    have hchild : source tree (tree.nextsize*segindex+i) = tree.children[i] := by
      simp [source, hmod, Tree.children]
    have hmem : tree.children[i] ∈ tree.children := List.getElem_mem (by omega)
    have hother : ¬ ((tree.nextsize*segindex+i)%tree.nextsize = 0 ∧
        direct sendbuf tree rank = true) := by
      rw [hmod]
      rintro ⟨hzero, hdirect⟩
      rw [hi hzero] at hdirect
      cases hdirect
    have harrived : message (source tree (tree.nextsize*segindex+i)) =
        pack (contiguous (segmentOffset a segindex) (recvcount a segindex))
          (buffer tree.children[i]) := by
      rw [hchild]
      exact hmessage _ hmem
    obtain ⟨j, c, htake⟩ := takeIn_later (m := m) hother haccum hdiv harrived
      ((List.range' (i+1) n).flatMap fun i =>
        takeIn a sendbuf recvbuf tree rank (tree.nextsize*segindex+i))
    rw [List.range'_succ, List.flatMap_cons, htake]
    apply ih (i+1) (by omega) (by omega)
    refine ⟨?_, ?_, ?_⟩
    · apply (hm.untouched.inbuf haccum j c).write
      intro z hz
      rw [if_neg (segment_done hseg hs hz), update_of_ne (haccum j)]
    · intro z hz
      rw [update_self, if_neg hz]
      exact hm.outside hz
    · intro z hz
      have hleft := hm.inside hz
      have hright := hbuffer _ hmem z hz
      rw [update_self, if_pos hz, apply_comm hop, List.take_add_one,
        List.getElem?_eq_getElem (by omega), List.flatMap_append, Option.toList_some,
        List.flatMap_singleton, ← List.cons_append]
      exact (combine_append hleft.symm hright.symm).symm

/-- All children. -/
theorem all_children (buffer : ℕ → Buffer Int32) (hop : a.op ≠ .prod) (hseg : 0 < a.countBySegment)
    (hs : segindex < numSegments a) (haccum : ∀ i, accumbuf a recvbuf rank ≠ .inbuf i)
    (hmessage : ∀ q ∈ tree.children, message q =
      pack (contiguous (segmentOffset a segindex) (recvcount a segindex)) (buffer q))
    (hbuffer : ∀ q ∈ tree.children, ∀ z,
      z ∈ contiguous (segmentOffset a segindex) (recvcount a segindex) →
        some (buffer q z) = combine a.op.apply (values q z))
    (hk : 0 < tree.nextsize)
    (hdirect : direct sendbuf tree rank = true →
      sendtmpbuf sendbuf recvbuf ≠ accumbuf a recvbuf rank)
    (hplain : direct sendbuf tree rank = false →
      sendtmpbuf sendbuf recvbuf = accumbuf a recvbuf rank)
    (hown : ∀ z, z ∈ contiguous (segmentOffset a segindex) (recvcount a segindex) →
      m (sendtmpbuf sendbuf recvbuf) z = own z)
    (hm : Untouched a recvbuf rank (done a (segindex+1)) start m) :
    ∃ m', outcome message (pieces a sendbuf recvbuf tree rank segindex) m = some m' ∧
      Accumulated a recvbuf rank segindex start m m'
        (fun z => own z::tree.children.flatMap (values · z)) := by
  rw [pieces, List.range_eq_range']
  cases hcase : direct sendbuf tree rank with
  | false =>
    apply later_children hop hseg hs haccum hmessage hbuffer tree.nextsize 0 (by omega)
      (fun _ => hcase)
    refine ⟨hm, fun _ => rfl, ?_⟩
    intro z hz
    rw [← hplain hcase, hown z hz]
    rfl
  | true =>
    obtain ⟨n, hn⟩ : ∃ n, tree.nextsize = n+1 := Nat.exists_eq_succ_of_ne_zero hk.ne'
    obtain ⟨hdiv, hmod⟩ := pass_at (s := segindex) hk
    have hlength : 0 < tree.children.length := by simpa [Tree.children] using hk
    have hchild : source tree (tree.nextsize*segindex+0) = tree.children[0] := by
      simp [source, Tree.children]
    have hmem : tree.children[0] ∈ tree.children := List.getElem_mem hlength
    have hrange : List.range' 0 tree.nextsize = 0::List.range' 1 n := by
      rw [hn, List.range'_succ]
    rw [hrange, List.flatMap_cons, takeIn_first (b := buffer tree.children[0]) hcase hmod
      (hdirect hcase) hdiv (by rw [hchild]; exact hmessage _ hmem)]
    apply later_children hop hseg hs haccum hmessage hbuffer n 1 (by omega) (by omega)
    refine ⟨?_, ?_, ?_⟩
    · apply hm.write
      intro z hz
      rw [if_neg (segment_done hseg hs hz)]
    · intro z hz
      rw [update_self, if_neg hz]
    · intro z hz
      have hright := hbuffer _ hmem z hz
      have htake : tree.children.take 1 = [tree.children[0]] := by
        rw [List.take_add_one, List.getElem?_eq_getElem hlength]
        rfl
      rw [update_self, if_pos hz, hown z hz, htake, List.flatMap_singleton]
      exact (combine_append (l := [own z]) rfl hright.symm).symm

end children

end Otpo.ReduceTotals
