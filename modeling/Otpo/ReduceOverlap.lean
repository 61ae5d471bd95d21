import Otpo.Reduce
import Otpo.Library.EarlyReceives
import Otpo.Library.OrderedRounds
import Mathlib.Data.List.Chain

/-!
# The two loops of a reduction as one

Pass `t` of the loops is about child `t%k` and segment `t/k`, where `k` is the
number of children. It posts the receive of its own and finishes what the pass
before has posted.
-/

set_option autoImplicit false

namespace Otpo.ReduceOverlap
open Function MessagePassing Otpo.MpiCalls Otpo.ReduceTopo Otpo.Reduce

variable (a : Args) (sendbuf : Option Place) (recvbuf : Place) (tree : Tree) (rank : ℕ)

def odd (t : ℕ) : Bool := t%2 == 1

def request (t : ℕ) : Request :=
  irecv a sendbuf recvbuf tree rank (t/tree.nextsize) (t%tree.nextsize) (odd t)

def source (t : ℕ) : ℕ := (tree.next (t%tree.nextsize)).toNat

def operand (t : ℕ) : Pointer :=
  if t%tree.nextsize = 0 ∧ direct sendbuf tree rank then
    (sendtmpbuf sendbuf recvbuf, segmentOffset a (t/tree.nextsize))
  else (.inbuf (odd t), 0)

def accumulator (segindex : ℕ) : Pointer := (accumbuf a recvbuf rank, segmentOffset a segindex)

def passOn (segindex : ℕ) : Code Int32 Memory :=
  if rank ≠ tree.root then
    send (accumulator a recvbuf rank segindex) (recvcount a segindex) tree.prev.toNat
  else []

def takeIn (t : ℕ) : List (Piece ℕ Memory (List Int32)) :=
  [.take (source tree t) (put (request a sendbuf recvbuf tree rank t).target
      (recvcount a (t/tree.nextsize))),
    .compute (opReduce a.op (operand a sendbuf recvbuf tree rank t)
      (accumulator a recvbuf rank (t/tree.nextsize)) (recvcount a (t/tree.nextsize)))]

def work (t : ℕ) : Code Int32 Memory :=
  [.receive (source tree t) (put (request a sendbuf recvbuf tree rank t).target
      (recvcount a (t/tree.nextsize))),
    .compute (opReduce a.op (operand a sendbuf recvbuf tree rank t)
      (accumulator a recvbuf rank (t/tree.nextsize)) (recvcount a (t/tree.nextsize)))]++
  if t%tree.nextsize+1 = tree.nextsize then passOn a recvbuf tree rank (t/tree.nextsize) else []

theorem odd_succ (t : ℕ) : odd (t+1) = !odd t := by
  unfold odd
  obtain h | h := Nat.mod_two_eq_zero_or_one t
  · rw [h, show (t+1)%2 = 1 by omega]
    rfl
  · rw [h, show (t+1)%2 = 0 by omega]
    rfl

theorem pass_at {k s i : ℕ} (hi : i < k) : (k*s+i)/k = s ∧ (k*s+i)%k = i := by
  constructor
  · rw [Nat.mul_add_div (by omega), Nat.div_eq_of_lt hi, Nat.add_zero]
  · rw [Nat.mul_add_mod, Nat.mod_eq_of_lt hi]

theorem pass_cases {k : ℕ} (hk : 0 < k) (t : ℕ) :
    ((t+1)/k = t/k ∧ (t+1)%k = t%k+1 ∧ t%k+1 ≠ k) ∨
      ((t+1)/k = t/k+1 ∧ (t+1)%k = 0 ∧ t%k+1 = k) := by
  have hlt := Nat.mod_lt t hk
  have hdiv := Nat.div_add_mod t k
  by_cases hlast : t%k+1 = k
  · right
    have hnext : t+1 = k*(t/k+1)+0 := by
      rw [Nat.mul_add]
      omega
    have hpass := pass_at (s := t/k+1) hk
    rw [← hnext] at hpass
    exact ⟨hpass.1, hpass.2, hlast⟩
  · left
    have hnext : t+1 = k*(t/k)+(t%k+1) := by omega
    have hpass := pass_at (s := t/k) (show t%k+1 < k by omega)
    rw [← hnext] at hpass
    exact ⟨hpass.1, hpass.2, hlast⟩

def pending (t : ℕ) : Bool → Option Request :=
  update (fun _ => none) (odd t) (some (request a sendbuf recvbuf tree rank t))

theorem pending_wait (t : ℕ) (reqs : Bool → Option Request)
    (hreqs : reqs = pending a sendbuf recvbuf tree rank t ∨ ∃ r,
      reqs = update (pending a sendbuf recvbuf tree rank t) (odd (t+1)) r) :
    wait (reqs (!odd (t+1))) = [.receive (source tree t)
      (put (request a sendbuf recvbuf tree rank t).target (recvcount a (t/tree.nextsize)))] := by
  have hback : (!odd (t+1)) = odd t := by simp [odd_succ]
  have hsome : reqs (odd t) = some (request a sendbuf recvbuf tree rank t) := by
    obtain rfl | ⟨r, rfl⟩ := hreqs
    · exact update_self _ _ _
    · rw [update_of_ne (by simp [odd_succ])]
      exact update_self _ _ _
  rw [hback, hsome]
  rfl

theorem pending_clear (t : ℕ) (r : Option Request) :
    update (update (pending a sendbuf recvbuf tree rank t) (odd (t+1)) r)
      (!odd (t+1)) none = update (fun _ => none) (odd (t+1)) r := by
  rw [odd_succ, Bool.not_not, pending, update_comm (by simp), update_idem]
  congr 1
  exact update_eq_self _ _

theorem operand_left {t : ℕ} (h : (t+1)%tree.nextsize = t%tree.nextsize+1) :
    (if (t+1)%tree.nextsize = 1 ∧ direct sendbuf tree rank then
      (sendtmpbuf sendbuf recvbuf, segmentOffset a (t/tree.nextsize)) else (.inbuf !odd (t+1), 0)) =
      operand a sendbuf recvbuf tree rank t := by
  rw [operand, h, odd_succ, Bool.not_not]
  congr 2
  simp

theorem operand_last {t : ℕ} (h : t%tree.nextsize+1 = tree.nextsize) :
    (if tree.nextsize ≤ 1 ∧ direct sendbuf tree rank then
      (sendtmpbuf sendbuf recvbuf, segmentOffset a (t/tree.nextsize)) else (.inbuf !odd (t+1), 0)) =
      operand a sendbuf recvbuf tree rank t := by
  rw [operand, odd_succ, Bool.not_not]
  congr 2
  simp only [eq_iff_iff]
  omega

/-- The pass after pass `t`. -/
theorem iteration_next (hk : 0 < tree.nextsize) (t : ℕ) :
    iteration a sendbuf recvbuf tree rank ((t+1)/tree.nextsize) ((t+1)%tree.nextsize)
      (odd (t+1)) (pending a sendbuf recvbuf tree rank t) =
    ((if (t+1)/tree.nextsize < numSegments a then [.post (source tree (t+1))] else [])++
        work a sendbuf recvbuf tree rank t,
      if (t+1)/tree.nextsize < numSegments a then pending a sendbuf recvbuf tree rank (t+1)
      else fun _ => none) := by
  have hposted : (if (t+1)/tree.nextsize < numSegments a then
      update (pending a sendbuf recvbuf tree rank t) (odd (t+1))
        (some (request a sendbuf recvbuf tree rank (t+1)))
      else pending a sendbuf recvbuf tree rank t) = pending a sendbuf recvbuf tree rank t ∨
      ∃ r, (if (t+1)/tree.nextsize < numSegments a then
        update (pending a sendbuf recvbuf tree rank t) (odd (t+1))
          (some (request a sendbuf recvbuf tree rank (t+1)))
        else pending a sendbuf recvbuf tree rank t) =
          update (pending a sendbuf recvbuf tree rank t) (odd (t+1)) r := by
    split
    · exact Or.inr ⟨_, rfl⟩
    · exact Or.inl rfl
  have hwait := pending_wait a sendbuf recvbuf tree rank t _ hposted
  have hreqs : update (if (t+1)/tree.nextsize < numSegments a then
      update (pending a sendbuf recvbuf tree rank t) (odd (t+1))
        (some (request a sendbuf recvbuf tree rank (t+1)))
      else pending a sendbuf recvbuf tree rank t) (!odd (t+1)) none =
      if (t+1)/tree.nextsize < numSegments a then pending a sendbuf recvbuf tree rank (t+1)
      else fun _ => none := by
    split
    · exact pending_clear a sendbuf recvbuf tree rank t _
    · rw [odd_succ, Bool.not_not, pending, update_idem]
      exact update_eq_self _ _
  simp only [iteration]
  rw [← request, hwait, hreqs]
  obtain ⟨hdiv, hmod, hlast⟩ | ⟨hdiv, hmod, hlast⟩ := pass_cases hk t
  · rw [if_pos (by omega), hdiv, operand_left a sendbuf recvbuf tree rank hmod]
    simp [work, hlast, accumulator, source, request, irecv, hmod]
  · rw [if_neg (by omega), if_pos (hdiv ▸ Nat.succ_pos _), hdiv, Nat.add_sub_cancel,
      operand_last a sendbuf recvbuf tree rank hlast]
    simp [work, hlast, accumulator, source, request, irecv, hmod, passOn, hdiv]

theorem iterations_follow (hk : 0 < tree.nextsize) (n t : ℕ)
    (hn : t+1+n = numSegments a*tree.nextsize) :
    iterations a sendbuf recvbuf tree rank
      ((List.range' (t+1) (n+1)).map fun t => (t/tree.nextsize, t%tree.nextsize)) (odd (t+1))
      (pending a sendbuf recvbuf tree rank t) =
    overlapped.follow (source tree) (work a sendbuf recvbuf tree rank) t
      (List.range' (t+1) n) := by
  induction n generalizing t with
  | zero =>
    have hend : ¬ (t+1)/tree.nextsize < numSegments a := by
      rw [Nat.div_lt_iff_lt_mul hk]
      omega
    rw [List.range'_succ, List.map_cons, iterations, iteration_next a _ _ _ _ hk, if_neg hend]
    simp [iterations, overlapped.follow]
  | succ n ih =>
    have hmore : (t+1)/tree.nextsize < numSegments a := by
      rw [Nat.div_lt_iff_lt_mul hk]
      omega
    rw [List.range'_succ, List.map_cons, iterations, iteration_next a _ _ _ _ hk, if_pos hmore,
      if_pos hmore]
    simp only
    rw [← odd_succ, ih (t+1) (by omega)]
    rfl

theorem bothLoops_eq (hk : 0 < tree.nextsize) :
    bothLoops a tree = (List.range (numSegments a*tree.nextsize+1)).map
      fun t => (t/tree.nextsize, t%tree.nextsize) := by
  unfold bothLoops
  generalize numSegments a = n
  have hall : (List.range n).flatMap (fun s => (List.range tree.nextsize).map (fun i => (s, i))) =
      (List.range (n*tree.nextsize)).map fun t => (t/tree.nextsize, t%tree.nextsize) := by
    induction n with
    | zero => simp
    | succ n ih =>
      rw [List.range_succ, List.flatMap_append, ih, List.flatMap_singleton, Nat.succ_mul,
        List.range_add, List.map_append, List.map_map]
      congr 1
      apply List.map_congr_left
      intro i hi
      have hpass := pass_at (s := n) (List.mem_range.mp hi)
      simp only [Function.comp_apply, Nat.mul_comm n]
      rw [hpass.1, hpass.2]
  rw [hall, List.range_succ, List.map_append, List.map_singleton, Nat.mul_div_cancel _ hk,
    Nat.mul_mod_left]

/-- The loops of an inner rank, a receive in front of the work on the one before. -/
theorem iterations_overlapped (hk : 0 < tree.nextsize) (hsegments : 0 < numSegments a) :
    iterations a sendbuf recvbuf tree rank (bothLoops a tree) false (fun _ => none) =
      overlapped (source tree) (work a sendbuf recvbuf tree rank)
        (List.range (numSegments a*tree.nextsize)) := by
  have hfirst : iteration a sendbuf recvbuf tree rank 0 0 false (fun _ => none) =
      ([.post (source tree 0)], pending a sendbuf recvbuf tree rank 0) := by
    have hclear : update (update (fun _ => none) false
        (some (irecv a sendbuf recvbuf tree rank 0 0 false))) true none =
        pending a sendbuf recvbuf tree rank 0 := by
      rw [pending, request, Nat.zero_div, Nat.zero_mod, update_comm (by decide)]
      congr 1
      exact update_eq_self _ _
    simp only [iteration, hsegments, if_true, Bool.not_false, gt_iff_lt, lt_self_iff_false,
      if_false, hclear]
    simp [wait, source, irecv, Nat.zero_mod]
  obtain ⟨n, hn⟩ : ∃ n, numSegments a*tree.nextsize = n+1 :=
    Nat.exists_eq_succ_of_ne_zero (Nat.mul_pos hsegments hk).ne'
  have hfollow := iterations_follow a sendbuf recvbuf tree rank hk n 0 (by omega)
  have hrange (n : ℕ) : List.range (n+1) = 0::List.range' 1 n := by
    rw [List.range_eq_range', List.range'_succ]
  rw [bothLoops_eq a tree hk, hn, hrange, hrange, List.map_cons, iterations, Nat.zero_div,
    Nat.zero_mod, hfirst, overlapped, ← hfollow]
  rfl

end Otpo.ReduceOverlap
