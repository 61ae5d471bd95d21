import Otpo.ReduceCalls

/-!
# The reduction at the root alone

The root takes in the data of the other ranks from the last one down to the
first and combines them in this order.
-/

set_option autoImplicit false

namespace Otpo.ReduceLinear
open Function MessagePassing Combining Otpo.MpiCalls Otpo.Reduce Otpo.ReduceCalls

variable (c : Call)

def source (rank : ℕ) : Place := (c.sendbuf rank).getD .rbuf

def target : Place := if c.inplace c.root then .inplaceTemp else .rbuf

def combined (i : ℕ) : List (Piece ℕ Memory (List Int32)) :=
  if c.root = i then [.compute (opReduce c.op (source c c.root, 0) (target c, 0) c.count)]
  else [.take i (put (.pmlBuffer, 0) c.count),
    .compute (opReduce c.op (.pmlBuffer, 0) (target c, 0) c.count)]

def first : List (Piece ℕ Memory (List Int32)) :=
  if c.root = c.size-1 then [.compute (copyContent (target c) (source c c.root) c.count)]
  else [.take (c.size-1) (put (target c, 0) c.count)]

def back : List (Piece ℕ Memory (List Int32)) :=
  if c.inplace c.root then [.compute (copyContent .rbuf .inplaceTemp c.count)] else []

def pieces (rank : ℕ) : List (Piece ℕ Memory (List Int32)) :=
  if rank = c.root then first c++((List.range (c.size-1)).reverse.flatMap (combined c)++back c)
  else []

def dests (rank : ℕ) : List ℕ := if rank < c.size ∧ rank ≠ c.root then [c.root] else []

variable {c} {start m : Memory} {i : ℕ}

theorem target_ne : target c ≠ .pmlBuffer ∧ target c ≠ .sbuf := by
  unfold target
  split <;> simp

structure Combined (c : Call) (values : ℕ → ℤ → Int32) (start : Memory) (i : ℕ) (m : Memory) :
    Prop where
  place {place : Place} : place ≠ target c → place ≠ .pmlBuffer → m place = start place
  beyond {z : ℤ} : z ∉ contiguous 0 c.count → m (target c) z = start (target c) z
  total {z : ℤ} : z ∈ contiguous 0 c.count → some (m (target c) z) =
    combine c.op.apply ((List.range' i (c.size-i)).map (values · z))

section loop

variable {message : ℕ → List Int32} {values : ℕ → ℤ → Int32}

theorem Combined.next (h : Combined c values start (i+1) m) (hi : i+1 < c.size)
    (b : Buffer Int32) (hb : ∀ z, z ∈ contiguous 0 c.count → b z = values i z)
    {m' : Memory}
    (hm' : ∀ place, place ≠ .pmlBuffer → m' place = update m (target c) (fun z =>
      if z ∈ contiguous 0 c.count then c.op.apply (b z) (m (target c) z)
      else m (target c) z) place) : Combined c values start i m' where
  place := by
    intro place htarget hpml
    rw [hm' place hpml, update_of_ne htarget]
    exact h.place htarget hpml
  beyond := by
    intro z hz
    rw [hm' _ target_ne.1, update_self, if_neg hz]
    exact h.beyond hz
  total := by
    intro z hz
    have hrange : List.range' i (c.size-i) = i::List.range' (i+1) (c.size-(i+1)) := by
      rw [show c.size-i = c.size-(i+1)+1 by omega, List.range'_succ]
    rw [hm' _ target_ne.1, update_self, if_pos hz, hb z hz, hrange, List.map_cons]
    exact (combine_append (l := [values i z]) rfl (h.total hz).symm).symm

end loop

end Otpo.ReduceLinear
