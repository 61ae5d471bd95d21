import Otpo.PersonalExchange
import Otpo.Allgatherv
import Mathlib.Data.List.Iterate
import Mathlib.Data.List.TakeWhile

/-!
# Exchanging blocks between all ranks

The functions that send block `q` of each rank to rank `q`. The blocks of a
receive buffer come in the order of their ranks.
-/

set_option autoImplicit false

namespace Otpo.Alltoall
open MessagePassing Otpo.MpiCalls Otpo.PersonalExchange

structure Call (A : Type) where
  size : ℕ
  scount : ℕ
  rcount : ℕ
  sbuf : ℕ → Buffer A
  positive : 0 < size
  counts : scount = rcount

variable {A : Type} (c : Call A)

def Call.message (rank dest : ℕ) : List A :=
  pack (contiguous (dest*c.scount : ℕ) c.scount) (c.sbuf rank)

def Call.block (source : ℕ) : List ℤ := contiguous (source*c.rcount : ℕ) c.rcount

def sendrecvBlocks (rank dest source : ℕ) : Code A (Buffer A) :=
  sendrecv (fun _ => c.message rank dest) dest (unpack (c.block source)) source

def postAll (rank : ℕ) (sources dests : List ℕ) : Code A (Buffer A) :=
  exchange sources dests (fun dest _ => c.message rank dest)
    (fun source => unpack (c.block source))

def pairwise (rank : ℕ) : Code A (Buffer A) :=
  if 1 = c.size then [] else
    (List.range' 1 c.size).flatMap fun step =>
      sendrecvBlocks c rank ((rank+step)%c.size) ((rank+c.size-step)%c.size)

def walk (size : ℕ) (next : ℕ → ℕ) (start stop : ℕ) : List ℕ :=
  (List.iterate next start size).takeWhile (fun i => i ≠ stop)

def linear (rank : ℕ) : Code A (Buffer A) :=
  sendrecvBlocks c rank rank rank++
    if 1 = c.size then [] else
      postAll c rank (walk c.size (fun i => (i+1)%c.size) ((rank+1)%c.size) rank)
        (walk c.size (fun i => (i+c.size-1)%c.size) ((rank+c.size-1)%c.size) rank)

def linearSync (rank : ℕ) : Code A (Buffer A) :=
  sendrecvBlocks c rank rank rank++
    if 1 = c.size then [] else
      postAll c rank
        (List.iterate (fun ri => (ri+1)%c.size) ((rank+1)%c.size) (c.size-1))
        (List.iterate (fun si => (si+c.size-1)%c.size) ((rank+c.size-1)%c.size) (c.size-1))

def batches (size bblock : ℕ) : List ℕ :=
  ((List.range size).map (·*bblock)).takeWhile (fun ii => ii < size)

def laddBlock (size bblock : ℕ) : ℕ := if bblock = 0 ∨ size < bblock then size else bblock

def ladd (bblock rank : ℕ) : Code A (Buffer A) :=
  (batches c.size (laddBlock c.size bblock)).flatMap fun ii =>
    let ss :=
      if c.size-ii < laddBlock c.size bblock then c.size-ii else laddBlock c.size bblock
    postAll c rank ((List.range ss).map fun i => (rank+i+ii)%c.size)
      ((List.range ss).map fun i => (rank+c.size-i-ii)%c.size)

end Otpo.Alltoall
