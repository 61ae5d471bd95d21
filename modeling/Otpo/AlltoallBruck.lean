import Otpo.AlltoallRounds
import Otpo.Allgatherv

/-!
# The exchange with few messages

A rank rotates its blocks into a buffer of its own, so that block `i` has to go
`i` ranks ahead. In the pass of a distance all blocks go that far whose number
has the bit of the distance. The receive buffer is a scratch area until the
blocks are rotated back into it.
-/

set_option autoImplicit false

namespace Otpo.AlltoallBruck
open MessagePassing WrapAround Otpo.MpiCalls Otpo.PersonalExchange Otpo.Alltoall
open Otpo.AlltoallRounds

variable {A : Type} (c : Call A)

structure Buffers (A : Type) where
  rbuf : Buffer A
  tmpbuf : Buffer A

def memcpy (count : ℕ) (dest source : ℤ) (input output : Buffer A) : Buffer A :=
  write (contiguous dest count) (pack (contiguous source count) input) output

def copyIndexed (blocks : List (ℕ × ℤ)) (input output : Buffer A) : Buffer A :=
  blocks.foldl (fun b block => memcpy block.1 block.2 block.2 input b) output

def rotate (rank : ℕ) (b : Buffers A) : Buffers A :=
  let tmpbuf := memcpy ((c.size-rank)*c.scount) 0 (rank*c.scount : ℕ) (c.sbuf rank) b.tmpbuf
  { b with tmpbuf :=
      if rank ≠ 0 then
        memcpy (rank*c.scount) ((c.size-rank)*c.scount : ℕ) 0 (c.sbuf rank) tmpbuf
      else tmpbuf }

def newDdt (i : ℕ) : List (ℕ × ℤ) :=
  ((List.range' 1 (c.size-1)).filter (fun k => k &&& 1 <<< i = 1 <<< i)).map
    fun k => (c.scount, ((k*c.scount : ℕ) : ℤ))

def rotateBack (rank : ℕ) (b : Buffers A) : Buffers A :=
  { b with rbuf := (List.range c.size).foldl (fun r i =>
      memcpy c.rcount ((rank+c.size-i)%c.size*c.rcount : ℕ) (i*c.rcount : ℕ) b.tmpbuf r) b.rbuf }

def pass (i rank : ℕ) : Code A (Buffers A) :=
  let distance := 1 <<< i
  let ddt := newDdt c i
  sendrecv (fun b => pack (typeIndexed ddt) b.tmpbuf) ((rank+distance)%c.size)
    (fun data b => (unpack (typeIndexed ddt) data b.rbuf).map fun r => { b with rbuf := r })
    ((rank+c.size-distance)%c.size)++
  [.compute fun b => { b with tmpbuf := copyIndexed ddt b.rbuf b.tmpbuf }]

def bruck (rank : ℕ) : Code A (Buffers A) :=
  [.compute (rotate c rank)]++((Allgatherv.doublings c.size).flatMap (pass c · rank)++
    [.compute (rotateBack c rank)])

def overlay (positions : List ℤ) (target buffer : Buffer A) : Buffer A := fun z =>
  if z ∈ positions then target z else buffer z

variable {c} {rank i k p : ℕ}

variable (c)

def received (j : ℕ) (b : ℕ → Buffers A) (rank : ℕ) : Buffers A :=
  if rank < c.size then { b rank with
    rbuf := overlay (typeIndexed (newDdt c j))
      (b ((rank+c.size-2^j)%c.size)).tmpbuf (b rank).rbuf }
  else b rank

def copied (j : ℕ) (b : ℕ → Buffers A) (rank : ℕ) : Buffers A :=
  if rank < c.size then { b rank with
    tmpbuf := overlay (typeIndexed (newDdt c j)) (b rank).rbuf (b rank).tmpbuf }
  else b rank

variable {c}

end Otpo.AlltoallBruck
