import Otpo.MpiCalls

/-!
# Gathering blocks on all ranks

The functions that gather one block of each rank on every rank. Each of them is
a loop of `MPI_Sendrecv` calls behind the copy of the own block.
-/

set_option autoImplicit false

namespace Otpo.Allgatherv
open MessagePassing Otpo.MpiCalls

/-- The arguments of all ranks. A rank without a send buffer has given
`MPI_IN_PLACE`. The counts agree and the blocks of a receive buffer are apart,
as the call requires. -/
structure Call (A : Type) where
  size : ℕ
  rcounts : ℕ → ℕ
  rdispls : ℕ → ℕ → ℤ
  sbuf : ℕ → Option (ℕ → A)
  scount : ℕ → ℕ
  positive : 0 < size
  counts (rank : ℕ) : rank < size → (sbuf rank).isSome → scount rank = rcounts rank
  apart {rank q r j k : ℕ} : rank < size → q < size → r < size → j < rcounts q →
    k < rcounts r → rdispls rank q+j = rdispls rank r+k → q = r

variable {A : Type} (c : Call A)

def Call.block (rank q : ℕ) : List ℤ := contiguous (c.rdispls rank q) (c.rcounts q)

def initialization (rank : ℕ) : Code A (Buffer A) :=
  match c.sbuf rank with
  | none => []
  | some data => sendrecv (fun _ => (List.range (c.scount rank)).map data) rank
      (unpack (c.block rank rank)) rank

def ring (rank : ℕ) : Code A (Buffer A) :=
  let sendto := (rank+1)%c.size
  let recvfrom := (rank+c.size-1)%c.size
  initialization c rank++(List.range (c.size-1)).flatMap fun i =>
    let recvdatafrom := (rank+c.size-i-1)%c.size
    let senddatafrom := (rank+c.size-i)%c.size
    sendrecv (pack (c.block rank senddatafrom)) sendto
      (unpack (c.block rank recvdatafrom)) recvfrom

def doublings (size : ℕ) : List ℕ := (List.range size).takeWhile (fun i => 1 <<< i < size)

def blocksFrom (rank first blockcount : ℕ) : List ℤ :=
  typeIndexed ((List.range blockcount).map fun i =>
    (c.rcounts ((first+i)%c.size), c.rdispls rank ((first+i)%c.size)))

def bruck (rank : ℕ) : Code A (Buffer A) :=
  initialization c rank++(doublings c.size).flatMap fun i =>
    let distance := 1 <<< i
    let recvfrom := (rank+distance)%c.size
    let sendto := (rank+c.size-distance)%c.size
    let blockcount := if distance ≤ c.size >>> 1 then distance else c.size-distance
    sendrecv (pack (blocksFrom c rank rank blockcount)) sendto
      (unpack (blocksFrom c rank recvfrom blockcount)) recvfrom

structure Course where
  recvDataFrom : Bool → ℕ
  sendDataFrom : ℕ

def neighbor (size rank : ℕ) (parity : Bool) : ℕ :=
  if rank%2 = 0 ↔ parity = false then (rank+1)%size else (rank+size-1)%size

def offsetAtStep (rank : ℕ) (parity : Bool) : ℤ :=
  if rank%2 = 0 ↔ parity = false then 2 else -2

def Course.start (size rank : ℕ) : Course where
  recvDataFrom _ := if rank%2 = 0 then rank else neighbor size rank false
  sendDataFrom := if rank%2 = 0 then rank else neighbor size rank false

def Course.recvNext (course : Course) (size rank : ℕ) (parity : Bool) : ℕ :=
  ((course.recvDataFrom parity+offsetAtStep rank parity+size)%size).toNat

def Course.next (course : Course) (size rank : ℕ) (parity : Bool) : Course where
  recvDataFrom := Function.update course.recvDataFrom parity (course.recvNext size rank parity)
  sendDataFrom := course.recvNext size rank parity

def Course.before (size rank : ℕ) : ℕ → Course
  | 0 => .start size rank
  | i+1 => (Course.before size rank i).next size rank ((i+1)%2 = 1)

def blockPair (rank first : ℕ) : List ℤ :=
  typeIndexed [(c.rcounts first, c.rdispls rank first),
    (c.rcounts (first+1), c.rdispls rank (first+1))]

def neighborexchange (rank : ℕ) : Code A (Buffer A) :=
  if c.size%2 ≠ 0 then ring c rank else
    let first := neighbor c.size rank false
    initialization c rank++(sendrecv (pack (c.block rank rank)) first
      (unpack (c.block rank first)) first++
    (List.range (c.size/2-1)).flatMap fun i =>
      let parity : Bool := (i+1)%2 = 1
      let course := Course.before c.size rank i
      sendrecv (pack (blockPair c rank course.sendDataFrom)) (neighbor c.size rank parity)
        (unpack (blockPair c rank (course.recvNext c.size rank parity)))
        (neighbor c.size rank parity))

def contribution (rbuf : ℕ → Buffer A) (q k : ℕ) : A :=
  match c.sbuf q with
  | none => rbuf q (c.rdispls q q+k)
  | some data => data k

def gathered (rbuf : ℕ → Buffer A) (rank : ℕ) : Buffer A := fun z =>
  match (List.range c.size).find? (fun q => z ∈ c.block rank q) with
  | none => rbuf rank z
  | some q => contribution c rbuf q (z-c.rdispls rank q).toNat

end Otpo.Allgatherv
