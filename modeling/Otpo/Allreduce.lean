import Otpo.Reduce

/-!
# Reductions with the result on all ranks

On the ring the data are cut into one block for each rank. While a block goes
around once, each rank adds its own part. A second time around it is handed on.
-/

set_option autoImplicit false

namespace Otpo.Allreduce
open MessagePassing Otpo.MpiCalls Otpo.Reduce

structure Call where
  op : Op
  size : ℕ
  count : ℕ
  inplace : ℕ → Bool

section ring

variable (c : Call) (rank : ℕ)

def firstSegcount : ℕ := if c.count%c.size ≠ 0 then c.count/c.size+1 else c.count/c.size

def segcount : ℕ :=
  if c.count ≤ (c.size-1)*firstSegcount c then firstSegcount c-1 else firstSegcount c

def lastsegcount : ℕ := c.count-(c.size-1)*segcount c

def maxsegcount : ℕ := if segcount c > lastsegcount c then segcount c else lastsegcount c

def blockcount (block : ℕ) : ℕ := if c.size-1 = block then lastsegcount c else segcount c

def blockPlace (block : ℕ) : Pointer := (.rbuf, (block*segcount c : ℕ))

def sendto : ℕ := (rank+1)%c.size

def recvfrom : ℕ := (rank+c.size-1)%c.size

def sendBlock (block : ℕ) : Code Int32 Memory :=
  send (blockPlace c block) (blockcount c block) (sendto c rank)

def reduceBlock (inbi : Bool) (block : ℕ) : Code Int32 Memory :=
  [.receive (recvfrom c rank) (put (.inbuf inbi, 0) (maxsegcount c)),
    .compute (opReduce c.op (.inbuf inbi, 0) (blockPlace c block) (blockcount c block))]

def computation : List ℕ → Bool → Code Int32 Memory
  | [], inbi => reduceBlock c rank inbi ((rank+1)%c.size)
  | k::ks, inbi =>
    let prevblock := (rank+c.size-k+1)%c.size
    .post (recvfrom c rank)::(reduceBlock c rank inbi prevblock++
      (sendBlock c rank prevblock++computation ks !inbi))

def distribution : Code Int32 Memory :=
  (List.range (c.size-1)).flatMap fun k =>
    let recvdatafrom := (rank+c.size-k)%c.size
    let senddatafrom := (rank+1+c.size-k)%c.size
    sendrecv (Otpo.Reduce.read (blockPlace c senddatafrom) (blockcount c senddatafrom))
      (sendto c rank) (put (blockPlace c recvdatafrom) (maxsegcount c)) (recvfrom c rank)

def ownCopy : Code Int32 Memory :=
  if c.inplace rank then [] else [.compute (copyContent .rbuf .sbuf c.count)]

def ring : Option (Code Int32 Memory) :=
  if c.size = 1 then some (ownCopy c rank)
  else if c.count < c.size-1 then none
  else some (ownCopy c rank++.post (recvfrom c rank)::(sendBlock c rank rank++
    (computation c rank (List.range' 2 (c.size-2)) false++distribution c rank)))

end ring

section linear

def bcastLinear (size count : ℕ) (inplace : ℕ → Bool) (rank : ℕ) : Code Int32 Memory :=
  if rank ≠ 0 then recv (.rbuf, 0) count 0
  else
    let buf := if inplace rank then .rbuf else .sbuf
    let others := (List.range size).filter (· ≠ rank)
    others.map (fun i => .send i (Otpo.Reduce.read (buf, 0) count))++others.map .complete

variable (c : Call)

def Call.toRoot (root : ℕ) : Otpo.Reduce.Call where
  op := c.op
  size := c.size
  root := root
  count := c.count
  segsize := 0
  typelng := 0
  inplace := c.inplace

def linear (emRoot : Option ℕ) (rank : ℕ) : Code Int32 Memory :=
  let root := emRoot.getD 0
  Otpo.Reduce.linear (c.toRoot root) rank++
    ((if root = rank ∧ ¬ c.inplace rank then [copyContent .sbuf .rbuf c.count] else []).map
      .compute++bcastLinear c.size c.count c.inplace rank)

end linear

def Call.sendbuf (c : Call) (rank : ℕ) : Place := if c.inplace rank then .rbuf else .sbuf

def Call.contribution (c : Call) (memories : ℕ → Memory) (rank : ℕ) (z : ℤ) : Int32 :=
  memories rank (c.sendbuf rank) z

def Call.total (c : Call) (memories : ℕ → Memory) (z : ℤ) : Option Int32 :=
  Combining.combine c.op.apply ((List.range c.size).map (c.contribution memories · z))

end Otpo.Allreduce
