import Otpo.MpiCalls
import Otpo.ReduceTopo
import Otpo.Library.Combining

/-!
# Reduction of data of all ranks

The data go up a tree in segments. An inner rank posts the receive for the next
child before it takes in the data of the one before, in turns into one of two
buffers.
-/

set_option autoImplicit false

namespace Otpo.Reduce
open Function MessagePassing Otpo.MpiCalls Otpo.ReduceTopo

inductive Op where
  | max
  | min
  | sum
  | prod
  deriving DecidableEq, Repr

def Op.apply (op : Op) (source target : Int32) : Int32 :=
  match op with
  | .min => if source < target then source else target
  | .max => if source < target then target else source
  | .sum => source+target
  | .prod => target  -- `ADCL_INVALID_OP`, which no caller looks at

inductive Place where
  | sbuf
  | rbuf
  | accumbuf
  | inbuf (i : Bool)
  | tmpbuf
  | pmlBuffer
  | inplaceTemp
  deriving DecidableEq, Repr

abbrev Memory := Place → Buffer Int32

abbrev Pointer := Place × ℤ

def set (place : Place) (z : ℤ) (a : Int32) (m : Memory) : Memory :=
  update m place (update (m place) z a)

def opReduce (op : Op) (source target : Pointer) (count : ℕ) (m : Memory) : Memory :=
  (List.range count).foldl (fun m (i : ℕ) => set target.1 (target.2+i)
    (op.apply (m source.1 (source.2+i)) (m target.1 (target.2+i))) m) m

def read (source : Pointer) (count : ℕ) (m : Memory) : List Int32 :=
  pack (contiguous source.2 count) (m source.1)

def put (target : Pointer) (count : ℕ) (data : List Int32) (m : Memory) : Option Memory :=
  (unpack (contiguous target.2 count) data (m target.1)).map fun b => update m target.1 b

def send (source : Pointer) (count : ℕ) (dest : ℕ) : Code Int32 Memory :=
  [.send dest (read source count), .complete dest]

def recv (target : Pointer) (count source : ℕ) : Code Int32 Memory :=
  [.post source, .receive source (put target count)]

def copyContent (target source : Place) (count : ℕ) (m : Memory) : Memory :=
  update m target (write (contiguous 0 count) (read (source, 0) count m) (m target))

structure Request where
  source : ℕ
  target : Pointer
  count : ℕ

def wait : Option Request → Code Int32 Memory
  | none => []
  | some request => [.receive request.source (put request.target request.count)]

def computeSegcount (segsize typelng segcount : ℕ) : ℕ :=
  if typelng ≤ segsize ∧ segsize < typelng*segcount then
    let residual := segsize-segsize/typelng*typelng
    if residual > typelng >>> 1 then segsize/typelng+1 else segsize/typelng
  else segcount

structure Args where
  op : Op
  root : ℕ
  originalCount : ℕ
  countBySegment : ℕ

section generic

variable (a : Args) (sendbuf : Option Place) (recvbuf : Place) (tree : Tree) (rank : ℕ)

def numSegments : ℕ := (a.originalCount+a.countBySegment-1)/a.countBySegment

def sendtmpbuf : Place := sendbuf.getD recvbuf

def accumbuf : Place := if rank = a.root then recvbuf else .accumbuf

def direct : Bool := !(sendbuf.isNone && rank == tree.root)

def recvcount (segindex : ℕ) : ℕ :=
  if segindex+1 = numSegments a then a.originalCount-a.countBySegment*segindex
  else a.countBySegment

def segmentOffset (segindex : ℕ) : ℤ := (segindex*a.countBySegment : ℕ)

def irecv (segindex i : ℕ) (inbi : Bool) : Request where
  source := (tree.next i).toNat
  target :=
    if i = 0 ∧ direct sendbuf tree rank then (accumbuf a recvbuf rank, segmentOffset a segindex)
    else (.inbuf inbi, 0)
  count := recvcount a segindex

def iteration (segindex i : ℕ) (inbi : Bool) (reqs : Bool → Option Request) :
    Code Int32 Memory × (Bool → Option Request) :=
  let request := irecv a sendbuf recvbuf tree rank segindex i inbi
  let posted := if segindex < numSegments a then update reqs inbi (some request) else reqs
  let code :=
    (if segindex < numSegments a then [.post request.source] else [])++wait (posted !inbi)
  let reqs := update posted (!inbi) none
  if i > 0 then
    let accumulator := (accumbuf a recvbuf rank, segmentOffset a segindex)
    let localOpBuffer :=
      if i = 1 ∧ direct sendbuf tree rank then
        (sendtmpbuf sendbuf recvbuf, segmentOffset a segindex)
      else (.inbuf !inbi, 0)
    (code++[.compute (opReduce a.op localOpBuffer accumulator (recvcount a segindex))], reqs)
  else if segindex > 0 then
    let accumulator := (accumbuf a recvbuf rank, segmentOffset a (segindex-1))
    let prevcount := recvcount a (segindex-1)
    let localOpBuffer :=
      if tree.nextsize ≤ 1 ∧ direct sendbuf tree rank then
        (sendtmpbuf sendbuf recvbuf, segmentOffset a (segindex-1))
      else (.inbuf !inbi, 0)
    (code++.compute (opReduce a.op localOpBuffer accumulator prevcount)::
      (if rank ≠ tree.root then send accumulator prevcount tree.prev.toNat else []), reqs)
  else (code, reqs)

def iterations : List (ℕ × ℕ) → Bool → (Bool → Option Request) → Code Int32 Memory
  | [], _, _ => []
  | (segindex, i)::rest, inbi, reqs =>
    let (code, reqs) := iteration a sendbuf recvbuf tree rank segindex i inbi reqs
    code++iterations rest (!inbi) reqs

def bothLoops : List (ℕ × ℕ) :=
  (List.range (numSegments a)).flatMap (fun segindex =>
    (List.range tree.nextsize).map (fun i => (segindex, i)))++[(numSegments a, 0)]

/-- The loop at a leaf. It ends where the segments have elements. -/
def leafLoop (originalCount countBySegment segindex : ℕ) : Code Int32 Memory :=
  if originalCount > 0 ∧ countBySegment > 0 then
    let countBySegment := if originalCount < countBySegment then originalCount else countBySegment
    send (sendbuf.getD .sbuf, segmentOffset a segindex) countBySegment tree.prev.toNat++
      leafLoop (originalCount-countBySegment) countBySegment (segindex+1)
  else []
  termination_by originalCount
  decreasing_by
    split <;> omega

def reduceGeneric : Code Int32 Memory :=
  if tree.nextsize > 0 then
    iterations a sendbuf recvbuf tree rank (bothLoops a tree) false (fun _ => none)
  else leafLoop a sendbuf tree a.originalCount a.countBySegment 0

end generic

structure Call where
  op : Op
  size : ℕ
  root : ℕ
  count : ℕ
  segsize : ℕ
  typelng : ℕ
  inplace : ℕ → Bool

section calls

variable (c : Call) (rank : ℕ)

def Call.args (root : ℕ) : Args where
  op := c.op
  root := root
  originalCount := c.count
  countBySegment := computeSegcount c.segsize c.typelng c.count

def Call.sendbuf : Option Place := if c.inplace rank then none else some .sbuf

def reduceTree (tree : Option Tree) : Option (Code Int32 Memory) :=
  tree.map fun tree => reduceGeneric (c.args c.root) (c.sendbuf rank) .rbuf tree rank

def chain : Option (Code Int32 Memory) :=
  reduceTree c rank (some (buildChain c.size rank c.root 2))

def linear : Code Int32 Memory :=
  let source := (c.sendbuf rank).getD .rbuf
  if rank ≠ c.root then send (source, 0) c.count c.root
  else
    let target := if c.inplace rank then .inplaceTemp else .rbuf
    (if c.root = c.size-1 then [.compute (copyContent target source c.count)]
      else recv (target, 0) c.count (c.size-1))++
    ((List.range (c.size-1)).reverse.flatMap (fun i =>
      if c.root = i then [.compute (opReduce c.op (source, 0) (target, 0) c.count)]
      else recv (.pmlBuffer, 0) c.count i++
        [.compute (opReduce c.op (.pmlBuffer, 0) (target, 0) c.count)])++
    (if c.inplace rank then [.compute (copyContent .rbuf .inplaceTemp c.count)] else []))

end calls

def Call.contribution (c : Call) (memories : ℕ → Memory) (rank : ℕ) (z : ℤ) : Int32 :=
  memories rank ((c.sendbuf rank).getD .rbuf) z

section operations

instance (op : Op) : Std.Associative op.apply where
  assoc := by
    intro x y z
    cases op with
    | max =>
      simp only [Op.apply, Int32.lt_iff_toInt_lt]
      grind
    | min =>
      simp only [Op.apply, Int32.lt_iff_toInt_lt]
      grind
    | sum => exact Int32.add_assoc x y z
    | prod => rfl

theorem apply_comm {op : Op} (hop : op ≠ .prod) (x y : Int32) : op.apply x y = op.apply y x := by
  cases op with
  | max =>
    simp only [Op.apply, Int32.lt_iff_toInt_lt]
    grind [Int32.toInt_inj]
  | min =>
    simp only [Op.apply, Int32.lt_iff_toInt_lt]
    grind [Int32.toInt_inj]
  | sum => exact Int32.add_comm x y
  | prod => exact absurd rfl hop

variable (op : Op) {source target : Pointer} {count : ℕ} (m : Memory)

theorem opReduce_eq (hplace : source.1 ≠ target.1) :
    opReduce op source target count m = update m target.1 (fun z =>
      if z ∈ contiguous target.2 count then
        op.apply (m source.1 (source.2+(z-target.2))) (m target.1 z)
      else m target.1 z) := by
  induction count with
  | zero => simp [opReduce, contiguous]
  | succ count ih =>
    rw [opReduce, List.range_succ, List.foldl_append, ← opReduce, ih]
    funext place z
    by_cases hp : place = target.1
    · subst hp
      simp only [List.foldl_cons, List.foldl_nil, set, update_self, ne_eq, hplace,
        not_false_eq_true, update_of_ne]
      by_cases hz : z = target.2+count
      · subst hz
        have hlast : target.2+(count : ℤ) ∈ contiguous target.2 (count+1) :=
          mem_contiguous.mpr ⟨count, by omega, rfl⟩
        have hfresh : target.2+(count : ℤ) ∉ contiguous target.2 count := by
          rw [mem_contiguous]
          rintro ⟨k, hk, heq⟩
          omega
        rw [update_self, if_pos hlast, if_neg hfresh]
        congr 2
        omega
      · have hsame : z ∈ contiguous target.2 (count+1) ↔ z ∈ contiguous target.2 count := by
          simp only [mem_contiguous]
          constructor
          · rintro ⟨k, hk, heq⟩
            exact ⟨k, by omega, heq⟩
          · rintro ⟨k, hk, heq⟩
            exact ⟨k, by omega, heq⟩
        rw [update_of_ne hz]
        simp only [hsame]
    · simp [set, hp]

theorem put_read (target : Pointer) (count : ℕ) (b : Buffer Int32) (e : ℤ) :
    put target count (pack (contiguous e count) b) m = some (update m target.1 (fun z =>
      if z ∈ contiguous target.2 count then b (e+(z-target.2)) else m target.1 z)) := by
  have hpack : pack (contiguous e count) b =
      (contiguous target.2 count).map (fun z => b (e+(z-target.2))) := by
    simp only [pack, contiguous, List.map_map]
    apply List.map_congr_left
    intro k _
    simp
  rw [put, hpack, unpack_map]
  rfl

/-- A receive with room for more than the message. -/
theorem put_short (target : Pointer) {count n : ℕ} (h : n ≤ count) (b : Buffer Int32) (e : ℤ) :
    put target count (pack (contiguous e n) b) m = some (update m target.1 (fun z =>
      if z ∈ contiguous target.2 n then b (e+(z-target.2)) else m target.1 z)) := by
  rw [← put_read, put, put, unpack_short _ (by simpa using h), length_pack, length_contiguous]

end operations

end Otpo.Reduce
