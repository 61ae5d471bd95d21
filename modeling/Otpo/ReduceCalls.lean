import Otpo.ReduceRun
import Otpo.TopologyLevels
import Otpo.TopologyBinomial
import Otpo.TopologyChain
import Otpo.TopologyInOrder

/-!
# The reductions along trees
-/

set_option autoImplicit false

namespace Otpo.ReduceCalls
open Function MessagePassing Combining Otpo.MpiCalls Otpo.ReduceTopo Otpo.Reduce
open Otpo.ReduceRounds Otpo.TopologySpans Otpo.ReduceTotals Otpo.ReduceRun

structure Valid (c : Call) : Prop where
  known : c.op ≠ .prod
  two_le : 2 ≤ c.size
  root_lt : c.root < c.size
  count_pos : 0 < c.count
  typelng_pos : 0 < c.typelng
  inplace_root {rank : ℕ} : c.inplace rank → rank = c.root

theorem computeSegcount_pos {segsize typelng count : ℕ} (htypelng : 0 < typelng)
    (hcount : 0 < count) : 0 < computeSegcount segsize typelng count := by
  unfold computeSegcount
  split
  · rename_i h
    have := Nat.div_pos h.1 htypelng
    simp only
    split <;> omega
  · exact hcount

variable {c : Call}

theorem Valid.segment_pos (h : Valid c) (root : ℕ) : 0 < (c.args root).countBySegment :=
  computeSegcount_pos h.typelng_pos h.count_pos

section inOrder

def handOver (c : Call) (rank : ℕ) : Code Int32 Memory :=
  if c.root = rank then recv (.rbuf, 0) c.count (c.size-1)
  else if c.size-1 = rank then send (.tmpbuf, 0) c.count c.root
  else []

def handed (c : Call) (memories : ℕ → Memory) (rank : ℕ) : Memory :=
  if rank = c.root then update (memories rank) .rbuf fun z =>
    if z ∈ contiguous 0 c.count then memories (c.size-1) .tmpbuf z else memories rank .rbuf z
  else memories rank

end inOrder

end Otpo.ReduceCalls
