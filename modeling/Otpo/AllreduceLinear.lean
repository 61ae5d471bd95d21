import Otpo.Allreduce
import Otpo.ReduceLinear

/-!
# The reduction to rank 0 and its broadcast
-/

set_option autoImplicit false

namespace Otpo.AllreduceLinear
open Function MessagePassing Otpo.MpiCalls Otpo.Reduce Otpo.ReduceLinear Otpo.Allreduce

def received (size count : ℕ) (place : Place) (memories : ℕ → Memory) (p : ℕ) : Memory :=
  if p < size ∧ p ≠ 0 then update (memories p) .rbuf fun z =>
    if z ∈ contiguous 0 count then memories 0 place z else memories p .rbuf z
  else memories p

variable {c : Otpo.Allreduce.Call}

end Otpo.AllreduceLinear
