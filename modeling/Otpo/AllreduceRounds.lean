import Otpo.AllreduceRing
import Otpo.Library.OrderedRounds
import Mathlib.Data.Nat.Bits

/-!
# The ring reduction of all ranks
-/

set_option autoImplicit false

namespace Otpo.AllreduceRounds
open Function MessagePassing WrapAround Otpo.MpiCalls Otpo.Reduce Otpo.Allreduce
open Otpo.AllreduceBlocks Otpo.AllreduceRing

variable (c : Otpo.Allreduce.Call) (rank : ℕ)

def sendSent (j : ℕ) : Code Int32 Memory := sendBlock c rank (sent c j rank)

def reduceGot (j : ℕ) : Code Int32 Memory := reduceBlock c rank j.bodd (got c j rank)

def round (j : ℕ) : Code Int32 Memory :=
  .post (recvfrom c rank)::(sendSent c rank j++reduceGot c rank j)

section leads

variable {c} {start : ℕ → Memory} {p : ℕ}

theorem sendto_recvfrom (hp : p < c.size) :
    sendto c p < c.size ∧ recvfrom c (sendto c p) = p :=
  ⟨Nat.mod_lt _ (by omega), ahead_behind hp (by omega)⟩

theorem recvfrom_sendto (hp : p < c.size) :
    recvfrom c p < c.size ∧ sendto c (recvfrom c p) = p :=
  ⟨Nat.mod_lt _ (by omega), behind_ahead hp (by omega)⟩

theorem leads_round {j : ℕ} (hj : j+1 < c.size) (memories : ℕ → Memory)
    (h : ∀ p, p < c.size → Computing c start j p (memories p)) :
    ∃ memories', (∀ p, p < c.size → Computing c start (j+1) p (memories' p)) ∧
      ∀ rest : ℕ → Code Int32 Memory,
        Leads (fun p => onRanks c.size (round c · j) p++rest p) memories rest memories' := by
  let change (p : ℕ) : Memory → Memory :=
    opReduce c.op (.inbuf j.bodd, 0) (blockPlace c (got c j p)) (blockcount c (got c j p))
  let middle (p : ℕ) : Memory :=
    if p < c.size then update (memories p) (.inbuf j.bodd) fun z =>
      if z ∈ contiguous 0 (blockcount c (got c j p)) then
        memories (recvfrom c p) .rbuf ((got c j p*segcount c : ℕ)+(z-0))
      else memories p (.inbuf j.bodd) z
    else memories p
  refine ⟨fun p => if p < c.size then change p (middle p) else middle p, ?_, ?_⟩
  · intro p hp
    simp only [hp, if_true, change, middle]
    exact computing_next hp hj j.bodd (h p hp) (h _ (recvfrom_lt hp))
  · intro rest
    have hmessages := leads_handOn c.size (sendto c) (recvfrom c)
      (fun p => Otpo.Reduce.read (blockPlace c (sent c j p)) (blockcount c (sent c j p)))
      (fun _ => put (.inbuf j.bodd, 0) (maxsegcount c))
      (fun p => onRanks c.size (fun p => [.compute (change p)]) p++rest p) memories middle
      (fun p hp => sendto_recvfrom hp) (fun p hp => recvfrom_sendto hp) ?_ ?_
    · have hchange := leads_change c.size change rest middle
      convert hmessages.trans hchange using 2 with p
      unfold onRanks
      split <;> rfl
    · intro p hp
      simp only [middle, hp, if_true]
      rw [sent_recvfrom hp (by omega), Otpo.Reduce.read, put_short _ _ (blockcount_le _)]
      rfl
    · intro p hp
      exact if_neg hp

end leads

variable {c}

end Otpo.AllreduceRounds
