import Otpo.AlltoallRounds

/-!
# Exchanging blocks of any length

The two functions for blocks with their own lengths and places. The own block is
copied before anything is sent.
-/

set_option autoImplicit false

namespace Otpo.Alltoallv
open MessagePassing WrapAround Otpo.MpiCalls Otpo.PersonalExchange Otpo.AlltoallRounds

structure Call (A : Type) where
  size : ℕ
  scounts : ℕ → ℕ → ℕ
  sdispls : ℕ → ℕ → ℤ
  rcounts : ℕ → ℕ → ℕ
  rdispls : ℕ → ℕ → ℤ
  sbuf : ℕ → Buffer A
  counts {p q : ℕ} : p < size → q < size → scounts q p = rcounts p q
  apart {p q r j k : ℕ} : p < size → q < size → r < size → j < rcounts p q →
    k < rcounts p r → rdispls p q+j = rdispls p r+k → q = r

variable {A : Type} (c : Call A)

def Call.message (rank dest : ℕ) : List A :=
  pack (contiguous (c.sdispls rank dest) (c.scounts rank dest)) (c.sbuf rank)

def Call.block (rank source : ℕ) : List ℤ :=
  contiguous (c.rdispls rank source) (c.rcounts rank source)

def copyOwn (rank : ℕ) : Code A (Buffer A) :=
  if 0 ≠ c.scounts rank rank then
    [.compute fun rbuf => write (contiguous (c.rdispls rank rank) (c.scounts rank rank))
      (c.message rank rank) rbuf]
  else []

def linear (rank : ℕ) : Code A (Buffer A) :=
  copyOwn c rank++
    if 1 = c.size then [] else
      exchange ((List.range c.size).filter fun i => ¬ (i = rank ∨ 0 = c.rcounts rank i))
        ((List.range c.size).filter fun i => ¬ (i = rank ∨ 0 = c.scounts rank i))
        (fun dest _ => c.message rank dest) (fun source => unpack (c.block rank source))

def pairwise (rank : ℕ) : Code A (Buffer A) :=
  copyOwn c rank++
    if 1 = c.size then [] else
      (List.range' 1 c.size).flatMap fun step =>
        let sendto := (rank+step)%c.size
        let recvfrom := (rank+c.size-step)%c.size
        sendrecv (fun _ => c.message rank sendto) sendto (unpack (c.block rank recvfrom)) recvfrom

def exchangeOf : Exchange A where
  size := c.size
  data := c.message
  block := c.block
  fits hp hq := by simp [Call.message, Call.block, c.counts hp hq]
  nodup _ _ := contiguous_nodup _ _
  apart := by
    intro p q r z hp hq hr hzq hzr
    obtain ⟨j, hj, rfl⟩ := mem_contiguous.mp hzq
    obtain ⟨k, hk, heq⟩ := mem_contiguous.mp hzr
    exact c.apart hp hq hr hj hk heq

variable {c} (rbuf : ℕ → Buffer A)

end Otpo.Alltoallv
