import Otpo.Allreduce
import Otpo.Library.WrapAround

/-!
# The blocks on their way around the ring

A block starts at its own rank. The ranks from there to where it is now have
added their parts to it.
-/

set_option autoImplicit false

namespace Otpo.AllreduceBlocks
open Function MessagePassing WrapAround Combining Otpo.MpiCalls Otpo.Reduce Otpo.Allreduce

variable (c : Otpo.Allreduce.Call)

def block (b : ℕ) : List ℤ := contiguous (b*segcount c : ℕ) (blockcount c b)

section blocks

variable {c} {b b' : ℕ} {z : ℤ}

theorem firstSegcount_le : firstSegcount c-1 ≤ c.count/c.size := by
  unfold firstSegcount
  generalize c.count/c.size = quotient
  split <;> omega

theorem segcount_le : (c.size-1)*segcount c ≤ c.count := by
  unfold segcount
  split
  · calc (c.size-1)*(firstSegcount c-1) ≤ c.size*(c.count/c.size) :=
        Nat.mul_le_mul (Nat.sub_le _ _) firstSegcount_le
      _ ≤ c.count := Nat.mul_div_le _ _
  · omega

theorem blockcount_le (b : ℕ) : blockcount c b ≤ maxsegcount c := by
  unfold blockcount maxsegcount
  split <;> split <;> omega

theorem mem_block : z ∈ block c b ↔
    ((b*segcount c : ℕ) : ℤ) ≤ z ∧ z < ((b*segcount c+blockcount c b : ℕ) : ℤ) := by
  rw [block, mem_contiguous]
  constructor
  · rintro ⟨k, hk, rfl⟩
    omega
  · intro h
    exact ⟨(z-(b*segcount c : ℕ)).toNat, by omega, by omega⟩

theorem block_end (hb : b+1 < c.size) :
    b*segcount c+blockcount c b = (b+1)*segcount c := by
  rw [blockcount, if_neg (by omega), Nat.succ_mul]

theorem block_last : (c.size-1)*segcount c+blockcount c (c.size-1) = c.count := by
  have := segcount_le (c := c)
  rw [blockcount, if_pos rfl, lastsegcount]
  omega

theorem block_apart (hb : b < c.size) (hb' : b' < c.size) (h : z ∈ block c b)
    (h' : z ∈ block c b') : b = b' := by
  have general {b b' : ℕ} (hb' : b' < c.size) (h : z ∈ block c b) (h' : z ∈ block c b') :
      ¬ b < b' := by
    intro hlt
    have hend := block_end (c := c) (b := b) (by omega)
    have hmul : (b+1)*segcount c ≤ b'*segcount c := Nat.mul_le_mul_right _ hlt
    rw [mem_block] at h h'
    omega
  have := general hb' h h'
  have := general hb h' h
  omega

theorem block_within (hb : b < c.size) (h : z ∈ block c b) : z ∈ contiguous 0 c.count := by
  have hend : b*segcount c+blockcount c b ≤ c.count := by
    by_cases hlast : b+1 < c.size
    · rw [block_end hlast]
      exact (Nat.mul_le_mul_right _ (by omega)).trans segcount_le
    · obtain rfl : b = c.size-1 := by omega
      exact block_last.le
  rw [mem_block] at h
  exact mem_contiguous.mpr ⟨z.toNat, by omega, by omega⟩

end blocks

end Otpo.AllreduceBlocks
