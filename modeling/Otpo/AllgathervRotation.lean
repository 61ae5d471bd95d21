import Otpo.AllgathervPlan
import Otpo.Library.WrapAround

/-!
# The ring and the doubled distances

Both functions send around the ranks. On the ring each rank passes on the block
that came last. With doubled distances a rank has the blocks behind its own and
sends as many of them as the receiver does not have.
-/

set_option autoImplicit false

namespace Otpo.AllgathervRotation
open MessagePassing WrapAround Otpo.MpiCalls Otpo.Allgatherv Otpo.AllgathervPlan

variable {A : Type} (c : Call A) (rbuf : ℕ → Buffer A) {size : ℕ}

def ringKnown (size i p : ℕ) : List ℕ := (List.range (i+1)).map (fun j => (p+size-j)%size)

theorem mem_ringKnown {i p q : ℕ} :
    q ∈ ringKnown size i p ↔ ∃ j, j < i+1 ∧ (p+size-j)%size = q := by
  simp [ringKnown]

theorem ringKnown_next {i p q : ℕ} :
    q ∈ ringKnown size (i+1) p ↔ q ∈ ringKnown size i p ∨ q = (p+size-(i+1))%size := by
  rw [ringKnown, List.range_succ, List.map_append, List.mem_append, ringKnown, List.map_singleton,
    List.mem_singleton]

def ringPlan (size : ℕ) : Plan size where
  rounds := size-1
  dest _ p := (p+1)%size
  source _ p := (p+size-1)%size
  out i p := [(p+size-i)%size]
  known := ringKnown size
  dest_source := by
    intro i p _ hp
    exact ⟨Nat.mod_lt _ (by omega), ahead_behind hp (by omega)⟩
  source_dest := by
    intro i p _ hp
    exact ⟨Nat.mod_lt _ (by omega), behind_ahead hp (by omega)⟩
  known_start := by
    intro p q hp
    simp [ringKnown, Nat.mod_eq_of_lt hp, eq_comm]
  out_known := by
    intro i p q _ _ hq
    exact mem_ringKnown.mpr ⟨i, by omega, by simpa [eq_comm] using hq⟩
  known_next := by
    intro i p q hi hp
    rw [ringKnown_next, List.mem_singleton, behind_twice hp (by omega), Nat.add_comm 1 i]
  known_end := by
    intro p q hp
    rw [mem_ringKnown]
    constructor
    · rintro ⟨j, _, rfl⟩
      exact Nat.mod_lt _ (by omega)
    · intro hq
      by_cases hqp : q ≤ p
      · refine ⟨p-q, by omega, ?_⟩
        rw [mod_once (by omega)]
        split <;> omega
      · refine ⟨p+size-q, by omega, ?_⟩
        rw [mod_once (by omega)]
        split <;> omega

theorem ring_follows {rank : ℕ} (hrank : rank < c.size) :
    ring c rank = (ringPlan c.size).code c rank := by
  rw [ring, Plan.code]
  congr 1
  apply List.flatMap_congr
  intro i hi
  have hi : i < c.size-1 := by simpa using hi
  have hfrom : ((rank+c.size-1)%c.size+c.size-i)%c.size = (rank+c.size-i-1)%c.size := by
    rw [behind_twice hrank (by omega)]
    congr 1
    omega
  simp [ringPlan, positions, hfrom]

/-- On every rank, in every order of the steps, the ring leaves all blocks in
their places and the rest of the buffer as it was. -/
theorem ring_gathers : Completes (onRanks c.size (ring c)) rbuf (allGathered c rbuf) :=
  plan_completes (ringPlan c.size) _ fun _ => ring_follows c

theorem doublings_eq (size : ℕ) : doublings size = List.range (Nat.clog 2 size) := by
  simp only [doublings, Nat.one_shiftLeft]
  exact takeWhile_pow_lt size

theorem pow_lt_of_pass {i : ℕ} (hi : i < Nat.clog 2 size) : 2^i < size :=
  (Nat.lt_clog_iff_pow_lt (by decide)).mp hi

def bruckPlan (size : ℕ) : Plan size where
  rounds := Nat.clog 2 size
  dest i p := (p+size-2^i)%size
  source i p := (p+2^i)%size
  out i p := arc size p (min (2^i) (size-2^i))
  known i p := arc size p (min (2^i) size)
  dest_source := by
    intro i p hi hp
    exact ⟨Nat.mod_lt _ (by omega), behind_ahead hp (pow_lt_of_pass hi).le⟩
  source_dest := by
    intro i p hi hp
    exact ⟨Nat.mod_lt _ (by omega), ahead_behind hp (pow_lt_of_pass hi).le⟩
  known_start := by
    intro p q hp
    rw [mem_arc hp (by omega)]
    unfold ahead
    split <;> omega
  out_known := by
    intro i p q hi hp hq
    rw [mem_arc hp (by omega)] at *
    omega
  known_next := by
    intro i p q hi hp
    rw [Nat.pow_succ, Nat.mul_comm]
    exact mem_arc_join hp (pow_lt_of_pass hi)
  known_end := by
    intro p q hp
    have := Nat.le_pow_clog (by decide : 1 < 2) size
    rw [mem_arc hp (by omega)]
    unfold ahead
    split <;> omega

theorem blocksFrom_eq (rank first n : ℕ) :
    blocksFrom c rank first n = positions c rank (arc c.size first n) := by
  simp [blocksFrom, typeIndexed, positions, arc, Call.block, List.flatMap_map]

theorem bruck_follows (rank : ℕ) : bruck c rank = (bruckPlan c.size).code c rank := by
  rw [bruck, doublings_eq, Plan.code]
  congr 1
  apply List.flatMap_congr
  intro i hi
  have hdistance : 2^i < c.size := pow_lt_of_pass (by simpa using hi)
  have hcount : (if 2^i ≤ c.size/2 then 2^i else c.size-2^i) = min (2^i) (c.size-2^i) := by
    split <;> omega
  simp only [Nat.one_shiftLeft, Nat.shiftRight_one, hcount, blocksFrom_eq, bruckPlan]

theorem bruck_gathers : Completes (onRanks c.size (bruck c)) rbuf (allGathered c rbuf) :=
  plan_completes (bruckPlan c.size) _ fun rank _ => bruck_follows c rank

end Otpo.AllgathervRotation
