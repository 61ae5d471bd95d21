import Otpo.AllgathervRotation
import Mathlib.Tactic.Ring

/-!
# Exchange with the two neighbours

With an even number of ranks the blocks travel in pairs. A rank talks to its
neighbours in turn, and the pairs come to it from both sides alternately.
-/

set_option autoImplicit false

namespace Otpo.AllgathervNeighbors
open MessagePassing WrapAround Otpo.MpiCalls Otpo.Allgatherv Otpo.AllgathervPlan
open Otpo.AllgathervRotation

variable {A : Type} (c : Call A) (rbuf : ℕ → Buffer A) {size rank : ℕ}

def base (rank : ℕ) : ℕ := rank-rank%2

def direction (rank : ℕ) : ℤ := if rank%2 = 0 then 1 else -1

def turn (i : ℕ) : ℤ := if i%2 = 1 then -((i+1)/2 : ℕ) else (i/2 : ℕ)

def place (size rank i : ℕ) : ℕ := ((base rank+2*direction rank*turn i)%size).toNat

def passes (i : ℕ) (parity : Bool) : ℕ := if parity then (i+1)/2 else i/2

theorem offset_passes (rank i : ℕ) :
    offsetAtStep rank (i%2 = 1)*passes i (i%2 = 1) = 2*direction rank*turn i := by
  unfold offsetAtStep passes direction turn
  by_cases hi : i%2 = 1
  · by_cases hr : rank%2 = 0
    · simp [hi, hr]
    · simp [hi, hr]
  · by_cases hr : rank%2 = 0
    · simp [hi, hr]
    · simp [hi, hr]

theorem neighbor_first (hsize : size%2 = 0) (hrank : rank < size) :
    neighbor size rank false = if rank%2 = 0 then rank+1 else rank-1 := by
  unfold neighbor
  by_cases hr : rank%2 = 0
  · simp only [hr, iff_self, if_true]
    exact Nat.mod_eq_of_lt (by omega)
  · simp only [hr, false_iff, not_true, if_false]
    rw [mod_once (by omega)]
    split <;> omega

theorem start_eq (hsize : size%2 = 0) (hrank : rank < size) :
    Course.start size rank = ⟨fun _ => base rank, base rank⟩ := by
  rw [Course.start, neighbor_first hsize hrank]
  unfold base
  have : (if rank%2 = 0 then rank else if rank%2 = 0 then rank+1 else rank-1) = rank-rank%2 := by
    split <;> omega
  simp only [this]

/-- The variables of the loop. -/
theorem course_before (hsize : size%2 = 0) (hrank : rank < size) (i : ℕ) :
    (∀ parity, (Course.before size rank i).recvDataFrom parity =
      ((base rank+offsetAtStep rank parity*passes i parity)%size).toNat) ∧
    (Course.before size rank i).sendDataFrom =
      (Course.before size rank i).recvDataFrom (i%2 = 1) := by
  induction i with
  | zero =>
    rw [Course.before, start_eq hsize hrank]
    have hbase : ((base rank : ℤ)%size).toNat = base rank := by
      have : base rank < size := by unfold base; omega
      rw [Int.emod_eq_of_lt (by omega) (by omega), Int.toNat_natCast]
    refine ⟨?_, rfl⟩
    intro parity
    cases parity <;> simp [passes, hbase]
  | succ i ih =>
    obtain ⟨hrecv, -⟩ := ih
    rw [Course.before, Course.next]
    refine ⟨?_, by simp⟩
    intro parity
    by_cases hparity : parity = decide ((i+1)%2 = 1)
    · have hpasses : passes (i+1) parity = passes i parity+1 := by
        unfold passes
        by_cases hi : (i+1)%2 = 1
        · simp only [hparity, hi, decide_true, if_true]
          omega
        · simp only [hparity, hi, decide_false, Bool.false_eq_true, if_false]
          omega
      rw [← hparity]
      simp only [Function.update_self, Course.recvNext, hrecv, hpasses]
      rw [Int.toNat_of_nonneg (Int.emod_nonneg _ (by omega)), Int.add_emod_right,
        Int.emod_add_emod]
      congr 2
      push_cast
      rw [Int.mul_add, Int.mul_one, Int.add_assoc]
    · have hpasses : passes (i+1) parity = passes i parity := by
        unfold passes
        by_cases hi : (i+1)%2 = 1
        · have : parity = false := by simpa [hi] using hparity
          simp only [this, Bool.false_eq_true, if_false]
          omega
        · have : parity = true := by simpa [hi] using hparity
          simp only [this, if_true]
          omega
      simp [hparity, hrecv, hpasses]

theorem send_place (hsize : size%2 = 0) (hrank : rank < size) (i : ℕ) :
    (Course.before size rank i).sendDataFrom = place size rank i := by
  obtain ⟨hrecv, hsend⟩ := course_before hsize hrank i
  rw [hsend, hrecv, offset_passes, place]

theorem recv_place (hsize : size%2 = 0) (hrank : rank < size) (i : ℕ) :
    (Course.before size rank i).recvNext size rank ((i+1)%2 = 1) = place size rank (i+1) :=
  send_place hsize hrank (i+1)

theorem place_zero (hsize : size%2 = 0) (hrank : rank < size) : place size rank 0 = base rank := by
  have : base rank < size := by unfold base; omega
  have hturn : turn 0 = 0 := rfl
  rw [place, hturn, Int.mul_zero, Int.add_zero, Int.emod_eq_of_lt (by omega) (by omega),
    Int.toNat_natCast]

theorem neighbor_eq (hsize : size%2 = 0) (hrank : rank < size) (parity : Bool) :
    neighbor size rank parity =
      if rank%2 = 0 ↔ parity = false then (if rank+1 < size then rank+1 else 0)
      else if rank = 0 then size-1 else rank-1 := by
  unfold neighbor
  by_cases hside : rank%2 = 0 ↔ parity = false
  · rw [if_pos hside, if_pos hside, mod_once (by omega)]
    split <;> omega
  · rw [if_neg hside, if_neg hside, mod_once (by omega)]
    split <;> split <;> omega

theorem neighbor_lt (hsize : size%2 = 0) (hrank : rank < size) (parity : Bool) :
    neighbor size rank parity < size := by
  rw [neighbor_eq hsize hrank]
  split <;> split <;> omega

theorem neighbor_neighbor (hsize : size%2 = 0) (hrank : rank < size) (parity : Bool) :
    neighbor size (neighbor size rank parity) parity = rank := by
  rw [neighbor_eq hsize (neighbor_lt hsize hrank parity), neighbor_eq hsize hrank]
  cases parity
  · grind
  · grind

theorem place_shift {p q i j : ℕ} (n : ℤ)
    (h : base q+2*direction q*turn i = base p+2*direction p*turn j+size*n) :
    place size q i = place size p j := by
  rw [place, place, h, Int.add_mul_emod_self_left]

theorem turn_even {i : ℕ} (hi : i%2 = 0) : turn i = (i/2 : ℕ) ∧ turn (i+1) = -(i/2+1 : ℕ) := by
  constructor
  · simp [turn, hi]
  · have : (i+1)%2 = 1 := by omega
    rw [turn, if_pos this]
    omega

theorem turn_odd {i : ℕ} (hi : i%2 = 1) : turn i = -(i/2+1 : ℕ) ∧ turn (i+1) = (i/2+1 : ℕ) := by
  constructor
  · rw [turn, if_pos hi]
    omega
  · have : ¬ (i+1)%2 = 1 := by omega
    rw [turn, if_neg this]
    omega

/-- What the partner of the next pass got last is what comes next. -/
theorem place_neighbor (hsize : size%2 = 0) (hrank : rank < size) (i : ℕ) :
    place size (neighbor size rank ((i+1)%2 = 1)) i = place size rank (i+1) := by
  rw [neighbor_eq hsize hrank]
  by_cases hi : i%2 = 0
  · obtain ⟨hturn, hnext⟩ := turn_even hi
    have hparity : decide ((i+1)%2 = 1) = true := by simpa using by omega
    rw [hparity]
    by_cases hr : rank%2 = 0
    · have hodd : (rank-1)%2 = 1 ∨ rank = 0 := by omega
      by_cases hzero : rank = 0
      · apply place_shift 1
        simp [hzero, hturn, hnext, base, direction, show (size-1)%2 = 1 by omega]
        omega
      · apply place_shift 0
        simp [hr, hzero, hturn, hnext, base, direction, show (rank-1)%2 = 1 by omega]
        omega
    · by_cases hlast : rank+1 < size
      · apply place_shift 0
        simp [hr, hlast, hturn, hnext, base, direction, show (rank+1)%2 = 0 by omega]
        omega
      · apply place_shift (-1)
        simp [hr, hlast, hturn, hnext, base, direction]
        omega
  · obtain ⟨hturn, hnext⟩ := turn_odd (show i%2 = 1 by omega)
    have hparity : decide ((i+1)%2 = 1) = false := by simpa using by omega
    rw [hparity]
    apply place_shift 0
    by_cases hr : rank%2 = 0
    · simp [hr, hturn, hnext, base, direction, show (rank+1)%2 = 1 by omega,
        show rank+1 < size by omega]
      omega
    · simp [hr, hturn, hnext, base, direction, show (rank-1)%2 = 0 by omega,
        show rank ≠ 0 by omega]
      omega

/-- The pairs of the passes are all pairs. -/
theorem exists_place (hsize : size%2 = 0) (hrank : rank < size) {q : ℕ} (hq : q < size) :
    ∃ i, i < size/2 ∧ place size rank i = base q := by
  obtain ⟨h, hh⟩ : ∃ h : ℕ, size = 2*h := ⟨size/2, by omega⟩
  have hbase : base q < size := by unfold base; omega
  have hside : direction rank = 1 ∨ direction rank = -1 := by unfold direction; split <;> simp
  -- how many pairs to go in the direction of the rank
  obtain ⟨x, hx⟩ : ∃ x : ℤ, (base q : ℤ) = base rank+2*direction rank*x := by
    have hq : base q%2 = 0 := by unfold base; omega
    have hr : base rank%2 = 0 := by unfold base; omega
    obtain hone | hone := hside
    · exact ⟨((base q : ℤ)-base rank)/2, by rw [hone]; omega⟩
    · exact ⟨((base rank : ℤ)-base q)/2, by rw [hone]; omega⟩
  have hdivide := Int.emod_add_mul_ediv x h
  have hlow := Int.emod_nonneg x (b := h) (by omega)
  have hhigh := Int.emod_lt_of_pos x (b := h) (by omega)
  have hfound (i : ℕ) (k : ℤ) (hturn : turn i = x-h*k) : place size rank i = base q := by
    have : (base rank : ℤ)+2*direction rank*turn i = base q+size*(-direction rank*k) := by
      rw [hx, hturn, hh]
      push_cast
      ring
    rw [place, this, Int.add_mul_emod_self_left, Int.emod_eq_of_lt (by omega) (by omega),
      Int.toNat_natCast]
  by_cases hhalf : 2*(x%h) < h
  · refine ⟨2*(x%h).toNat, by omega, hfound _ (x/h) ?_⟩
    rw [(turn_even (by omega)).1]
    omega
  · refine ⟨2*(h-(x%h).toNat)-1, by omega, hfound _ (x/h+1) ?_⟩
    rw [(turn_odd (by omega)).1]
    have : (h : ℤ)*(x/h+1) = h*(x/h)+h := by ring
    omega

theorem place_lt (hsize : size%2 = 0) (hrank : rank < size) (i : ℕ) :
    place size rank i+1 < size := by
  have hlow := Int.emod_nonneg ((base rank : ℤ)+2*direction rank*turn i) (b := size) (by omega)
  have hhigh := Int.emod_lt_of_pos ((base rank : ℤ)+2*direction rank*turn i) (b := size) (by omega)
  have heven : ((base rank : ℤ)+2*direction rank*turn i)%size%2 = 0 := by
    have hbase : base rank%2 = 0 := by unfold base; omega
    rw [Int.emod_emod_of_dvd _ (by omega), Int.mul_assoc, Int.add_mul_emod_self_left]
    omega
  unfold place
  omega

theorem base_pair (q : ℕ) : q = base q ∨ q = base q+1 := by
  unfold base
  omega

def pairsKnown (size i rank : ℕ) : List ℕ :=
  if i = 0 then [rank]
  else (List.range i).flatMap (fun j => [place size rank j, place size rank j+1])

theorem mem_pairsKnown {i q : ℕ} :
    q ∈ pairsKnown size (i+1) rank ↔
      ∃ j, j < i+1 ∧ (q = place size rank j ∨ q = place size rank j+1) := by
  simp [pairsKnown]

theorem pairsKnown_next {i q : ℕ} :
    q ∈ pairsKnown size (i+2) rank ↔ q ∈ pairsKnown size (i+1) rank ∨
      q = place size rank (i+1) ∨ q = place size rank (i+1)+1 := by
  simp [pairsKnown, List.range_succ (n := i+1)]

def pairsOut (size i rank : ℕ) : List ℕ :=
  if i = 0 then [rank] else [place size rank (i-1), place size rank (i-1)+1]

def neighborPlan (size : ℕ) (hsize : size%2 = 0) : Plan size where
  rounds := size/2
  dest i p := neighbor size p (i%2 = 1)
  source i p := neighbor size p (i%2 = 1)
  out := pairsOut size
  known := pairsKnown size
  dest_source := fun _ hp => ⟨neighbor_lt hsize hp _, neighbor_neighbor hsize hp _⟩
  source_dest := fun _ hp => ⟨neighbor_lt hsize hp _, neighbor_neighbor hsize hp _⟩
  known_start := by
    intro p q _
    simp [pairsKnown]
  out_known := by
    intro i p q _ _ hq
    cases i with
    | zero => exact hq
    | succ i => exact mem_pairsKnown.mpr ⟨i, by omega, by simpa [pairsOut] using hq⟩
  known_next := by
    intro i p q _ hp
    cases i with
    | zero =>
      have hbase := base_pair p
      rw [mem_pairsKnown]
      simp only [pairsKnown, pairsOut, if_true, List.mem_singleton, Nat.zero_mod,
        Nat.zero_add, Nat.lt_one_iff, exists_eq_left, place_zero hsize hp]
      rw [show decide (0 = 1) = false from rfl, neighbor_first hsize hp]
      unfold base
      split <;> omega
    | succ i =>
      rw [pairsKnown_next]
      simp [pairsOut, place_neighbor hsize hp i]
  known_end := by
    intro p q hp
    obtain ⟨n, hn⟩ : ∃ n, size/2 = n+1 := ⟨size/2-1, by omega⟩
    rw [hn, mem_pairsKnown]
    constructor
    · rintro ⟨j, _, hq⟩
      have := place_lt hsize hp j
      omega
    · intro hq
      obtain ⟨i, hi, hplace⟩ := exists_place hsize hp hq
      exact ⟨i, by omega, hplace ▸ base_pair q⟩

theorem blockPair_eq (first : ℕ) : blockPair c rank first = positions c rank [first, first+1] := by
  simp [blockPair, typeIndexed, positions, Call.block]

theorem neighborexchange_even (hsize : c.size%2 = 0) :
    Completes (onRanks c.size (neighborexchange c)) rbuf (allGathered c rbuf) := by
  apply plan_completes (neighborPlan c.size hsize)
  intro rank hrank
  have hsplit : List.range (c.size/2) = 0::(List.range (c.size/2-1)).map (·+1) := by
    rw [← List.range_succ_eq_map]
    congr 1
    omega
  rw [neighborexchange, if_neg (by omega), Plan.code]
  simp only [neighborPlan, hsplit, List.flatMap_cons, List.flatMap_map]
  congr 2
  · simp [pairsOut, positions]
  · apply List.flatMap_congr
    intro i _
    simp only [send_place hsize hrank, recv_place hsize hrank, blockPair_eq, pairsOut,
      if_neg (Nat.succ_ne_zero i), Nat.add_sub_cancel, place_neighbor hsize hrank]

/-- With an odd number of ranks the ring takes over. -/
theorem neighborexchange_gathers :
    Completes (onRanks c.size (neighborexchange c)) rbuf (allGathered c rbuf) := by
  by_cases hsize : c.size%2 = 0
  · exact neighborexchange_even c rbuf hsize
  · have : neighborexchange c = ring c := by
      funext rank
      exact if_pos hsize
    rw [this]
    exact plan_completes (ringPlan c.size) _ fun _ => ring_follows c

end Otpo.AllgathervNeighbors
