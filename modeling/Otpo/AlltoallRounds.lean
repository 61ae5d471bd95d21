import Otpo.Alltoall
import Otpo.Library.WrapAround
import Otpo.Library.BitPartner

/-!
# The rounds of the exchanges

Every function but the one with few messages is made of rounds. In a round a
rank receives from the ranks some distances ahead and sends as far behind, or it
exchanges with the rank that differs in some bits.
-/

set_option autoImplicit false

namespace Otpo.AlltoallRounds
open MessagePassing WrapAround Otpo.MpiCalls Otpo.PersonalExchange Otpo.Alltoall

variable {A : Type} (c : Call A) (rbuf : ℕ → Buffer A) {size : ℕ}

theorem contiguous_nodup (displ : ℤ) (count : ℕ) : (contiguous displ count).Nodup := by
  apply List.Nodup.map _ List.nodup_range
  intro j k h
  have h : displ+(j : ℤ) = displ+(k : ℤ) := h
  omega

theorem blocks_apart {count q r : ℕ} {z : ℤ} (hq : z ∈ contiguous (q*count : ℕ) count)
    (hr : z ∈ contiguous (r*count : ℕ) count) : q = r := by
  obtain ⟨j, hj, rfl⟩ := mem_contiguous.mp hq
  obtain ⟨k, hk, heq⟩ := mem_contiguous.mp hr
  have heq : j+count*q = k+count*r := by
    rw [Nat.mul_comm count q, Nat.mul_comm count r]
    omega
  have hdiv := congrArg (·/count) heq
  simp only [Nat.add_mul_div_left _ _ (show 0 < count by omega), Nat.div_eq_of_lt hj,
    Nat.div_eq_of_lt hk, Nat.zero_add] at hdiv
  exact hdiv

def exchangeOf : Exchange A where
  size := c.size
  data q p := c.message q p
  block _ q := c.block q
  fits _ _ := by simp [Call.message, Call.block, c.counts]
  nodup _ _ := contiguous_nodup _ _
  apart _ _ _ hq hr := blocks_apart hq hr

def offsetsRound (size : ℕ) (offsets : List ℕ) : Round where
  sources p := offsets.map (fun d => (p+d)%size)
  dests p := offsets.map (fun d => (p+size-d)%size)

theorem offsetsRound_sound {offsets : List ℕ} (hnodup : offsets.Nodup)
    (hlt : ∀ d ∈ offsets, d < size) : (offsetsRound size offsets).Sound size where
  sources_nodup := by
    intro p hp
    apply List.Nodup.map_on _ hnodup
    intro d hd e he heq
    rw [← ahead_add hp (hlt d hd), heq, ahead_add hp (hlt e he)]
  dests_nodup := by
    intro p hp
    apply List.Nodup.map_on _ hnodup
    intro d hd e he heq
    have hsize : 0 < size := by omega
    have hlt' : (p+size-d)%size < size := Nat.mod_lt _ hsize
    rw [← ahead_add hlt' (hlt d hd), ← ahead_add hlt' (hlt e he),
      behind_ahead hp (hlt d hd).le, heq, behind_ahead hp (hlt e he).le]
  sources_lt := by
    intro p q hp hq
    obtain ⟨d, -, rfl⟩ := List.mem_map.mp hq
    exact Nat.mod_lt _ (by omega)
  dests_lt := by
    intro p q hp hq
    obtain ⟨d, -, rfl⟩ := List.mem_map.mp hq
    exact Nat.mod_lt _ (by omega)
  match_iff := by
    intro p q hp hq
    simp only [offsetsRound, List.mem_map]
    constructor
    · rintro ⟨d, hd, rfl⟩
      exact ⟨d, hd, behind_ahead hp (hlt d hd).le⟩
    · rintro ⟨d, hd, rfl⟩
      exact ⟨d, hd, ahead_behind hq (hlt d hd).le⟩

/-- Rounds of offsets that are all offsets together. -/
theorem offsets_completes (rounds : List (List ℕ)) (code : ℕ → Code A (Buffer A))
    (hnodup : ∀ offsets ∈ rounds, offsets.Nodup)
    (hlt : ∀ offsets ∈ rounds, ∀ d ∈ offsets, d < c.size)
    (hall : ∀ d, d < c.size → ∃ offsets ∈ rounds, d ∈ offsets)
    (hcode : ∀ rank, rank < c.size → code rank = rounds.flatMap fun offsets =>
      postAll c rank (offsets.map (fun d => (rank+d)%c.size))
        (offsets.map (fun d => (rank+c.size-d)%c.size))) :
    Completes (onRanks c.size code) rbuf ((exchangeOf c).result rbuf) := by
  apply schedule_completes (exchangeOf c) rbuf (rounds.map (offsetsRound c.size))
  · intro round hround
    obtain ⟨offsets, hoffsets, rfl⟩ := List.mem_map.mp hround
    exact offsetsRound_sound (hnodup offsets hoffsets) (hlt offsets hoffsets)
  · intro rank hrank
    rw [hcode rank hrank, List.flatMap_map]
    rfl
  · intro p q hp hq
    obtain ⟨offsets, hoffsets, hd⟩ := hall (ahead c.size p q) (ahead_lt hp hq)
    exact ⟨_, List.mem_map.mpr ⟨offsets, hoffsets, rfl⟩,
      List.mem_map.mpr ⟨_, hd, add_ahead hp hq⟩⟩

theorem sendrecvBlocks_eq (rank dest source : ℕ) :
    sendrecvBlocks c rank dest source = postAll c rank [source] [dest] := rfl

/-- A single rank gets nothing, not even its own block. -/
theorem pairwise_exchanges : Completes (onRanks c.size (pairwise c)) rbuf
    (if c.size = 1 then rbuf else (exchangeOf c).result rbuf) := by
  by_cases hone : c.size = 1
  · have hnone : onRanks c.size (pairwise c) = fun _ => [] := by
      funext rank
      unfold onRanks pairwise
      rw [if_pos hone.symm]
      split <;> rfl
    rw [if_pos hone, hnone]
    exact Leads.refl.completes
  · rw [if_neg hone]
    apply offsets_completes c rbuf ((List.range' 1 c.size).map fun step => [c.size-step])
    · intro offsets hoffsets
      obtain ⟨step, -, rfl⟩ := List.mem_map.mp hoffsets
      exact List.nodup_singleton _
    · intro offsets hoffsets d hd
      obtain ⟨step, hstep, rfl⟩ := List.mem_map.mp hoffsets
      simp at hstep hd
      omega
    · intro d hd
      exact ⟨[d], List.mem_map.mpr ⟨c.size-d, by simp; omega, by simp; omega⟩, by simp⟩
    · intro rank hrank
      rw [pairwise, if_neg (Ne.symm hone), List.flatMap_map]
      apply List.flatMap_congr
      intro step hstep
      have hstep : 1 ≤ step ∧ step < 1+c.size := by simpa using hstep
      rw [sendrecvBlocks_eq, List.map_singleton, List.map_singleton,
        show rank+c.size-(c.size-step) = rank+step by omega,
        show rank+(c.size-step) = rank+c.size-step by omega]

theorem iterate_up {rank : ℕ} (n : ℕ) :
    List.iterate (fun i => (i+1)%size) ((rank+1)%size) n =
      (List.range' 1 n).map (fun d => (rank+d)%size) := by
  have hpower (k : ℕ) : (fun i => (i+1)%size)^[k] ((rank+1)%size) = (rank+(1+k))%size := by
    induction k with
    | zero => rfl
    | succ k ih =>
      rw [Function.iterate_succ_apply', ih, Nat.mod_add_mod]
      rfl
  rw [← List.range_map_iterate, List.range'_eq_map_range, List.map_map]
  exact List.map_congr_left (fun k _ => hpower k)

theorem iterate_down {rank n : ℕ} (hrank : rank < size) (hn : n ≤ size) :
    List.iterate (fun i => (i+size-1)%size) ((rank+size-1)%size) n =
      (List.range' 1 n).map (fun d => (rank+size-d)%size) := by
  have hpower (k : ℕ) (hk : k < size) :
      (fun i => (i+size-1)%size)^[k] ((rank+size-1)%size) = (rank+size-(1+k))%size := by
    induction k with
    | zero => rfl
    | succ k ih =>
      rw [Function.iterate_succ_apply', ih (by omega), behind_twice hrank (by omega)]
      congr 1
  rw [← List.range_map_iterate, List.range'_eq_map_range, List.map_map]
  exact List.map_congr_left (fun k hk => hpower k (by simp at hk; omega))

/-- Every other rank is passed before the walk is back. -/
theorem takeWhile_others {rank : ℕ} (place : ℕ → ℕ) (hsize : 0 < size)
    (hother : ∀ d, 0 < d → d < size → place d ≠ rank) (hback : place size = rank) :
    ((List.range' 1 size).map place).takeWhile (fun i => i ≠ rank) =
      (List.range' 1 (size-1)).map place := by
  rw [List.takeWhile_map, List.range'_eq_map_range, List.takeWhile_map,
    takeWhile_range _ size (size-1) (by omega), ← List.range'_eq_map_range]
  · intro i hi
    simpa using hother (1+i) (by omega) (by omega)
  · intro _
    simpa [show 1+(size-1) = size by omega] using hback

theorem walk_up {rank : ℕ} (hrank : rank < size) :
    walk size (fun i => (i+1)%size) ((rank+1)%size) rank =
      (List.range' 1 (size-1)).map (fun d => (rank+d)%size) := by
  rw [walk, iterate_up]
  apply takeWhile_others _ (by omega)
  · intro d hd hdsize h
    rw [mod_once (by omega)] at h
    split at h <;> omega
  · rw [Nat.add_mod_right, Nat.mod_eq_of_lt hrank]

theorem walk_down {rank : ℕ} (hrank : rank < size) :
    walk size (fun i => (i+size-1)%size) ((rank+size-1)%size) rank =
      (List.range' 1 (size-1)).map (fun d => (rank+size-d)%size) := by
  rw [walk, iterate_down hrank le_rfl]
  apply takeWhile_others _ (by omega)
  · intro d hd hdsize h
    rw [mod_once (by omega)] at h
    split at h <;> omega
  · rw [Nat.add_sub_cancel, Nat.mod_eq_of_lt hrank]

/-- The own block first and then all others at once. -/
theorem posted_completes (code : ℕ → Code A (Buffer A))
    (hcode : ∀ rank, rank < c.size → code rank = sendrecvBlocks c rank rank rank++
      if 1 = c.size then [] else
        postAll c rank ((List.range' 1 (c.size-1)).map (fun d => (rank+d)%c.size))
          ((List.range' 1 (c.size-1)).map (fun d => (rank+c.size-d)%c.size))) :
    Completes (onRanks c.size code) rbuf ((exchangeOf c).result rbuf) := by
  apply offsets_completes c rbuf
    ([0]::if 1 = c.size then [] else [List.range' 1 (c.size-1)])
  · intro offsets hoffsets
    split at hoffsets
    · simp_all
    · simp only [List.mem_cons, List.not_mem_nil, or_false] at hoffsets
      obtain rfl | rfl := hoffsets
      · exact List.nodup_singleton 0
      · exact List.nodup_range'
  · intro offsets hoffsets d hd
    have hpositive := c.positive
    split at hoffsets
    · simp_all
    · simp only [List.mem_cons, List.not_mem_nil, or_false] at hoffsets
      obtain rfl | rfl := hoffsets
      · simp at hd
        omega
      · simp at hd
        omega
  · intro d hd
    by_cases hzero : d = 0
    · exact ⟨[0], by simp, by simp [hzero]⟩
    · refine ⟨List.range' 1 (c.size-1), ?_, by simp; omega⟩
      rw [if_neg (by omega)]
      simp
  · intro rank hrank
    rw [hcode rank hrank, List.flatMap_cons]
    congr 1
    · simp [sendrecvBlocks_eq, Nat.mod_eq_of_lt hrank]
    · split <;> simp

theorem linear_exchanges :
    Completes (onRanks c.size (linear c)) rbuf ((exchangeOf c).result rbuf) := by
  apply posted_completes
  intro rank hrank
  rw [linear, walk_up hrank, walk_down hrank]

theorem linearSync_exchanges :
    Completes (onRanks c.size (linearSync c)) rbuf ((exchangeOf c).result rbuf) := by
  apply posted_completes
  intro rank hrank
  rw [linearSync, iterate_up, iterate_down hrank (by omega)]

theorem batches_eq {bblock : ℕ} (hblock : 0 < bblock) :
    batches size bblock = (List.range ((size+bblock-1)/bblock)).map (·*bblock) := by
  have hceil := Nat.div_add_mod (size+bblock-1) bblock
  have hmod := Nat.mod_lt (size+bblock-1) hblock
  rw [batches, List.takeWhile_map, takeWhile_range _ size ((size+bblock-1)/bblock)]
  · have := Nat.le_mul_of_pos_right size hblock
    rw [← Nat.lt_succ_iff, Nat.div_lt_iff_lt_mul hblock, Nat.succ_mul]
    omega
  · intro k hk
    have := Nat.mul_le_mul_left bblock (Nat.succ_le_of_lt hk)
    rw [Nat.mul_succ] at this
    simp only [Function.comp, decide_eq_true_eq, Nat.mul_comm k]
    omega
  · intro _
    simp only [Function.comp, decide_eq_false_iff_not, Nat.mul_comm _ bblock]
    omega

theorem ladd_exchanges (bblock : ℕ) :
    Completes (onRanks c.size (ladd c bblock)) rbuf ((exchangeOf c).result rbuf) := by
  have hpositive := c.positive
  have hblock : 0 < laddBlock c.size bblock := by
    unfold laddBlock
    split <;> omega
  rw [show ladd c bblock = fun rank => ladd c bblock rank from rfl]
  unfold ladd
  generalize laddBlock c.size bblock = b at *
  have hstart {ii : ℕ} (hii : ii ∈ batches c.size b) : ii < c.size := by
    simpa using List.mem_takeWhile_imp hii
  apply offsets_completes c rbuf ((batches c.size b).map fun ii =>
    (List.range (if c.size-ii < b then c.size-ii else b)).map (ii+·))
  · intro offsets hoffsets
    obtain ⟨ii, -, rfl⟩ := List.mem_map.mp hoffsets
    exact List.Nodup.map (fun _ _ h => Nat.add_left_cancel h) List.nodup_range
  · intro offsets hoffsets d hd
    obtain ⟨ii, hii, rfl⟩ := List.mem_map.mp hoffsets
    obtain ⟨i, hi, rfl⟩ := List.mem_map.mp hd
    have hi := List.mem_range.mp hi
    have := hstart hii
    split at hi <;> omega
  · intro d hd
    have hdiv := Nat.div_add_mod d b
    have hmod := Nat.mod_lt d hblock
    rw [Nat.mul_comm] at hdiv
    refine ⟨_, List.mem_map.mpr ⟨d/b*b, ?_, rfl⟩, List.mem_map.mpr ⟨d%b, ?_, hdiv⟩⟩
    · rw [batches_eq hblock]
      refine List.mem_map.mpr ⟨d/b, List.mem_range.mpr ?_, rfl⟩
      rw [Nat.div_lt_iff_lt_mul hblock]
      have hceil := Nat.div_add_mod (c.size+b-1) b
      have hrest := Nat.mod_lt (c.size+b-1) hblock
      rw [Nat.mul_comm] at hceil
      omega
    · rw [List.mem_range]
      split <;> omega
  · intro rank hrank
    rw [List.flatMap_map]
    apply List.flatMap_congr
    intro ii hii
    have := hstart hii
    simp only [List.map_map]
    congr 1
    · apply List.map_congr_left
      intro i _
      simp only [Function.comp]
      congr 1
      omega
    · apply List.map_congr_left
      intro i _
      simp only [Function.comp]
      congr 1
      omega

end Otpo.AlltoallRounds
