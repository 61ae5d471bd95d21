import Otpo.Allgatherv

/-!
# Plans for gathering

A plan says who sends which blocks to whom in which round, and which blocks a
rank has at the beginning of a round. A rank sends only what it has. Programs
that follow a plan gather all blocks.
-/

set_option autoImplicit false

namespace Otpo.AllgathervPlan
open MessagePassing Otpo.MpiCalls Otpo.Allgatherv

structure Plan (size : ℕ) where
  rounds : ℕ
  dest : ℕ → ℕ → ℕ
  source : ℕ → ℕ → ℕ
  out : ℕ → ℕ → List ℕ
  known : ℕ → ℕ → List ℕ
  dest_source {i p : ℕ} : i < rounds → p < size → dest i p < size ∧ source i (dest i p) = p
  source_dest {i p : ℕ} : i < rounds → p < size → source i p < size ∧ dest i (source i p) = p
  known_start {p q : ℕ} : p < size → (q ∈ known 0 p ↔ q = p)
  out_known {i p q : ℕ} : i < rounds → p < size → q ∈ out i p → q ∈ known i p
  known_next {i p q : ℕ} : i < rounds → p < size →
    (q ∈ known (i+1) p ↔ q ∈ known i p ∨ q ∈ out i (source i p))
  known_end {p q : ℕ} : p < size → (q ∈ known rounds p ↔ q < size)

theorem Plan.known_lt {size : ℕ} (plan : Plan size) {i p q : ℕ} (hi : i ≤ plan.rounds)
    (hp : p < size) (hq : q ∈ plan.known i p) : q < size := by
  induction h : plan.rounds-i generalizing i with
  | zero =>
    have : i = plan.rounds := by omega
    subst this
    exact (plan.known_end hp).mp hq
  | succ n ih =>
    exact ih (i := i+1) (by omega) ((plan.known_next (by omega) hp).mpr (Or.inl hq)) (by omega)

variable {A : Type} (c : Call A) (rbuf : ℕ → Buffer A)

def positions (rank : ℕ) (blocks : List ℕ) : List ℤ := blocks.flatMap (c.block rank)

def holding (rank : ℕ) (blocks : List ℕ) : Buffer A := fun z =>
  if z ∈ positions c rank blocks then gathered c rbuf rank z else rbuf rank z

def contents (blocks : List ℕ) : List A :=
  blocks.flatMap fun q => (List.range (c.rcounts q)).map (contribution c rbuf q)

def Plan.code (plan : Plan c.size) (rank : ℕ) : Code A (Buffer A) :=
  initialization c rank++(List.range plan.rounds).flatMap fun i =>
    sendrecv (pack (positions c rank (plan.out i rank))) (plan.dest i rank)
      (unpack (positions c rank (plan.out i (plan.source i rank)))) (plan.source i rank)

variable {c rbuf} {rank : ℕ}

theorem mem_block {q : ℕ} {z : ℤ} :
    z ∈ c.block rank q ↔ ∃ k : ℕ, k < c.rcounts q ∧ z = c.rdispls rank q+k :=
  mem_contiguous

theorem gathered_block (hrank : rank < c.size) {q k : ℕ} (hq : q < c.size)
    (hk : k < c.rcounts q) :
    gathered c rbuf rank (c.rdispls rank q+k) = contribution c rbuf q k := by
  unfold gathered
  cases hfind : (List.range c.size).find?
      (fun r => decide (c.rdispls rank q+k ∈ c.block rank r)) with
  | none =>
    have := List.find?_eq_none.mp hfind q (by simpa using hq)
    simp only [decide_eq_true_eq, mem_block] at this
    exact absurd ⟨k, hk, rfl⟩ this
  | some r =>
    have hr : r < c.size := by simpa using List.mem_of_find?_eq_some hfind
    have hmem := List.find?_some hfind
    simp only [decide_eq_true_eq, mem_block] at hmem
    obtain ⟨j, hj, heq⟩ := hmem
    have : q = r := c.apart hrank hq hr hk hj heq
    subst this
    have : c.rdispls rank q+(k : ℤ)-c.rdispls rank q = k := by omega
    simp [this]

theorem gathered_outside {z : ℤ} (hz : ∀ q, q < c.size → z ∉ c.block rank q) :
    gathered c rbuf rank z = rbuf rank z := by
  unfold gathered
  have : (List.range c.size).find? (fun q => z ∈ c.block rank q) = none := by
    rw [List.find?_eq_none]
    intro q hq
    simpa using hz q (by simpa using hq)
  rw [this]

theorem contents_eq (hrank : rank < c.size) {blocks : List ℕ}
    (hblocks : ∀ q ∈ blocks, q < c.size) :
    contents c rbuf blocks = (positions c rank blocks).map (gathered c rbuf rank) := by
  rw [contents, positions, List.map_flatMap]
  apply List.flatMap_congr
  intro q hq
  rw [Call.block, contiguous, List.map_map]
  apply List.map_congr_left
  intro k hk
  exact (gathered_block hrank (hblocks q hq) (by simpa using hk)).symm

theorem pack_holding (hrank : rank < c.size) {blocks known : List ℕ}
    (hblocks : ∀ q ∈ blocks, q < c.size) (hknown : ∀ q ∈ blocks, q ∈ known) :
    pack (positions c rank blocks) (holding c rbuf rank known) = contents c rbuf blocks := by
  rw [contents_eq hrank hblocks, pack]
  apply List.map_congr_left
  intro z hz
  obtain ⟨q, hq, hzq⟩ := List.mem_flatMap.mp hz
  exact if_pos (List.mem_flatMap.mpr ⟨q, hknown q hq, hzq⟩)

theorem unpack_holding (hrank : rank < c.size) {blocks known known' : List ℕ}
    (hblocks : ∀ q ∈ blocks, q < c.size)
    (hknown : ∀ q, q ∈ known' ↔ q ∈ known ∨ q ∈ blocks) :
    unpack (positions c rank blocks) (contents c rbuf blocks) (holding c rbuf rank known) =
      some (holding c rbuf rank known') := by
  rw [contents_eq hrank hblocks, unpack_map]
  congr 1
  funext z
  have : z ∈ positions c rank known' ↔
      z ∈ positions c rank known ∨ z ∈ positions c rank blocks := by
    simp only [positions, List.mem_flatMap, hknown]
    grind
  by_cases hz : z ∈ positions c rank blocks
  · simp [holding, this, hz]
  · simp [holding, this, hz]

theorem holding_all {known : List ℕ} (hknown : ∀ q, q ∈ known ↔ q < c.size) :
    holding c rbuf rank known = gathered c rbuf rank := by
  funext z
  by_cases hz : z ∈ positions c rank known
  · exact if_pos hz
  · rw [holding, if_neg hz]
    refine (gathered_outside ?_).symm
    intro q hq hzq
    exact hz (List.mem_flatMap.mpr ⟨q, (hknown q).mpr hq, hzq⟩)

variable (c rbuf)

def memories (known : ℕ → List ℕ) (rank : ℕ) : Buffer A :=
  if rank < c.size then holding c rbuf rank (known rank) else rbuf rank

def allGathered (rank : ℕ) : Buffer A :=
  if rank < c.size then gathered c rbuf rank else rbuf rank

variable {c rbuf}

theorem contribution_some {q : ℕ} {data : ℕ → A} (h : c.sbuf q = some data) :
    contribution c rbuf q = data := by
  funext k
  simp [contribution, h]

theorem holding_nil (rank : ℕ) : holding c rbuf rank [] = rbuf rank := by
  funext z
  simp [holding, positions]

/-- In place the own block is there from the beginning. -/
theorem holding_own (hrank : rank < c.size) (hsbuf : c.sbuf rank = none) {known : List ℕ}
    (hknown : ∀ q, q ∈ known ↔ q = rank) : holding c rbuf rank known = rbuf rank := by
  funext z
  by_cases hz : z ∈ positions c rank known
  · obtain ⟨q, hq, hzq⟩ := List.mem_flatMap.mp hz
    obtain rfl := (hknown q).mp hq
    obtain ⟨k, hk, rfl⟩ := mem_block.mp hzq
    rw [holding, if_pos hz, gathered_block hrank hrank hk, contribution, hsbuf]
  · exact if_neg hz

theorem leads_initialization (rest : ℕ → Code A (Buffer A)) {known : ℕ → List ℕ}
    (hknown : ∀ p q, p < c.size → (q ∈ known p ↔ q = p)) :
    Leads (fun p => onRanks c.size (initialization c) p++rest p) rbuf
      rest (memories c rbuf known) := by
  have hlead := leads_exchange (Finset.range c.size)
    (fun p => if p < c.size ∧ (c.sbuf p).isSome then [p] else [])
    (fun p => if p < c.size ∧ (c.sbuf p).isSome then [p] else [])
    (fun p _ _ => contents c rbuf [p]) (fun p _ => unpack (c.block p p)) rest rbuf
    (memories c rbuf known)
    (by intro p; split <;> simp) (by intro p; split <;> simp) ?_ ?_ ?_
  · convert hlead using 2 with p
    congr 1
    unfold onRanks initialization
    by_cases hp : p < c.size
    · cases hsbuf : c.sbuf p with
      | none => simp [exchange]
      | some data =>
        have hcount := c.counts p hp (by simp [hsbuf])
        simp [hp, sendrecv, contents, hcount, contribution_some hsbuf]
    · simp [hp, exchange]
  · intro p q
    by_cases hq : q = p
    · simp [hq]
    · split <;> split <;> simp [hq, Ne.symm hq]
  · intro p hp
    simp_all
  · intro p
    by_cases hp : p < c.size
    · cases hsbuf : c.sbuf p with
      | none =>
        simp [taken, memories, hp, holding_own hp hsbuf (fun q => hknown p q hp)]
      | some data =>
        have hblock : c.block p p = positions c p [p] := by simp [positions]
        have hmem (q : ℕ) : q ∈ known p ↔ q ∈ ([] : List ℕ) ∨ q ∈ [p] := by simp [hknown p q hp]
        have hunpack : unpack (positions c p [p]) (contents c rbuf [p]) (holding c rbuf p []) =
            some (holding c rbuf p (known p)) := unpack_holding hp (by simp [hp]) hmem
        rw [holding_nil] at hunpack
        simp [taken, hp, memories, hblock, hunpack]
    · simp [taken, hp, memories]

theorem leads_plan (plan : Plan c.size) (i : ℕ) (hi : i < plan.rounds)
    (rest : ℕ → Code A (Buffer A)) :
    Leads (fun p => onRanks c.size (fun rank =>
        sendrecv (pack (positions c rank (plan.out i rank))) (plan.dest i rank)
          (unpack (positions c rank (plan.out i (plan.source i rank)))) (plan.source i rank)) p++
        rest p)
      (memories c rbuf (plan.known i)) rest (memories c rbuf (plan.known (i+1))) := by
  apply leads_sendrecv c.size (plan.dest i) (plan.source i)
  · exact fun p hp => plan.dest_source hi hp
  · exact fun p hp => plan.source_dest hi hp
  · intro p hp
    have hsource := (plan.source_dest hi hp).1
    have hblocks : ∀ q ∈ plan.out i (plan.source i p), q < c.size :=
      fun q hq => plan.known_lt hi.le hsource (plan.out_known hi hsource hq)
    simp only [memories, hp, hsource, if_true]
    rw [pack_holding hsource hblocks (fun q hq => plan.out_known hi hsource hq)]
    exact unpack_holding hp hblocks (fun q => plan.known_next hi hp)
  · intro p hp
    simp [memories, hp]

/-- Code that follows a plan gathers all blocks on all ranks. -/
theorem plan_completes (plan : Plan c.size) (code : ℕ → Code A (Buffer A))
    (hcode : ∀ rank, rank < c.size → code rank = plan.code c rank) :
    Completes (onRanks c.size code) rbuf (allGathered c rbuf) := by
  apply Leads.completes
  rw [onRanks_congr hcode]
  unfold Plan.code
  rw [onRanks_append, onRanks_flatMap]
  have hrounds := leads_rounds (fun i => onRanks c.size (fun rank =>
    sendrecv (pack (positions c rank (plan.out i rank))) (plan.dest i rank)
      (unpack (positions c rank (plan.out i (plan.source i rank)))) (plan.source i rank)))
    (fun i => memories c rbuf (plan.known i)) plan.rounds
    (fun i hi rest => leads_plan plan i hi rest) (fun _ => [])
  have hend : memories c rbuf (plan.known plan.rounds) = allGathered c rbuf := by
    funext p
    unfold memories allGathered
    by_cases hp : p < c.size
    · simp only [hp, if_true]
      exact holding_all (fun q => plan.known_end hp)
    · simp only [hp, if_false]
  rw [hend] at hrounds
  simp only [List.append_nil] at hrounds
  exact (leads_initialization _ (fun p q hp => plan.known_start hp)).trans hrounds

end Otpo.AllgathervPlan
