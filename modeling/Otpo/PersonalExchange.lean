import Otpo.MpiCalls

/-!
# Data of each rank for each rank

A round says from whom and to whom each rank communicates. Code made of rounds
that bring together all pairs of ranks leaves the data in their places.
-/

set_option autoImplicit false

namespace Otpo.PersonalExchange
open MessagePassing Otpo.MpiCalls

structure Exchange (A : Type) where
  size : ℕ
  data : ℕ → ℕ → List A
  block : ℕ → ℕ → List ℤ
  fits {p q : ℕ} : p < size → q < size → (data q p).length = (block p q).length
  nodup {p q : ℕ} : p < size → q < size → (block p q).Nodup
  apart {p q r : ℕ} {z : ℤ} : p < size → q < size → r < size → z ∈ block p q →
    z ∈ block p r → q = r

structure Round where
  sources : ℕ → List ℕ
  dests : ℕ → List ℕ

structure Round.Sound (size : ℕ) (round : Round) : Prop where
  sources_nodup {p : ℕ} : p < size → (round.sources p).Nodup
  dests_nodup {p : ℕ} : p < size → (round.dests p).Nodup
  sources_lt {p q : ℕ} : p < size → q ∈ round.sources p → q < size
  dests_lt {p q : ℕ} : p < size → q ∈ round.dests p → q < size
  match_iff {p q : ℕ} : p < size → q < size →
    (q ∈ round.dests p ↔ p ∈ round.sources q)

variable {A : Type} (e : Exchange A) (rbuf : ℕ → Buffer A)

def Exchange.arrival (p : ℕ) (z : ℤ) (q : ℕ) : Option A :=
  if z ∈ e.block p q then (e.data q p)[(e.block p q).idxOf z]? else none

def Exchange.exchanged (p : ℕ) : Buffer A := fun z =>
  ((List.range e.size).findSome? (e.arrival p z)).getD (rbuf p z)

def Exchange.holding (p : ℕ) (ranks : List ℕ) : Buffer A := fun z =>
  if z ∈ ranks.flatMap (e.block p) then e.exchanged rbuf p z else rbuf p z

def Exchange.memories (arrived : ℕ → List ℕ) (p : ℕ) : Buffer A :=
  if p < e.size then e.holding rbuf p (arrived p) else rbuf p

def Exchange.result (p : ℕ) : Buffer A := if p < e.size then e.exchanged rbuf p else rbuf p

def Exchange.roundCode (round : Round) (rank : ℕ) : Code A (Buffer A) :=
  exchange (round.sources rank) (round.dests rank) (fun dest _ => e.data rank dest)
    (fun source => unpack (e.block rank source))

variable {e} {p q : ℕ}

theorem exchanged_block (hp : p < e.size) (hq : q < e.size) {k : ℕ}
    (hk : k < (e.block p q).length) :
    (e.data q p)[k]? = some (e.exchanged rbuf p (e.block p q)[k]) := by
  have hdata : k < (e.data q p).length := by
    rw [e.fits hp hq]
    exact hk
  have harrival : e.arrival p (e.block p q)[k] q = (e.data q p)[k]? := by
    rw [Exchange.arrival, if_pos (List.getElem_mem hk), (e.nodup hp hq).idxOf_getElem]
  rw [List.getElem?_eq_getElem hdata] at harrival ⊢
  unfold Exchange.exchanged
  cases hfind : (List.range e.size).findSome? (e.arrival p (e.block p q)[k]) with
  | none =>
    have := List.findSome?_eq_none_iff.mp hfind q (by simpa using hq)
    rw [harrival] at this
    cases this
  | some a =>
    obtain ⟨r, hr, harrived⟩ := List.exists_of_findSome?_eq_some hfind
    have hrq : q = r := by
      unfold Exchange.arrival at harrived
      split at harrived
      · rename_i hmem
        exact e.apart hp hq (by simpa using hr) (List.getElem_mem hk) hmem
      · cases harrived
    subst hrq
    rw [harrival] at harrived
    cases harrived
    rfl

theorem exchanged_outside {z : ℤ} (hz : ∀ q, q < e.size → z ∉ e.block p q) :
    e.exchanged rbuf p z = rbuf p z := by
  unfold Exchange.exchanged
  have : (List.range e.size).findSome? (e.arrival p z) = none := by
    rw [List.findSome?_eq_none_iff]
    intro q hq
    exact if_neg (hz q (by simpa using hq))
  rw [this]
  rfl

theorem data_eq (hp : p < e.size) (hq : q < e.size) :
    e.data q p = (e.block p q).map (e.exchanged rbuf p) := by
  apply List.ext_getElem?
  intro k
  rw [List.getElem?_map]
  by_cases hk : k < (e.block p q).length
  · rw [exchanged_block rbuf hp hq hk, List.getElem?_eq_getElem hk]
    rfl
  · rw [List.getElem?_eq_none (by rw [e.fits hp hq]; omega), List.getElem?_eq_none (by omega)]
    rfl

theorem unpack_holding (hp : p < e.size) (hq : q < e.size) (ranks : List ℕ) :
    unpack (e.block p q) (e.data q p) (e.holding rbuf p ranks) =
      some (e.holding rbuf p (ranks++[q])) := by
  rw [data_eq rbuf hp hq, unpack_map]
  congr 1
  funext z
  by_cases hz : z ∈ e.block p q
  · simp [Exchange.holding, hz]
  · simp [Exchange.holding, hz]

theorem unpack_all (hp : p < e.size) (sources ranks : List ℕ)
    (hsources : ∀ q ∈ sources, q < e.size) :
    sources.foldlM (fun m q => unpack (e.block p q) (e.data q p) m) (e.holding rbuf p ranks) =
      some (e.holding rbuf p (ranks++sources)) := by
  induction sources generalizing ranks with
  | nil => simp
  | cons q sources ih =>
    rw [List.foldlM_cons, unpack_holding rbuf hp (hsources q (by simp))]
    simpa using ih (ranks++[q]) (fun r hr => hsources r (by simp [hr]))

theorem leads_round {round : Round} (hround : round.Sound e.size) (arrived : ℕ → List ℕ)
    (rest : ℕ → Code A (Buffer A)) :
    Leads (fun p => onRanks e.size (e.roundCode round) p++rest p) (e.memories rbuf arrived)
      rest (e.memories rbuf (fun p => arrived p++round.sources p)) := by
  have hlead := leads_exchange (Finset.range e.size)
    (fun p => if p < e.size then round.sources p else [])
    (fun p => if p < e.size then round.dests p else [])
    (fun p dest _ => e.data p dest) (fun p source => unpack (e.block p source)) rest
    (e.memories rbuf arrived) (e.memories rbuf (fun p => arrived p++round.sources p)) ?_ ?_ ?_ ?_ ?_
  · convert hlead using 2 with p
    congr 1
    unfold onRanks
    split
    · rfl
    · simp [exchange]
  · intro p
    split
    · rename_i hp
      exact hround.sources_nodup hp
    · exact List.nodup_nil
  · intro p
    split
    · rename_i hp
      exact hround.dests_nodup hp
    · exact List.nodup_nil
  · intro p q
    by_cases hp : p < e.size
    · by_cases hq : q < e.size
      · simp only [hp, hq, if_true]
        exact hround.match_iff hp hq
      · simp only [hp, hq, if_true, if_false, List.not_mem_nil, iff_false]
        exact fun h => hq (hround.dests_lt hp h)
    · by_cases hq : q < e.size
      · simp only [hp, hq, if_true, if_false, List.not_mem_nil, false_iff]
        exact fun h => hp (hround.sources_lt hq h)
      · simp [hp, hq]
  · intro p hp
    simp_all
  · intro p
    by_cases hp : p < e.size
    · simp only [taken, Exchange.memories, hp, if_true]
      exact unpack_all rbuf hp _ _ (fun q hq => hround.sources_lt hp hq)
    · simp [taken, Exchange.memories, hp]

theorem leads_schedule (rounds : List Round) (hrounds : ∀ round ∈ rounds, round.Sound e.size)
    (arrived : ℕ → List ℕ) (rest : ℕ → Code A (Buffer A)) :
    Leads (fun p => onRanks e.size (fun rank => rounds.flatMap (e.roundCode · rank)) p++rest p)
      (e.memories rbuf arrived) rest
      (e.memories rbuf (fun p => arrived p++rounds.flatMap (·.sources p))) := by
  induction rounds generalizing arrived with
  | nil =>
    have : onRanks e.size (fun _ => ([] : Code A (Buffer A))) = fun _ => [] := by
      funext p
      simp [onRanks]
    simpa [this] using Leads.refl
  | cons round rounds ih =>
    simp only [List.flatMap_cons, onRanks_append, List.append_assoc]
    have := (leads_round rbuf (hrounds round (by simp)) arrived _).trans
      (ih (fun r hr => hrounds r (by simp [hr])) (fun p => arrived p++round.sources p))
    simpa only [List.append_assoc] using this

theorem holding_all {ranks : List ℕ}
    (hranks : ∀ q, q < e.size → q ∈ ranks ∨ e.block p q = []) :
    e.holding rbuf p ranks = e.exchanged rbuf p := by
  funext z
  by_cases hz : z ∈ ranks.flatMap (e.block p)
  · exact if_pos hz
  · rw [Exchange.holding, if_neg hz]
    refine (exchanged_outside rbuf ?_).symm
    intro q hq hzq
    obtain hmem | hnone := hranks q hq
    · exact hz (List.mem_flatMap.mpr ⟨q, hmem, hzq⟩)
    · simp [hnone] at hzq

theorem memories_all {arrived : ℕ → List ℕ}
    (hall : ∀ p q, p < e.size → q < e.size → q ∈ arrived p ∨ e.block p q = []) :
    e.memories rbuf arrived = e.result rbuf := by
  funext p
  unfold Exchange.memories Exchange.result
  by_cases hp : p < e.size
  · simp only [hp, if_true]
    exact holding_all rbuf (fun q hq => hall p q hp hq)
  · simp only [hp, if_false]

variable (e)

/-- Rounds that bring together all pairs leave all data in their places. -/
theorem schedule_completes (rounds : List Round) (hrounds : ∀ round ∈ rounds, round.Sound e.size)
    (code : ℕ → Code A (Buffer A))
    (hcode : ∀ rank, rank < e.size → code rank = rounds.flatMap (e.roundCode · rank))
    (hall : ∀ p q, p < e.size → q < e.size → ∃ round ∈ rounds, q ∈ round.sources p) :
    Completes (onRanks e.size code) rbuf (e.result rbuf) := by
  apply Leads.completes
  have hlead := leads_schedule rbuf rounds hrounds (fun _ => []) (fun _ => [])
  have hstart : e.memories rbuf (fun _ => []) = rbuf := by
    funext p z
    unfold Exchange.memories
    split <;> simp [Exchange.holding]
  have hend : e.memories rbuf (fun p => []++rounds.flatMap (·.sources p)) = e.result rbuf :=
    memories_all rbuf fun p q hp hq => Or.inl (by simpa using hall p q hp hq)
  rw [hstart, hend] at hlead
  simpa only [onRanks_congr hcode, List.append_nil] using hlead

end Otpo.PersonalExchange
