import Otpo.ReduceTotals
import Mathlib.Data.Finset.Card

/-!
# The run of a reduction along a tree
-/

set_option autoImplicit false

namespace Otpo.ReduceRun
open Function AsynchronousRuns MessagePassing Combining Otpo.MpiCalls Otpo.ReduceTopo Otpo.Reduce
open Otpo.ReduceOverlap Otpo.ReduceRounds Otpo.TopologySpans Otpo.ReduceTotals

structure Setting where
  size : ℕ
  a : Args
  sendbuf : ℕ → Option Place
  recvbuf : ℕ → Place
  tree : ℕ → Tree
  level : ℕ → ℕ
  start : ℕ → Memory
  two_le : 2 ≤ size
  root_lt : a.root < size
  spans : Spans size a.root level tree
  placed : Placed a sendbuf recvbuf
  known : a.op ≠ .prod
  segment_pos : 0 < a.countBySegment
  count_pos : 0 < a.originalCount

variable (g : Setting)

def Setting.spanning : SpanningTree ℕ := g.spans.spanningTree g.root_lt

def Setting.code (rank : ℕ) : Code Int32 Memory :=
  reduceGeneric g.a (g.sendbuf rank) (g.recvbuf rank) (g.tree rank) rank

def Setting.own (rank : ℕ) (z : ℤ) : Int32 :=
  g.start rank (sendtmpbuf (g.sendbuf rank) (g.recvbuf rank)) z

noncomputable def Setting.values (rank : ℕ) (z : ℤ) : List Int32 :=
  (g.spanning.below rank).map (g.own · z)

def Setting.accum (rank : ℕ) : Place := accumbuf g.a (g.recvbuf rank) rank

structure Setting.Holds (segindex rank : ℕ) (m : Memory) : Prop where
  untouched : Untouched g.a (g.recvbuf rank) rank (done g.a segindex) (g.start rank) m
  leaf : (rank < g.size → (g.tree rank).nextsize = 0) → m = g.start rank
  total : rank < g.size → ∀ k : ℕ, k < done g.a segindex → 0 < (g.tree rank).nextsize →
    some (m (g.accum rank) k) = combine g.a.op.apply (g.values rank k)

def Setting.piecesAt (segindex rank : ℕ) : List (Piece ℕ Memory (List Int32)) :=
  if rank < g.size then
    pieces g.a (g.sendbuf rank) (g.recvbuf rank) (g.tree rank) rank segindex
  else []

def Setting.destsAt (rank : ℕ) : List ℕ := if rank < g.size then dests (g.tree rank) rank else []

def Setting.payloadAt (segindex rank : ℕ) : Memory → List Int32 :=
  payload g.a (g.sendbuf rank) (g.recvbuf rank) (g.tree rank) rank segindex

variable {g} {segindex p q : ℕ} {m : Memory}

instance : Std.Commutative g.a.op.apply := ⟨apply_comm g.known⟩

theorem Setting.accum_inbuf (i : Bool) : g.accum p ≠ .inbuf i := by
  unfold Setting.accum accumbuf
  split
  · exact g.placed.recvbuf_apart.2 i
  · simp

theorem Setting.direct_eq (hp : p < g.size) :
    direct (g.sendbuf p) (g.tree p) p = (g.sendbuf p).isSome := by
  rw [direct, g.spans.root_eq hp]
  cases hsend : g.sendbuf p with
  | none => simp [g.placed.inplace hsend]
  | some b => simp

theorem Setting.direct_apart (hp : p < g.size)
    (hdirect : direct (g.sendbuf p) (g.tree p) p = true) :
    sendtmpbuf (g.sendbuf p) (g.recvbuf p) ≠ g.accum p ∧
      ∀ i, sendtmpbuf (g.sendbuf p) (g.recvbuf p) ≠ .inbuf i := by
  rw [Setting.direct_eq hp] at hdirect
  obtain ⟨b, hb⟩ := Option.isSome_iff_exists.mp hdirect
  obtain ⟨haccum, hinbuf, hrecv⟩ := g.placed.sendbuf_apart hb
  rw [sendtmpbuf, hb, Option.getD_some, Setting.accum, accumbuf]
  refine ⟨?_, hinbuf⟩
  split
  · exact hrecv
  · exact haccum

theorem Setting.plain_same (hp : p < g.size)
    (hplain : direct (g.sendbuf p) (g.tree p) p = false) :
    sendtmpbuf (g.sendbuf p) (g.recvbuf p) = g.accum p := by
  rw [Setting.direct_eq hp, Option.isSome_eq_false_iff, Option.isNone_iff_eq_none] at hplain
  rw [sendtmpbuf, hplain, Option.getD_none, Setting.accum, accumbuf,
    if_pos (g.placed.inplace hplain)]

theorem Setting.child_ne_root (hp : p < g.size) (hq : q ∈ (g.tree p).children) :
    q < g.size ∧ q ≠ g.a.root := by
  have hlt := g.spans.child_lt hp hq
  exact ⟨hlt, ((g.spans.linked hp hlt).mp hq).1⟩

theorem Setting.values_perm (hp : p < g.size) (z : ℤ) :
    (g.values p z).Perm (g.own p z::(g.tree p).children.flatMap (g.values · z)) := by
  have hperm := SpanningTree.below_perm (t := g.spanning) (p := p)
    (by simpa [Setting.spanning, Spans.spanningTree] using hp)
  have hmap := hperm.map (g.own · z)
  rw [List.map_cons, List.map_flatMap] at hmap
  exact hmap

/-- What a rank that holds its values sends. -/
theorem Setting.Holds.sends {n : ℕ} (h : g.Holds n q m) (hq : q < g.size) (hroot : q ≠ g.a.root)
    {k : ℕ} (hk : k < done g.a n) :
    some (m (carried g.a (g.sendbuf q) (g.recvbuf q) (g.tree q) q) k) =
      combine g.a.op.apply (g.values q k) := by
  unfold carried
  by_cases hinner : 0 < (g.tree q).nextsize
  · rw [if_pos hinner]
    exact h.total hq k hk hinner
  · have hnone : (g.tree q).nextsize = 0 := by omega
    have hchildren : (g.tree q).children = [] := by simp [Tree.children, hnone]
    have hperm := Setting.values_perm hq k
    rw [hchildren, List.flatMap_nil] at hperm
    rw [if_neg hinner, h.leaf (fun _ => hnone), combine_perm hperm]
    cases hsend : g.sendbuf q with
    | none => exact absurd (g.placed.inplace hsend) hroot
    | some b =>
      rw [Setting.own, sendtmpbuf, hsend]
      rfl

theorem Setting.Holds.idle (h : g.Holds segindex p m)
    (hidle : p < g.size → (g.tree p).nextsize = 0) : g.Holds (segindex+1) p m where
  untouched := by
    rw [h.leaf hidle]
    exact ⟨fun _ _ => rfl, fun _ => rfl⟩
  leaf := h.leaf
  total := by
    intro hp k _ hinner
    have := hidle hp
    omega

/-- A round at a rank with children. -/
theorem Setting.Holds.inner (h : g.Holds segindex p m) (hp : p < g.size)
    (hs : segindex < numSegments g.a) (hinner : 0 < (g.tree p).nextsize) {later : ℕ → Memory}
    (hlater : ∀ q ∈ (g.tree p).children, g.Holds (segindex+1) q (later q)) :
    ∃ m', outcome (fun q => g.payloadAt segindex q (later q))
      (pieces g.a (g.sendbuf p) (g.recvbuf p) (g.tree p) p segindex) m = some m' ∧
      g.Holds (segindex+1) p m' := by
  have hseg := g.segment_pos
  have hdone := done_succ hseg hs
  have hfresh {z : ℤ} (hz : z ∈ contiguous (segmentOffset g.a segindex) (recvcount g.a segindex)) :
      z ∉ contiguous 0 (done g.a segindex) := by
    obtain ⟨k, rfl, hk, -⟩ := (mem_segment hseg hs).mp hz
    rw [mem_contiguous]
    rintro ⟨l, hl, heq⟩
    omega
  have hchildren : ∃ m', outcome (fun q => g.payloadAt segindex q (later q))
      (pieces g.a (g.sendbuf p) (g.recvbuf p) (g.tree p) p segindex) m = some m' ∧
      Accumulated g.a (g.recvbuf p) p segindex (g.start p) m m'
        (fun z => g.own p z::(g.tree p).children.flatMap (g.values · z)) := by
    refine all_children
      (fun q => later q (carried g.a (g.sendbuf q) (g.recvbuf q) (g.tree q) q))
      g.known hseg hs Setting.accum_inbuf (fun q _ => rfl) ?_ hinner
      (fun hdirect => (Setting.direct_apart hp hdirect).1) (Setting.plain_same hp) ?_ ?_
    · intro q hq z hz
      obtain ⟨k, rfl, -, hk⟩ := (mem_segment hseg hs).mp hz
      obtain ⟨hqlt, hroot⟩ := Setting.child_ne_root hp hq
      exact (hlater q hq).sends hqlt hroot hk
    · intro z hz
      cases hdirect : direct (g.sendbuf p) (g.tree p) p with
      | true =>
        obtain ⟨haccum, hinbuf⟩ := Setting.direct_apart hp hdirect
        rw [h.untouched.place haccum hinbuf]
        rfl
      | false =>
        rw [Setting.own, Setting.plain_same hp hdirect]
        exact h.untouched.beyond (hfresh hz)
    · refine ⟨h.untouched.place, ?_⟩
      intro z hz
      apply h.untouched.beyond
      rw [mem_contiguous] at *
      rintro ⟨k, hk, heq⟩
      exact hz ⟨k, by omega, heq⟩
  obtain ⟨m', hm', hacc⟩ := hchildren
  refine ⟨m', hm', hacc.untouched, ?_, ?_⟩
  · intro hleaf
    have := hleaf hp
    omega
  · intro _ k hk _
    by_cases hold : k < done g.a segindex
    · have hz : (k : ℤ) ∉ contiguous (segmentOffset g.a segindex) (recvcount g.a segindex) := by
        intro hz
        obtain ⟨l, hl, hlow, -⟩ := (mem_segment hseg hs).mp hz
        omega
      rw [Setting.accum, hacc.outside hz]
      exact h.total hp k hold hinner
    · have hz : (k : ℤ) ∈ contiguous (segmentOffset g.a segindex) (recvcount g.a segindex) :=
        (mem_segment hseg hs).mpr ⟨k, rfl, by omega, hk⟩
      rw [Setting.accum, hacc.inside hz, combine_perm (Setting.values_perm hp k)]

theorem Setting.sources_piecesAt (hp : p < g.size) :
    sources (g.piecesAt segindex p) = (g.tree p).children := by
  rw [Setting.piecesAt, if_pos hp, sources_pieces]

theorem Setting.mem_destsAt (hp : p < g.size) (hq : q < g.size) :
    q ∈ g.destsAt p ↔ p ∈ (g.tree q).children := by
  rw [g.spans.linked hq hp, Setting.destsAt, if_pos hp, dests, g.spans.root_eq hp]
  by_cases hroot : p = g.a.root
  · simp [hroot]
  · obtain ⟨r, -, hprev⟩ := g.spans.prev_lt hp hroot
    simp only [hroot, ne_eq, not_false_eq_true, if_true, hprev, Int.toNat_natCast,
      List.mem_singleton, Int.natCast_inj, true_and]
    exact eq_comm

theorem Setting.destsAt_lt (hq : q ∈ g.destsAt p) : p < g.size ∧ q < g.size := by
  unfold Setting.destsAt dests at hq
  split at hq
  · rename_i hp
    rw [g.spans.root_eq hp] at hq
    split at hq
    · rename_i hroot
      obtain ⟨r, hr, hprev⟩ := g.spans.prev_lt hp hroot
      obtain rfl := List.mem_singleton.mp hq
      rw [hprev]
      exact ⟨hp, by simpa using hr⟩
    · cases hq
  · cases hq

theorem Setting.mem_sources {segindex : ℕ} (hq : q ∈ sources (g.piecesAt segindex p)) :
    p < g.size ∧ q ∈ (g.tree p).children := by
  by_cases hp : p < g.size
  · rw [Setting.sources_piecesAt hp] at hq
    exact ⟨hp, hq⟩
  · rw [Setting.piecesAt, if_neg hp] at hq
    cases hq

/-- A round at all ranks. -/
theorem Setting.round_leads (hs : segindex < numSegments g.a) (memories : ℕ → Memory)
    (hmemories : ∀ p, g.Holds segindex p (memories p)) :
    ∃ memories', (∀ p, g.Holds (segindex+1) p (memories' p)) ∧
      ∀ rest : ℕ → Code Int32 Memory,
        Leads (fun p => wave (g.piecesAt segindex p) (g.destsAt p)
          (fun _ => g.payloadAt segindex p)++rest p) memories rest memories' := by
  have houtcomes := exists_outcomes (g.piecesAt segindex) (fun p _ => g.payloadAt segindex p)
    memories (g.Holds (segindex+1)) (Finset.range g.size) g.level ?_ ?_ ?_
  · obtain ⟨later, hlater⟩ := houtcomes
    refine ⟨later, fun p => (hlater p).1, ?_⟩
    intro rest
    apply leads_wave (Finset.range g.size) g.level
    · intro p
      by_cases hp : p < g.size
      · rw [Setting.sources_piecesAt hp]
        exact g.spans.children_nodup hp
      · rw [Setting.piecesAt, if_neg hp]
        exact List.nodup_nil
    · intro p
      unfold Setting.destsAt dests
      split
      · split <;> simp
      · exact List.nodup_nil
    · intro p q
      constructor
      · intro hq
        obtain ⟨hp, hqlt⟩ := Setting.destsAt_lt hq
        rw [Setting.sources_piecesAt hqlt]
        exact (Setting.mem_destsAt hp hqlt).mp hq
      · intro hp
        obtain ⟨hq, hmem⟩ := Setting.mem_sources hp
        exact (Setting.mem_destsAt (g.spans.child_lt hq hmem) hq).mpr hmem
    · intro p q hq
      obtain ⟨hp, hmem⟩ := Setting.mem_sources hq
      exact g.spans.level_lt hp hmem
    · intro p hp
      have hp : ¬ p < g.size := by simpa using hp
      exact ⟨if_neg hp, if_neg hp⟩
    · exact fun p => (hlater p).2
  · intro p q hq
    obtain ⟨hp, hmem⟩ := Setting.mem_sources hq
    exact ⟨by simpa using g.spans.child_lt hp hmem, g.spans.level_lt hp hmem⟩
  · intro p hp
    exact if_neg (by simpa using hp)
  · intro p later hlater
    by_cases hinner : p < g.size ∧ 0 < (g.tree p).nextsize
    · obtain ⟨hp, hk⟩ := hinner
      rw [Setting.sources_piecesAt hp] at hlater
      rw [Setting.piecesAt, if_pos hp]
      exact (hmemories p).inner hp hs hk hlater
    · have hidle : p < g.size → (g.tree p).nextsize = 0 := by omega
      have hnone : g.piecesAt segindex p = [] := by
        unfold Setting.piecesAt pieces
        split
        · rename_i hp
          rw [hidle hp]
          rfl
        · rfl
      rw [hnone]
      exact ⟨memories p, rfl, (hmemories p).idle hidle⟩

/-- A rank without children is not the root. -/
theorem Setting.leaf_ne_root (hp : p < g.size) (hleaf : (g.tree p).nextsize = 0) :
    p ≠ g.a.root := by
  intro hroot
  have hchildren : (g.tree p).children = [] := by simp [Tree.children, hleaf]
  have hperm := SpanningTree.below_perm (t := g.spanning) (p := p)
    (by simpa [Setting.spanning, Spans.spanningTree] using hp)
  have hall := SpanningTree.below_root_perm (t := g.spanning)
  have hnext : g.spanning.next p = [] := hchildren
  have hsame : g.spanning.root = p := hroot.symm
  rw [hsame] at hall
  rw [hnext] at hperm
  have hlength := (hperm.symm.trans hall).length_eq
  have := g.two_le
  have hnodes : g.spanning.nodes.toList.length = g.size := by
    rw [Finset.length_toList]
    exact Finset.card_range g.size
  rw [hnodes, List.flatMap_nil, List.length_singleton] at hlength
  omega

/-- The reduction runs to its end whatever the order of the steps, and what comes
after it finds the combined data at the root. -/
theorem Setting.completes (rest : ℕ → Code Int32 Memory) (Ends : (ℕ → Memory) → Prop)
    (hrest : ∀ memories, (∀ p, g.Holds (numSegments g.a) p (memories p)) →
      ∃ final, Ends final ∧ Leads (onRanks g.size rest) memories (fun _ => []) final) :
    ∃ final, Ends final ∧
      Completes (onRanks g.size fun rank => g.code rank++rest rank) g.start final := by
  have hwaves := leads_waves
    (fun s p => wave (g.piecesAt s p) (g.destsAt p) (fun _ => g.payloadAt s p)) g.Holds
    (numSegments g.a) (fun i hi memories h => Setting.round_leads hi memories h) g.start ?_
  · obtain ⟨middle, hmiddle, hlead⟩ := hwaves
    obtain ⟨final, hends, hlast⟩ := hrest middle hmiddle
    refine ⟨final, hends, ((hlead (onRanks g.size rest)).trans hlast).early_completes ?_⟩
    intro p
    by_cases hp : p < g.size
    · have hahead := rounds_ahead g.a (g.sendbuf p) (g.recvbuf p) (g.tree p) p g.segment_pos
        g.count_pos (fun h => by
          rw [g.spans.root_eq hp]
          exact Setting.leaf_ne_root hp h)
      have hround (s : ℕ) : wave (g.piecesAt s p) (g.destsAt p) (fun _ => g.payloadAt s p) =
          round g.a (g.sendbuf p) (g.recvbuf p) (g.tree p) p s := by
        rw [Setting.piecesAt, Setting.destsAt, if_pos hp, if_pos hp]
        rfl
      simp only [hround, onRanks, if_pos hp]
      exact hahead.append (Ahead.refl _)
    · have hround (s : ℕ) :
          wave (g.piecesAt s p) (g.destsAt p) (fun _ => g.payloadAt s p) = [] := by
        rw [Setting.piecesAt, Setting.destsAt, if_neg hp, if_neg hp]
        rfl
      simp only [hround, onRanks, if_neg hp]
      rw [List.flatMap_eq_nil_iff.mpr (fun _ _ => rfl)]
      exact .nil
  · intro p
    refine ⟨⟨fun _ _ => rfl, fun _ => rfl⟩, fun _ => rfl, ?_⟩
    intro _ k hk
    simp [done] at hk

end Otpo.ReduceRun
