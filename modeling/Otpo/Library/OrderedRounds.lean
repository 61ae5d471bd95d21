import Otpo.Library.LockStep
import Mathlib.Data.List.Sort

/-!
# Waves

In a wave a process takes messages one after the other, computes in between and
sends what it has got at last. No process waits for itself if those it takes
messages from are at higher levels.
-/

set_option autoImplicit false

namespace MessagePassing

open AsynchronousRuns Function

variable {P M D : Type}

inductive Piece (P M D : Type) where
  | take (source : P) (store : D → M → Option M)
  | compute (f : M → M)

def Piece.source? : Piece P M D → Option P
  | .take source _ => some source
  | .compute _ => none

def sources (pieces : List (Piece P M D)) : List P := pieces.filterMap Piece.source?

def Piece.code : Piece P M D → List (Instruction P M D)
  | .take source store => [.post source, .receive source store]
  | .compute f => [.compute f]

def wave (pieces : List (Piece P M D)) (dests : List P) (payload : P → M → D) :
    List (Instruction P M D) :=
  pieces.flatMap Piece.code++(dests.map (fun dest => .send dest (payload dest))++
    dests.map .complete)

def outcome (message : P → D) : List (Piece P M D) → M → Option M
  | [], m => some m
  | .take source store::pieces, m => (store (message source) m).bind (outcome message pieces)
  | .compute f::pieces, m => outcome message pieces (f m)

theorem sources_take (source : P) (store : D → M → Option M) (pieces : List (Piece P M D)) :
    sources (.take source store::pieces) = source::sources pieces := rfl

theorem sources_compute (f : M → M) (pieces : List (Piece P M D)) :
    sources (.compute f::pieces) = sources pieces := rfl

theorem outcome_congr {message message' : P → D} {pieces : List (Piece P M D)} (m : M)
    (h : ∀ q ∈ sources pieces, message q = message' q) :
    outcome message pieces m = outcome message' pieces m := by
  induction pieces generalizing m with
  | nil => rfl
  | cons piece pieces ih =>
    cases piece with
    | take source store =>
      rw [sources_take, List.forall_mem_cons] at h
      rw [outcome, outcome, h.1]
      congr 1
      funext m'
      exact ih m' h.2
    | compute f =>
      rw [sources_compute] at h
      exact ih (f m) h

theorem exists_descending (level : P → ℕ) (members : Finset P) :
    ∃ order : List P, order.Nodup ∧ (∀ p, p ∈ order ↔ p ∈ members) ∧
      order.Pairwise (fun p q => level q ≤ level p) := by
  let above : P → P → Prop := fun p q => level q ≤ level p
  have : Std.Total above := ⟨fun p q => Nat.le_total (level q) (level p)⟩
  have : IsTrans P above := ⟨fun _ _ _ hpq hqr => Nat.le_trans hqr hpq⟩
  have hperm := List.perm_insertionSort above members.toList
  refine ⟨members.toList.insertionSort above, ?_, ?_, List.pairwise_insertionSort above _⟩
  · exact hperm.nodup_iff.mpr members.nodup_toList
  · intro p
    rw [hperm.mem_iff, Finset.mem_toList]

/-- What comes from higher levels has been sent when `p` takes its turn. -/
theorem mem_before {level : P → ℕ} {order before after : List P} {p q : P}
    (hsorted : order.Pairwise (fun p q => level q ≤ level p))
    (horder : order = before++p::after) (hq : q ∈ order) (hlevel : level p < level q) :
    q ∈ before := by
  subst horder
  obtain hbefore | hrest := List.mem_append.mp hq
  · exact hbefore
  · obtain rfl | hafter := List.mem_cons.mp hrest
    · omega
    · have := List.rel_of_pairwise_cons (List.pairwise_append.mp hsorted).2.1 hafter
      omega

section outcomes

variable {level : P → ℕ} {pieces : P → List (Piece P M D)} {payload : P → P → M → D}
  {memories : P → M} {Holds : P → M → Prop}

theorem exists_outcomes_prefix {order before after : List P} (hnodup : order.Nodup)
    (hsorted : order.Pairwise (fun p q => level q ≤ level p)) (horder : order = before++after)
    (hlevel : ∀ p, ∀ q ∈ sources (pieces p), q ∈ order ∧ level p < level q)
    (hstep : ∀ p (later : P → M), (∀ q ∈ sources (pieces p), Holds q (later q)) →
      ∃ m, outcome (fun q => payload q p (later q)) (pieces p) (memories p) = some m ∧
        Holds p m) :
    ∃ later : P → M, ∀ p ∈ before, Holds p (later p) ∧
      outcome (fun q => payload q p (later q)) (pieces p) (memories p) = some (later p) := by
  classical
  induction before using List.reverseRecOn generalizing after with
  | nil => exact ⟨memories, by simp⟩
  | append_singleton before p ih =>
    have hsplit : order = before++p::after := by simpa using horder
    obtain ⟨later, hlater⟩ := ih hsplit
    have hfresh : p ∉ before := by
      intro hp
      exact List.disjoint_of_nodup_append (hsplit ▸ hnodup) hp (by simp)
    have hbefore {q : P} (hq : q ∈ sources (pieces p)) : q ∈ before :=
      mem_before hsorted hsplit (hlevel p q hq).1 (hlevel p q hq).2
    obtain ⟨m, hm, hholds⟩ := hstep p later (fun q hq => (hlater q (hbefore hq)).1)
    have hsame {q : P} (hq : q ∈ before) : update later p m q = later q :=
      update_of_ne (ne_of_mem_of_not_mem hq hfresh) m later
    refine ⟨update later p m, ?_⟩
    intro q hq
    obtain hq | rfl : q ∈ before ∨ q = p := by simpa using hq
    · rw [hsame hq]
      refine ⟨(hlater q hq).1, ?_⟩
      rw [← (hlater q hq).2]
      apply outcome_congr
      intro r hr
      obtain ⟨early, late, hearly⟩ := List.append_of_mem hq
      have hturn : order = early++q::(late++p::after) := by simp [hsplit, hearly]
      have := mem_before hsorted hturn (hlevel q r hr).1 (hlevel q r hr).2
      rw [hsame (by simp [hearly, this])]
    · rw [update_self]
      refine ⟨hholds, ?_⟩
      rw [← hm]
      apply outcome_congr
      intro r hr
      rw [hsame (hbefore hr)]

variable (pieces payload memories Holds)

/-- Where each process gets what holds from what holds at its sources, all of
them get it. -/
theorem exists_outcomes (members : Finset P) (level : P → ℕ)
    (hlevel : ∀ p, ∀ q ∈ sources (pieces p), q ∈ members ∧ level p < level q)
    (hidle : ∀ p, p ∉ members → pieces p = [])
    (hstep : ∀ p (later : P → M), (∀ q ∈ sources (pieces p), Holds q (later q)) →
      ∃ m, outcome (fun q => payload q p (later q)) (pieces p) (memories p) = some m ∧
        Holds p m) :
    ∃ later : P → M, ∀ p, Holds p (later p) ∧
      outcome (fun q => payload q p (later q)) (pieces p) (memories p) = some (later p) := by
  classical
  obtain ⟨order, hnodup, hmem, hsorted⟩ := exists_descending level members
  obtain ⟨later, hlater⟩ := exists_outcomes_prefix hnodup hsorted (List.append_nil order).symm
    (fun p q hq => ⟨(hmem q).mpr (hlevel p q hq).1, (hlevel p q hq).2⟩) hstep
  have hsame {q : P} (hq : q ∈ members) :
      (if q ∈ members then later q else memories q) = later q := if_pos hq
  refine ⟨fun p => if p ∈ members then later p else memories p, ?_⟩
  intro p
  have hmessage : outcome (fun q => payload q p (if q ∈ members then later q else memories q))
      (pieces p) (memories p) =
      outcome (fun q => payload q p (later q)) (pieces p) (memories p) := by
    apply outcome_congr
    intro q hq
    rw [hsame (hlevel p q hq).1]
  rw [hmessage]
  by_cases hp : p ∈ members
  · simpa only [hp, if_true] using hlater p ((hmem p).mpr hp)
  · obtain ⟨m, hm, hholds⟩ := hstep p later (by simp [hidle p hp, sources])
    simp only [hp, if_false]
    rw [hidle p hp, outcome, Option.some.injEq] at hm
    rw [hidle p hp, outcome]
    exact ⟨hm ▸ hholds, rfl⟩

end outcomes

variable [DecidableEq P]

theorem reaches_pieces {p : P} {s : State P M D} (rest : List (Instruction P M D))
    (pieces : List (Piece P M D)) (message : P → D) (memory : M)
    (hnodup : (sources pieces).Nodup)
    (hprogram : (s p).program = pieces.flatMap Piece.code++rest)
    (hsent : ∀ q ∈ sources pieces,
      q ≠ p ∧ ((s q).sent p)[(s p).received q]? = some (message q))
    (houtcome : outcome message pieces (s p).memory = some memory) :
    system.Reaches s (update s p { s p with
      program := rest
      memory := memory
      posted := fun q => (s p).posted q+(sources pieces).count q
      received := fun q => (s p).received q+(sources pieces).count q }) := by
  induction pieces generalizing s with
  | nil =>
    have hrest : (s p).program = rest := hprogram
    have hmemory : (s p).memory = memory := by simpa [outcome] using houtcome
    simp only [sources, List.filterMap_nil, List.count_nil, Nat.add_zero, ← hrest, ← hmemory,
      update_eq_self]
    exact .refl s
  | cons piece pieces ih =>
    cases piece with
    | take source store =>
      simp only [sources_take, List.nodup_cons, List.forall_mem_cons] at *
      obtain ⟨m, hm, hlater⟩ := Option.bind_eq_some_iff.mp houtcome
      have hpost : advance false p s = some { s p with
          program := .receive source store::(pieces.flatMap Piece.code++rest)
          posted := update (s p).posted source ((s p).posted source+1) } := by
        rw [advance, hprogram]
        rfl
      let posted : State P M D := update s p { s p with
        program := .receive source store::(pieces.flatMap Piece.code++rest)
        posted := update (s p).posted source ((s p).posted source+1) }
      have htake : advance false p posted = some { posted p with
          program := pieces.flatMap Piece.code++rest
          memory := m
          received := update (s p).received source ((s p).received source+1) } := by
        simp [advance, posted, hsent.1.1, hsent.1.2, hm]
      have h := ih (s := update posted p { posted p with
          program := pieces.flatMap Piece.code++rest
          memory := m
          received := update (s p).received source ((s p).received source+1) })
        hnodup.2 (by simp) ?_ (by simpa using hlater)
      · apply (reaches_update hpost).trans
        apply (reaches_update htake).trans
        simp only [posted, update_self, update_idem] at h ⊢
        convert h using 4 with q q
        · by_cases hq : q = source
          · simp [hq]
            omega
          · simp [hq, Ne.symm hq]
        · by_cases hq : q = source
          · simp [hq]
            omega
          · simp [hq, Ne.symm hq]
      · intro q hq
        have hother : q ≠ source := fun heq => hnodup.1 (heq ▸ hq)
        have := hsent.2 q hq
        refine ⟨this.1, ?_⟩
        simpa [posted, this.1, hother] using this.2
    | compute f =>
      rw [sources_compute] at *
      have hnext : advance false p s = some { s p with
          program := pieces.flatMap Piece.code++rest
          memory := f (s p).memory } := by
        rw [advance, hprogram]
        rfl
      apply (reaches_update hnext).trans
      have h := ih (s := update s p { s p with
          program := pieces.flatMap Piece.code++rest
          memory := f (s p).memory })
        hnodup (by simp) ?_ (by simpa [outcome] using houtcome)
      · simpa only [update_self, update_idem] using h
      · intro q hq
        have := hsent q hq
        refine ⟨this.1, ?_⟩
        simpa [this.1] using this.2

theorem leads_wave (members : Finset P) (level : P → ℕ) (pieces : P → List (Piece P M D))
    (dests : P → List P) (payload : P → P → M → D) (rest : P → List (Instruction P M D))
    (memories memories' : P → M) (hsources : ∀ p, (sources (pieces p)).Nodup)
    (hdests : ∀ p, (dests p).Nodup) (hmatch : ∀ p q, q ∈ dests p ↔ p ∈ sources (pieces q))
    (hlevel : ∀ p, ∀ q ∈ sources (pieces p), level p < level q)
    (hidle : ∀ p, p ∉ members → pieces p = [] ∧ dests p = [])
    (houtcome : ∀ p, outcome (fun q => payload q p (memories' q)) (pieces p) (memories p) =
      some (memories' p)) :
    Leads (fun p => wave (pieces p) (dests p) (payload p)++rest p) memories rest memories' := by
  intro s hs
  have hprogram (p : P) := hs.program p
  simp only [wave, List.append_assoc] at hprogram
  have hcount (p q : P) : (dests p).count q = (sources (pieces q)).count p := by
    by_cases hq : q ∈ dests p
    · rw [List.count_eq_one_of_mem (hdests p) hq,
        List.count_eq_one_of_mem (hsources q) ((hmatch p q).mp hq)]
    · rw [List.count_eq_zero_of_not_mem hq,
        List.count_eq_zero_of_not_mem (fun h => hq ((hmatch p q).mpr h))]
  have hmember {p q : P} (hq : q ∈ sources (pieces p)) : q ∈ members := by
    by_contra hnot
    have := (hmatch q p).mpr hq
    simp [(hidle q hnot).2] at this
  obtain ⟨order, hnodup, hmem, hsorted⟩ := exists_descending level members
  let middle : State P M D := fun p => { s p with
    program := (dests p).map .complete++rest p
    memory := memories' p
    sent := fun q =>
      (s p).sent q++List.replicate ((dests p).count q) (payload p q (memories' p))
    posted := fun q => (s p).posted q+(sources (pieces p)).count q
    received := fun q => (s p).received q+(sources (pieces p)).count q }
  let final : State P M D := fun p => { middle p with
    program := rest p
    completed := fun q => (s p).completed q+(dests p).count q }
  have hmiddle : system.Reaches s middle := by
    apply reaches_all order middle hnodup
    · intro p hp
      obtain ⟨hnopiece, hnodest⟩ := hidle p (fun h => hp ((hmem p).mpr h))
      have hsame := houtcome p
      have hrest := hprogram p
      simp only [hnopiece, outcome, Option.some.injEq] at hsame
      simp only [hnopiece, hnodest, List.flatMap_nil, List.map_nil, List.nil_append] at hrest
      simp [middle, hnopiece, hnodest, sources, ← hrest, ← hs.memory p, ← hsame]
    · intro before p after u horder hown hu
      have htaken := reaches_pieces (s := u) _ (pieces p) (fun q => payload q p (memories' q))
        (memories' p) (hsources p) (by rw [hown]; exact hprogram p) ?_
        (by rw [hown, hs.memory]; exact houtcome p)
      · have hsent := reaches_sends (p := p) ((dests p).map .complete++rest p)
          (s := update u p { u p with
            program := (dests p).map (fun dest => .send dest (payload p dest))++
              ((dests p).map .complete++rest p)
            memory := memories' p
            posted := fun q => (u p).posted q+(sources (pieces p)).count q
            received := fun q => (u p).received q+(sources (pieces p)).count q })
          (dests p) (payload p) (by simp)
        simp only [update_self] at hsent
        have := reaches_again htaken hsent
        simpa only [middle, hown] using this
      · intro q hq
        have hbefore := mem_before hsorted horder ((hmem q).mpr (hmember hq)) (hlevel p q hq)
        have hone := List.count_eq_one_of_mem (hdests q) ((hmatch q p).mpr hq)
        refine ⟨fun heq => (hlevel p q hq).ne (heq ▸ rfl), ?_⟩
        rw [hu q, if_pos hbefore, hown]
        simp [middle, hone, hs.quiet.received p q]
  have hfinal : system.Reaches middle final := by
    apply reaches_all order final hnodup
    · intro p hp
      obtain ⟨-, hnodest⟩ := hidle p (fun h => hp ((hmem p).mpr h))
      simp [final, middle, hnodest]
    · intro before p after u _ hown hu
      have hview (q : P) : (u q).posted = (middle q).posted := by
        rw [hu q]
        split <;> rfl
      have := reaches_completes (s := u) (rest p) (dests p) (hdests p) (by rw [hown]) ?_
      · simpa only [hown, final, middle] using this
      · intro q hq
        have hone := List.count_eq_one_of_mem (hsources q) ((hmatch p q).mp hq)
        rw [hview q, hown]
        simp [middle, hone, hs.quiet.completed p q]
  refine ⟨final, hmiddle.trans hfinal, ⟨?_, ?_⟩, fun p => rfl, fun p => rfl⟩
  · intro p q
    simp [final, middle, hs.quiet.received p q, hcount]
  · intro p q
    simp [final, middle, hs.quiet.completed p q, hcount]

/-- Waves one after another keep an invariant. -/
theorem leads_waves (round : ℕ → P → List (Instruction P M D)) (Holds : ℕ → P → M → Prop) (n : ℕ)
    (hround : ∀ i, i < n → ∀ memories : P → M, (∀ p, Holds i p (memories p)) →
      ∃ memories', (∀ p, Holds (i+1) p (memories' p)) ∧
        ∀ rest : P → List (Instruction P M D),
          Leads (fun p => round i p++rest p) memories rest memories')
    (memories : P → M) (hstart : ∀ p, Holds 0 p (memories p)) :
    ∃ memories', (∀ p, Holds n p (memories' p)) ∧
      ∀ rest : P → List (Instruction P M D),
        Leads (fun p => (List.range n).flatMap (fun i => round i p)++rest p) memories
          rest memories' := by
  induction n with
  | zero =>
    refine ⟨memories, hstart, ?_⟩
    intro rest
    simpa using Leads.refl
  | succ n ih =>
    obtain ⟨middle, hmiddle, hlead⟩ := ih (fun i hi => hround i (by omega))
    obtain ⟨final, hfinal, hlead'⟩ := hround n (by omega) middle hmiddle
    refine ⟨final, hfinal, ?_⟩
    intro rest
    simp only [List.range_succ, List.flatMap_append, List.flatMap_singleton, List.append_assoc]
    exact (hlead (fun p => round n p++rest p)).trans (hlead' rest)

end MessagePassing
