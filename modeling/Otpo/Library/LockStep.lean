import Otpo.Library.MessagePassing
import Mathlib.Data.Finset.Dedup
import Mathlib.Data.List.Count

/-!
# Rounds of exchanged messages

In a round each process posts receives, sends its messages, takes in what was
sent to it and waits for its own sends. Between rounds no message is on its
way. `Leads` is the rule of composition for such programs.
-/

set_option autoImplicit false

namespace MessagePassing

open AsynchronousRuns Function

variable {P M D : Type} [DecidableEq P]

def exchange (sources dests : List P) (payload : P → M → D) (store : P → D → M → Option M) :
    List (Instruction P M D) :=
  sources.map .post ++ dests.map (fun dest => .send dest (payload dest)) ++
    sources.map (fun source => .receive source (store source)) ++ dests.map .complete

structure Quiet (s : State P M D) : Prop where
  received (p q : P) : (s p).received q = ((s q).sent p).length
  completed (p q : P) : (s p).completed q = (s q).posted p

structure At (programs : P → List (Instruction P M D)) (memories : P → M)
    (s : State P M D) : Prop where
  quiet : Quiet s
  program (p : P) : (s p).program = programs p
  memory (p : P) : (s p).memory = memories p

def Leads (programs : P → List (Instruction P M D)) (memories : P → M)
    (programs' : P → List (Instruction P M D)) (memories' : P → M) : Prop :=
  ∀ s, At programs memories s → ∃ t, system.Reaches s t ∧ At programs' memories' t

variable {programs programs' programs'' : P → List (Instruction P M D)}
  {memories memories' memories'' : P → M}

theorem Leads.refl : Leads programs memories programs memories :=
  fun s hs => ⟨s, .refl s, hs⟩

theorem Leads.trans (h : Leads programs memories programs' memories')
    (h' : Leads programs' memories' programs'' memories'') :
    Leads programs memories programs'' memories'' := by
  intro s hs
  obtain ⟨t, hst, ht⟩ := h s hs
  obtain ⟨u, htu, hu⟩ := h' t ht
  exact ⟨u, hst.trans htu, hu⟩

section alone

variable {p : P} {s : State P M D} (rest : List (Instruction P M D))

theorem reaches_posts (sources : List P) (hprogram : (s p).program = sources.map .post++rest) :
    system.Reaches s (update s p { s p with
      program := rest
      posted := fun q => (s p).posted q+sources.count q }) := by
  induction sources generalizing s with
  | nil =>
    have : (s p).program = rest := hprogram
    simp only [List.count_nil, Nat.add_zero, ← this, update_eq_self]
    exact .refl s
  | cons source sources ih =>
    have hnext : advance false p s = some { s p with
        program := sources.map .post++rest
        posted := update (s p).posted source ((s p).posted source+1) } := by
      rw [advance, hprogram]
      rfl
    refine (reaches_update hnext).trans ?_
    have h := ih (s := update s p { s p with
      program := sources.map .post++rest
      posted := update (s p).posted source ((s p).posted source+1) }) (by simp)
    simp only [update_self, update_idem] at h
    convert h using 4 with q
    by_cases hq : q = source
    · simp [hq]
      omega
    · simp [hq, Ne.symm hq]

theorem reaches_sends (dests : List P) (payload : P → M → D)
    (hprogram : (s p).program = dests.map (fun dest => .send dest (payload dest))++rest) :
    system.Reaches s (update s p { s p with
      program := rest
      sent := fun q =>
        (s p).sent q++List.replicate (dests.count q) (payload q (s p).memory) }) := by
  induction dests generalizing s with
  | nil =>
    have : (s p).program = rest := hprogram
    simp only [List.count_nil, List.replicate_zero, List.append_nil, ← this, update_eq_self]
    exact .refl s
  | cons dest dests ih =>
    have hnext : advance false p s = some { s p with
        program := dests.map (fun dest => .send dest (payload dest))++rest
        sent := update (s p).sent dest ((s p).sent dest++[payload dest (s p).memory]) } := by
      rw [advance, hprogram]
      rfl
    refine (reaches_update hnext).trans ?_
    have h := ih (s := update s p { s p with
      program := dests.map (fun dest => .send dest (payload dest))++rest
      sent := update (s p).sent dest ((s p).sent dest++[payload dest (s p).memory]) }) (by simp)
    simp only [update_self, update_idem] at h
    convert h using 4 with q
    by_cases hq : q = dest
    · simp [hq, List.replicate_succ]
    · simp [hq, Ne.symm hq]

theorem reaches_receives (sources : List P) (store : P → D → M → Option M) (message : P → D)
    (memory : M) (hnodup : sources.Nodup)
    (hprogram : (s p).program = sources.map (fun q => .receive q (store q))++rest)
    (hsent : ∀ q ∈ sources, ((s q).sent p)[(s p).received q]? = some (message q))
    (hstore : sources.foldlM (fun m q => store q (message q) m) (s p).memory = some memory) :
    system.Reaches s (update s p { s p with
      program := rest
      memory := memory
      received := fun q => (s p).received q+sources.count q }) := by
  induction sources generalizing s with
  | nil =>
    have hrest : (s p).program = rest := hprogram
    have hmemory : (s p).memory = memory := by simpa using hstore
    simp only [List.count_nil, Nat.add_zero, ← hrest, ← hmemory, update_eq_self]
    exact .refl s
  | cons source sources ih =>
    simp only [List.foldlM_cons, Option.bind_eq_bind, Option.bind_eq_some_iff] at hstore
    obtain ⟨m, hm, hrest⟩ := hstore
    have hnext : advance false p s = some { s p with
        program := sources.map (fun q => .receive q (store q))++rest
        memory := m
        received := update (s p).received source ((s p).received source+1) } := by
      rw [advance, hprogram]
      simp [hsent source (by simp), hm]
    refine (reaches_update hnext).trans ?_
    have hfresh := (List.nodup_cons.mp hnodup).1
    have h := ih (s := update s p { s p with
        program := sources.map (fun q => .receive q (store q))++rest
        memory := m
        received := update (s p).received source ((s p).received source+1) })
      (List.nodup_cons.mp hnodup).2 (by simp) ?_ (by simpa using hrest)
    · simp only [update_self, update_idem] at h
      convert h using 4 with q
      by_cases hq : q = source
      · simp [hq]
        omega
      · simp [hq, Ne.symm hq]
    · intro q hq
      have hne : q ≠ source := fun heq => hfresh (heq ▸ hq)
      have := hsent q (by simp [hq])
      by_cases hqp : q = p
      · subst hqp
        simpa [hne] using this
      · simpa [hne, hqp] using this

theorem reaches_completes (dests : List P) (hnodup : dests.Nodup)
    (hprogram : (s p).program = dests.map .complete++rest)
    (hposted : ∀ q ∈ dests, (s p).completed q < (s q).posted p) :
    system.Reaches s (update s p { s p with
      program := rest
      completed := fun q => (s p).completed q+dests.count q }) := by
  induction dests generalizing s with
  | nil =>
    have : (s p).program = rest := hprogram
    simp only [List.count_nil, Nat.add_zero, ← this, update_eq_self]
    exact .refl s
  | cons dest dests ih =>
    have hnext : advance false p s = some { s p with
        program := dests.map .complete++rest
        completed := update (s p).completed dest ((s p).completed dest+1) } := by
      rw [advance, hprogram]
      simp [hposted dest (by simp)]
    refine (reaches_update hnext).trans ?_
    have hfresh := (List.nodup_cons.mp hnodup).1
    have h := ih (s := update s p { s p with
        program := dests.map .complete++rest
        completed := update (s p).completed dest ((s p).completed dest+1) })
      (List.nodup_cons.mp hnodup).2 (by simp) ?_
    · simp only [update_self, update_idem] at h
      convert h using 4 with q
      by_cases hq : q = dest
      · simp [hq]
        omega
      · simp [hq, Ne.symm hq]
    · intro q hq
      have hne : q ≠ dest := fun heq => hfresh (heq ▸ hq)
      have := hposted q (by simp [hq])
      by_cases hqp : q = p
      · subst hqp
        simpa [hne] using this
      · simpa [hne, hqp] using this

theorem reaches_computes (changes : List (M → M))
    (hprogram : (s p).program = changes.map .compute++rest) :
    system.Reaches s (update s p { s p with
      program := rest
      memory := changes.foldl (fun m f => f m) (s p).memory }) := by
  induction changes generalizing s with
  | nil =>
    have : (s p).program = rest := hprogram
    simp only [List.foldl_nil, ← this, update_eq_self]
    exact .refl s
  | cons f changes ih =>
    have hnext : advance false p s = some { s p with
        program := changes.map .compute++rest
        memory := f (s p).memory } := by
      rw [advance, hprogram]
      rfl
    refine (reaches_update hnext).trans ?_
    have h := ih (s := update s p { s p with
      program := changes.map .compute++rest
      memory := f (s p).memory }) (by simp)
    simpa only [update_self, update_idem, List.foldl_cons] using h

end alone

def taken (sources : List P) (payload : P → P → M → D) (store : P → D → M → Option M)
    (memories : P → M) (p : P) : Option M :=
  sources.foldlM (fun m q => store q (payload q p (memories q)) m) (memories p)

theorem reaches_posts_sends {p : P} {s : State P M D} (rest : List (Instruction P M D))
    (sources dests : List P) (payload : P → M → D)
    (hprogram : (s p).program =
      sources.map .post++(dests.map (fun dest => .send dest (payload dest))++rest)) :
    system.Reaches s (update s p { s p with
      program := rest
      sent := fun q =>
        (s p).sent q++List.replicate (dests.count q) (payload q (s p).memory)
      posted := fun q => (s p).posted q+sources.count q }) := by
  have hposts := reaches_posts _ sources hprogram
  have hsends := reaches_sends (p := p) rest (s := update s p { s p with
    program := dests.map (fun dest => .send dest (payload dest))++rest
    posted := fun q => (s p).posted q+sources.count q }) dests payload (by simp)
  simp only [update_self] at hsends
  exact reaches_again hposts hsends

theorem reaches_receives_completes {p : P} {s : State P M D}
    (rest : List (Instruction P M D)) (sources dests : List P) (store : P → D → M → Option M)
    (message : P → D) (memory : M) (hsources : sources.Nodup) (hdests : dests.Nodup)
    (hprogram : (s p).program =
      sources.map (fun q => .receive q (store q))++(dests.map .complete++rest))
    (hsent : ∀ q ∈ sources, ((s q).sent p)[(s p).received q]? = some (message q))
    (hstore : sources.foldlM (fun m q => store q (message q) m) (s p).memory = some memory)
    (hposted : ∀ q ∈ dests, (s p).completed q < (s q).posted p) :
    system.Reaches s (update s p { s p with
      program := rest
      memory := memory
      received := fun q => (s p).received q+sources.count q
      completed := fun q => (s p).completed q+dests.count q }) := by
  have hreceives := reaches_receives _ sources store message memory hsources hprogram hsent hstore
  have hcompletes := reaches_completes (p := p) rest (s := update s p { s p with
    program := dests.map .complete++rest
    memory := memory
    received := fun q => (s p).received q+sources.count q }) dests hdests (by simp) ?_
  · simp only [update_self] at hcompletes
    exact reaches_again hreceives hcompletes
  · intro q hq
    have := hposted q hq
    by_cases hqp : q = p
    · subst hqp
      simpa using this
    · simpa [hqp] using this

theorem reaches_completes_receives {p : P} {s : State P M D}
    (rest : List (Instruction P M D)) (sources dests : List P) (store : P → D → M → Option M)
    (message : P → D) (memory : M) (hsources : sources.Nodup) (hdests : dests.Nodup)
    (hprogram : (s p).program =
      dests.map .complete++(sources.map (fun q => .receive q (store q))++rest))
    (hsent : ∀ q ∈ sources, ((s q).sent p)[(s p).received q]? = some (message q))
    (hstore : sources.foldlM (fun m q => store q (message q) m) (s p).memory = some memory)
    (hposted : ∀ q ∈ dests, (s p).completed q < (s q).posted p) :
    system.Reaches s (update s p { s p with
      program := rest
      memory := memory
      received := fun q => (s p).received q+sources.count q
      completed := fun q => (s p).completed q+dests.count q }) := by
  have hcompletes := reaches_completes _ dests hdests hprogram hposted
  have hreceives := reaches_receives (p := p) rest (s := update s p { s p with
    program := sources.map (fun q => .receive q (store q))++rest
    completed := fun q => (s p).completed q+dests.count q }) sources store message memory
    hsources (by simp) ?_ (by simpa using hstore)
  · simp only [update_self] at hreceives
    exact reaches_again hcompletes hreceives
  · intro q hq
    have := hsent q hq
    by_cases hqp : q = p
    · subst hqp
      simpa using this
    · simpa [hqp] using this

/-- A round whose messages are all sent before the first process closes it. How
a process takes in what it got and waits for its sends is left to `closing`. -/
theorem leads_closing (members : Finset P) (sources dests : P → List P)
    (payload : P → P → M → D) (closing rest : P → List (Instruction P M D))
    (memories memories' : P → M)
    (hsources : ∀ p, (sources p).Nodup) (hdests : ∀ p, (dests p).Nodup)
    (hmatch : ∀ p q, q ∈ dests p ↔ p ∈ sources q)
    (hidle : ∀ p, p ∉ members →
      sources p = [] ∧ dests p = [] ∧ closing p = [] ∧ memories' p = memories p)
    (hclosing : ∀ (p : P) (u : State P M D), (u p).program = closing p++rest p →
      (u p).memory = memories p →
      (∀ q ∈ sources p, ((u q).sent p)[(u p).received q]? = some (payload q p (memories q))) →
      (∀ q ∈ dests p, (u p).completed q < (u q).posted p) →
      system.Reaches u (update u p { u p with
        program := rest p
        memory := memories' p
        received := fun q => (u p).received q+(sources p).count q
        completed := fun q => (u p).completed q+(dests p).count q })) :
    Leads (fun p => (sources p).map .post++(dests p).map (fun dest => .send dest (payload p dest))++
      closing p++rest p) memories rest memories' := by
  intro s hs
  have hprogram (p : P) := hs.program p
  simp only [List.append_assoc] at hprogram
  have hcount (p q : P) : (dests p).count q = (sources q).count p := by
    by_cases hq : q ∈ dests p
    · rw [List.count_eq_one_of_mem (hdests p) hq,
        List.count_eq_one_of_mem (hsources q) ((hmatch p q).mp hq)]
    · rw [List.count_eq_zero_of_not_mem hq,
        List.count_eq_zero_of_not_mem (fun h => hq ((hmatch p q).mpr h))]
  let middle : State P M D := fun p => { s p with
    program := closing p++rest p
    sent := fun q =>
      (s p).sent q++List.replicate ((dests p).count q) (payload p q (memories p))
    posted := fun q => (s p).posted q+(sources p).count q }
  let final : State P M D := fun p => { middle p with
    program := rest p
    memory := memories' p
    received := fun q => (s p).received q+(sources p).count q
    completed := fun q => (s p).completed q+(dests p).count q }
  have hmiddle : system.Reaches s middle := by
    apply reaches_all members.toList middle members.nodup_toList
    · intro p hp
      obtain ⟨hnosource, hnodest, hnothing, -⟩ := hidle p (by simpa using hp)
      have := hprogram p
      simp only [hnosource, hnodest, hnothing, List.map_nil, List.nil_append] at this
      simp [middle, hnosource, hnodest, hnothing, ← this]
    · intro before p after u _ hown _
      have := reaches_posts_sends _ (sources p) (dests p) (payload p)
        (show (u p).program = _ by rw [hown]; exact hprogram p)
      simpa only [middle, hown, hs.memory] using this
  have hfinal : system.Reaches middle final := by
    apply reaches_all members.toList final members.nodup_toList
    · intro p hp
      obtain ⟨hnosource, hnodest, hnothing, hsame⟩ := hidle p (by simpa using hp)
      simp [final, middle, hnosource, hnodest, hnothing, hsame, ← hs.memory p]
    · intro before p after u _ hown hu
      have hview (q : P) : (u q).sent = (middle q).sent ∧ (u q).posted = (middle q).posted := by
        rw [hu q]
        split
        · exact ⟨rfl, rfl⟩
        · exact ⟨rfl, rfl⟩
      have := hclosing p u (by rw [hown]) (by rw [hown]; exact hs.memory p) ?_ ?_
      · simpa only [hown] using this
      · intro q hq
        have hone := List.count_eq_one_of_mem (hdests q) ((hmatch q p).mpr hq)
        rw [(hview q).1, hown]
        simp [middle, hone, hs.quiet.received p q]
      · intro q hq
        have hone := List.count_eq_one_of_mem (hsources q) ((hmatch p q).mp hq)
        rw [(hview q).2, hown]
        simp [middle, hone, hs.quiet.completed p q]
  refine ⟨final, hmiddle.trans hfinal, ⟨?_, ?_⟩, fun p => rfl, fun p => rfl⟩
  · intro p q
    simp [final, middle, hs.quiet.received p q, hcount]
  · intro p q
    simp [final, middle, hs.quiet.completed p q, hcount]

theorem leads_exchange (members : Finset P) (sources dests : P → List P)
    (payload : P → P → M → D) (store : P → P → D → M → Option M)
    (rest : P → List (Instruction P M D)) (memories memories' : P → M)
    (hsources : ∀ p, (sources p).Nodup) (hdests : ∀ p, (dests p).Nodup)
    (hmatch : ∀ p q, q ∈ dests p ↔ p ∈ sources q)
    (hidle : ∀ p, p ∉ members → sources p = [] ∧ dests p = [])
    (hstore : ∀ p, taken (sources p) payload (store p) memories p = some (memories' p)) :
    Leads (fun p => exchange (sources p) (dests p) (payload p) (store p)++rest p) memories
      rest memories' := by
  have hlead := leads_closing members sources dests payload
    (fun p => (sources p).map (fun q => .receive q (store p q))++(dests p).map .complete) rest
    memories memories' hsources hdests hmatch ?_ ?_
  · simpa only [exchange, List.append_assoc] using hlead
  · intro p hp
    obtain ⟨hnosource, hnodest⟩ := hidle p hp
    have hsame := hstore p
    simp only [taken, hnosource, List.foldlM_nil, Option.pure_def, Option.some.injEq] at hsame
    simp [hnosource, hnodest, hsame]
  · intro p u hprogram hmemory hsent hposted
    apply reaches_receives_completes _ (sources p) (dests p) (store p)
      (fun q => payload q p (memories q)) _ (hsources p) (hdests p) _ hsent _ hposted
    · simpa only [List.append_assoc] using hprogram
    · rw [hmemory]
      exact hstore p

def handOver (sources dests : List P) (payload : P → M → D) (store : P → D → M → Option M) :
    List (Instruction P M D) :=
  sources.map .post++dests.map (fun dest => .send dest (payload dest))++
    (dests.map .complete++sources.map (fun source => .receive source (store source)))

theorem leads_handOver (members : Finset P) (sources dests : P → List P)
    (payload : P → P → M → D) (store : P → P → D → M → Option M)
    (rest : P → List (Instruction P M D)) (memories memories' : P → M)
    (hsources : ∀ p, (sources p).Nodup) (hdests : ∀ p, (dests p).Nodup)
    (hmatch : ∀ p q, q ∈ dests p ↔ p ∈ sources q)
    (hidle : ∀ p, p ∉ members → sources p = [] ∧ dests p = [])
    (hstore : ∀ p, taken (sources p) payload (store p) memories p = some (memories' p)) :
    Leads (fun p => handOver (sources p) (dests p) (payload p) (store p)++rest p) memories
      rest memories' := by
  have hlead := leads_closing members sources dests payload
    (fun p => (dests p).map .complete++(sources p).map (fun q => .receive q (store p q))) rest
    memories memories' hsources hdests hmatch ?_ ?_
  · simpa only [handOver, List.append_assoc] using hlead
  · intro p hp
    obtain ⟨hnosource, hnodest⟩ := hidle p hp
    have hsame := hstore p
    simp only [taken, hnosource, List.foldlM_nil, Option.pure_def, Option.some.injEq] at hsame
    simp [hnosource, hnodest, hsame]
  · intro p u hprogram hmemory hsent hposted
    apply reaches_completes_receives _ (sources p) (dests p) (store p)
      (fun q => payload q p (memories q)) _ (hsources p) (hdests p) _ hsent _ hposted
    · simpa only [List.append_assoc] using hprogram
    · rw [hmemory]
      exact hstore p

theorem leads_compute (members : Finset P) (changes : P → List (M → M))
    (rest : P → List (Instruction P M D)) (memories : P → M)
    (hidle : ∀ p, p ∉ members → changes p = []) :
    Leads (fun p => (changes p).map .compute++rest p) memories
      rest (fun p => (changes p).foldl (fun m f => f m) (memories p)) := by
  intro s hs
  let final : State P M D := fun p => { s p with
    program := rest p
    memory := (changes p).foldl (fun m f => f m) (memories p) }
  refine ⟨final, ?_, ⟨hs.quiet.received, hs.quiet.completed⟩, fun p => rfl, fun p => rfl⟩
  apply reaches_all members.toList final members.nodup_toList
  · intro p hp
    have hnone := hidle p (by simpa using hp)
    have := hs.program p
    simp only [hnone, List.map_nil, List.nil_append] at this
    simp [final, hnone, ← this, ← hs.memory p]
  · intro before p after u _ hown _
    have := reaches_computes _ (changes p) (show (u p).program = _ by rw [hown]; exact hs.program p)
    simpa only [final, hown, hs.memory] using this

/-- Rounds one after another. -/
theorem leads_rounds (round : ℕ → P → List (Instruction P M D)) (memories : ℕ → P → M) (n : ℕ)
    (hround : ∀ i, i < n → ∀ rest : P → List (Instruction P M D),
      Leads (fun p => round i p++rest p) (memories i) rest (memories (i+1)))
    (rest : P → List (Instruction P M D)) :
    Leads (fun p => (List.range n).flatMap (fun i => round i p)++rest p) (memories 0)
      rest (memories n) := by
  induction n generalizing rest with
  | zero =>
    simpa using Leads.refl
  | succ n ih =>
    simp only [List.range_succ, List.flatMap_append, List.flatMap_singleton, List.append_assoc]
    exact (ih (fun i hi => hround i (by omega)) (fun p => round n p++rest p)).trans
      (hround n (by omega) rest)

def initial (programs : P → List (Instruction P M D)) (memories : P → M) : State P M D :=
  fun p => ⟨programs p, memories p, fun _ => [], fun _ => 0, fun _ => 0, fun _ => 0⟩

/-- Whatever the order of the steps and whichever messages are buffered, the
programs run to their ends without blocking and leave the same memories. -/
def Completes (programs : P → List (Instruction P M D)) (memories memories' : P → M) : Prop :=
  ∃ t, system.Settles (initial programs memories) t ∧
    ∀ p, (t p).program = [] ∧ (t p).memory = memories' p

theorem Leads.completes (h : Leads programs memories (fun _ => []) memories') :
    Completes programs memories memories' := by
  obtain ⟨t, hreaches, ht⟩ := h (initial programs memories)
    ⟨⟨fun _ _ => rfl, fun _ _ => rfl⟩, fun _ => rfl, fun _ => rfl⟩
  refine ⟨t, hreaches.settles ?_, fun p => ⟨ht.program p, ht.memory p⟩⟩
  intro p
  simp [system, step, advance, ht.program p]

end MessagePassing
