import Otpo.Library.LockStep

/-!
# Receives that are posted early

A program may post its receives earlier than it needs them. What completes with
late posts completes with early ones and leaves the same.
-/

set_option autoImplicit false

namespace MessagePassing

open AsynchronousRuns Function

variable {P M D : Type} [DecidableEq P]

def single (q : P) : P → ℕ := fun r => if r = q then 1 else 0

/-- The second program is the first one with posts moved to the front. So many
posts that the first one still has to make are behind the second one already. -/
inductive Ahead : (P → ℕ) → List (Instruction P M D) → List (Instruction P M D) → Prop where
  | nil : Ahead (fun _ => 0) [] []
  | same {n : P → ℕ} {a b : List (Instruction P M D)} (i : Instruction P M D) :
      Ahead n a b → Ahead n (i::a) (i::b)
  | past {n : P → ℕ} {a b : List (Instruction P M D)} (q : P) :
      Ahead n a b → Ahead (fun r => n r+single q r) (.post q::a) b
  | early {n : P → ℕ} {a b : List (Instruction P M D)} (q : P) :
      Ahead (fun r => n r+single q r) a b → Ahead n a (.post q::b)

theorem Ahead.refl (a : List (Instruction P M D)) : Ahead (fun _ => 0) a a := by
  induction a with
  | nil => exact .nil
  | cons i a ih => exact .same i ih

theorem Ahead.prepend {n : P → ℕ} {a b : List (Instruction P M D)}
    (c : List (Instruction P M D)) (h : Ahead n a b) : Ahead n (c++a) (c++b) := by
  induction c with
  | nil => exact h
  | cons i c ih => exact .same i ih

theorem Ahead.append {n : P → ℕ} {a b c d : List (Instruction P M D)} (h : Ahead n a b)
    (h' : Ahead (fun _ => 0) c d) : Ahead n (a++c) (b++d) := by
  induction h with
  | nil => exact h'
  | same i _ ih => exact .same i ih
  | past q _ ih => exact .past q ih
  | early q _ ih => exact .early q ih

theorem ahead_nil {n : P → ℕ} {b : List (Instruction P M D)} (h : Ahead n [] b) :
    b = [] ∧ ∀ q, n q = 0 := by
  generalize ha : ([] : List (Instruction P M D)) = a at h
  induction h with
  | nil => exact ⟨rfl, fun _ => rfl⟩
  | same i _ _ => cases ha
  | past q _ _ => cases ha
  | early q _ ih =>
    have := (ih ha).2 q
    simp [single] at this

structure Alike (n : P → ℕ) (x y : Process P M D) : Prop where
  memory : y.memory = x.memory
  sent : y.sent = x.sent
  posted (q : P) : y.posted q = x.posted q+n q
  received : y.received = x.received
  completed : y.completed = x.completed

def Early (s t : State P M D) : Prop :=
  ∀ p, ∃ n, Alike n (s p) (t p) ∧ Ahead n (s p).program (t p).program

variable {p : P} {s t : State P M D} {l : Process P M D} {n : P → ℕ}

theorem Early.sent (h : Early s t) (q : P) : (t q).sent = (s q).sent := by
  obtain ⟨n, halike, -⟩ := h q
  exact halike.sent

theorem Early.posted (h : Early s t) (q r : P) : (s q).posted r ≤ (t q).posted r := by
  obtain ⟨n, halike, -⟩ := h q
  rw [halike.posted]
  omega

theorem Early.update (h : Early s t) {l' : Process P M D} (halike : Alike n l l')
    (hahead : Ahead n l.program l'.program) : Early (update s p l) (update t p l') := by
  intro q
  by_cases hq : q = p
  · subst hq
    exact ⟨n, by simpa using halike, by simpa using hahead⟩
  · simpa [hq] using h q

/-- A step that both programs make next. -/
theorem step_same {i : Instruction P M D} {a b : List (Instruction P M D)} (h : Early s t)
    (halike : Alike n (s p) (t p)) (hs : (s p).program = i::a) (ht : (t p).program = i::b)
    (hstep : advance false p s = some l) :
    ∃ l', advance false p t = some l' ∧ Alike n l l' ∧ l.program = a ∧ l'.program = b := by
  unfold advance at *
  rw [hs] at hstep
  rw [ht]
  cases i with
  | send dest payload =>
    cases hstep
    exact ⟨_, rfl, ⟨halike.memory, by simp [halike.memory, halike.sent], halike.posted,
      halike.received, halike.completed⟩, rfl, rfl⟩
  | post source =>
    cases hstep
    refine ⟨_, rfl, ⟨halike.memory, halike.sent, ?_, halike.received, halike.completed⟩, rfl, rfl⟩
    intro q
    by_cases hq : q = source
    · subst hq
      simp only [update_self, halike.posted]
      omega
    · simp [hq, halike.posted]
  | receive source store =>
    simp only [h.sent source, halike.received, halike.memory]
    cases hmessage : ((s source).sent p)[(s p).received source]? with
    | none => simp [hmessage] at hstep
    | some message =>
      simp only [hmessage] at hstep
      obtain ⟨memory, hmemory, rfl⟩ := Option.map_eq_some_iff.mp hstep
      refine ⟨{ t p with
        program := b
        memory := memory
        received := update (s p).received source ((s p).received source+1) }, ?_,
        ⟨rfl, halike.sent, halike.posted, rfl, halike.completed⟩, rfl, rfl⟩
      simp only [hmemory, Option.map_some]
  | complete dest =>
    have hposted := h.posted dest p
    simp only [Bool.false_eq_true, false_or] at hstep ⊢
    split at hstep
    · rename_i hready
      cases hstep
      rw [halike.completed, if_pos (hready.trans_le hposted)]
      exact ⟨_, rfl, ⟨halike.memory, halike.sent, halike.posted, halike.received, by simp⟩,
        rfl, rfl⟩
    · cases hstep
  | compute f =>
    cases hstep
    exact ⟨_, rfl, ⟨by simp [halike.memory], halike.sent, halike.posted, halike.received,
      halike.completed⟩, rfl, rfl⟩

theorem step_early {i : Instruction P M D} {a b : List (Instruction P M D)}
    (hahead : Ahead n (i::a) b) (h : Early s t) (halike : Alike n (s p) (t p))
    (hs : (s p).program = i::a) (ht : (t p).program = b) (hstep : advance false p s = some l) :
    ∃ u, system.Reaches t u ∧ Early (update s p l) u := by
  generalize hprogram : i::a = program at hahead
  induction hahead generalizing t with
  | nil => cases hprogram
  | same j hrest _ =>
    cases hprogram
    obtain ⟨l', hnext, halike', hl, hl'⟩ := step_same h halike hs ht hstep
    exact ⟨update t p l', reaches_update hnext, h.update halike' (by rw [hl, hl']; exact hrest)⟩
  | @past n a' b q hrest _ =>
    cases hprogram
    unfold advance at hstep
    rw [hs] at hstep
    cases hstep
    refine ⟨t, .refl t, ?_⟩
    rw [← update_eq_self p t]
    apply h.update (n := n)
    · refine ⟨halike.memory, halike.sent, ?_, halike.received, halike.completed⟩
      intro r
      have := halike.posted r
      by_cases hr : r = q
      · subst hr
        simp only [update_self, single, if_true] at *
        omega
      · simpa [single, hr] using this
    · simpa [ht] using hrest
  | @early n a' b q hrest ih =>
    have hpost : advance false p t = some { t p with
        program := b
        posted := update (t p).posted q ((t p).posted q+1) } := by
      rw [advance, ht]
    have halike' : Alike (fun r => n r+single q r) (s p) { t p with
        program := b
        posted := update (t p).posted q ((t p).posted q+1) } := by
      refine ⟨halike.memory, halike.sent, ?_, halike.received, halike.completed⟩
      intro r
      have := halike.posted r
      by_cases hr : r = q
      · subst hr
        simp only [update_self, single, if_true]
        omega
      · simpa [single, hr] using this
    have hearly := h.update (p := p) halike' (by rw [hs, hprogram]; exact hrest)
    rw [update_eq_self] at hearly
    obtain ⟨u, hreach, hu⟩ := ih hearly (by simpa using halike') (by simp) hprogram
    exact ⟨u, (reaches_update hpost).trans hreach, hu⟩

theorem run_early {u : State P M D} {ps : List P} (hrun : system.Run false s ps u)
    (h : Early s t) : ∃ v, system.Reaches t v ∧ Early u v := by
  induction hrun generalizing t with
  | nil s => exact ⟨t, .refl t, h⟩
  | @cons p ps s s' u hp _ ih =>
    obtain ⟨l, hl, rfl⟩ := Option.map_eq_some_iff.mp hp
    obtain ⟨n, halike, hahead⟩ := h p
    obtain ⟨i, a, hprogram⟩ : ∃ i a, (s p).program = i::a := by
      cases hprogram : (s p).program with
      | nil =>
        rw [advance, hprogram] at hl
        cases hl
      | cons i a => exact ⟨i, a, rfl⟩
    obtain ⟨w, htw, hw⟩ := step_early (hprogram ▸ hahead) h halike hprogram rfl hl
    obtain ⟨v, hwv, hv⟩ := ih hw
    exact ⟨v, htw.trans hwv, hv⟩

variable {programs early : P → List (Instruction P M D)} {memories memories' : P → M}

/-- Early posts change neither that a program completes nor what it leaves. -/
theorem Leads.early_completes (h : Leads programs memories (fun _ => []) memories')
    (hearly : ∀ p, Ahead (fun _ => 0) (programs p) (early p)) :
    Completes early memories memories' := by
  obtain ⟨u, ⟨ps, hrun⟩, hu⟩ := h (initial programs memories)
    ⟨⟨fun _ _ => rfl, fun _ _ => rfl⟩, fun _ => rfl, fun _ => rfl⟩
  have hstart : Early (initial programs memories) (initial early memories) :=
    fun p => ⟨fun _ => 0, ⟨rfl, rfl, fun _ => rfl, rfl, rfl⟩, hearly p⟩
  obtain ⟨v, hreach, hv⟩ := run_early hrun hstart
  have hend (p : P) : (v p).program = [] ∧ (v p).memory = memories' p := by
    obtain ⟨n, halike, hahead⟩ := hv p
    rw [hu.program p] at hahead
    exact ⟨(ahead_nil hahead).1, by rw [halike.memory, hu.memory p]⟩
  refine ⟨v, hreach.settles ?_, hend⟩
  intro p
  simp [system, step, advance, (hend p).1]

def overlapped {X : Type} (source : X → P) (work : X → List (Instruction P M D)) :
    List X → List (Instruction P M D)
  | [] => []
  | x::xs => .post (source x)::follow x xs
where
  follow (x : X) : List X → List (Instruction P M D)
    | [] => work x
    | y::ys => .post (source y)::(work x++follow y ys)

theorem ahead_overlapped {X : Type} (source : X → P) (work : X → List (Instruction P M D))
    (l : List X) : Ahead (fun _ => 0) (l.flatMap fun x => .post (source x)::work x)
      (overlapped source work l) := by
  have hfollow (x : X) (xs : List X) : Ahead (fun _ => 0)
      (work x++xs.flatMap fun y => .post (source y)::work y)
      (overlapped.follow source work x xs) := by
    induction xs generalizing x with
    | nil => simpa [overlapped.follow] using Ahead.refl (work x)
    | cons y ys ih =>
      rw [List.flatMap_cons, overlapped.follow]
      exact .early _ ((Ahead.past _ (ih y)).prepend (work x))
  cases l with
  | nil => exact .nil
  | cons x xs => exact .same _ (hfollow x xs)

end MessagePassing
