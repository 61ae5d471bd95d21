import Mathlib.Data.List.Sections
import Mathlib.Data.List.Nodup
import Mathlib.Algebra.BigOperators.Group.List.Basic
import Mathlib.Tactic.Ring

/-!
# Odometers whose wheels decide their own carries

A wheel shows a face, advances to another face, or is spent. A spent wheel
leaves a carry face behind and passes the tick to the next wheel. Nothing is
assumed about how a wheel finds its next face, so a wheel may return to its
first face, jam on its last one, or never be spent at all. Runs are relations:
an odometer which never stops simply has none.
-/

set_option autoImplicit false

namespace Odometer

structure Wheel (α : Type*) where
  advance : α → Option α
  carry : α → α

variable {α : Type*}

def tick : List (Wheel α) → List α → Bool × List α
  | w::ws, v::vs =>
    match w.advance v with
    | some u => (true, u::vs)
    | none => ((tick ws vs).1, w.carry v :: (tick ws vs).2)
  | _, vs => (false, vs)

inductive Turn (w : Wheel α) : α → List α → α → Prop
  | last {v : α} (h : w.advance v = none) : Turn w v [v] (w.carry v)
  | next {v u e : α} {o : List α} (h : w.advance v = some u) (t : Turn w u o e) :
      Turn w v (v::o) e

inductive Run (ws : List (Wheel α)) : List α → List (List α) → List α → Prop
  | stop {v : List α} (h : (tick ws v).1 = false) : Run ws v [v] (tick ws v).2
  | step {v e : List α} {l : List (List α)} (h : (tick ws v).1 = true)
      (r : Run ws (tick ws v).2 l e) : Run ws v (v::l) e

theorem tick_advance {w : Wheel α} {v u : α} (h : w.advance v = some u)
    (ws : List (Wheel α)) (vs : List α) : tick (w::ws) (v::vs) = (true, u::vs) := by
  simp [tick, h]

theorem tick_spent {w : Wheel α} {v : α} (h : w.advance v = none)
    (ws : List (Wheel α)) (vs : List α) :
    tick (w::ws) (v::vs) = ((tick ws vs).1, w.carry v :: (tick ws vs).2) := by
  simp [tick, h]

theorem turn_ne_nil {w : Wheel α} {v e : α} {o : List α} (h : Turn w v o e) : o ≠ [] := by
  cases h <;> simp

theorem run_head {ws : List (Wheel α)} {v e : List α} {l : List (List α)}
    (h : Run ws v l e) : ∃ rest, l = v::rest := by
  cases h with
  | stop => exact ⟨[], rfl⟩
  | step _ r => exact ⟨_, rfl⟩

theorem run_empty : Run ([] : List (Wheel α)) [] [[]] [] :=
  Run.stop (v := []) rfl

theorem run_unique {ws : List (Wheel α)} {v e f : List α} {l m : List (List α)}
    (h : Run ws v l e) (g : Run ws v m f) : l = m ∧ e = f := by
  induction h generalizing m f with
  | stop ha =>
    cases g with
    | stop => exact ⟨rfl, rfl⟩
    | step hb => rw [ha] at hb; cases hb
  | step ha _ ih =>
    cases g with
    | stop hb => rw [ha] at hb; cases hb
    | step hb t =>
      obtain ⟨rfl, rfl⟩ := ih t
      exact ⟨rfl, rfl⟩

/-- A set of faces which every advance stays in, and on which the wheel is
never spent, has no turn out of it. -/
theorem no_turn_of_closed {w : Wheel α} {S : α → Prop}
    (hS : ∀ v, S v → ∃ u, w.advance v = some u ∧ S u) {v e : α} {o : List α}
    (hv : S v) : ¬ Turn w v o e := by
  intro h
  induction h with
  | last ha =>
    obtain ⟨u, hu, _⟩ := hS _ hv
    rw [ha] at hu
    cases hu
  | next ha _ ih =>
    obtain ⟨u, hu, hsu⟩ := hS _ hv
    rw [ha] at hu
    cases hu
    exact ih hsu

theorem length_front (o : List α) (l : List (List α)) :
    (l.flatMap (fun x => o.map (· :: x))).length = o.length*l.length := by
  induction l with
  | nil => rfl
  | cons x l ih => simp [ih]; ring

section Front

variable {w : Wheel α} {ws : List (Wheel α)}

theorem run_front_stop {v e : α} {o : List α} (t : Turn w v o e) {u : List α}
    (hu : (tick ws u).1 = false) :
    Run (w::ws) (v::u) (o.map (· :: u)) (e :: (tick ws u).2) := by
  induction t with
  | last ha =>
    have ht := tick_spent ha ws u
    have hs := @Run.stop _ (w::ws) _ (by rw [ht]; exact hu)
    rwa [ht] at hs
  | next ha _ ih =>
    have ht := tick_advance ha ws u
    exact Run.step (by rw [ht]) (by rw [ht]; exact ih)

theorem run_front_step {v e : α} {o : List α} (t : Turn w v o e) {u f : List α}
    {l : List (List α)} (hu : (tick ws u).1 = true)
    (r : Run (w::ws) (e :: (tick ws u).2) l f) :
    Run (w::ws) (v::u) (o.map (· :: u) ++ l) f := by
  induction t with
  | last ha =>
    have ht := tick_spent ha ws u
    exact Run.step (by rw [ht]; exact hu) (by rw [ht]; exact r)
  | next ha _ ih =>
    have ht := tick_advance ha ws u
    exact Run.step (by rw [ht]) (by rw [ht]; exact ih r)

/-- A wheel which returns to its first face turns once for every reading of
the wheels behind it. -/
theorem run_returning {v : α} {o : List α} (t : Turn w v o v) {u f : List α}
    {l : List (List α)} (r : Run ws u l f) :
    Run (w::ws) (v::u) (l.flatMap (fun x => o.map (· :: x))) (v::f) := by
  induction r with
  | stop hu => simpa using run_front_stop t hu
  | step hu _ ih => exact run_front_step t hu ih

theorem run_jammed {v : α} (t : Turn w v [v] v) {u f : List α}
    {l : List (List α)} (r : Run ws u l f) :
    Run (w::ws) (v::u) (l.map (v :: ·)) (v::f) := by
  induction r with
  | stop hu => exact run_front_stop t hu
  | step hu _ ih => exact run_front_step t hu ih

/-- A wheel which jams after its first turn shows its other faces only during
the first reading of the wheels behind it. -/
theorem run_jamming {v e : α} {o : List α} (t : Turn w v o e) (j : Turn w e [e] e)
    {u f : List α} {l : List (List α)} (r : Run ws u l f) :
    Run (w::ws) (v::u) (o.map (· :: u) ++ l.tail.map (e :: ·)) (e::f) := by
  cases r with
  | stop hu => simpa using run_front_stop t hu
  | step hu r => exact run_front_step t hu (run_jammed j r)

theorem run_behind {x e : List α} {l : List (List α)} (r : Run (w::ws) x l e) :
    ∀ v u, x = v::u → ∃ m f, Run ws u m f := by
  induction r with
  | @stop x h =>
    rintro v u rfl
    cases ha : w.advance v with
    | some y => rw [tick_advance ha] at h; cases h
    | none => rw [tick_spent ha] at h; exact ⟨_, _, Run.stop h⟩
  | @step x e l h r ih =>
    rintro v u rfl
    cases ha : w.advance v with
    | some y => exact ih _ _ (by rw [tick_advance ha])
    | none =>
      rw [tick_spent ha] at h
      obtain ⟨m, f, hm⟩ := ih _ _ (by rw [tick_spent ha])
      exact ⟨_, _, Run.step h hm⟩

theorem run_turn {x e : List α} {l : List (List α)} (r : Run (w::ws) x l e) :
    ∀ v u, x = v::u → ∃ o f, Turn w v o f := by
  induction r with
  | @stop x h =>
    rintro v u rfl
    cases ha : w.advance v with
    | some y => rw [tick_advance ha] at h; cases h
    | none => exact ⟨_, _, Turn.last ha⟩
  | @step x e l h r ih =>
    rintro v u rfl
    cases ha : w.advance v with
    | some y =>
      obtain ⟨o, f, ho⟩ := ih _ _ (by rw [tick_advance ha])
      exact ⟨_, _, Turn.next ha ho⟩
    | none => exact ⟨_, _, Turn.last ha⟩

end Front

def Settles (w : Wheel α) (v : α) (o : List α) : Prop :=
  ∃ e, Turn w v o e ∧ (e = v ∨ e ∈ o ∧ Turn w e [e] e)

inductive Returning : List (Wheel α) → List α → List (List α) → Prop
  | nil : Returning [] [] []
  | cons {w : Wheel α} {ws : List (Wheel α)} {v : α} {vs : List α} {o : List α}
      {os : List (List α)} (t : Turn w v o v) (r : Returning ws vs os) :
      Returning (w::ws) (v::vs) (o::os)

/-- An odometer of returning wheels reads every section of the face lists, the
first wheel fastest, and comes back to where it started. -/
theorem run_sections {ws : List (Wheel α)} {vs : List α} {os : List (List α)}
    (h : Returning ws vs os) : Run ws vs os.sections vs := by
  induction h with
  | nil => exact run_empty
  | cons t _ ih => exact run_returning t ih

inductive Settling : List (Wheel α) → List α → List (List α) → Prop
  | nil : Settling [] [] []
  | cons {w : Wheel α} {ws : List (Wheel α)} {v : α} {vs : List α} {o : List α}
      {os : List (List α)} (t : Settles w v o) (r : Settling ws vs os) :
      Settling (w::ws) (v::vs) (o::os)

/-- Settling wheels always stop, within one reading for every section, and
never read anything but a section. -/
theorem run_settling {ws : List (Wheel α)} {vs : List α} {os : List (List α)}
    (h : Settling ws vs os) : ∃ l e, Run ws vs l e ∧
      l.length ≤ (os.map List.length).prod ∧ ∀ x ∈ l, x ∈ os.sections := by
  induction h with
  | nil => exact ⟨_, _, run_empty, by simp, by simp⟩
  | @cons w ws v vs o os t _ ih =>
    obtain ⟨l, f, hr, hl, hx⟩ := ih
    obtain ⟨e, ht, rfl | ⟨he, hj⟩⟩ := t
    · refine ⟨_, _, run_returning ht hr, ?_, ?_⟩
      · rw [length_front, List.map_cons, List.prod_cons]
        exact Nat.mul_le_mul_left _ hl
      · intro x hm
        obtain ⟨y, hy, hxy⟩ := List.mem_flatMap.mp hm
        exact List.mem_flatMap.mpr ⟨y, hx y hy, hxy⟩
    · refine ⟨_, _, run_jamming ht hj hr, ?_, ?_⟩
      · obtain ⟨rest, rfl⟩ := run_head hr
        have ho : 1 ≤ o.length := List.length_pos_iff.mpr (turn_ne_nil ht)
        have hb := Nat.mul_le_mul_left o.length hl
        simp only [List.length_append, List.length_map, List.tail_cons, List.map_cons,
          List.prod_cons, List.length_cons] at *
        calc o.length+rest.length ≤ o.length+o.length*rest.length :=
              Nat.add_le_add_left (Nat.le_mul_of_pos_left _ ho) _
          _ = o.length*(rest.length+1) := by ring
          _ ≤ _ := hb
      · intro x hm
        obtain ⟨rest, rfl⟩ := run_head hr
        rcases List.mem_append.mp hm with h1 | h2
        · exact List.mem_flatMap.mpr ⟨vs, hx vs (by simp), h1⟩
        · obtain ⟨y, hy, rfl⟩ := List.mem_map.mp h2
          exact List.mem_flatMap.mpr ⟨y, hx y (List.mem_cons_of_mem _ hy),
            List.mem_map.mpr ⟨e, he, rfl⟩⟩

theorem length_sections (os : List (List α)) :
    os.sections.length = (os.map List.length).prod := by
  induction os with
  | nil => rfl
  | cons o os ih => rw [List.sections, length_front, ih, List.map_cons, List.prod_cons]

theorem nodup_sections {os : List (List α)} (h : ∀ o ∈ os, o.Nodup) : os.sections.Nodup := by
  induction os with
  | nil => simp [List.sections]
  | cons o os ih =>
    have ho : o.Nodup := h o (by simp)
    refine List.nodup_flatMap.mpr ⟨fun x _ => ho.map (fun a b hab => (List.cons.inj hab).1), ?_⟩
    refine (ih fun p hp => h p (by simp [hp])).imp ?_
    intro x y hxy z hzx hzy
    obtain ⟨a, _, rfl⟩ := List.mem_map.mp hzx
    obtain ⟨b, _, hb⟩ := List.mem_map.mp hzy
    exact hxy (List.cons.inj hb).2.symm

theorem turn_unique {w : Wheel α} {v e f : α} {o p : List α} (h : Turn w v o e)
    (g : Turn w v p f) : o = p ∧ e = f := by
  induction h generalizing p f with
  | last ha =>
    cases g with
    | last => exact ⟨rfl, rfl⟩
    | next hb => rw [ha] at hb; cases hb
  | next ha _ ih =>
    cases g with
    | last hb => rw [ha] at hb; cases hb
    | next hb t =>
      rw [ha] at hb
      cases hb
      obtain ⟨rfl, rfl⟩ := ih t
      exact ⟨rfl, rfl⟩

theorem turn_mem {w : Wheel α} {v e x : α} {o : List α} (h : Turn w v o e) (hx : x ∈ o) :
    ∃ p, Turn w x p e ∧ p.length ≤ o.length := by
  induction h with
  | last ha =>
    rw [List.mem_singleton] at hx
    subst hx
    exact ⟨_, .last ha, Nat.le_refl _⟩
  | next ha t ih =>
    rcases List.mem_cons.mp hx with rfl | hm
    · exact ⟨_, .next ha t, Nat.le_refl _⟩
    · obtain ⟨p, hp, hl⟩ := ih hm
      exact ⟨p, hp, by simp only [List.length_cons]; omega⟩

/-- A wheel that is spent after a turn has not shown a face twice. -/
theorem turn_nodup {w : Wheel α} {v e : α} {o : List α} (h : Turn w v o e) : o.Nodup := by
  induction h with
  | last => simp
  | @next v u e o ha t ih =>
    refine List.nodup_cons.mpr ⟨fun hm => ?_, ih⟩
    obtain ⟨p, hp, hl⟩ := turn_mem t hm
    obtain ⟨rfl, _⟩ := turn_unique hp (.next ha t)
    rw [List.length_cons] at hl
    omega

theorem turn_subset {w : Wheel α} {S : α → Prop}
    (hS : ∀ v u, S v → w.advance v = some u → S u) {v e : α} {o : List α} (h : Turn w v o e)
    (hv : S v) : ∀ x ∈ o, S x := by
  induction h with
  | last => simpa using hv
  | next ha _ ih => exact List.forall_mem_cons.mpr ⟨hv, ih (hS _ _ hv ha)⟩

section Weight

open Classical in
noncomputable def left (w : Wheel α) (v : α) : ℕ :=
  if h : ∃ o e, Turn w v o e then h.choose.length-1 else 0

theorem left_turn {w : Wheel α} {v e : α} {o : List α} (t : Turn w v o e) :
    left w v+1 = o.length := by
  have h : ∃ o e, Turn w v o e := ⟨o, e, t⟩
  obtain ⟨f, hf⟩ := h.choose_spec
  have ho : h.choose = o := (turn_unique hf t).1
  have hpos : 0 < o.length := List.length_pos_iff.mpr (turn_ne_nil t)
  rw [left, dif_pos h, ho]
  omega

theorem left_advance {w : Wheel α} {v u e : α} {o : List α} (h : w.advance v = some u)
    (t : Turn w u o e) : left w v = left w u+1 := by
  have hv := left_turn (.next h t)
  have hu := left_turn t
  rw [List.length_cons] at hv
  omega

structure Gear (α : Type*) extends Wheel α where
  faces : ℕ
  shows : α → Prop
  turn : ∀ v, shows v → ∃ o e, Turn toWheel v o e ∧ o.length ≤ faces
  shows_advance : ∀ v u, shows v → advance v = some u → shows u
  shows_carry : ∀ v, shows v → shows (carry v)

def Reading (gs : List (Gear α)) (vs : List α) : Prop := List.Forall₂ (fun g v => g.shows v) gs vs

noncomputable def weight : List (Gear α) → List α → ℕ
  | g::gs, v::vs => left g.toWheel v+g.faces*weight gs vs
  | _, _ => 0

theorem left_lt (g : Gear α) {v : α} (h : g.shows v) : left g.toWheel v < g.faces := by
  obtain ⟨o, e, ht, hl⟩ := g.turn v h
  have := left_turn ht
  omega

theorem left_decreases (g : Gear α) {v u : α} (h : g.shows v) (ha : g.advance v = some u) :
    left g.toWheel u < left g.toWheel v := by
  obtain ⟨o, e, ht, _⟩ := g.turn u (g.shows_advance v u h ha)
  rw [left_advance ha ht]
  exact Nat.lt_succ_self _

/-- A digit below the radix does not make up for the one behind it. -/
theorem digit_lt {a b n x y : ℕ} (ha : a < n) (h : x < y) : a+n*x < b+n*y := by
  have hn : n*x+n ≤ n*y := Nat.mul_succ n x ▸ Nat.mul_le_mul_left n h
  omega

theorem weight_lt {gs : List (Gear α)} {vs : List α} (h : Reading gs vs) :
    weight gs vs < (gs.map Gear.faces).prod := by
  induction h with
  | nil => simp [weight]
  | @cons g v gs vs hv _ ih =>
    rw [weight, List.map_cons, List.prod_cons]
    simpa using digit_lt (b := 0) (left_lt g hv) ih

theorem tick_reading {gs : List (Gear α)} {vs : List α} (h : Reading gs vs) :
    Reading gs (tick (gs.map Gear.toWheel) vs).2 := by
  induction h with
  | nil => exact .nil
  | @cons g v gs vs hv hr ih =>
    cases ha : g.advance v with
    | some u =>
      rw [List.map_cons, tick_advance ha]
      exact .cons (g.shows_advance v u hv ha) hr
    | none =>
      rw [List.map_cons, tick_spent ha]
      exact .cons (g.shows_carry v hv) ih

/-- Each tick takes from the weight, so an odometer of gears comes to its end. -/
theorem tick_weight {gs : List (Gear α)} {vs : List α} (h : Reading gs vs)
    (ht : (tick (gs.map Gear.toWheel) vs).1 = true) :
    weight gs (tick (gs.map Gear.toWheel) vs).2 < weight gs vs := by
  induction h with
  | nil => cases ht
  | @cons g v gs vs hv hr ih =>
    cases ha : g.advance v with
    | some u =>
      rw [List.map_cons, tick_advance ha, weight, weight]
      exact Nat.add_lt_add_right (left_decreases g hv ha) _
    | none =>
      rw [List.map_cons, tick_spent ha] at ht ⊢
      rw [weight, weight]
      exact digit_lt (left_lt g (g.shows_carry v hv)) (ih ht)

end Weight

end Odometer
