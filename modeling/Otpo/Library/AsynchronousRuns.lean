import Mathlib.Data.List.Basic

/-!
# Runs of agents that step on their own

A step of one agent neither takes away a step of another one nor changes what
it does. Steps come in two kinds: sure ones, which the system has to allow, and
all that it may allow. If sure steps lead from a state to one without any step
then every run from there has the same length and the same end.
-/

set_option autoImplicit false

namespace AsynchronousRuns

structure System (P S : Type) where
  step : Bool → P → S → Option S
  allowed {p : P} {s t : S} : step false p s = some t → step true p s = some t
  diamond {b : Bool} {p q : P} {s t u : S} : p ≠ q → step b p s = some t →
    step true q s = some u → ∃ v, step b p u = some v ∧ step true q t = some v

namespace System

variable {P S : Type} (sys : System P S)

inductive Run (b : Bool) : S → List P → S → Prop where
  | nil (s : S) : Run b s [] s
  | cons {p : P} {ps : List P} {s t u : S} :
      sys.step b p s = some t → Run b t ps u → Run b s (p::ps) u

def Stopped (s : S) : Prop := ∀ p, sys.step true p s = none

def Reaches (s t : S) : Prop := ∃ ps, sys.Run false s ps t

variable {sys} {b : Bool} {p q : P} {ps qs : List P} {s t u : S}

theorem Run.append (hs : sys.Run b s ps t) (ht : sys.Run b t qs u) :
    sys.Run b s (ps++qs) u := by
  induction hs with
  | nil => exact ht
  | cons hp _ ih => exact .cons hp (ih ht)

theorem Reaches.refl (s : S) : sys.Reaches s s := ⟨[], .nil s⟩

theorem Reaches.trans (hs : sys.Reaches s t) (ht : sys.Reaches t u) : sys.Reaches s u := by
  obtain ⟨ps, hps⟩ := hs
  obtain ⟨qs, hqs⟩ := ht
  exact ⟨ps++qs, hps.append hqs⟩

theorem Reaches.head (hs : sys.step false p s = some t) (ht : sys.Reaches t u) :
    sys.Reaches s u := by
  obtain ⟨ps, hps⟩ := ht
  exact ⟨p::ps, .cons hs hps⟩

theorem Reaches.single (hs : sys.step false p s = some t) : sys.Reaches s t :=
  .head hs (.refl t)

/-- An allowed step moves in front of the sure ones. -/
theorem Run.exchange (hrun : sys.Run false s ps t) (hstop : sys.Stopped t)
    (hq : sys.step true q s = some u) :
    ∃ rest, sys.Run false u rest t ∧ rest.length+1 = ps.length := by
  induction hrun generalizing u with
  | nil s =>
    have := hstop q
    simp_all
  | @cons p ps s s' t hp hrun ih =>
    by_cases hpq : p = q
    · subst hpq
      have hsame : s' = u := by simpa [sys.allowed hp] using hq
      subst hsame
      exact ⟨ps, hrun, rfl⟩
    · obtain ⟨v, hpv, hqv⟩ := sys.diamond hpq hp hq
      obtain ⟨rest, hrest, hlength⟩ := ih hstop hqv
      exact ⟨p::rest, .cons hpv hrest, by simp [hlength]⟩

theorem Run.complete (hrun : sys.Run false s ps t) (hstop : sys.Stopped t)
    (hany : sys.Run true s qs u) :
    ∃ rest, sys.Run false u rest t ∧ qs.length+rest.length = ps.length := by
  induction hany generalizing ps with
  | nil s => exact ⟨ps, hrun, by simp⟩
  | @cons q qs s s' u hq _ ih =>
    obtain ⟨rest, hrest, hlength⟩ := hrun.exchange hstop hq
    obtain ⟨rest', hrest', hlength'⟩ := ih hrest
    refine ⟨rest', hrest', ?_⟩
    simp only [List.length_cons]
    omega

structure Settles (sys : System P S) (s t : S) : Prop where
  bounded : ∃ bound, ∀ {qs u}, sys.Run true s qs u → qs.length ≤ bound
  goes_on : ∀ {qs u}, sys.Run true s qs u → u = t ∨ ∃ p, (sys.step false p u).isSome
  result : ∀ {qs u}, sys.Run true s qs u → sys.Stopped u → u = t

theorem Reaches.settles (hs : sys.Reaches s t) (hstop : sys.Stopped t) : sys.Settles s t := by
  obtain ⟨ps, hps⟩ := hs
  refine ⟨⟨ps.length, ?_⟩, ?_, ?_⟩
  · intro qs u hany
    obtain ⟨rest, -, hlength⟩ := hps.complete hstop hany
    omega
  · intro qs u hany
    obtain ⟨rest, hrest, -⟩ := hps.complete hstop hany
    cases hrest with
    | nil => exact Or.inl rfl
    | @cons p _ _ _ _ hp _ => exact Or.inr ⟨p, by simp [hp]⟩
  · intro qs u hany hend
    obtain ⟨rest, hrest, -⟩ := hps.complete hstop hany
    cases hrest with
    | nil => rfl
    | @cons p _ _ _ _ hp _ =>
      have := hend p
      rw [sys.allowed hp] at this
      cases this

end System

end AsynchronousRuns
