import Otpo.ParamList
import Otpo.Library.Traced
import Mathlib.Data.List.TakeWhile

/-!
# The list options of the command line

Two options take all the arguments behind them up to the next one with a dash.
They are collected before the other options are read: the arguments are counted
in a first pass and stored in a second one. The events are the positions of
`argv` that are read.
-/

set_option autoImplicit false

namespace Otpo.CommandLine
open Otpo.ParamList

section Passes

variable {S : Type}

def read (argv : List Text) (i : ℕ) : Traced ℕ Unit Text := do
  Traced.emit i
  match argv[i]? with
  | some a => return a
  | none => Traced.lift (.error ())

def isDash (a : Text) : Bool := a.head? == some '-'

variable (option : Text → Bool) (mark : S → S) (note : Text → S → S) (argv : List Text)

def arguments : ℕ → ℕ → S → Traced ℕ Unit (ℕ × S)
  | 0, _, _ => Traced.running
  | fuel+1, i, s => do
    let a ← read argv (i+1)
    if isDash a then return (i+1, s)
    else
      let s := note a s
      if argv.length = i+1+1 then return (i+1, s)
      else arguments fuel (i+1) s

def pass : ℕ → ℕ → S → Traced ℕ Unit S
  | 0, _, _ => Traced.running
  | fuel+1, i, s =>
    if i < argv.length then do
      let a ← read argv i
      if option a then
        let (i, s) ← arguments note argv fuel i (mark s)
        pass fuel (i-1+1) s
      else pass fuel (i+1) s
    else return s

end Passes

section Functions

def collectOption (option : Text → Bool) (label : List Text) (argv : List Text) (fuel : ℕ) :
    Traced ℕ Unit (ℕ × List Text) := do
  let len ← pass option (· + label.length) (fun _ len => len+1) argv fuel 0 0
  let list ← pass option (· ++ label) (fun a list => list ++ [a]) argv fuel 0 []
  return (len, list)

def isMca (a : Text) : Bool := a == "--mca".toList || a == "-m".toList

def isGenerateInputFile (a : Text) : Bool :=
  a == "--generate_input_file".toList || a == "-x".toList

def setMcaOptions (argv : List Text) (fuel : ℕ) : Traced ℕ Unit (ℕ × List Text) :=
  collectOption isMca ["--mca".toList] argv fuel

def getResultFiles (argv : List Text) (fuel : ℕ) : Traced ℕ Unit (ℕ × List Text) :=
  collectOption isGenerateInputFile [] argv fuel

end Functions

section Purpose

def occurrences (option : Text → Bool) : List Text → List (List Text)
  | [] => []
  | a::rest =>
    if option a then rest.takeWhile (fun b => !isDash b)::occurrences option rest
    else occurrences option rest

structure Extracts (x : Traced ℕ Unit (ℕ × List Text)) (argv list : List Text) : Prop where
  returns : x.outcome = some (.ok (list.length, list))
  inside : ∀ i ∈ x.events, i < argv.length

def ListsOptions (argv : List Text) (fuel : ℕ) : Prop :=
  Extracts (setMcaOptions argv fuel) argv
      ((occurrences isMca argv).flatMap ("--mca".toList::·)) ∧
    Extracts (getResultFiles argv fuel) argv (occurrences isGenerateInputFile argv).flatten

end Purpose

section Reads

variable {A B : Type} {argv : List Text} {i : ℕ} {a : Text} {rest : List Text}

def Returns (argv : List Text) (x : Traced ℕ Unit A) (a : A) : Prop :=
  x.outcome = some (.ok a) ∧ ∀ i ∈ x.events, i < argv.length

def Fails (x : Traced ℕ Unit A) : Prop := x.outcome = some (.error ())

theorem returns_pure (a : A) : Returns argv (pure a) a := ⟨rfl, List.forall_mem_nil _⟩

theorem returns_bind {x : Traced ℕ Unit A} {f : A → Traced ℕ Unit B} {a : A} {b : B}
    (hx : Returns argv x a) (hf : Returns argv (f a) b) : Returns argv (x >>= f) b := by
  constructor
  · exact Traced.outcome_bind_ok.mpr ⟨a, hx.1, hf.1⟩
  · refine Traced.forall_events_bind.mpr ⟨hx.2, fun a' ha' => ?_⟩
    rw [hx.1] at ha'
    cases ha'
    exact hf.2

theorem fails_bind {x : Traced ℕ Unit A} {f : A → Traced ℕ Unit B} {a : A}
    (hx : Returns argv x a) (hf : Fails (f a)) : Fails (x >>= f) := by
  rw [Fails, Traced.bind_ok hx.1]
  exact hf

theorem fails_first {x : Traced ℕ Unit A} {f : A → Traced ℕ Unit B} (hx : Fails x) :
    Fails (x >>= f) := by
  change (Traced.bind x f).outcome = _
  rw [Traced.bind, hx]

theorem drop_cons (h : argv.drop i = a::rest) :
    argv[i]? = some a ∧ argv.drop (i+1) = rest ∧ argv.length = i+1+rest.length := by
  have hlength := congrArg List.length h
  rw [List.length_drop, List.length_cons] at hlength
  have hget : (argv.drop i)[0]? = some a := by rw [h]; rfl
  rw [List.getElem?_drop] at hget
  refine ⟨hget, ?_, by omega⟩
  rw [← List.tail_drop, h, List.tail_cons]

theorem read_returns (h : argv.drop i = a::rest) : Returns argv (read argv i) a := by
  obtain ⟨hget, -, hlength⟩ := drop_cons h
  simp only [read, hget, Traced.emit_bind]
  refine ⟨rfl, fun j hj => ?_⟩
  rcases List.mem_cons.mp hj with rfl | hj
  · omega
  · exact absurd hj List.not_mem_nil

theorem read_fails (h : argv.drop i = []) : Fails (read argv i) := by
  have hget : argv[i]? = none := List.getElem?_eq_none (List.drop_eq_nil_iff.mp h)
  simp only [read, hget, Traced.emit_bind]
  rfl

end Reads

section Loops

variable {S : Type} {option : Text → Bool} {mark : S → S} {note : Text → S → S}
variable {argv : List Text} {i fuel : ℕ} {s : S} {a b : Text} {rest after : List Text}

def EndsIn (option : Text → Bool) (args : List Text) : Prop :=
  ∃ a ∈ args.getLast?, option a = true

def LeftOf (rest after : List Text) : Prop :=
  after ≠ [] ∧ rest.dropWhile (fun b => !isDash b) = after ∨
    rest.dropWhile (fun b => !isDash b) = [] ∧ ∃ c, after = [c] ∧ isDash c = false

def noteAll (note : Text → S → S) (run : List Text) (s : S) : S :=
  run.foldl (fun s a => note a s) s

def collect (mark : S → S) (note : Text → S → S) (runs : List (List Text)) (s : S) : S :=
  runs.foldl (fun s run => noteAll note run (mark s)) s

theorem arguments_returns (note : Text → S → S) (s : S) (h : argv.drop (i+1) = b::rest)
    (hfuel : rest.length < fuel) :
    ∃ j after, Returns argv (arguments note argv fuel i s)
        (j+1, noteAll note ((b::rest).takeWhile fun b => !isDash b) s) ∧
      argv.drop (j+1) = after ∧ LeftOf (b::rest) after := by
  induction rest generalizing i s b fuel with
  | nil =>
    obtain ⟨fuel, rfl⟩ := Nat.exists_eq_add_of_lt hfuel
    obtain ⟨-, -, hlength⟩ := drop_cons h
    refine ⟨i, [b], returns_bind (read_returns h) ?_, h, ?_⟩
    · cases hb : isDash b <;>
        simp only [List.takeWhile, hb, Bool.false_eq_true, if_false, if_true, hlength,
          List.length_nil, Nat.add_zero, Bool.not_true, Bool.not_false] <;>
        exact returns_pure _
    · cases hb : isDash b
      · exact Or.inr ⟨by simp [hb], b, rfl, hb⟩
      · exact Or.inl ⟨List.cons_ne_nil _ _, by simp [hb]⟩
  | cons c rest ih =>
    obtain ⟨fuel, rfl⟩ : ∃ k, fuel = k+1 := ⟨fuel-1, by omega⟩
    obtain ⟨-, hnext, hlength⟩ := drop_cons h
    rw [List.length_cons] at hlength hfuel
    cases hb : isDash b
    · obtain ⟨j, after, hreturns, hdrop, hleft⟩ :=
        ih (note b s) hnext (by omega : rest.length < fuel)
      refine ⟨j, after, returns_bind (read_returns h) ?_, hdrop, ?_⟩
      · rw [List.takeWhile_cons_of_pos (by rw [hb]; rfl)]
        simp only [hb, Bool.false_eq_true, if_false]
        rw [if_neg (by omega)]
        exact hreturns
      · rw [LeftOf, List.dropWhile_cons_of_pos (by rw [hb]; rfl)]
        exact hleft
    · refine ⟨i, b::c::rest, returns_bind (read_returns h) ?_, h, ?_⟩
      · rw [List.takeWhile_cons_of_neg (by rw [hb]; decide)]
        simp only [hb, if_true]
        exact returns_pure _
      · exact Or.inl ⟨List.cons_ne_nil _ _, List.dropWhile_cons_of_neg (by rw [hb]; decide)⟩

/-- Nothing without a dash is an option. -/
theorem occurrences_dropWhile (hdash : ∀ a, option a = true → isDash a = true)
    (rest : List Text) :
    occurrences option (rest.dropWhile fun b => !isDash b) = occurrences option rest := by
  induction rest with
  | nil => rfl
  | cons b rest ih =>
    cases hb : isDash b
    · have hoption : ¬ option b = true := fun h => by rw [hdash b h] at hb; cases hb
      rw [List.dropWhile_cons_of_pos (by rw [hb]; rfl), ih, occurrences, if_neg hoption]
    · rw [List.dropWhile_cons_of_neg (by rw [hb]; decide)]

theorem left_occurrences (hdash : ∀ a, option a = true → isDash a = true)
    (h : LeftOf rest after) : occurrences option after = occurrences option rest := by
  rw [← occurrences_dropWhile hdash rest]
  rcases h with ⟨-, heq⟩ | ⟨heq, c, rfl, hc⟩
  · rw [heq]
  · have hoption : ¬ option c = true := fun h => by rw [hdash c h] at hc; cases hc
    simp [heq, occurrences, hoption]

theorem left_length (h : LeftOf rest after) (hne : rest ≠ []) : after.length ≤ rest.length := by
  rcases h with ⟨-, heq⟩ | ⟨-, c, rfl, -⟩
  · rw [← heq]
    exact (List.dropWhile_sublist _).length_le
  · exact List.length_pos_iff.mpr hne

theorem left_ends (hdash : ∀ a, option a = true → isDash a = true) (h : LeftOf rest after) :
    EndsIn option after ↔ EndsIn option rest := by
  rcases h with ⟨hne, heq⟩ | ⟨heq, c, rfl, hc⟩
  · have hsplit := List.takeWhile_append_dropWhile (p := fun b => !isDash b) (l := rest)
    rw [heq] at hsplit
    rw [EndsIn, EndsIn, ← hsplit, List.getLast?_append_of_ne_nil _ hne]
  · have hall := List.dropWhile_eq_nil_iff.mp heq
    constructor
    · rintro ⟨a, ha, hoption⟩
      cases ha
      rw [hdash c hoption] at hc
      cases hc
    · rintro ⟨a, ha, hoption⟩
      have hdashed := hall a (List.mem_of_getLast? ha)
      rw [hdash a hoption] at hdashed
      cases hdashed

theorem ends_cons (hne : rest ≠ []) : EndsIn option (a::rest) ↔ EndsIn option rest := by
  rw [EndsIn, EndsIn, ← List.singleton_append, List.getLast?_append_of_ne_nil _ hne]

theorem pass_returns (hdash : ∀ a, option a = true → isDash a = true)
    (h : argv.drop i = rest) (hfuel : rest.length < fuel) (hends : ¬ EndsIn option rest) :
    Returns argv (pass option mark note argv fuel i s)
      (collect mark note (occurrences option rest) s) := by
  induction fuel generalizing i s rest with
  | zero => exact absurd hfuel (Nat.not_lt_zero _)
  | succ fuel ih =>
    cases rest with
    | nil =>
      rw [pass, if_neg (Nat.not_lt.mpr (List.drop_eq_nil_iff.mp h))]
      exact returns_pure _
    | cons a rest =>
      obtain ⟨-, hnext, hlength⟩ := drop_cons h
      rw [List.length_cons] at hfuel
      rw [pass, if_pos (by omega)]
      apply returns_bind (read_returns h)
      rw [occurrences]
      by_cases ha : option a = true
      · rw [if_pos ha, if_pos ha]
        cases rest with
        | nil => exact absurd ⟨a, rfl, ha⟩ hends
        | cons b rest =>
          rw [List.length_cons] at hfuel
          obtain ⟨j, after, hreturns, hdrop, hleft⟩ :=
            arguments_returns note (mark s) hnext (by omega : rest.length < fuel)
          have hlen := left_length hleft (List.cons_ne_nil _ _)
          rw [List.length_cons] at hlen
          apply returns_bind hreturns
          rw [← left_occurrences hdash hleft]
          apply ih hdrop (by omega)
          rwa [left_ends hdash hleft, ← ends_cons (List.cons_ne_nil _ _)]
      · rw [if_neg ha, if_neg ha]
        apply ih hnext (by omega)
        by_cases hne : rest = []
        · rw [hne]
          rintro ⟨b, hb, -⟩
          cases hb
        · rwa [← ends_cons hne]

/-- With the option as the last argument, what is behind is read. -/
theorem pass_fails (hdash : ∀ a, option a = true → isDash a = true)
    (h : argv.drop i = rest) (hfuel : rest.length < fuel) (hends : EndsIn option rest) :
    Fails (pass option mark note argv fuel i s) := by
  induction fuel generalizing i s rest with
  | zero => exact absurd hfuel (Nat.not_lt_zero _)
  | succ fuel ih =>
    cases rest with
    | nil =>
      obtain ⟨a, ha, -⟩ := hends
      cases ha
    | cons a rest =>
      obtain ⟨-, hnext, hlength⟩ := drop_cons h
      rw [List.length_cons] at hfuel
      rw [pass, if_pos (by omega)]
      apply fails_bind (read_returns h)
      cases rest with
      | nil =>
        obtain ⟨_, heq, ha⟩ := hends
        cases heq
        obtain ⟨fuel, rfl⟩ : ∃ k, fuel = k+1 := ⟨fuel-1, by simp at hfuel; omega⟩
        rw [List.getLast_singleton] at ha
        rw [if_pos ha]
        apply fails_first
        exact fails_first (read_fails hnext)
      | cons b rest =>
        rw [List.length_cons] at hfuel
        rw [ends_cons (List.cons_ne_nil _ _)] at hends
        by_cases ha : option a = true
        · obtain ⟨j, after, hreturns, hdrop, hleft⟩ :=
            arguments_returns note (mark s) hnext (by omega : rest.length < fuel)
          have hlen := left_length hleft (List.cons_ne_nil _ _)
          rw [List.length_cons] at hlen
          rw [if_pos ha]
          apply fails_bind hreturns
          exact ih hdrop (by omega) ((left_ends hdash hleft).mpr hends)
        · rw [if_neg ha]
          exact ih hnext (by simpa using hfuel) hends

end Loops

section Collected

variable {option : Text → Bool} {label argv : List Text} {fuel : ℕ}

theorem note_stored (run list : List Text) :
    noteAll (fun a list => list ++ [a]) run list = list ++ run := by
  induction run generalizing list with
  | nil => exact (List.append_nil list).symm
  | cons a run ih =>
    rw [noteAll, List.foldl_cons, ← noteAll, ih, List.append_assoc, List.singleton_append]

theorem note_counted (run : List Text) (len : ℕ) :
    noteAll (fun _ len => len+1) run len = len+run.length := by
  induction run generalizing len with
  | nil => rfl
  | cons a run ih => rw [noteAll, List.foldl_cons, ← noteAll, ih, List.length_cons]; omega

theorem collect_stored (runs : List (List Text)) (list : List Text) :
    collect (· ++ label) (fun a list => list ++ [a]) runs list =
      list ++ runs.flatMap (label ++ ·) := by
  induction runs generalizing list with
  | nil => exact (List.append_nil list).symm
  | cons run runs ih =>
    rw [collect, List.foldl_cons, ← collect, ih, note_stored, List.flatMap_cons,
      List.append_assoc, List.append_assoc, List.append_assoc]

theorem collect_counted (runs : List (List Text)) (len : ℕ) :
    collect (· + label.length) (fun _ len => len+1) runs len =
      len+(runs.flatMap (label ++ ·)).length := by
  induction runs generalizing len with
  | nil => rfl
  | cons run runs ih =>
    rw [collect, List.foldl_cons, ← collect, ih, note_counted, List.flatMap_cons,
      List.length_append, List.length_append]
    omega

/-- An option is collected exactly if it is not the last argument. -/
theorem collect_extracts_iff (label : List Text)
    (hdash : ∀ a, option a = true → isDash a = true)
    (hfuel : argv.length < fuel) :
    Extracts (collectOption option label argv fuel) argv
      ((occurrences option argv).flatMap (label ++ ·)) ↔ ¬ EndsIn option argv := by
  constructor
  · rintro ⟨hreturns, -⟩ hends
    have hfails : Fails (collectOption option label argv fuel) :=
      fails_first (pass_fails hdash List.drop_zero hfuel hends)
    rw [hfails] at hreturns
    cases hreturns
  · intro hends
    have hreturns : Returns argv (collectOption option label argv fuel)
        (((occurrences option argv).flatMap (label ++ ·)).length,
          (occurrences option argv).flatMap (label ++ ·)) := by
      apply returns_bind (pass_returns hdash List.drop_zero hfuel hends)
      apply returns_bind (pass_returns hdash List.drop_zero hfuel hends)
      rw [collect_counted, collect_stored, Nat.zero_add, List.nil_append]
      exact returns_pure _
    exact ⟨hreturns.1, hreturns.2⟩

end Collected

/-- Both lists are collected exactly if the last argument is none of the options. -/
theorem lists_options_iff (argv : List Text) (fuel : ℕ) (hfuel : argv.length < fuel) :
    ListsOptions argv fuel ↔ ∀ a ∈ argv.getLast?,
      a ∉ ["--mca".toList, "-m".toList, "--generate_input_file".toList, "-x".toList] := by
  have hmca : ∀ a, isMca a = true → isDash a = true := by
    intro a ha
    rcases Bool.or_eq_true_iff.mp ha with h | h <;> rw [eq_of_beq h] <;> decide
  have hgenerate : ∀ a, isGenerateInputFile a = true → isDash a = true := by
    intro a ha
    rcases Bool.or_eq_true_iff.mp ha with h | h <;> rw [eq_of_beq h] <;> decide
  have hfirst := collect_extracts_iff ["--mca".toList] hmca hfuel
  have hsecond := collect_extracts_iff [] hgenerate hfuel
  have hflatten : (occurrences isGenerateInputFile argv).flatten =
      (occurrences isGenerateInputFile argv).flatMap ([] ++ ·) := List.flatMap_id.symm
  rw [ListsOptions, hflatten, setMcaOptions, getResultFiles]
  refine (and_congr hfirst hsecond).trans ?_
  constructor
  · rintro ⟨hm, hx⟩ a ha hmem
    simp only [List.mem_cons, List.not_mem_nil, or_false] at hmem
    rcases hmem with rfl | rfl | rfl | rfl
    · exact hm ⟨_, ha, by decide⟩
    · exact hm ⟨_, ha, by decide⟩
    · exact hx ⟨_, ha, by decide⟩
    · exact hx ⟨_, ha, by decide⟩
  · intro h
    constructor
    · rintro ⟨a, ha, hoption⟩
      apply h a ha
      rcases Bool.or_eq_true_iff.mp hoption with h | h <;> rw [eq_of_beq h] <;> decide
    · rintro ⟨a, ha, hoption⟩
      apply h a ha
      rcases Bool.or_eq_true_iff.mp hoption with h | h <;> rw [eq_of_beq h] <;> decide

theorem lists_options_repeated :
    ListsOptions ["otpo".toList, "-m".toList, "btl".toList, "tcp".toList, "-x".toList,
        "--mca".toList, "-p".toList, "file".toList] 9 ∧
      (occurrences isMca ["otpo".toList, "-m".toList, "btl".toList, "tcp".toList, "-x".toList,
        "--mca".toList, "-p".toList, "file".toList]) = [["btl".toList, "tcp".toList], []] :=
  ⟨(lists_options_iff _ 9 (by decide)).mpr (by decide), by decide⟩

/-- The position behind the last argument is read. -/
theorem last_option_fails :
    setMcaOptions ["otpo".toList, "-m".toList] 3 = ⟨[0, 1, 2], some (.error ())⟩ ∧
      ¬ ListsOptions ["otpo".toList, "-m".toList] 3 := by
  have hrun : setMcaOptions ["otpo".toList, "-m".toList] 3 = ⟨[0, 1, 2], some (.error ())⟩ := by
    decide
  refine ⟨hrun, fun h => ?_⟩
  have hreturns := h.1.returns
  rw [hrun] at hreturns
  cases hreturns

end Otpo.CommandLine
