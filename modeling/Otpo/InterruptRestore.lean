import Otpo.InterruptFile
import Otpo.Library.Traced

/-!
# Reading an interrupt file that may be damaged

The reader succeeds on every file that it can open. What the process that
resumes does with the values it was given is shown by the events.
-/

set_option autoImplicit false

namespace Otpo.InterruptRestore
open Otpo.ParamList Otpo.InterruptFile

section Reader

variable {A : Type}

inductive Event (A : Type)
  | use (value : Option A)
  | restore (position : ℤ)
  deriving DecidableEq, Repr

inductive Fault
  | cantRestoreData
  | mallocFailed
  | undefined
  deriving DecidableEq, Repr

def InInt (k : ℤ) : Prop := -2^31 ≤ k ∧ k < 2^31

instance (k : ℤ) : Decidable (InInt k) := inferInstanceAs (Decidable (_ ∧ _))

variable (scan : Text → Option A × Text) (debug : Bool)

def readWith : ℕ → Stream → List (Option A)
  | 0, _ => []
  | n+1, s =>
    if s.eof then List.replicate (n+1) none
    else
      let (x, s) := fscanf scan s
      x::readWith n s

def printed : ℕ → Stream → List (Option A)
  | 0, _ => []
  | n+1, s =>
    if s.eof then []
    else
      let (x, s) := fscanf scan s
      x::printed n s

def readInterruptData (file : Option Text) (numTested : ℤ) :
    Traced (Event A) Fault (Option (ℤ × List (Option A))) :=
  match file with
  | none => Traced.lift (.ok none)
  | some text => do
    let (n, s) := fscanf scanInt ⟨text, false⟩
    let numTested := n.getD numTested
    if ¬ InInt numTested then Traced.lift (.error .undefined)
    else
      if debug then Traced.emits ((printed scan numTested.toNat s).map .use)
      return some (numTested, readWith scan numTested.toNat s)

def requestRestoreStatus (testedNum : ℤ) (results : List (Option A)) :
    Traced (Event A) Fault Unit :=
  Traced.emits (.restore testedNum::results.map .use)

/-- The part of `main` for `-r`. An array with a negative number of elements
cannot be allocated. -/
def resume (file : Option Text) : Traced (Event A) Fault ℤ := do
  match ← readInterruptData scan debug file 0 with
  | none => Traced.lift (.error .cantRestoreData)
  | some (numTested, results) =>
    if numTested < 0 then Traced.lift (.error .mallocFailed)
    else
      Traced.emits (results.map .use)
      requestRestoreStatus numTested results
      return numTested

structure Guarded (n : ℕ) (file : Option Text) : Prop where
  read : ∀ numTested results,
    (readInterruptData scan debug file 0).outcome = some (.ok (some (numTested, results))) →
      0 ≤ numTested ∧ (results.length:ℤ) = numTested ∧ ∀ x ∈ results, x.isSome = true
  rejected : (∀ success,
    (readInterruptData scan debug file 0).outcome ≠ some (.ok (some success))) →
      (resume scan debug file).outcome = some (.error .cantRestoreData)
  used : ∀ x, Event.use x ∈ (resume scan debug file).events → x.isSome = true
  restored : ∀ k, Event.restore k ∈ (resume scan debug file).events → k ≤ n

inductive Follow : ℕ → Text → Prop
  | nil (s : Text) : Follow 0 s
  | cons {k : ℕ} {s rest : Text} {x : A} (ne : s ≠ []) (read : scan s = (some x, rest))
      (follow : Follow k rest) : Follow (k+1) s

def Undamaged (n : ℕ) (file : Option Text) : Prop :=
  ∀ text ∈ file, ∀ k rest, scanInt text = (some k, rest) →
    InInt k ∧ 0 ≤ k ∧ k ≤ n ∧ Follow scan k.toNat rest

end Reader

section Results

variable {A : Type} {scan : Text → Option A × Text} {debug : Bool} {n : ℕ} {s : Stream}

theorem read_length : (readWith scan n s).length = n := by
  induction n generalizing s with
  | zero => rfl
  | succ n ih =>
    rw [readWith]
    split_ifs
    · exact List.length_replicate
    · exact congrArg Nat.succ ih

theorem printed_read {x : Option A} (h : x ∈ printed scan n s) : x ∈ readWith scan n s := by
  induction n generalizing s with
  | zero => exact h
  | succ n ih =>
    rw [printed] at h
    rw [readWith]
    split_ifs at h ⊢
    · exact absurd h List.not_mem_nil
    · rcases List.mem_cons.mp h with h | h
      · exact List.mem_cons.mpr (Or.inl h)
      · exact List.mem_cons_of_mem _ (ih h)

/-- All results are read exactly if that many numbers follow. -/
theorem all_read_iff (scan : Text → Option A × Text) (n : ℕ) (hs : s.eof = s.rest.isEmpty) :
    (∀ x ∈ readWith scan n s, x.isSome = true) ↔ Follow scan n s.rest := by
  induction n generalizing s with
  | zero => exact ⟨fun _ => .nil _, fun _ => List.forall_mem_nil _⟩
  | succ n ih =>
    rw [readWith]
    by_cases he : s.rest = []
    · rw [hs, he]
      constructor
      · intro h
        exact absurd (h none (by simp)) Bool.false_ne_true
      · rintro (_ | ⟨ne, _, _⟩)
        exact absurd rfl ne
    · have heof : s.eof = false := by rw [hs, List.isEmpty_eq_false_iff]; exact he
      rw [heof, if_neg Bool.false_ne_true]
      simp only [fscanf, heof, Bool.false_or, List.forall_mem_cons]
      rw [ih rfl]
      constructor
      · rintro ⟨hx, hfollow⟩
        obtain ⟨x, hx⟩ := Option.isSome_iff_exists.mp hx
        exact .cons he (Prod.ext hx rfl) hfollow
      · rintro (_ | ⟨_, hread, hfollow⟩)
        rw [hread]
        exact ⟨rfl, hfollow⟩

end Results

section Restore

variable {A : Type} {scan : Text → Option A × Text} {debug : Bool} {n : ℕ} {text rest : Text}
variable {k : ℤ}

/-- The file does not begin with a number: nothing is restored. -/
theorem read_nothing (scan : Text → Option A × Text) (debug : Bool)
    (h : scanInt text = (none, rest)) :
    readInterruptData scan debug (some text) 0 = ⟨[], some (.ok (some (0, [])))⟩ := by
  have hint : InInt 0 := by decide
  simp only [readInterruptData, fscanf, h, Option.getD_none, hint, not_true_eq_false, if_false]
  cases debug <;> rfl

theorem read_announced (scan : Text → Option A × Text) (debug : Bool)
    (h : scanInt text = (some k, rest)) (hk : InInt k) :
    readInterruptData scan debug (some text) 0 =
      ⟨if debug then (printed scan k.toNat ⟨rest, rest.isEmpty⟩).map .use else [],
        some (.ok (some (k, readWith scan k.toNat ⟨rest, rest.isEmpty⟩)))⟩ := by
  simp only [readInterruptData, fscanf, h, Option.getD_some, hk, not_true_eq_false, if_false,
    Bool.false_or]
  cases debug
  · rfl
  · simp only [if_true, Traced.emits_bind]
    exact congrArg (Traced.mk · _) (List.append_nil _)

theorem read_outside (scan : Text → Option A × Text) (debug : Bool)
    (h : scanInt text = (some k, rest)) (hk : ¬ InInt k) :
    readInterruptData scan debug (some text) 0 = ⟨[], some (.error .undefined)⟩ := by
  simp only [readInterruptData, fscanf, h, Option.getD_some, hk, not_false_eq_true, if_true]
  rfl

/-- What is used of a number of results that can be allocated. -/
theorem resume_announced {file : Option Text} {events : List (Event A)} {results : List (Option A)}
    (h : readInterruptData scan debug file 0 = ⟨events, some (.ok (some (k, results)))⟩)
    (hk : 0 ≤ k) : resume scan debug file =
      ⟨events ++ (results.map .use ++ .restore k::results.map .use), some (.ok k)⟩ := by
  have hneg : ¬ k < 0 := not_lt.mpr hk
  rw [resume, Traced.bind_ok (a := some (k, results)) (by rw [h]), h]
  simp only [hneg, if_false, Traced.emits_bind, requestRestoreStatus]
  exact congrArg (fun tail => Traced.mk (events ++ (results.map .use ++ .restore k::tail)) _)
    (List.append_nil _)

theorem guarded_missing : Guarded scan debug n none := by
  constructor
  · rintro numTested results ⟨⟩
  · exact fun _ => rfl
  · exact fun x hx => absurd hx List.not_mem_nil
  · exact fun k hk => absurd hk List.not_mem_nil

theorem guarded_nothing (h : scanInt text = (none, rest)) :
    Guarded scan debug n (some text) := by
  have hread := read_nothing scan debug h
  have hresume := resume_announced hread (le_refl 0)
  constructor
  · rintro numTested results heq
    rw [hread] at heq
    cases heq
    exact ⟨le_refl 0, rfl, List.forall_mem_nil _⟩
  · intro hfail
    exact absurd (by rw [hread]) (hfail _)
  · intro x hx
    rw [hresume] at hx
    simp at hx
  · intro k hk
    rw [hresume] at hk
    have heq : k = 0 := by simpa using hk
    rw [heq]
    exact Int.natCast_nonneg n

theorem guarded_announced (h : scanInt text = (some k, rest)) :
    Guarded scan debug n (some text) ↔ InInt k ∧ 0 ≤ k ∧ k ≤ n ∧ Follow scan k.toNat rest := by
  by_cases hint : InInt k
  · have hread := read_announced scan debug h hint
    have hall := all_read_iff scan k.toNat (s := ⟨rest, rest.isEmpty⟩) rfl
    constructor
    · intro hg
      obtain ⟨hk, -, hresults⟩ := hg.read k _ (by rw [hread])
      refine ⟨hint, hk, hg.restored k ?_, hall.mp hresults⟩
      rw [resume_announced hread hk]
      simp
    · rintro ⟨-, hk, hle, hfollow⟩
      have hresults := hall.mpr hfollow
      have hresume := resume_announced hread hk
      constructor
      · rintro numTested results heq
        rw [hread] at heq
        cases heq
        exact ⟨hk, by rw [read_length, Int.toNat_of_nonneg hk], hresults⟩
      · intro hfail
        exact absurd (by rw [hread]) (hfail _)
      · intro x hx
        rw [hresume] at hx
        refine hresults x ?_
        cases debug
        · simpa using hx
        · have hprinted : x ∈ printed scan k.toNat ⟨rest, rest.isEmpty⟩ →
              x ∈ readWith scan k.toNat ⟨rest, rest.isEmpty⟩ := printed_read
          simp at hx
          tauto
      · intro j hj
        rw [hresume] at hj
        have heq : j = k := by cases debug <;> simpa using hj
        rw [heq]
        exact hle
  · have hread := read_outside scan debug h hint
    constructor
    · intro hg
      have hrejected := hg.rejected (fun success heq => by rw [hread] at heq; cases heq)
      have hresume : (resume scan debug (some text)).outcome = some (.error .undefined) := by
        rw [resume, hread]
        rfl
      rw [hresume] at hrejected
      cases hrejected
    · rintro ⟨hk, -⟩
      exact absurd hk hint

end Restore

section Written

theorem read_results_with (n : ℕ) (s : Stream) : readResults n s = readWith scanDouble n s := by
  induction n generalizing s with
  | zero => rfl
  | succ n ih => simp only [readResults, readWith, ih]

/-- With numbers as text, the reader is that of the interrupt file. -/
theorem reader_agrees {text : Text} (debug : Bool) (h : InInt ((scanInt text).1.getD 0)) :
    (readInterruptData scanDouble debug (some text) 0).outcome =
      some (.ok (some (InterruptFile.readInterruptData text 0))) := by
  obtain ⟨number, rest, hscan⟩ : ∃ number rest, scanInt text = (number, rest) := ⟨_, _, rfl⟩
  cases number with
  | none =>
    rw [read_nothing _ _ hscan, InterruptFile.readInterruptData]
    simp only [fscanf, hscan, Option.getD_none, Int.toNat_zero, readResults]
  | some k =>
    rw [hscan] at h
    rw [read_announced _ _ hscan h, InterruptFile.readInterruptData]
    simp only [fscanf, hscan, Option.getD_some, Bool.false_or, read_results_with]

/-- What an interrupted process leaves is not damaged. -/
theorem written_undamaged {results : List ℚ} {n : ℕ} (hle : results.length ≤ n)
    (hn : n < 2^31) :
    Undamaged scanDouble n (some (writeInterruptData results.length results)) := by
  have hscan : scanInt (writeInterruptData results.length results) =
      (some (results.length:ℤ), '\n'::resultLines results) := by
    rw [writeInterruptData, List.take_length]
    exact scan_int_print _ _
  have hread := results_read results
  rintro _ ⟨⟩ k rest hk
  rw [hscan] at hk
  cases hk
  refine ⟨⟨by omega, by omega⟩, Int.natCast_nonneg _, Int.ofNat_le.mpr hle, ?_⟩
  rw [Int.toNat_natCast]
  refine (all_read_iff scanDouble _ (s := ⟨'\n'::resultLines results, false⟩) rfl).mp ?_
  rw [← read_results_with, hread]
  simp

end Written

/-- A file is handled as it should be exactly if it is not damaged behind a
number of combinations it begins with. -/
theorem guarded_iff {A : Type} (scan : Text → Option A × Text) (debug : Bool) (n : ℕ)
    (file : Option Text) : Guarded scan debug n file ↔ Undamaged scan n file := by
  cases file with
  | none => exact iff_of_true guarded_missing (fun _ h => absurd h (Option.not_mem_none _))
  | some text =>
    obtain ⟨number, rest, h⟩ : ∃ number rest, scanInt text = (number, rest) := ⟨_, _, rfl⟩
    cases number with
    | none =>
      refine iff_of_true (guarded_nothing h) ?_
      rintro _ ⟨⟩ k rest' hk
      rw [h] at hk
      cases hk
    | some k =>
      rw [guarded_announced h]
      constructor
      · rintro hall _ ⟨⟩ k' rest' hk
        rw [h] at hk
        cases hk
        exact hall
      · exact fun hall => hall text rfl k rest h

/-- Two results are announced and one is there: what lies behind it is used. -/
theorem truncated_not_guarded :
    (readInterruptData scanDouble false (some "2\n1.0\n".toList) 0).outcome =
        some (.ok (some (2, [some 1, none]))) ∧
      Event.use none ∈ (resume scanDouble false (some "2\n1.0\n".toList)).events ∧
      ¬ Guarded scanDouble false 9 (some "2\n1.0\n".toList) := by
  have hread : (readInterruptData scanDouble false (some "2\n1.0\n".toList) 0).outcome =
      some (.ok (some (2, [some 1, none]))) := by decide +kernel
  have huse : Event.use none ∈ (resume scanDouble false (some "2\n1.0\n".toList)).events := by
    decide +kernel
  exact ⟨hread, huse, fun h => absurd (h.used none huse) Bool.false_ne_true⟩

end Otpo.InterruptRestore
