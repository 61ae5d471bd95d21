import Otpo.UpdateRequest

/-!
# How the scanners end

What an output file has to hold for its scanner to come to the word that it
looks for. The search for a line ends only with a line that begins as it
should; the words are taken from that line.
-/

set_option autoImplicit false

namespace Otpo.ScannerRuns
open Otpo.ParamList Otpo.BadRuns Otpo.ResultFile Otpo.ParseLine Otpo.InterruptFile
open Otpo.UpdateRequest

section Condition

inductive Seconds : Text → List Text → Prop
  | done {s : Text} (h : Tokenizer.next isSpaceOnly s = none) : Seconds s []
  | word {s w r : Text} {vs : List Text} (h : Tokenizer.next isSpaceOnly s = some (w, r))
      (hw : w ≠ "seconds".toList) (rest : Seconds r vs) : Seconds s vs
  | seconds {s w r c r' v r'' : Text} {vs : List Text}
      (h : Tokenizer.next isSpaceOnly s = some (w, r)) (hw : w = "seconds".toList)
      (hc : Tokenizer.next isNewline r = some (c, r'))
      (hv : Tokenizer.next isEqualSign c = some (v, r'')) (rest : Seconds r'' vs) :
      Seconds s (v::vs)

/-- What a file has to hold. NetPIPE: one line. SKaMPI: a last line of at most
seven with an integer and a number. NPB: each word `seconds` has a text behind
equal signs, and there is one. The others: a first line that begins as it
should, with the words that are looked for. -/
def Reportable (conv : Conversions) (test : Test) (lines : List Text) : Prop :=
  match test with
  | .netpipe => lines.length = 1
  | .skampi => ∃ l, (lines.take 7).getLast? = some l ∧ (scanInt l).1.isSome ∧
      (conv.scanDouble (scanInt l).2).isSome
  | .npb => ∃ vss, List.Forall₂ Seconds lines vss ∧ vss.flatten ≠ []
  | .latencyIo => ∃ l r, lines.find? (startsWith 'T') = some l ∧
      Tokenizer.Finds isBlank (· == "bandwidth".toList) l r ∧ (nthToken isBlank 0 r).isSome
  | .noncontig => ∃ l r, lines.find? (startsWith ' ') = some l ∧
      Tokenizer.Finds isBlank (startsWith ':') l r ∧ (nthToken isBlankOrSlash 1 r).isSome
  | .mpiTileIo => ∃ l, lines.find? (fun l => !startsWith '#' l) = some l ∧
      (nthToken isBlank 3 l).isSome

end Condition

section Parts

variable {conv : Conversions} {test : Test} {lines : List Text} {line l s r : Text}
variable {p : Text → Bool} {fuel : ℕ} {events : List Event}

theorem nth_token_part {d : Char → Bool} {n : ℕ} {t : Text}
    (h : nthToken d n s = some (t, r)) : t <:+: s := by
  induction n generalizing s with
  | zero => exact (Tokenizer.next_split h).1
  | succ n ih =>
    obtain ⟨⟨u, v⟩, hu, hv⟩ := Option.bind_eq_some_iff.mp h
    exact (ih hv).trans (Tokenizer.next_split hu).2.1.isInfix

theorem the_token_ok {d : Char → Bool} {n : ℕ} {t : Text} :
    theToken d n s = .ok t ↔ ∃ r, nthToken d n s = some (t, r) := by
  rw [theToken]
  split
  · next h =>
    rw [h]
    simp
  · next u v h =>
    rw [h]
    simp

theorem find_token_finds (h : findToken p fuel s = .ok r) : Tokenizer.Finds isBlank p s r := by
  induction fuel generalizing s with
  | zero => cases h
  | succ fuel ih =>
    rw [findToken] at h
    split at h
    · cases h
    · next t rest hnext =>
      split_ifs at h with hp
      · cases h
        exact .here hnext hp
      · exact .later hnext (Bool.eq_false_iff.mpr hp) (ih h)

theorem finds_find_token (h : Tokenizer.Finds isBlank p s r) (hfuel : s.length < fuel) :
    findToken p fuel s = .ok r := by
  induction h generalizing fuel with
  | here h hp =>
    obtain ⟨fuel, rfl⟩ : ∃ n, fuel = n+1 := ⟨fuel-1, by omega⟩
    rw [findToken, h]
    exact if_pos hp
  | @later s t rest r' h hp _ ih =>
    obtain ⟨fuel, rfl⟩ : ∃ n, fuel = n+1 := ⟨fuel-1, by omega⟩
    have hshort := (Tokenizer.next_split h).2.2.1
    rw [findToken, h]
    simp only [hp, Bool.false_eq_true, if_false]
    exact ih (by omega)

theorem find_token_ok : findToken p (s.length+1) s = .ok r ↔ Tokenizer.Finds isBlank p s r :=
  ⟨find_token_finds, fun h => finds_find_token h (Nat.lt_succ_self _)⟩

/-- Behind the end of the file the loop goes on with the last line forever. -/
theorem find_line_stuck (hp : p line = false) (l : Text) :
    (findLine p fuel (some line) []).outcome ≠ some (.ok l) := by
  induction fuel with
  | zero => exact fun h => by cases h
  | succ fuel ih =>
    simpa only [findLine, List.head?_nil, Option.none_or, hp, Bool.false_eq_true, if_false,
      Traced.emit_bind, List.tail_nil] using ih

theorem find_line_ok {before : Option Text} (hbefore : ∀ b ∈ before, p b = false)
    (h : (findLine p fuel before lines).outcome = some (.ok l)) : lines.find? p = some l := by
  induction fuel generalizing before lines with
  | zero => cases h
  | succ fuel ih =>
    cases lines with
    | nil =>
      cases before with
      | none => cases h
      | some b => exact absurd h (find_line_stuck (hbefore b rfl) l)
    | cons m lines =>
      simp only [findLine, List.head?_cons, Option.some_or, Traced.emit_bind,
        List.tail_cons] at h
      split_ifs at h with hp
      · cases h
        exact List.find?_cons_of_pos hp
      · rw [List.find?_cons_of_neg hp]
        refine ih (fun b hb => ?_) h
        cases hb
        exact Bool.eq_false_iff.mpr hp

theorem found_line {before : Option Text} (h : lines.find? p = some l)
    (hfuel : lines.length < fuel) : (findLine p fuel before lines).outcome = some (.ok l) := by
  induction fuel generalizing before lines with
  | zero => exact absurd hfuel (Nat.not_lt_zero _)
  | succ fuel ih =>
    cases lines with
    | nil => cases h
    | cons m lines =>
      simp only [findLine, List.head?_cons, Option.some_or, Traced.emit_bind, List.tail_cons]
      by_cases hp : p m = true
      · rw [List.find?_cons_of_pos hp] at h
        cases h
        rw [if_pos hp]
        rfl
      · rw [List.find?_cons_of_neg hp] at h
        rw [if_neg hp]
        exact ih h (by simp only [List.length_cons] at hfuel; omega)

/-- The search shows that the file is used, and nothing else. -/
theorem find_line_used {before : Option Text} :
    ∀ e ∈ (findLine p fuel before lines).events, e = used := by
  induction fuel generalizing before lines with
  | zero => exact List.forall_mem_nil _
  | succ fuel ih =>
    simp only [findLine, Traced.emit_bind, List.forall_mem_cons, true_and]
    split
    · exact List.forall_mem_nil _
    · split_ifs
      · exact List.forall_mem_nil _
      · exact ih

end Parts

section Npb

variable {conv : Conversions} {lines : List Text} {s : Text} {vs : List Text} {fuel : ℕ}
variable {exetime result : Option ℚ}

def lastNumber (conv : Conversions) (vs : List Text) (exetime : Option ℚ) : Option ℚ :=
  (vs.getLast?.map conv.strtod).or exetime

theorem last_number_append (vs ws : List Text) : lastNumber conv ws (lastNumber conv vs exetime) =
    lastNumber conv (vs ++ ws) exetime := by
  rw [lastNumber, lastNumber, lastNumber, List.getLast?_append]
  cases ws.getLast? <;> rfl

theorem seconds_infix (h : Seconds s vs) : ∀ v ∈ vs, v <:+: s := by
  induction h with
  | done => exact List.forall_mem_nil _
  | word h _ _ ih =>
    exact fun v hv => (ih v hv).trans (Tokenizer.next_split h).2.1.isInfix
  | seconds h _ hc hv _ ih =>
    have hrest := (Tokenizer.next_split h).2.1.isInfix
    have hline := (Tokenizer.next_split hc).1.trans hrest
    refine List.forall_mem_cons.mpr ⟨(Tokenizer.next_split hv).1.trans hline, fun v hvs => ?_⟩
    exact ((ih v hvs).trans (Tokenizer.next_split hv).2.1.isInfix).trans hline

theorem npb_line_seconds (h : npbLine conv fuel s exetime = .ok result) :
    ∃ vs, Seconds s vs ∧ result = lastNumber conv vs exetime := by
  induction fuel generalizing s exetime with
  | zero => cases h
  | succ fuel ih =>
    rw [npbLine] at h
    split at h
    · next hnext =>
      cases h
      exact ⟨[], .done hnext, rfl⟩
    · next w r hnext =>
      split_ifs at h with hw
      · split at h
        · cases h
        · next c r' hc =>
          split at h
          · cases h
          · next v r'' hv =>
            obtain ⟨vs, hvs, rfl⟩ := ih h
            exact ⟨v::vs, .seconds hnext hw hc hv hvs, last_number_append [v] vs⟩
      · obtain ⟨vs, hvs, hresult⟩ := ih h
        exact ⟨vs, .word hnext hw hvs, hresult⟩

theorem seconds_npb_line (h : Seconds s vs) (hfuel : s.length < fuel) :
    npbLine conv fuel s exetime = .ok (lastNumber conv vs exetime) := by
  induction h generalizing fuel exetime with
  | done h =>
    obtain ⟨fuel, rfl⟩ : ∃ n, fuel = n+1 := ⟨fuel-1, by omega⟩
    rw [npbLine, h]
    rfl
  | word h hw _ ih =>
    obtain ⟨fuel, rfl⟩ : ∃ n, fuel = n+1 := ⟨fuel-1, by omega⟩
    have hshort := (Tokenizer.next_split h).2.2.1
    rw [npbLine, h]
    simp only [if_neg hw]
    exact ih (by omega)
  | @seconds s w r c r' v r'' vs h hw hc hv _ ih =>
    obtain ⟨fuel, rfl⟩ : ∃ n, fuel = n+1 := ⟨fuel-1, by omega⟩
    have hshort := (Tokenizer.next_split h).2.2.1
    have hline := (Tokenizer.next_split hc).1.length_le
    have hvalue := (Tokenizer.next_split hv).2.2.1
    rw [npbLine, h]
    simp only [if_pos hw, hc, hv]
    rw [ih (by omega)]
    exact congrArg Except.ok (last_number_append [v] vs)

theorem npb_lines_ok : (npbLines conv lines exetime).outcome = some (.ok result) ↔
    ∃ vss, List.Forall₂ Seconds lines vss ∧ result = lastNumber conv vss.flatten exetime := by
  induction lines generalizing exetime with
  | nil =>
    constructor
    · intro h
      cases h
      exact ⟨[], .nil, rfl⟩
    · rintro ⟨vss, hvss, rfl⟩
      cases hvss
      rfl
  | cons l lines ih =>
    rw [npbLines, Traced.emit_bind]
    constructor
    · intro h
      obtain ⟨middle, hline, hrest⟩ := Traced.outcome_bind_ok.mp h
      obtain ⟨vs, hvs, rfl⟩ := npb_line_seconds (Option.some.inj hline)
      obtain ⟨vss, hvss, rfl⟩ := ih.mp hrest
      exact ⟨vs::vss, .cons hvs hvss, last_number_append vs vss.flatten⟩
    · rintro ⟨vss, hvss, rfl⟩
      cases hvss with
      | @cons _ vs _ vss hvs hvss =>
        have hline : npbLine conv (l.length+1) l exetime = .ok (lastNumber conv vs exetime) :=
          seconds_npb_line hvs (Nat.lt_succ_self _)
        refine Traced.outcome_bind_ok.mpr ⟨_, congrArg some hline, ih.mpr ⟨vss, hvss, ?_⟩⟩
        exact (last_number_append vs vss.flatten).symm

theorem npb_lines_used : ∀ e ∈ (npbLines conv lines exetime).events, e = used := by
  induction lines generalizing exetime with
  | nil => exact List.forall_mem_singleton.mpr rfl
  | cons l lines ih =>
    rw [npbLines, Traced.emit_bind]
    refine List.forall_mem_cons.mpr ⟨rfl, Traced.forall_events_bind.mpr ⟨fun e he => ?_, ?_⟩⟩
    · cases he
    · exact fun _ _ => ih

end Npb

end Otpo.ScannerRuns
