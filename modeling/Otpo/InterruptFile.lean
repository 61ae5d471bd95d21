import Otpo.NumberText
import Mathlib.Tactic.Ring

/-!
# The interrupt file

The results tested so far are written with six decimals each, behind their
number, and read back one by one.
-/

set_option autoImplicit false

namespace Otpo.InterruptFile
open Otpo.ParamList Otpo.NumberText

section Scanning

def sign : Text → Bool × Text
  | '-'::cs => (true, cs)
  | '+'::cs => (false, cs)
  | cs => (false, cs)

def scanInt (s : Text) : Option ℤ × Text :=
  let (negative, cs) := sign (s.dropWhile isSpace)
  let number := cs.takeWhile Char.isDigit
  if number = [] then (none, cs)
  else
    (some (if negative then -(digits number 0:ℤ) else digits number 0), cs.dropWhile Char.isDigit)

def scanFraction : Text → Text × Text
  | '.'::cs => (cs.takeWhile Char.isDigit, cs.dropWhile Char.isDigit)
  | cs => ([], cs)

def scanExponent : Text → Option ℤ × Text
  | [] => (some 0, [])
  | c::cs => if c = 'e' ∨ c = 'E' then scanInt cs else (some 0, c::cs)

def scale (x : ℚ) (exponent : ℤ) : ℚ :=
  if 0 ≤ exponent then x*10^exponent.toNat else x/10^exponent.natAbs

def scanDouble (s : Text) : Option ℚ × Text :=
  let (negative, cs) := sign (s.dropWhile isSpace)
  let whole := cs.takeWhile Char.isDigit
  let (fraction, rest) := scanFraction (cs.dropWhile Char.isDigit)
  if whole ++ fraction = [] then (none, rest)
  else
    let x : ℚ := digits (whole ++ fraction) 0/10^fraction.length
    let (exponent, rest) := scanExponent rest
    (exponent.map fun exponent => scale (if negative then -x else x) exponent, rest)

end Scanning

section File

structure Stream where
  rest : Text
  eof : Bool
  deriving DecidableEq, Repr

def fscanf {α : Type} (scan : Text → Option α × Text) (s : Stream) : Option α × Stream :=
  let (x, rest) := scan s.rest
  (x, ⟨rest, s.eof || rest.isEmpty⟩)

def readResults : ℕ → Stream → List (Option ℚ)
  | 0, _ => []
  | n+1, s =>
    if s.eof then List.replicate (n+1) none
    else
      let (x, s) := fscanf scanDouble s
      x::readResults n s

def readInterruptData (text : Text) (numTested : ℤ) : ℤ × List (Option ℚ) :=
  let (n, s) := fscanf scanInt ⟨text, false⟩
  let numTested := n.getD numTested
  (numTested, readResults numTested.toNat s)

def resultLines (results : List ℚ) : Text := results.flatMap fun x => printF x ++ ['\n']

def writeInterruptData (numTested : ℕ) (results : List ℚ) : Text :=
  printD numTested ++ '\n'::resultLines (results.take numTested)

def RoundTrips (results : List ℚ) : Prop :=
  let read := readInterruptData (writeInterruptData results.length results) 0
  read.1 = results.length ∧ read.2 = results.map some ∧
    ∀ (i j : ℕ) (x y : ℚ), results[i]? = some x → results[j]? = some y → x < y →
      ∃ a b : ℚ, read.2[i]? = some (some a) ∧ read.2[j]? = some (some b) ∧ a < b

end File

section RoundTrip

variable {rest : Text} {x : ℚ}

def padded (f : ℕ) : Text := List.replicate (6-(printD f).length) '0' ++ printD f

def rounded (x : ℚ) : ℚ :=
  let r := (roundEven (|x| * 1000000):ℚ)/1000000
  if x < 0 then -r else r

theorem digits_split {s : Text} {c : Char} (hs : ∀ d ∈ s, d.isDigit = true)
    (hc : c.isDigit = false) (rest : Text) : (s ++ c::rest).takeWhile Char.isDigit = s ∧
      (s ++ c::rest).dropWhile Char.isDigit = c::rest := by
  have hstop : ¬ c.isDigit = true := by rw [hc]; exact Bool.false_ne_true
  constructor
  · rw [List.takeWhile_append_of_pos hs, List.takeWhile_cons_of_neg hstop, List.append_nil]
  · rw [List.dropWhile_append_of_pos hs, List.dropWhile_cons_of_neg hstop]

theorem sign_digit {c : Char} (hc : c.isDigit = true) : sign (c::rest) = (false, c::rest) := by
  rw [sign]
  · rintro cs h
    cases h
    exact absurd hc (by decide)
  · rintro cs h
    cases h
    exact absurd hc (by decide)

theorem skip_digit {c : Char} (hc : c.isDigit = true) :
    (c::rest).dropWhile isSpace = c::rest := by
  refine List.dropWhile_cons_of_neg ?_
  rw [digit_not_space hc]
  exact Bool.false_ne_true

theorem scan_int_print (rest : Text) (n : ℕ) :
    scanInt (printD n ++ '\n'::rest) = (some (n:ℤ), '\n'::rest) := by
  obtain ⟨c, s, heq⟩ := List.exists_cons_of_ne_nil (print_ne_nil n)
  have hc : c.isDigit = true := print_digits (n := n) (by rw [heq]; exact List.mem_cons_self)
  obtain ⟨htake, hdrop⟩ := digits_split (fun d => print_digits (n := n))
    (show '\n'.isDigit = false by decide) rest
  have hvalue : digits (printD n) 0 = n := by
    have h := @digits_print [] (fun c hc => by cases hc) n
    rwa [List.append_nil] at h
  have hsign : sign ((printD n ++ '\n'::rest).dropWhile isSpace) =
      (false, printD n ++ '\n'::rest) := by
    rw [heq, List.cons_append, skip_digit hc, sign_digit hc]
  rw [scanInt, hsign]
  simp only [htake, hdrop, if_neg (print_ne_nil n), hvalue, Bool.false_eq_true, if_false]

theorem print_f_decimals (x : ℚ) : printF x =
    (if x < 0 then ['-'] else []) ++ (printD (roundEven (|x| * 1000000)/1000000) ++
      '.'::padded (roundEven (|x| * 1000000)%1000000)) := by
  rw [printF]
  split_ifs <;> rfl

theorem scan_decimal (negative : Prop) [Decidable negative] {whole fraction : Text}
    (hne : whole ≠ []) (hwhole : ∀ c ∈ whole, c.isDigit = true)
    (hfraction : ∀ c ∈ fraction, c.isDigit = true) (rest : Text) :
    scanDouble ((if negative then ['-'] else []) ++ (whole ++ '.'::(fraction ++ '\n'::rest))) =
      (some (if negative then -((digits (whole ++ fraction) 0:ℚ)/10^fraction.length)
        else (digits (whole ++ fraction) 0:ℚ)/10^fraction.length), '\n'::rest) := by
  obtain ⟨c, t, heq⟩ := List.exists_cons_of_ne_nil hne
  have hc : c.isDigit = true := hwhole c (by rw [heq]; exact List.mem_cons_self)
  obtain ⟨htake, hdrop⟩ := digits_split hwhole (show '.'.isDigit = false by decide)
    (fraction ++ '\n'::rest)
  obtain ⟨htake', hdrop'⟩ := digits_split hfraction (show '\n'.isDigit = false by decide) rest
  have hsign : sign (((if negative then ['-'] else []) ++
      (whole ++ '.'::(fraction ++ '\n'::rest))).dropWhile isSpace) =
      (decide negative, whole ++ '.'::(fraction ++ '\n'::rest)) := by
    split_ifs with h
    · rw [List.singleton_append, List.dropWhile_cons_of_neg (by decide), sign,
        decide_eq_true h]
    · rw [List.nil_append, heq, List.cons_append, skip_digit hc, sign_digit hc,
        decide_eq_false h]
  have hnonempty : whole ++ fraction ≠ [] := List.append_ne_nil_of_left_ne_nil hne _
  have hexponent : ¬ ('\n' = 'e' ∨ '\n' = 'E') := by decide
  rw [scanDouble, hsign]
  simp only [htake, hdrop, scanFraction, htake', hdrop', if_neg hnonempty, scanExponent,
    if_neg hexponent, Option.map_some, scale, le_refl, if_true, decide_eq_true_eq,
    Int.toNat_zero, pow_zero, mul_one]

theorem padded_digits {f : ℕ} {c : Char} (h : c ∈ padded f) : c.isDigit = true := by
  rcases List.mem_append.mp h with h | h
  · rw [List.eq_of_mem_replicate h]
    rfl
  · exact print_digits h

theorem padded_length {f : ℕ} (hf : f < 1000000) : (padded f).length = 6 := by
  have hlength : (printD f).length ≤ 6 := print_length_le (by decide) (by omega)
  rw [padded, List.length_append, List.length_replicate]
  omega

/-- The digits of a number with six decimals. -/
theorem digits_padded {q f : ℕ} (hf : f < 1000000) :
    digits (printD q ++ padded f) 0 = q*1000000+f := by
  have hall : ∀ c ∈ printD q ++ padded f, c.isDigit = true := by
    intro c hc
    rcases List.mem_append.mp hc with hc | hc
    · exact print_digits hc
    · exact padded_digits hc
  have hdigits := @digits_all _ [] hall (fun c hc => by cases hc) 0
  have hq : Nat.ofDigitChars 10 (printD q) 0 = q := Nat.ofDigitChars_ten_toDigits
  have hp : Nat.ofDigitChars 10 (padded f) 0 = f := by
    rw [padded, Nat.ofDigitChars_append, Nat.ofDigitChars_replicate_zero, Nat.mul_zero]
    exact Nat.ofDigitChars_ten_toDigits
  rw [List.append_nil] at hdigits
  rw [hdigits, Nat.ofDigitChars_append, Nat.ofDigitChars_eq_ofDigitChars_zero, padded_length hf,
    hq, hp]
  ring

theorem scan_double_print (x : ℚ) (rest : Text) :
    scanDouble (printF x ++ '\n'::rest) = (some (rounded x), '\n'::rest) := by
  obtain ⟨n, hn⟩ : ∃ n, roundEven (|x| * 1000000) = n := ⟨_, rfl⟩
  have hmod : n%1000000 < 1000000 := Nat.mod_lt _ (by decide)
  have hsplit : n/1000000*1000000+n%1000000 = n := Nat.div_add_mod' n 1000000
  have hscan := scan_decimal (x < 0) (print_ne_nil (n/1000000)) (fun c => print_digits)
    (fun c => padded_digits (f := n%1000000)) rest
  rw [digits_padded hmod, padded_length hmod, hsplit] at hscan
  rw [print_f_decimals, rounded, hn, List.append_assoc, List.append_assoc, List.cons_append,
    hscan]
  norm_num

theorem scan_line_end (s : Text) :
    scanDouble ('\n'::s) = scanDouble s := by
  rw [scanDouble, scanDouble, List.dropWhile_cons_of_pos (by decide)]

/-- All lines are read, with what their decimals keep. -/
theorem results_read (results : List ℚ) :
    readResults results.length ⟨'\n'::resultLines results, false⟩ =
      results.map fun x => some (rounded x) := by
  induction results with
  | nil => rfl
  | cons x results ih =>
    have hscan : scanDouble ('\n'::resultLines (x::results)) =
        (some (rounded x), '\n'::resultLines results) := by
      rw [scan_line_end, resultLines, List.flatMap_cons, List.append_assoc, List.singleton_append,
        scan_double_print]
      rfl
    simp only [List.length_cons, readResults, Bool.false_eq_true, if_false, fscanf, hscan,
      List.isEmpty_cons, Bool.or_self, ih, List.map_cons]

theorem data_read (results : List ℚ) (n : ℤ) :
    readInterruptData (writeInterruptData results.length results) n =
      ((results.length:ℤ), results.map fun x => some (rounded x)) := by
  have hscan := scan_int_print (resultLines results) results.length
  rw [writeInterruptData, List.take_length, readInterruptData]
  simp only [fscanf, hscan, List.isEmpty_cons, Bool.or_self, Option.getD_some, Int.toNat_natCast,
    results_read]

theorem round_even_nat (n : ℕ) : roundEven (n:ℚ) = n := by
  rw [roundEven, Rat.num_natCast, Rat.den_natCast, Int.natAbs_natCast, Nat.div_one, Nat.mod_one]
  rfl

/-- Six decimals keep a number exactly if it has no more. -/
theorem rounded_eq_iff : rounded x = x ↔ ∃ k : ℤ, x*1000000 = k := by
  rw [rounded]
  constructor
  · intro h
    generalize roundEven (|x| * 1000000) = r at h
    split_ifs at h
    · refine ⟨-(r:ℤ), ?_⟩
      rw [← h]
      push_cast
      ring
    · refine ⟨r, ?_⟩
      rw [← h]
      push_cast
      ring
  · rintro ⟨k, hk⟩
    have habs : |x| * 1000000 = (k.natAbs:ℚ) := by
      rw [Nat.cast_natAbs, Int.cast_abs, ← hk, abs_mul]
      norm_num
    rw [habs, round_even_nat, ← habs]
    split_ifs with hx
    · rw [abs_of_neg hx]
      ring
    · rw [abs_of_nonneg (not_lt.mp hx)]
      ring

end RoundTrip

/-- The file gives the results back exactly if none has more than six decimals. -/
theorem round_trips_iff (results : List ℚ) :
    RoundTrips results ↔ ∀ x ∈ results, ∃ k : ℤ, x*1000000 = k := by
  rw [RoundTrips, data_read]
  constructor
  · rintro ⟨-, hread, -⟩ x hx
    have heq := List.map_inj_left.mp hread x hx
    exact rounded_eq_iff.mp (Option.some.inj heq)
  · intro h
    have hread : (results.map fun x => some (rounded x)) = results.map some :=
      List.map_congr_left fun x hx => congrArg some (rounded_eq_iff.mpr (h x hx))
    refine ⟨rfl, hread, fun i j x y hx hy hlt => ⟨x, y, ?_, ?_, hlt⟩⟩
    · simp only [hread, List.getElem?_map, hx, Option.map_some]
    · simp only [hread, List.getElem?_map, hy, Option.map_some]

/-- Reciprocals of bandwidths of ten and of five million are both read as zero. -/
theorem bandwidths_lost :
    readInterruptData (writeInterruptData 2 [1/10000000, 1/5000000]) 0 =
        (2, [some 0, some 0]) ∧
      ¬ RoundTrips [1/10000000, 1/5000000] := by
  have hread : readInterruptData (writeInterruptData 2 [1/10000000, 1/5000000]) 0 =
      (2, [some 0, some 0]) := by decide +kernel
  refine ⟨hread, fun h => ?_⟩
  have hresults : [some (0:ℚ), some 0] = [some (1/10000000), some (1/5000000)] :=
    (congrArg Prod.snd hread).symm.trans h.2.1
  norm_num at hresults

end Otpo.InterruptFile
