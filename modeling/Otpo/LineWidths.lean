import Otpo.LineReading
import Otpo.ValueNames
import Otpo.Library.RelatedLists

/-!
# The width of names and values

A parameter has its name and its values from one line of the parameter file.
What stands on the line beside them leaves room for a line of a result file
with the name and any one of the values.
-/

set_option autoImplicit false

namespace Otpo.LineWidths
open Otpo.ParamList Otpo.NumberText Otpo.ResultFile Otpo.ParseLine Otpo.FormatLine
open Otpo.ParseFormat Otpo.LineReading Otpo.InitializeList Otpo.RangeTraversal

section Options

variable {s r r' t name rest : Text} {o : Option LineOption} {os : List LineOption}
variable {q q' : LineOption} {l : Line} {m : ℕ}

def Within (m : ℕ) : LineOption → Prop
  | .list values => ∀ v ∈ values, v.length+2 ≤ m
  | .aggregate format => format.length+2 ≤ m
  | .range startValue _ => ∃ t, t ≠ [] ∧ startValue = atoi t ∧ t.length+3 ≤ m
  | .traversal _ _ => 13 ≤ m
  | _ => True

theorem read_within (h : ReadOption t r o r') (hm : t.length+r.length ≤ m) :
    ∀ q ∈ o, Within m q := by
  intro q hq
  have hflag : "-p".toList.length = 2 := rfl
  cases h with
  | isVirtual | default | word | quoted =>
    cases hq
    trivial
  | long => cases hq
  | list token =>
    cases hq
    intro v hv
    have hlength := Tokenizer.next_length token
    have hpiece := Tokenizer.piece_length (List.mem_of_mem_filter hv)
    omega
  | aggregate token =>
    cases hq
    have hlength := Tokenizer.next_length token
    change _+2 ≤ m
    change 2+_ ≤ m at hm
    omega
  | range start ht stop hu =>
    cases hq
    have hstart := Tokenizer.next_length start
    have hstop := Tokenizer.next_length stop
    have hpos := List.length_pos_iff.mpr (Tokenizer.next_split stop).2.2.2
    refine ⟨_, (Tokenizer.next_split start).2.2.2, rfl, ?_⟩
    change 2+_ ≤ m at hm
    omega
  | traversal method sign ho operand hu =>
    cases hq
    have hmethod := Tokenizer.next_length method
    have hsign := Tokenizer.next_length sign
    have hoperand := Tokenizer.next_length operand
    have hop := List.length_pos_iff.mpr (Tokenizer.next_split sign).2.2.2
    have hnumber := List.length_pos_iff.mpr (Tokenizer.next_split operand).2.2.2
    change 9+_ ≤ _ at hmethod
    change 2+_ ≤ m at hm
    change 13 ≤ m
    omega

theorem options_within (h : ReadUpTo s os r) (hm : s.length ≤ m) : ∀ q ∈ os, Within m q := by
  induction h with
  | here => exact List.forall_mem_nil _
  | option token hoption _ ih =>
    have hlength := Tokenizer.next_length token
    have hle := read_shortens hoption
    rw [List.forall_mem_append]
    refine ⟨fun q hq => read_within hoption (by omega) q (Option.mem_toList.mp hq), ih (by omega)⟩

theorem has_add (h : (l.add q').Has q) : q = q' ∨ l.Has q := by
  cases q <;> cases q' <;> first | exact Or.inr h | skip
  case isVirtual.isVirtual => exact Or.inl rfl
  all_goals exact Or.inl (by simpa [Line.add, Line.Has] using Eq.symm h)

theorem has_foldl (h : (os.foldl Line.add l).Has q) : q ∈ os ∨ l.Has q := by
  induction os generalizing l with
  | nil => exact Or.inr h
  | cons q' os ih =>
    rcases ih h with hmem | hhas
    · exact Or.inl (List.mem_cons_of_mem q' hmem)
    · rcases has_add hhas with rfl | hl
      · exact Or.inl List.mem_cons_self
      · exact Or.inr hl

theorem bare_has (h : (Line.bare name).Has q) : False := by cases q <;> cases h

theorem foldl_name : (os.foldl Line.add l).name = l.name := by
  induction os generalizing l with
  | nil => rfl
  | cons q os ih =>
    rw [List.foldl_cons, ih]
    cases q <;> rfl

/-- A line has its options beside its name. -/
theorem line_within {text : Text} (h : ReadLine text l) :
    ∃ m, l.name.length+m ≤ text.length ∧ ∀ q, l.Has q → Within m q := by
  obtain ⟨name, rest, os, ⟨-, hname, -⟩, ⟨r, hread, -⟩, rfl⟩ := h
  refine ⟨rest.length, ?_, fun q hq => ?_⟩
  · rw [foldl_name]
    exact Tokenizer.next_length hname
  · rcases has_foldl hq with hmem | hbare
    · exact options_within hread (le_refl _) q hmem
    · exact (bare_has hbare).elim

end Options

section Numbers

variable {s t : Text} {z : ℤ} {k n : ℕ}

theorem digits_lt (s : Text) (n : ℕ) : ParamList.digits s n < (n+1)*10^s.length := by
  induction s generalizing n with
  | nil => simp [ParamList.digits]
  | cons c s ih =>
    rw [ParamList.digits, List.length_cons]
    split_ifs with hc
    · have hdigit : c.toNat - '0'.toNat ≤ 9 := by
        simp only [Char.isDigit, Bool.and_eq_true, decide_eq_true_eq, UInt32.le_iff_toNat_le] at hc
        have hhigh : c.toNat ≤ 57 := hc.2
        have hzero : '0'.toNat = 48 := rfl
        omega
      calc _ < (10*n+(c.toNat - '0'.toNat)+1)*10^s.length := ih _
        _ ≤ (10*(n+1))*10^s.length := Nat.mul_le_mul_right _ (by omega)
        _ = (n+1)*10^(s.length+1) := by ring
    · have hpos : 0 < 10^(s.length+1) := Nat.pos_of_ne_zero (by positivity)
      nlinarith

theorem decimal_lt (s : Text) : (decimal s).natAbs < 10^s.length := by
  have hdrop : (s.dropWhile isSpace).length ≤ s.length :=
    (List.dropWhile_suffix isSpace).length_le
  have hbound (u : Text) (hu : u.length ≤ s.length) : ParamList.digits u 0 < 10^s.length := by
    have hlt := digits_lt u 0
    have hpow : 10^u.length ≤ 10^s.length := Nat.pow_le_pow_right (by decide) hu
    omega
  rw [decimal]
  split
  · next u heq =>
    rw [heq, List.length_cons] at hdrop
    rw [Int.natAbs_neg, Int.natAbs_natCast]
    exact hbound u (by omega)
  · next u heq =>
    rw [heq, List.length_cons] at hdrop
    exact hbound u (by omega)
  · exact hbound _ hdrop

theorem print_length_lt (hk : 0 < k) (h : z.natAbs < 10^k) : (printInt z).length ≤ k+1 := by
  have hdigits := print_length_le hk h
  rw [printInt]
  split_ifs
  · rw [List.length_cons]
    omega
  · omega

theorem print_int_length (h : Int32 z) : (printInt z).length ≤ 11 :=
  print_length_lt (k := 10) (by decide) (by obtain ⟨hlow, hhigh⟩ := h; omega)

theorem atoi_int (s : Text) : Int32 (atoi s) := by
  rw [atoi, RangeTraversal.Int32]
  have hlow := Int.le_bmod (x := max (-2^63) (min (decimal s) (2^63-1))) (m := 2^32) (by decide)
  have hhigh := Int.bmod_lt (x := max (-2^63) (min (decimal s) (2^63-1))) (m := 2^32) (by decide)
  omega

/-- A number is printed with one character more than it was read from. -/
theorem print_atoi_length (ht : t ≠ []) : (printInt (atoi t)).length ≤ t.length+1 := by
  have hpos := List.length_pos_iff.mpr ht
  rcases Nat.lt_or_ge t.length 10 with hshort | hlong
  · have hlt := decimal_lt t
    have hbound : 10^t.length ≤ 10^9 := Nat.pow_le_pow_right (by decide) (by omega)
    rw [atoi_of_int (by omega)]
    exact print_length_lt hpos hlt
  · exact (print_int_length (atoi_int t)).trans (by omega)

end Numbers

section Values

variable {operation : Option Operator} {increment : Option ℤ} {endValue tmp tmp' : ℤ}
variable {values values' : List ℤ} {num num' fuel n : ℕ} {skip : Bool}
variable {p p' : ListParam} {ps ps' : List ListParam} {l : Line} {m : ℕ}

theorem int32_int {x y : ℤ} (h : int32 x = .ok y) : RangeTraversal.Int32 y := by
  rw [int32] at h
  split_ifs at h with hx
  cases h
  exact hx

theorem map_skip {x : ℤ} (h : (int32 x).map (·, false) = .ok (tmp', skip)) :
    RangeTraversal.Int32 tmp' := by
  cases hx : int32 x with
  | error f =>
    rw [hx] at h
    cases h
  | ok y =>
    rw [hx] at h
    cases h
    exact int32_int hx

theorem next_number_int (h : nextNumber operation increment tmp = .ok (tmp', skip))
    (htmp : RangeTraversal.Int32 tmp) : RangeTraversal.Int32 tmp' := by
  have hone : RangeTraversal.Int32 1 := by decide
  cases operation with
  | none => cases h
  | some o =>
    cases increment with
    | none => cases o <;> cases h
    | some k =>
      cases o <;> simp only [nextNumber] at h
      case add | subtract => exact map_skip h
      case multiply =>
        split_ifs at h
        · cases h
          exact hone
        · exact map_skip h
      case divide =>
        split_ifs at h
        · cases h
          exact hone
        · exact map_skip h
      all_goals
        cases h
        exact htmp

/-- The numbers of a range are `int`s. -/
theorem range_loop_int
    (h : rangeLoop operation increment endValue fuel tmp values num = .ok (some (values', num')))
    (htmp : RangeTraversal.Int32 tmp) (hvalues : ∀ v ∈ values, RangeTraversal.Int32 v) :
    ∀ v ∈ values', RangeTraversal.Int32 v := by
  induction fuel generalizing tmp values num with
  | zero => cases h
  | succ fuel ih =>
    rw [rangeLoop] at h
    split_ifs at h
    · cases h
      exact hvalues
    · split at h
      · cases h
      · next hnext => exact ih h (next_number_int hnext htmp) hvalues
      · next hnext =>
        have hint := next_number_int hnext htmp
        split_ifs at h
        · exact ih h hint hvalues
        · exact ih h hint (List.forall_mem_append.mpr ⟨hvalues, List.forall_mem_singleton.mpr hint⟩)

/-- Without a traversal a range is not gone through. -/
theorem range_loop_alone
    (h : rangeLoop none increment endValue fuel tmp values num = .ok (some (values', num'))) :
    values' = values := by
  cases fuel with
  | zero => cases h
  | succ fuel =>
    rw [rangeLoop] at h
    split_ifs at h
    · cases h
      rfl
    · cases h

theorem possible_values_range (h : getPossibleValues fuel p = .ok (some p'))
    (hp : p.stringValues = []) : ∃ startValue values, p.startValue = some startValue ∧
      p' = { p with possibleValues := some values } ∧
      (p.operation = none → values = [startValue]) ∧
      (RangeTraversal.Int32 startValue → ∀ v ∈ values, RangeTraversal.Int32 v) := by
  rw [getPossibleValues, if_neg (by simp [hp])] at h
  split at h
  · next startValue endValue hstart hend =>
    split at h
    · cases h
    · cases h
    · next values num hloop =>
      split_ifs at h
      cases h
      refine ⟨startValue, values, hstart, rfl, fun hnone => ?_, fun hint => ?_⟩
      · rw [hnone] at hloop
        exact range_loop_alone hloop
      · exact range_loop_int hloop hint (List.forall_mem_singleton.mpr hint)
  · cases h

/-- The names that the values of a line get fit a line of a result file. -/
theorem names_fit (hl : ∀ q, l.Has q → Within m q) (hm : l.name.length+m < lineSize)
    (hd : Decodes l p) (h : getPossibleValues fuel p = .ok (some p')) :
    ∀ v ∈ ValueNames.names p', p'.name.length+v.length+2 < lineSize := by
  have hname : p.name = l.name := by rw [hd.1]; rfl
  have hstrings : p.stringValues = l.values := by rw [hd.1]; rfl
  have hfirst : p.startValue = l.range.map Prod.fst := by rw [hd.1]; rfl
  have hsign : p.operation = l.traversal.map Prod.fst := by rw [hd.1]; rfl
  intro v hv
  by_cases hp : p.stringValues = []
  · obtain ⟨startValue, values, hstart, rfl, halone, hint⟩ := possible_values_range h hp
    rw [ValueNames.names, if_pos hp, Option.getD_some] at hv
    obtain ⟨z, hz, rfl⟩ := List.mem_map.mp hv
    obtain ⟨⟨a, b⟩, hrange, rfl⟩ := Option.map_eq_some_iff.mp (hfirst.symm.trans hstart)
    obtain ⟨t, ht, rfl, hlength⟩ := hl (.range a b) hrange
    change p.name.length+_+2 < _
    cases htraversal : l.traversal with
    | none =>
      rw [htraversal] at hsign
      rw [halone hsign, List.mem_singleton] at hz
      have hprint : (printInt z).length ≤ t.length+1 := hz ▸ print_atoi_length ht
      rw [hname]
      omega
    | some q =>
      have hwide : 13 ≤ m := hl (.traversal q.1 q.2) htraversal
      have hprint := print_int_length (hint (atoi_int t) z hz)
      rw [hname]
      omega
  · have hlisted : p' = p := by
      rw [getPossibleValues, if_pos fun hlen => hp (List.length_eq_zero_iff.mp hlen)] at h
      cases h
      rfl
    rw [hlisted, ValueNames.names, if_neg hp, hstrings, Line.values, List.mem_append] at hv
    have hwidth : v.length+2 ≤ m := by
      rcases hv with hv | hv
      · exact hl (.aggregate v) (Option.mem_toList.mp hv)
      · cases hlist : l.list with
        | none =>
          rw [hlist] at hv
          cases hv
        | some values =>
          rw [hlist] at hv
          exact hl (.list values) hlist v hv
    rw [hlisted, hname]
    omega

theorem all_values_each (h : getAllValues fuel ps = .ok (some ps')) :
    List.Forall₂ (fun p p' => getPossibleValues fuel p = .ok (some p')) ps ps' := by
  induction ps generalizing ps' with
  | nil =>
    cases h
    exact .nil
  | cons p ps ih =>
    rw [getAllValues] at h
    split at h
    · cases h
    · cases h
    · next q hq =>
      split at h
      · cases h
      · cases h
      · next qs hqs =>
        cases h
        exact .cons hq (ih hqs)

theorem file_line {texts : List Text} {ls : List Line} (h : ReadFile texts ls) :
    ∀ l ∈ ls, ∃ text ∈ texts, ReadLine text l := by
  induction h with
  | nil => exact List.forall_mem_nil _
  | skip _ _ ih =>
    intro l hl
    obtain ⟨text, htext, hline⟩ := ih l hl
    exact ⟨text, List.mem_cons_of_mem _ htext, hline⟩
  | line hline _ ih =>
    refine List.forall_mem_cons.mpr ⟨⟨_, List.mem_cons_self, hline⟩, fun l hl => ?_⟩
    obtain ⟨text, htext, hread⟩ := ih l hl
    exact ⟨text, List.mem_cons_of_mem _ htext, hread⟩

/-- A parameter file gives no parameter a value that is too long beside its name. -/
theorem initialized_fit {text : Text} {ess : List (List RpnElement)}
    (h : initializeList fuel n (fgetsLines text) = .ok (some (ps, ess))) :
    ∀ p ∈ ps, ∀ v ∈ ValueNames.names p, p.name.length+v.length+2 < lineSize := by
  rw [initializeList] at h
  split at h
  · cases h
  · next parsed hparse =>
    split at h
    · cases h
    · cases h
    · next hvalues =>
      split at h
      · cases h
      · cases h
        obtain ⟨ls, rs, hread, -, rfl, hdecodes⟩ := parse_read hparse
        intro p hp
        obtain ⟨q, hq, hpossible⟩ := RelatedLists.left_of_right (all_values_each hvalues) hp
        obtain ⟨l, hl, hdecode⟩ := RelatedLists.left_of_right hdecodes hq
        obtain ⟨line, hline, hreadline⟩ := file_line hread l hl
        obtain ⟨m, hm, hwithin⟩ := line_within hreadline
        have hlength : line.length ≤ lineSize-1 := BoundedLines.lines_length (by decide) hline
        have hsize : 0 < lineSize := by decide
        exact names_fit hwithin (by omega) hdecode hpossible

end Values

end Otpo.LineWidths
