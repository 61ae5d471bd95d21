import Otpo.InitializeList
import Otpo.ParameterLines
import Otpo.IntersectionExact

/-!
# The generated parameter file

A generated line has its values without braces, so the list runs to the end of
the line.
-/

set_option autoImplicit false

namespace Otpo.GeneratedInput
open Otpo.ParamList Otpo.ResultFile Otpo.ValueMerge Otpo.ValueIntersection Otpo.ParseLine
open Otpo.InitializeList Otpo.ParameterLines
open Tokenizer (Clean Blank Separated)

inductive Operation
  | union
  | intersection
  deriving DecidableEq, Repr

def combined (operation : Operation) (files : List (List ResultParam)) :
    Except Fault (List CombinedParam) :=
  match operation with
  | .union => .ok (union files)
  | .intersection => intersection files

def listText (vs : List Text) : Text := vs.flatMap (· ++ [' '])

def inputText (c : CombinedParam) : Text := c.name ++ (" -p ".toList ++ listText c.values)

def inputLine (c : CombinedParam) : Text := inputText c ++ ['\n']

def written (cs : List CombinedParam) : List CombinedParam := cs.filter (·.numValues ≠ 0)

def writeInputFile (cs : List CombinedParam) : Text := (written cs).flatMap inputLine

def readFile (lines : List Text) : Except Fault (List ResultParam) :=
  match readResultFile (getNumParameters lines) lines with
  | .error f => .error f
  | .ok none => if getNumParameters lines = 0 then .ok [] else .error .undefined
  | .ok (some params) => .ok (params.map ReadParam.param)

def generateInputFile (operation : Operation) (files : List (List Text)) : Except Fault Text :=
  match files.mapM readFile with
  | .error f => .error f
  | .ok params =>
    match combined operation params with
    | .error f => .error f
    | .ok cs => .ok (writeInputFile cs)

def Words (files : List (List ResultParam)) : Prop :=
  ∀ f ∈ files, ∀ p ∈ f, Clean isConditionDelimiter p.name ∧
    ∀ v ∈ p.values, Clean isConditionDelimiter v

/-- The parser's bounds: a name that begins no comment, values without its
delimiters, not too many of them, and a line that fills its buffer at most up to
the line end. -/
structure Accepted (c : CombinedParam) : Prop where
  parameter : startsWith '#' c.name = false
  values : ∀ v ∈ c.values, ∀ x ∈ v, x ≠ ',' ∧ isBrace x = false
  few : c.values.length ≤ maxValues
  fits : (inputLine c).length ≤ lineSize

section Lines

variable {c : CombinedParam} {cs : List CombinedParam} {tail : Text}

def record (c : CombinedParam) : ListParam :=
  { newParam c.name with stringValues := c.values, possibleValues := some (codes c.values) }

structure Wellformed (c : CombinedParam) : Prop where
  name : Clean isConditionDelimiter c.name
  values : ∀ v ∈ c.values, Clean isConditionDelimiter v
  nonempty : c.values ≠ []

theorem clean_list {v : Text} (h : Clean isConditionDelimiter v) (hcomma : ∀ x ∈ v, x ≠ ',') :
    Clean isListDelimiter v := by
  refine ⟨h.1, fun x hx => ?_⟩
  have hd := h.2 x hx
  simp only [isConditionDelimiter, Bool.or_eq_false_iff] at hd
  simp only [isListDelimiter, Bool.or_eq_false_iff]
  exact ⟨⟨⟨hd.1.1, beq_eq_false_iff_ne.mpr (hcomma x hx)⟩, hd.1.2⟩, hd.2⟩

def Ends (tail : Text) : Prop := tail = [] ∨ tail = ['\n']

theorem ends_blank (h : Ends tail) : ∀ x ∈ tail, isListDelimiter x = true ∧ isBrace x = false := by
  rcases h with rfl | rfl
  · exact List.forall_mem_nil _
  · exact List.forall_mem_singleton.mpr (by decide)

theorem values_separated (htail : Ends tail) {vs : List Text}
    (h : ∀ v ∈ vs, Clean isListDelimiter v) : Separated isListDelimiter vs (listText vs ++ tail) := by
  induction vs with
  | nil => exact Separated.nil fun x hx => (ends_blank htail x hx).1
  | cons v vs ih =>
    have hrest := ih fun w hw => h w (List.mem_cons_of_mem v hw)
    rw [listText, List.flatMap_cons, List.append_assoc, List.append_assoc]
    exact Separated.cons (b := []) (by decide) (h v List.mem_cons_self) rfl hrest

theorem next_to_end {d : Char → Bool} {s : Text} (hne : s ≠ []) (h : ∀ c ∈ s, d c = false) :
    nextToken d s = .ok (s, []) :=
  next_token_eq (Tokenizer.next_last (b := []) (fun c hc => by cases hc) ⟨hne, h⟩)

theorem list_text_unbraced (htail : Ends tail) {vs : List Text}
    (h : ∀ v ∈ vs, ∀ x ∈ v, isBrace x = false) : ∀ x ∈ listText vs ++ tail, isBrace x = false := by
  intro x hx
  rcases List.mem_append.mp hx with hx | hx
  · obtain ⟨v, hv, hx⟩ := List.mem_flatMap.mp hx
    rcases List.mem_append.mp hx with hx | hx
    · exact h v hv x hx
    · rw [List.mem_singleton.mp hx]
      rfl
  · exact (ends_blank htail x hx).2

theorem list_text_nonempty {vs : List Text} (h : vs ≠ []) : listText vs ≠ [] := by
  obtain ⟨v, vs, rfl⟩ := List.exists_cons_of_ne_nil h
  simp [listText]

theorem values_parsed (hc : Wellformed c) (ha : Accepted c) (htail : Ends tail) :
    parseOptions c.name ("-p".toList ++ ' '::(listText c.values ++ tail)) = .ok (record c) := by
  have hclean : ∀ v ∈ c.values, Clean isListDelimiter v := fun v hv =>
    clean_list (hc.values v hv) fun x hx => (ha.values v hv x hx).1
  have hvalues : strtok isListDelimiter (listText c.values ++ tail) = c.values :=
    Tokenizer.tokens_separated (values_separated htail hclean)
  have hflag : Tokenizer.next isConditionDelimiter
      ("-p".toList ++ ' '::(listText c.values ++ tail)) =
        some ("-p".toList, listText c.values ++ tail) :=
    Tokenizer.next_token (b := []) (t := "-p".toList) (fun c hc => by cases hc) (by decide) rfl
  have hlist : nextToken isBrace (listText c.values ++ tail) =
      .ok (listText c.values ++ tail, []) :=
    next_to_end (List.append_ne_nil_of_left_ne_nil (list_text_nonempty hc.nonempty) _)
      (list_text_unbraced htail fun v hv x hx => (ha.values v hv x hx).2)
  have hoption : parseOption (listText c.values ++ tail) ⟨newParam c.name, none⟩ "-p".toList =
      .ok ([], ⟨newParam c.name, some (listText c.values ++ tail)⟩) := by
    change parseValues _ _ = _
    rw [parseValues, hlist]
    rfl
  have hfinish : finishLine ⟨newParam c.name, some (listText c.values ++ tail)⟩ =
      .ok (record c) := by
    have hstrings : (newParam c.name).stringValues ++ c.values = c.values := rfl
    simp only [finishLine, setValues, hvalues, hstrings, if_neg (Nat.not_lt.mpr ha.few)]
    rfl
  obtain ⟨fuel, hfuel⟩ : ∃ fuel,
      ("-p".toList ++ ' '::(listText c.values ++ tail)).length+1 = fuel+2 := ⟨_, rfl⟩
  rw [parseOptions, hfuel, parseLoop, hflag]
  simp only [hoption]
  exact hfinish

theorem text_parsed (hc : Wellformed c) (ha : Accepted c) (htail : Ends tail) :
    Parsed (record c) (inputText c ++ tail) := by
  refine ⟨c.name, ' ', "-p".toList ++ ' '::(listText c.values ++ tail), hc.name, ha.parameter, rfl,
    ?_, values_parsed hc ha htail⟩
  rw [inputText, List.append_assoc, List.append_assoc]
  rfl

theorem text_one_line (hc : Wellformed c) : '\n' ∉ inputText c := by
  simp only [inputText, listText, List.mem_append, List.mem_flatMap, not_or, not_exists, not_and]
  exact ⟨clean_one_line hc.name.2, by decide, fun v hv =>
    ⟨clean_one_line (hc.values v hv).2, by decide⟩⟩

/-- What `fgets` makes of a generated line. A line that fills the buffer leaves
its end for the next call, and one that is longer a blank at least. -/
structure Pieces (c : CombinedParam) (piece : Text) (rest : List Text) : Prop where
  nonempty : piece ≠ []
  start : piece <+: inputLine c
  short : piece.length < lineSize
  whole : (inputLine c).length ≤ lineSize →
    (∃ tail, Ends tail ∧ piece = inputText c ++ tail) ∧ ∀ l ∈ rest, startsWith '\n' l = true
  longer : (inputLine c).length = lineSize+1 → rest = [[' ', '\n']]

theorem text_ends (hc : Wellformed c) : ∃ t, inputText c = t ++ [' '] := by
  obtain ⟨vs, v, hvs⟩ := (List.eq_nil_or_concat c.values).resolve_left hc.nonempty
  refine ⟨c.name ++ (" -p ".toList ++ (listText vs ++ v)), ?_⟩
  simp [inputText, listText, hvs]

theorem line_pieces (hc : Wellformed c) (s : Text) : ∃ piece rest,
    fgetsLines (inputLine c ++ s) = piece::(rest ++ fgetsLines s) ∧ Pieces c piece rest := by
  have hline := text_one_line hc
  have hpos : 0 < lineSize := by decide
  have htext : (inputText c).length ≠ 0 := by
    have hname := List.length_pos_iff.mpr hc.name.1
    rw [inputText, List.length_append]
    omega
  have hlength : (inputLine c).length = (inputText c).length+1 := by
    rw [inputLine, List.length_append, List.length_singleton]
  have happend : inputLine c ++ s = inputText c ++ '\n'::s := by
    rw [inputLine, List.append_assoc]
    rfl
  rw [happend, fgetsLines]
  rcases Nat.lt_or_ge (inputText c).length (lineSize-1) with hlt | hge
  · refine ⟨inputLine c, [], BoundedLines.lines_line hline hlt s,
      List.append_ne_nil_of_right_ne_nil _ (List.cons_ne_nil _ _), List.prefix_refl _, by omega,
      fun _ => ⟨⟨['\n'], Or.inr rfl, rfl⟩, List.forall_mem_nil _⟩, fun hlonger => ?_⟩
    omega
  · obtain ⟨t, u, htu, ht⟩ : ∃ t u, inputText c = t ++ u ∧ t.length = lineSize-1 :=
      ⟨_, _, (List.take_append_drop (lineSize-1) _).symm, List.length_take_of_le hge⟩
    rw [htu, List.mem_append, not_or] at hline
    have hne : t ≠ [] := List.ne_nil_of_length_pos (by rw [ht]; decide)
    obtain ⟨rest, hrest, -⟩ := BoundedLines.lines_split '\n' (lineSize-1) u s
    refine ⟨t, rest, ?_, hne, ⟨u ++ ['\n'], by rw [inputLine, htu, List.append_assoc]⟩, by omega,
      fun hfit => ?_, fun hlonger => ?_⟩
    · rw [htu, List.append_assoc, BoundedLines.lines_buffer hline.1 ht hne, hrest]
      rfl
    · have hu : u = [] := List.length_eq_zero_iff.mp (by
        have hsum := congrArg List.length htu
        rw [List.length_append] at hsum
        omega)
      subst hu
      have hend : rest ++ fgetsLines s = ['\n']::fgetsLines s := hrest.symm
      rw [List.append_cancel_right (hend.trans (List.singleton_append).symm)]
      rw [List.append_nil] at htu
      exact ⟨⟨[], Or.inl rfl, by rw [htu, List.append_nil]⟩, List.forall_mem_singleton.mpr rfl⟩
    · obtain ⟨x, rfl⟩ : ∃ x, u = [x] := List.length_eq_one_iff.mp (by
        have hsum := congrArg List.length htu
        rw [List.length_append] at hsum
        omega)
      obtain ⟨w, hw⟩ := text_ends hc
      obtain ⟨-, hx⟩ := List.append_inj' (htu.symm.trans hw) rfl
      cases hx
      have hend : rest ++ fgetsLines s = [' ', '\n']::fgetsLines s := hrest.symm
      exact List.append_cancel_right (hend.trans (List.singleton_append).symm)

theorem skipped_counted {rest : List Text} (h : ∀ l ∈ rest, startsWith '\n' l = true)
    (ls : List Text) (count : ℕ) :
    countParameters (rest ++ ls) count = countParameters ls count := by
  induction rest with
  | nil => rfl
  | cons l rest ih =>
    rw [List.forall_mem_cons] at h
    rw [List.cons_append, countParameters, if_pos h.1, ih h.2]

theorem skipped_parsed {rest : List Text} (h : ∀ l ∈ rest, startsWith '\n' l = true)
    (n : ℕ) (ls : List Text) (ps : List ListParam) : parse n (rest ++ ls) ps = parse n ls ps := by
  induction rest with
  | nil => rfl
  | cons l rest ih =>
    rw [List.forall_mem_cons] at h
    rw [List.cons_append, parse, if_pos h.1, ih h.2]

theorem lines_counted (hc : ∀ c ∈ cs, Wellformed c) (ha : ∀ c ∈ cs, Accepted c) (count : ℕ) :
    countParameters (fgetsLines (cs.flatMap inputLine)) count = .ok (count+cs.length) := by
  induction cs generalizing count with
  | nil => rfl
  | cons c cs ih =>
    rw [List.forall_mem_cons] at hc ha
    obtain ⟨_, rest, hlines, hpieces⟩ := line_pieces hc.1 (cs.flatMap inputLine)
    obtain ⟨⟨tail, htail, rfl⟩, hrest⟩ := hpieces.whole ha.1.fits
    rw [List.flatMap_cons, hlines, line_counted (text_parsed hc.1 ha.1 htail),
      skipped_counted hrest, ih hc.2 ha.2, List.length_cons, Nat.add_assoc, Nat.add_comm 1]

theorem lines_parsed (hc : ∀ c ∈ cs, Wellformed c) (ha : ∀ c ∈ cs, Accepted c) {n : ℕ}
    {ps : List ListParam} (hroom : ps.length+cs.length ≤ n) :
    parse n (fgetsLines (cs.flatMap inputLine)) ps = .ok (ps ++ cs.map record) := by
  induction cs generalizing ps with
  | nil =>
    rw [List.map_nil, List.append_nil]
    rfl
  | cons c cs ih =>
    rw [List.forall_mem_cons] at hc ha
    rw [List.length_cons] at hroom
    obtain ⟨_, rest, hlines, hpieces⟩ := line_pieces hc.1 (cs.flatMap inputLine)
    obtain ⟨⟨tail, htail, rfl⟩, hrest⟩ := hpieces.whole ha.1.fits
    rw [List.flatMap_cons, hlines, line_parsed (text_parsed hc.1 ha.1 htail) (by omega),
      skipped_parsed hrest,
      ih hc.2 ha.2 (by rw [List.length_append, List.length_singleton]; omega), List.append_assoc]
    rfl

end Lines

section Combination

variable {operation : Operation} {files : List (List ResultParam)} {cs : List CombinedParam}
variable {c : CombinedParam}

theorem union_from (hc : c ∈ union files) : (∃ f ∈ files, ∃ p ∈ f, p.name = c.name) ∧
    (∀ v ∈ c.values, ∃ f ∈ files, ∃ p ∈ f, v ∈ p.values) ∧ c.numValues = c.values.length := by
  obtain ⟨name, hname, rfl⟩ := List.mem_map.mp hc
  obtain ⟨l, hl, hmem⟩ := union_values files name
  simp only [hl]
  refine ⟨mem_union_names.mp hname, fun v hv => ?_, l.counted⟩
  obtain ⟨f, hf, p, hp, -, hv⟩ := (hmem v).mp hv
  exact ⟨f, hf, p, hp, hv⟩

theorem intersection_from (h : intersection files = .ok cs) (hc : c ∈ cs) :
    (∃ f ∈ files, ∃ p ∈ f, p.name = c.name) ∧
    (∀ v ∈ c.values, ∃ f ∈ files, ∃ p ∈ f, v ∈ p.values) ∧ c.numValues = c.values.length := by
  rw [intersection] at h
  cases hnames : (entries files).foldlM (addName files) [] with
  | error fault =>
    rw [hnames] at h
    cases h
  | ok names =>
    rw [hnames] at h
    cases h
    obtain ⟨name, hname, rfl⟩ := List.mem_map.mp hc
    obtain ⟨l, hl, hmem⟩ := fold_values (entries files) name
      (fun e => e.param.values.filter fun v => keepValue name (atoi v) e.file 0 false files)
      ValueList.empty
    have hvalues : intersectionValues files name = (l.values, l.count) := hl
    simp only [hvalues]
    refine ⟨?_, fun v hv => ?_, l.counted⟩
    · rcases ((IntersectionExact.fold_collects .nil hnames).mem name).mp hname with hin | hin
      · cases hin
      · obtain ⟨e, he, hn, -⟩ := hin
        exact (exists_entry (P := fun p => p.name = name)).mp ⟨e, he, hn⟩
    · rcases (hmem v).mp hv with hin | ⟨e, he, -, hin⟩
      · cases hin
      · exact (exists_entry (P := fun p => v ∈ p.values)).mp ⟨e, he, (List.mem_filter.mp hin).1⟩

/-- Names and values of the combined parameters are those of the files. -/
theorem combined_from (h : combined operation files = .ok cs) (hc : c ∈ cs) :
    (∃ f ∈ files, ∃ p ∈ f, p.name = c.name) ∧
    (∀ v ∈ c.values, ∃ f ∈ files, ∃ p ∈ f, v ∈ p.values) ∧ c.numValues = c.values.length := by
  cases operation with
  | union =>
    cases h
    exact union_from hc
  | intersection => exact intersection_from h hc

theorem written_wellformed (hw : Words files) (h : combined operation files = .ok cs)
    (hc : c ∈ written cs) : Wellformed c := by
  obtain ⟨hc, hnum⟩ := List.mem_filter.mp hc
  obtain ⟨⟨f, hf, p, hp, hname⟩, hvalues, hcount⟩ := combined_from h hc
  refine ⟨hname ▸ (hw f hf p hp).1, fun v hv => ?_, ?_⟩
  · obtain ⟨f, hf, p, hp, hv⟩ := hvalues v hv
    exact (hw f hf p hp).2 v hv
  · rintro hnil
    rw [hcount, hnil] at hnum
    cases hnum

def Kept (fuel : ℕ) (cs : List CombinedParam) (text : Text) : Prop :=
  countParameters (fgetsLines text) 0 = .ok (written cs).length ∧
    ∃ ps elements, initializeList fuel (written cs).length (fgetsLines text) =
        .ok (some (ps, elements)) ∧
      ps.map ListParam.name = (written cs).map CombinedParam.name ∧
      ps.map ListParam.stringValues = (written cs).map CombinedParam.values

/-- What is generated within the parser's bounds is accepted with the combined
names and values. -/
theorem generated_kept (hwell : ∀ c ∈ written cs, Wellformed c)
    (ha : ∀ c ∈ written cs, Accepted c) (fuel : ℕ) : Kept fuel cs (writeInputFile cs) := by
  have hparse : parse (written cs).length (fgetsLines (writeInputFile cs)) [] =
      .ok ((written cs).map record) := lines_parsed hwell ha (Nat.zero_add _).le
  refine ⟨?_, (written cs).map record, _, initialize_listed hparse ?_ ?_, ?_, ?_⟩
  · rw [writeInputFile, lines_counted hwell ha, Nat.zero_add]
  · intro p hp
    obtain ⟨c, hc, rfl⟩ := List.mem_map.mp hp
    exact (hwell c hc).nonempty
  · intro p hp
    obtain ⟨c, -, rfl⟩ := List.mem_map.mp hp
    rfl
  · rw [List.map_map]
    rfl
  · rw [List.map_map]
    rfl

end Combination

end Otpo.GeneratedInput
