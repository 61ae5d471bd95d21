import Otpo.GeneratedInput
import Otpo.LineWidths

/-!
# The bounds of a generated file

A line takes the room of its name and its options. Where the combined names and
values come back, each line was read in one piece and as one list.
-/

set_option autoImplicit false

namespace Otpo.GeneratedBounds
open Otpo.ParamList Otpo.ResultFile Otpo.ValueMerge Otpo.ParseLine Otpo.FormatLine
open Otpo.ParseFormat Otpo.LineReading Otpo.InitializeList Otpo.ParameterLines Otpo.GeneratedInput
open Tokenizer (Clean room next_room)

section Room

variable {s r r' t text : Text} {o : Option LineOption} {os : List LineOption}
variable {q : LineOption} {l : Line}

def width : LineOption → ℕ
  | .list values => 3+(values.map fun v => v.length+1).sum
  | .aggregate format => 3+(format.length+1)
  | _ => 0

theorem read_width (h : ReadOption t r o r') :
    (o.toList.map width).sum+room r' ≤ t.length+1+room r := by
  have hflag : "-p".toList.length = 2 := rfl
  have hformat : "-a".toList.length = 2 := rfl
  cases h with
  | isVirtual => exact Nat.add_le_add_right (Nat.zero_le _) _
  | @list _ t _ token =>
    have hroom := next_room token
    have hvalues : ((strtok isListDelimiter t).map fun v => v.length+1).sum ≤ t.length+1 :=
      Tokenizer.tokens_room t
    change 3+_+0+room r' ≤ _
    omega
  | aggregate token =>
    have hroom := next_room token
    change 3+(_+1)+0+room r' ≤ _
    omega
  | default token | word token =>
    have hroom := next_room token
    change 0+0+room r' ≤ _
    omega
  | range start _ stop _ =>
    have hstart := next_room start
    have hstop := next_room stop
    change 0+0+room r' ≤ _
    omega
  | traversal method sign _ operand _ =>
    have hmethod := next_room method
    have hsign := next_room sign
    have hoperand := next_room operand
    change 0+0+room r' ≤ _
    omega
  | quoted token _ close _ =>
    have htoken := next_room token
    have hclose := next_room close
    change 0+0+room r' ≤ _
    omega
  | long token _ close _ =>
    have htoken := next_room token
    have hclose := next_room close
    change 0+room r' ≤ _
    omega

theorem options_width (h : ReadUpTo s os r) : (os.map width).sum+room r ≤ room s := by
  induction h with
  | here => exact (Nat.zero_add _).le
  | option token hoption _ ih =>
    have htoken := next_room token
    have hwidth := read_width hoption
    rw [List.map_append, List.sum_append]
    omega

def listed (l : Line) : ℕ :=
  (l.aggregate.map fun f => width (.aggregate f)).getD 0 +
    (l.list.map fun vs => width (.list vs)).getD 0

theorem listed_add : listed (l.add q) ≤ listed l+width q := by
  cases q <;> simp only [listed, Line.add, width, Option.map_some, Option.getD_some] <;> omega

theorem listed_foldl : listed (os.foldl Line.add l) ≤ listed l+(os.map width).sum := by
  induction os generalizing l with
  | nil => exact le_refl _
  | cons q os ih =>
    have hrest := ih (l := l.add q)
    have hfirst := listed_add (l := l) (q := q)
    rw [List.foldl_cons, List.map_cons, List.sum_cons]
    omega

/-- A line has room for its name, its list and its format. -/
theorem line_room (h : ReadLine text l) : l.name.length+listed l ≤ text.length := by
  obtain ⟨name, rest, os, ⟨-, hname, -⟩, ⟨r, hread, -⟩, rfl⟩ := h
  have hbare : listed (Line.bare name) = 0 := rfl
  have hlisted : listed (os.foldl Line.add (Line.bare name)) ≤ _ := listed_foldl
  have hwidth := options_width hread
  have hroom := next_room hname
  have hle : room text ≤ text.length+1 := by
    rw [room]
    split_ifs <;> omega
  rw [LineWidths.foldl_name]
  change name.length+_ ≤ _
  omega

theorem values_listed (h : l.values ≠ []) :
    3+(l.values.map fun v => v.length+1).sum ≤ listed l ∧
      (l.list.isSome → l.aggregate ≠ none →
        6+(l.values.map fun v => v.length+1).sum ≤ listed l) := by
  rw [Line.values] at h ⊢
  rw [listed]
  revert h
  cases l.aggregate with
  | none =>
    cases l.list with
    | none => exact fun h => absurd rfl h
    | some vs => exact fun _ => ⟨(Nat.zero_add _).ge, fun _ hf => absurd rfl hf⟩
  | some f =>
    cases l.list with
    | none =>
      change _ → 3+(f.length+1+0) ≤ 3+(f.length+1)+0 ∧ _
      exact fun _ => ⟨by omega, Bool.noConfusion⟩
    | some vs =>
      let n := (vs.map fun v => v.length+1).sum
      change _ → 3+(f.length+1+n) ≤ 3+(f.length+1)+(3+n) ∧
        (_ → _ → 6+(f.length+1+n) ≤ 3+(f.length+1)+(3+n))
      exact fun _ => ⟨by omega, fun _ _ => by omega⟩

/-- A list is never taken back. -/
theorem list_stays (h : l.list.isSome) : (os.foldl Line.add l).list.isSome := by
  induction os generalizing l with
  | nil => exact h
  | cons q os ih =>
    refine ih ?_
    cases q <;> first | exact h | rfl

/-- A list that is read has no commas and no braces. -/
theorem read_list (h : ReadUpTo s os r) {values : List Text} (hq : .list values ∈ os) :
    ∀ v ∈ values, ∀ x ∈ v, x ≠ ',' ∧ isBrace x = false := by
  induction h with
  | here => cases hq
  | option token hoption _ ih =>
    rcases List.mem_append.mp hq with hq | hq
    · cases hoption with
      | @list _ t _ braces =>
        cases List.mem_singleton.mp hq
        intro v hv x hx
        obtain ⟨hin, hdelimiter⟩ := Tokenizer.token_elements (s := t) hv x hx
        refine ⟨fun hcomma => ?_, (Tokenizer.next_clean braces).2 x hin⟩
        rw [hcomma] at hdelimiter
        exact absurd hdelimiter (by decide)
      | _ => simp at hq
    · exact ih hq

end Room

section Lines

variable {c : CombinedParam} {cs : List CombinedParam} {piece : Text} {rest : List Text}
variable {l : Line} {ls : List Line} {texts more : List Text}

theorem text_length (c : CombinedParam) : (inputText c).length =
    c.name.length+4+(c.values.map fun v => v.length+1).sum := by
  have hvalues : (listText c.values).length = (c.values.map fun v => v.length+1).sum := by
    rw [listText, List.length_flatMap]
    simp
  have hflag : " -p ".toList.length = 4 := rfl
  rw [inputText, List.length_append, List.length_append, hvalues, hflag]
  omega

theorem read_append (h : ReadFile (texts ++ more) ls) :
    ∃ ls₁ ls₂, ls = ls₁ ++ ls₂ ∧ ReadFile texts ls₁ ∧ ReadFile more ls₂ := by
  induction texts generalizing ls with
  | nil => exact ⟨[], ls, rfl, .nil, h⟩
  | cons text texts ih =>
    cases h with
    | skip hskip hrest =>
      obtain ⟨ls₁, ls₂, rfl, h₁, h₂⟩ := ih hrest
      exact ⟨ls₁, ls₂, rfl, .skip hskip h₁, h₂⟩
    | line hline hrest =>
      obtain ⟨ls₁, ls₂, rfl, h₁, h₂⟩ := ih hrest
      exact ⟨_::ls₁, ls₂, rfl, .line hline h₁, h₂⟩

/-- The first piece of a line is no comment. -/
theorem piece_read (hc : Wellformed c) (hparameter : startsWith '#' c.name = false)
    (hp : Pieces c piece rest) : ¬ Skipped piece := by
  obtain ⟨x, name, hname, hx⟩ := name_starts hc.name
  obtain ⟨y, t, rfl⟩ := List.exists_cons_of_ne_nil hp.nonempty
  have hyx : y = x := by
    have hstart := hp.start
    rw [inputLine, inputText, hname] at hstart
    exact (List.cons_prefix_cons.mp hstart).1
  subst hyx
  rw [hname] at hparameter
  have hblank : isBlank y = false := by
    simp only [isConditionDelimiter, Bool.or_eq_false_iff] at hx
    simp only [isBlank, Bool.or_eq_false_iff]
    exact hx.1
  have hnext := Tokenizer.next_cons (b := []) (by decide) hblank t
  exact named_not_skipped ⟨not_newline hx, hnext, hparameter⟩

def ReadPieces (c : CombinedParam) (l : Line) : Prop :=
  ∃ piece rest, Pieces c piece rest ∧ ReadLine piece l ∧ ReadFile rest []

/-- No line gives less than one parameter. -/
theorem lines_read (hc : ∀ c ∈ cs, Wellformed c)
    (hparameter : ∀ c ∈ cs, startsWith '#' c.name = false)
    (h : ReadFile (fgetsLines (cs.flatMap inputLine)) ls) :
    cs.length ≤ ls.length ∧ (ls.length = cs.length → List.Forall₂ ReadPieces cs ls) := by
  induction cs generalizing ls with
  | nil =>
    refine ⟨Nat.zero_le _, fun hlength => ?_⟩
    rw [List.length_eq_zero_iff.mp hlength]
    exact .nil
  | cons c cs ih =>
    rw [List.forall_mem_cons] at hc hparameter
    obtain ⟨piece, rest, hlines, hpieces⟩ := line_pieces hc.1 (cs.flatMap inputLine)
    rw [List.flatMap_cons, hlines] at h
    cases h with
    | skip hskip => exact absurd hskip (piece_read hc.1 hparameter.1 hpieces)
    | @line _ l _ ls hline hrest =>
      obtain ⟨ls₁, ls₂, rfl, hmore, hlater⟩ := read_append hrest
      obtain ⟨hle, hall⟩ := ih hc.2 hparameter.2 hlater
      simp only [List.length_cons, List.length_append]
      refine ⟨by omega, fun hlength => ?_⟩
      obtain rfl : ls₁ = [] := List.length_eq_zero_iff.mp (by omega)
      exact .cons ⟨piece, rest, hpieces, hline, hmore⟩ (hall (by omega))

/-- Behind the name of a whole line there is one list. -/
theorem whole_read {tail : Text} (hc : Wellformed c) (h : ReadLine (inputText c ++ tail) l) :
    l.list.isSome ∧ ∃ s os r, ReadUpTo s os r ∧ l = os.foldl Line.add (Line.bare c.name) := by
  obtain ⟨name, rest, os, ⟨-, hname, -⟩, ⟨r, hread, hend⟩, rfl⟩ := h
  have htext : inputText c ++ tail =
      c.name ++ ' '::("-p".toList ++ ' '::(listText c.values ++ tail)) := by
    rw [inputText, List.append_assoc, List.append_assoc]
    rfl
  have hfirst : Tokenizer.next isBlank (inputText c ++ tail) =
      some (c.name, "-p".toList ++ ' '::(listText c.values ++ tail)) := by
    rw [htext]
    exact Tokenizer.next_token (b := []) (by decide) (clean_blank hc.name) rfl
  have hflag : Tokenizer.next isConditionDelimiter
      ("-p".toList ++ ' '::(listText c.values ++ tail)) =
        some ("-p".toList, listText c.values ++ tail) :=
    Tokenizer.next_token (b := []) (t := "-p".toList) (fun c hc => by cases hc) (by decide) rfl
  cases hname.symm.trans hfirst
  refine ⟨?_, _, os, r, hread, rfl⟩
  cases hread with
  | here => cases hend.symm.trans hflag
  | option token hoption hrest =>
    cases token.symm.trans hflag
    cases hoption with
    | list braces => exact list_stays (l := (Line.bare c.name).add (.list _)) rfl

/-- Where the name and the values come back, the parser's bounds are kept. -/
theorem read_accepted (hc : Wellformed c) (hparameter : startsWith '#' c.name = false)
    (h : ReadPieces c l) (hname : l.name = c.name) (hvalues : l.values = c.values)
    (hshort : Short l) : Accepted c := by
  obtain ⟨piece, rest, hp, hline, hmore⟩ := h
  have hroom := line_room hline
  have hlisted := values_listed (hvalues ▸ hc.nonempty)
  have hlength := text_length c
  have hshort' := hp.short
  have hinput : (inputLine c).length = (inputText c).length+1 := by
    rw [inputLine, List.length_append, List.length_singleton]
  rw [hname] at hroom
  rw [hvalues] at hlisted
  have hfits : (inputLine c).length ≤ lineSize := by
    by_contra hlonger
    have hrest := hp.longer (by omega)
    subst hrest
    cases hmore with
    | skip hskip => exact absurd hskip (named_not_skipped ⟨rfl, rfl, rfl⟩)
  obtain ⟨⟨tail, htail, rfl⟩, -⟩ := hp.whole hfits
  have htail' : tail.length ≤ 1 := by rcases htail with rfl | rfl <;> simp
  obtain ⟨hsome, s, os, r, hread, rfl⟩ := whole_read hc hline
  have hnone : (os.foldl Line.add (Line.bare c.name)).aggregate = none := by
    by_contra hf
    have hboth := hlisted.2 hsome hf
    rw [List.length_append] at hroom
    omega
  obtain ⟨vs, hvs⟩ := Option.isSome_iff_exists.mp hsome
  have heq : vs = c.values := by
    rw [← hvalues, Line.values, hnone, hvs]
    rfl
  refine ⟨hparameter, ?_, ?_, hfits⟩
  · rw [← heq]
    rcases LineWidths.has_foldl (q := .list vs) hvs with hq | hq
    · exact read_list hread hq
    · cases hq
  · rw [← hvalues]
    exact hshort

end Lines

section Files

variable {operation : Operation} {files : List (List ResultParam)} {cs : List CombinedParam}
variable {ls : List Line} {ps rs : List ListParam} {fuel n : ℕ} {texts : List Text}

theorem all_accepted (h : List.Forall₂ ReadPieces cs ls) (hc : ∀ c ∈ cs, Wellformed c)
    (hparameter : ∀ c ∈ cs, startsWith '#' c.name = false)
    (hnames : ls.map Line.name = cs.map CombinedParam.name)
    (hvalues : ls.map Line.values = cs.map CombinedParam.values) (hshort : ∀ l ∈ ls, Short l) :
    ∀ c ∈ cs, Accepted c := by
  induction h with
  | nil => exact List.forall_mem_nil _
  | cons hread _ ih =>
    rw [List.forall_mem_cons] at hc hparameter hshort
    rw [List.map_cons, List.map_cons, List.cons.injEq] at hnames hvalues
    exact List.forall_mem_cons.mpr
      ⟨read_accepted hc.1 hparameter.1 hread hnames.1 hvalues.1 hshort.1,
        ih hc.2 hparameter.2 hnames.2 hvalues.2 hshort.2⟩

theorem decoded_maps (h : List.Forall₂ Decodes ls rs) : rs.map ListParam.name = ls.map Line.name ∧
    rs.map ListParam.stringValues = ls.map Line.values := by
  induction h with
  | nil => exact ⟨rfl, rfl⟩
  | cons hd _ ih =>
    rw [List.map_cons, List.map_cons, List.map_cons, List.map_cons, ih.1, ih.2, hd.1]
    exact ⟨rfl, rfl⟩

/-- The values of ranges leave the names and the strings alone. -/
theorem values_maps
    (h : List.Forall₂ (fun r p => getPossibleValues fuel r = .ok (some p)) rs ps) :
    ps.map ListParam.name = rs.map ListParam.name ∧
      ps.map ListParam.stringValues = rs.map ListParam.stringValues := by
  induction h with
  | nil => exact ⟨rfl, rfl⟩
  | @cons r p _ _ hp _ ih =>
    have hkeep : p.name = r.name ∧ p.stringValues = r.stringValues := by
      by_cases hlist : r.stringValues = []
      · obtain ⟨_, _, -, rfl, -⟩ := LineWidths.possible_values_range hp hlist
        exact ⟨rfl, rfl⟩
      · rw [getPossibleValues, if_pos fun hl => hlist (List.length_eq_zero_iff.mp hl)] at hp
        cases hp
        exact ⟨rfl, rfl⟩
    rw [List.map_cons, List.map_cons, List.map_cons, List.map_cons, ih.1, ih.2, hkeep.1, hkeep.2]
    exact ⟨rfl, rfl⟩

theorem initialized_maps {elements : List (List RpnElement)}
    (h : initializeList fuel n texts = .ok (some (ps, elements))) :
    ∃ rs, parse n texts [] = .ok rs ∧ ps.map ListParam.name = rs.map ListParam.name ∧
      ps.map ListParam.stringValues = rs.map ListParam.stringValues := by
  rw [initializeList] at h
  split at h
  · cases h
  · next rs hparse =>
    split at h
    · cases h
    · cases h
    · next hvalues =>
      split at h
      · cases h
      · cases h
        exact ⟨rs, hparse, values_maps (LineWidths.all_values_each hvalues)⟩

theorem kept_accepted (hc : ∀ c ∈ written cs, Wellformed c)
    (h : Kept fuel cs (writeInputFile cs)) : ∀ c ∈ written cs, Accepted c := by
  obtain ⟨-, ps, elements, hinit, hnames, hvalues⟩ := h
  obtain ⟨rs, hparse, hn, hv⟩ := initialized_maps hinit
  obtain ⟨ls, rs', hread, hshort, rfl, hdecodes⟩ := parse_read hparse
  obtain ⟨hn', hv'⟩ := decoded_maps hdecodes
  have hlinenames := (hn'.symm.trans hn.symm).trans hnames
  have hlinevalues := (hv'.symm.trans hv.symm).trans hvalues
  have hparameter : ∀ c ∈ written cs, startsWith '#' c.name = false := by
    intro c hc
    have hmem : c.name ∈ ls.map Line.name := hlinenames ▸ List.mem_map_of_mem hc
    obtain ⟨l, hl, hname⟩ := List.mem_map.mp hmem
    obtain ⟨text, -, name, rest, os, ⟨-, -, hcomment⟩, -, rfl⟩ := LineWidths.file_line hread l hl
    rw [← hname, LineWidths.foldl_name]
    exact hcomment
  have hlength : ls.length = (written cs).length := by
    have hl := congrArg List.length hlinenames
    rwa [List.length_map, List.length_map] at hl
  exact all_accepted ((lines_read hc hparameter hread).2 hlength) hc hparameter hlinenames
    hlinevalues hshort

/-- The parser finds what was combined exactly within its bounds. -/
theorem generated_input_iff {lines : List (List Text)}
    (hread : lines.mapM readFile = .ok files) (hw : Words files)
    (hcombined : combined operation files = .ok cs) (fuel : ℕ) :
    ∃ text, generateInputFile operation lines = .ok text ∧
      (Kept fuel cs text ↔ ∀ c ∈ written cs, Accepted c) := by
  have hwell : ∀ c ∈ written cs, Wellformed c := fun c hc => written_wellformed hw hcombined hc
  exact ⟨writeInputFile cs, by simp only [generateInputFile, hread, hcombined],
    kept_accepted hwell, fun ha => generated_kept hwell ha fuel⟩

end Files

def resultLines (values : List Text) : List Text :=
  ["\n".toList, "=\n".toList, "1.000000 1\n".toList] ++
    values.flatMap fun v => ["p ".toList ++ (v ++ ['\n']), "*\n".toList]

theorem accepted_all {c : CombinedParam} (hparameter : startsWith '#' c.name = false)
    (hvalues : c.values.all (fun v => v.all fun x => x != ',' && !isBrace x) = true)
    (hfew : c.values.length ≤ maxValues) (hfits : (inputLine c).length ≤ lineSize) : Accepted c :=
  ⟨hparameter, fun v hv x hx => by
    simpa using List.all_eq_true.mp (List.all_eq_true.mp hvalues v hv) x hx, hfew, hfits⟩

def twoFiles : List (List Text) :=
  [["\n", "=\n", "1.000000 2\n", "a 2\n", "b fast\n", "*\n", "a 10\n", "b fast\n", "*\n"],
    ["\n", "=\n", "1.000000 2\n", "b slow\n", "a 2\n", "*\n", "b slow\n", "a 1\n", "*\n"]].map
      fun lines => lines.map String.toList

theorem generated_input_two_files : ∃ text, generateInputFile .union twoFiles = .ok text ∧
    Kept 0 [⟨"a".toList, ["1".toList, "2".toList, "10".toList], 3⟩,
      ⟨"b".toList, ["fast".toList, "slow".toList], 2⟩] text := by
  obtain ⟨text, htext, hiff⟩ := @generated_input_iff .union
    [[⟨"a".toList, ["2".toList, "10".toList]⟩, ⟨"b".toList, ["fast".toList]⟩],
      [⟨"b".toList, ["slow".toList]⟩, ⟨"a".toList, ["1".toList, "2".toList]⟩]]
    [⟨"a".toList, ["1".toList, "2".toList, "10".toList], 3⟩,
      ⟨"b".toList, ["fast".toList, "slow".toList], 2⟩] twoFiles (by decide +kernel)
    (by unfold Words; decide) (by decide) 0
  refine ⟨text, htext, hiff.mpr fun c hc => ?_⟩
  have hcases : c = ⟨"a".toList, ["1".toList, "2".toList, "10".toList], 3⟩ ∨
      c = ⟨"b".toList, ["fast".toList, "slow".toList], 2⟩ := by
    simpa [written] using hc
  rcases hcases with rfl | rfl
  · exact accepted_all (by decide) (by decide) (by decide) (by decide)
  · exact accepted_all (by decide) (by decide) (by decide) (by decide)

/-- A parameter with 101 values ends the process, and a format comes back as its
parts. -/
theorem generated_input_limits :
    let many := (List.range 101).map NumberText.printD
    let format := "P,$rq_1_size$,$rq_1_num$".toList
    (Words [[⟨"p".toList, many⟩]] ∧
      [resultLines many].mapM readFile = .ok [[⟨"p".toList, many⟩]] ∧
      ∃ text, generateInputFile .union [resultLines many] = .ok text ∧
        parse 1 (fgetsLines text) [] =
          .error (.exit "You have reached the limit of possible string values (100)") ∧
        ∀ fuel, ¬ Kept fuel (union [[⟨"p".toList, many⟩]]) text) ∧
    Words [[⟨"p".toList, [format]⟩]] ∧
      [resultLines [format]].mapM readFile = .ok [[⟨"p".toList, [format]⟩]] ∧
      ∃ text, generateInputFile .union [resultLines [format]] = .ok text ∧
        (parse 1 (fgetsLines text) []).map (List.map ListParam.stringValues) =
          .ok [["P".toList, "$rq_1_size$".toList, "$rq_1_num$".toList]] ∧
        ∀ fuel, ¬ Kept fuel (union [[⟨"p".toList, [format]⟩]]) text := by
  intro many format
  have hmany : [resultLines many].mapM readFile = .ok [[⟨"p".toList, many⟩]] := by decide +kernel
  have hformat : [resultLines [format]].mapM readFile = .ok [[⟨"p".toList, [format]⟩]] := by
    decide +kernel
  have hexit : parse 1 (fgetsLines (writeInputFile (union [[⟨"p".toList, many⟩]]))) [] =
      .error (.exit "You have reached the limit of possible string values (100)") := by
    decide +kernel
  have hparts : (parse 1 (fgetsLines (writeInputFile (union [[⟨"p".toList, [format]⟩]]))) []).map
      (List.map ListParam.stringValues) =
        .ok [["P".toList, "$rq_1_size$".toList, "$rq_1_num$".toList]] := by
    decide +kernel
  refine ⟨⟨by unfold Words; decide +kernel, hmany, writeInputFile (union [[⟨"p".toList, many⟩]]),
    by simp only [generateInputFile, hmany, combined], hexit, ?_⟩, by unfold Words; decide +kernel,
    hformat, writeInputFile (union [[⟨"p".toList, [format]⟩]]),
    by simp only [generateInputFile, hformat, combined], hparts, ?_⟩
  · rintro fuel ⟨-, ps, elements, hinit, -⟩
    have hone : (written (union [[⟨"p".toList, many⟩]])).length = 1 := by decide +kernel
    rw [hone, initializeList, hexit] at hinit
    cases hinit
  · rintro fuel ⟨-, ps, elements, hinit, -, hvalues⟩
    have hone : written (union [[⟨"p".toList, [format]⟩]]) = [⟨"p".toList, [format], 1⟩] := by
      decide +kernel
    rw [hone] at hinit hvalues
    obtain ⟨rs, hparse, -, hstrings⟩ := initialized_maps hinit
    rw [List.length_singleton] at hparse
    rw [hparse] at hparts
    have hback : rs.map ListParam.stringValues = [[format]] := hstrings.symm.trans hvalues
    have hsplit := Except.ok.inj hparts
    rw [hback] at hsplit
    exact absurd hsplit (by decide)

end Otpo.GeneratedBounds
