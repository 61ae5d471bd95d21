import Otpo.ScannerRuns
import Otpo.Library.RelatedLists

/-!
# One result for each test

A benchmark whose file is opened reports one number, if the file holds what its
scanner looks for, and only then.
-/

set_option autoImplicit false

namespace Otpo.ReportedOnce
open Otpo.ParamList Otpo.BadRuns Otpo.ResultFile Otpo.ParseLine Otpo.InterruptFile
open Otpo.UpdateRequest Otpo.ScannerRuns

section Claim

variable (conv : Conversions) (test : Test) (lines : List Text)

def reports (es : List Event) : List (Option ℚ) :=
  es.filterMap fun e =>
    match e with
    | .update value => some value
    | .handle _ => none

def Converts (text : Text) (x : ℚ) : Prop :=
  match test with
  | .skampi => conv.scanDouble text = some x
  | _ => conv.strtod text = x

def Documented (value : ℚ) : Prop :=
  (∃ l ∈ lines, ∃ text x, text <:+: l ∧ Converts conv test text x ∧
    reportedValue test (some x) = some value) ∨ test = .netpipe ∧ value = 10000000

def opened : ℕ → Open := fun _ => .success

def ReportsOnce : Prop :=
  ∃ fuel status,
    (UpdateRequest.updateAdclRequest conv (fun _ => lines) opened test fuel).outcome =
      some (.ok status) ∧
    (status = .success → ∃ value,
      reports (UpdateRequest.updateAdclRequest conv (fun _ => lines) opened test fuel).events =
        [some value] ∧ Documented conv test lines value)

end Claim

section Reports

variable {conv : Conversions} {test : Test} {lines : List Text} {l : Text}
variable {p p' : Text → Bool} {fuel : ℕ} {es fs : List Event}

theorem reports_append (es fs : List Event) : reports (es ++ fs) = reports es ++ reports fs :=
  List.filterMap_append

theorem reports_used (h : ∀ e ∈ es, e = used) : reports es = [] :=
  List.filterMap_eq_nil_iff.mpr fun e he => by rw [h e he]; rfl

/-- One report behind uses of the file. -/
theorem reports_update (h : ∀ e ∈ es, e = used) (value : Option ℚ) :
    reports (es ++ [.update value]) = [value] := by
  rw [reports_append, reports_used h]
  rfl

theorem reports_finish (test : Test) : reports (finish test) = [] := by cases test <;> rfl

def search (p : Text → Bool) (tokenOf : Text → Except Fault Text) (value : Text → ℚ) (fuel : ℕ)
    (lines : List Text) : Action Unit := do
  let line ← findLine p fuel none lines
  let token ← Traced.lift (tokenOf line)
  Traced.emit (.update (some (value token)))

theorem search_ok {tokenOf : Text → Except Fault Text} {value : Text → ℚ}
    (h : (search p tokenOf value fuel lines).outcome = some (.ok ())) :
    ∃ l t, lines.find? p = some l ∧ tokenOf l = .ok t ∧
      reports (search p tokenOf value fuel lines).events = [some (value t)] := by
  obtain ⟨l, hl, hrest⟩ := Traced.outcome_bind_ok.mp h
  obtain ⟨t, ht, -⟩ := Traced.outcome_bind_ok.mp hrest
  have ht' : tokenOf l = .ok t := Option.some.inj ht
  refine ⟨l, t, find_line_ok (fun b hb => by cases hb) hl, ht', ?_⟩
  rw [search, Traced.bind_ok hl, ht']
  exact reports_update find_line_used _

theorem found_search {tokenOf : Text → Except Fault Text} {value : Text → ℚ} {t : Text}
    (hl : lines.find? p = some l) (ht : tokenOf l = .ok t) :
    (search p tokenOf value (lines.length+1) lines).outcome = some (.ok ()) ∧
      reports (search p tokenOf value (lines.length+1) lines).events = [some (value t)] := by
  have hline : (findLine p (lines.length+1) none lines).outcome = some (.ok l) :=
    found_line hl (Nat.lt_succ_self _)
  rw [search, Traced.bind_ok hline, ht]
  exact ⟨rfl, reports_update find_line_used _⟩

def tokenBehind (p : Text → Bool) (d : Char → Bool) (n : ℕ) (line : Text) : Except Fault Text :=
  findToken p (line.length+1) line >>= theToken d n

theorem token_behind_ok {d : Char → Bool} {n : ℕ} {t : Text} :
    tokenBehind p d n l = .ok t ↔
      ∃ r r', Tokenizer.Finds isBlank p l r ∧ nthToken d n r = some (t, r') := by
  rw [tokenBehind]
  cases hfind : findToken p (l.length+1) l with
  | error fault =>
    constructor
    · intro h
      cases h
    · rintro ⟨r, r', hr, -⟩
      rw [find_token_ok.mpr hr] at hfind
      cases hfind
  | ok r =>
    change theToken d n r = .ok t ↔ _
    rw [the_token_ok]
    constructor
    · rintro ⟨r', h⟩
      exact ⟨r, r', find_token_ok.mp hfind, h⟩
    · rintro ⟨r₂, r', hr, h⟩
      rw [find_token_ok.mpr hr] at hfind
      cases hfind
      exact ⟨r', h⟩

theorem token_behind_part {d : Char → Bool} {n : ℕ} {t : Text}
    (h : tokenBehind p d n l = .ok t) : t <:+: l := by
  obtain ⟨r, r', hr, ht⟩ := token_behind_ok.mp h
  exact (nth_token_part ht).trans (Tokenizer.finds_suffix hr).isInfix

/-- Two searches in one line. -/
theorem search_behind {d : Char → Bool} {n : ℕ} {value : Text → ℚ} :
    (do
      let line ← findLine p fuel none lines
      let rest ← Traced.lift (findToken p' (line.length+1) line)
      let token ← Traced.lift (theToken d n rest)
      Traced.emit (.update (some (value token)))) =
      search p (tokenBehind p' d n) value fuel lines := by
  refine congrArg (findLine p fuel none lines >>= ·) (funext fun line => ?_)
  rw [tokenBehind]
  cases findToken p' (line.length+1) line <;> rfl

end Reports

section Scanners

variable {conv : Conversions} {test : Test} {lines : List Text} {fuel : ℕ}

def ScansOnce (conv : Conversions) (test : Test) (lines : List Text) (fuel : ℕ) : Prop :=
  (scan conv test fuel lines).outcome = some (.ok ()) ∧
    ∃ value, reports (scan conv test fuel lines).events = [some value] ∧
      Documented conv test lines value

theorem netpipe_scanned (lines : List Text) :
    (scanNetpipe conv lines).outcome = some (.ok ()) ∧
      reports (scanNetpipe conv lines).events = lines.map fun l => some (netpipeValue conv l) := by
  induction lines with
  | nil => exact ⟨rfl, rfl⟩
  | cons l lines ih =>
    rw [scanNetpipe, Traced.emit_bind, Traced.emit_bind]
    exact ⟨ih.1, congrArg (some (netpipeValue conv l)::·) ih.2⟩

theorem netpipe_documented {l : Text} (hl : l ∈ lines) :
    Documented conv .netpipe lines (netpipeValue conv l) := by
  rw [netpipeValue]
  split
  · next t r h => exact Or.inl ⟨l, hl, t, _, nth_token_part h, rfl, rfl⟩
  · exact Or.inr ⟨rfl, rfl⟩

theorem netpipe_once : (∃ fuel, ScansOnce conv .netpipe lines fuel) ↔ lines.length = 1 := by
  obtain ⟨hok, hreports⟩ := @netpipe_scanned conv lines
  constructor
  · rintro ⟨fuel, -, value, h, -⟩
    have hlength := congrArg List.length (hreports.symm.trans h)
    rwa [List.length_map] at hlength
  · intro h
    obtain ⟨l, rfl⟩ := List.length_eq_one_iff.mp h
    exact ⟨0, hok, _, hreports, netpipe_documented List.mem_cons_self⟩

theorem scan_int_suffix (s : Text) : (scanInt s).2 <:+ s := by
  have hsign : ∀ cs : Text, (sign cs).2 <:+ cs := fun cs => by
    rw [sign.eq_def]
    split
    · exact List.suffix_cons _ _
    · exact List.suffix_cons _ _
    · exact List.suffix_refl _
  have hbehind := (hsign (s.dropWhile isSpace)).trans (List.dropWhile_suffix isSpace)
  simp only [scanInt]
  split
  · exact hbehind
  · exact (List.dropWhile_suffix _).trans hbehind

theorem skampi_documented {l : Text} {x : ℚ} (hl : l ∈ lines) (h : skampiValue conv l = some x) :
    Documented conv .skampi lines x := by
  obtain ⟨-, -, hx⟩ := Option.bind_eq_some_iff.mp h
  exact Or.inl ⟨l, hl, _, x, (scan_int_suffix l).isInfix, hx, rfl⟩

theorem skampi_value {l : Text} : (skampiValue conv l).isSome ↔
    (scanInt l).1.isSome ∧ (conv.scanDouble (scanInt l).2).isSome := by
  simp only [skampiValue]
  cases (scanInt l).1 <;> simp

theorem skampi_once : (∃ fuel, ScansOnce conv .skampi lines fuel) ↔
    ∃ l, (lines.take 7).getLast? = some l ∧ (scanInt l).1.isSome ∧
      (conv.scanDouble (scanInt l).2).isSome := by
  simp only [← skampi_value]
  simp only [ScansOnce, scan, scanSkampi, Traced.emits_bind]
  cases hlast : (lines.take 7).getLast? with
  | none =>
    constructor
    · rintro ⟨-, h, -⟩
      cases h
    · rintro ⟨l, h, -⟩
      cases h
  | some l =>
    have hused : ∀ e ∈ List.replicate 7 used, e = used := fun e he => List.eq_of_mem_replicate he
    have hreports := reports_update hused (skampiValue conv l)
    have hl : l ∈ lines := List.mem_of_mem_take (List.mem_of_getLast? hlast)
    constructor
    · rintro ⟨-, -, x, h, -⟩
      exact ⟨l, rfl, Option.isSome_iff_exists.mpr
        ⟨x, (List.cons.inj (hreports.symm.trans h)).1⟩⟩
    · rintro ⟨l', hl', hvalue⟩
      cases hl'
      obtain ⟨x, hx⟩ := Option.isSome_iff_exists.mp hvalue
      exact ⟨0, rfl, x, by rw [← hx]; exact hreports, skampi_documented hl hx⟩

theorem npb_documented {vss : List (List Text)} {v : Text}
    (h : List.Forall₂ Seconds lines vss) (hv : v ∈ vss.flatten) :
    Documented conv .npb lines (conv.strtod v) := by
  obtain ⟨vs, hvs, hmem⟩ := List.mem_flatten.mp hv
  obtain ⟨l, hl, hseconds⟩ := RelatedLists.left_of_right h hvs
  exact Or.inl ⟨l, hl, v, _, seconds_infix hseconds v hmem, rfl, rfl⟩

theorem npb_once : (∃ fuel, ScansOnce conv .npb lines fuel) ↔
    ∃ vss, List.Forall₂ Seconds lines vss ∧ vss.flatten ≠ [] := by
  constructor
  · rintro ⟨fuel, hok, value, h, -⟩
    obtain ⟨exetime, hlines, -⟩ := Traced.outcome_bind_ok.mp hok
    obtain ⟨vss, hvss, rfl⟩ := npb_lines_ok.mp hlines
    refine ⟨vss, hvss, fun hempty => ?_⟩
    rw [scan, scanNpb, Traced.bind_ok hlines] at h
    have hunset := (reports_update npb_lines_used _).symm.trans h
    rw [hempty] at hunset
    cases hunset
  · rintro ⟨vss, hvss, hne⟩
    have hlines : (npbLines conv lines none).outcome =
        some (.ok (lastNumber conv vss.flatten none)) := npb_lines_ok.mpr ⟨vss, hvss, rfl⟩
    have hset : lastNumber conv vss.flatten none =
        some (conv.strtod (vss.flatten.getLast hne)) := by
      rw [lastNumber, List.getLast?_eq_some_getLast hne]
      rfl
    rw [hset] at hlines
    refine ⟨0, ?_, _, ?_, npb_documented hvss (List.getLast_mem hne)⟩
    · exact Traced.outcome_bind_ok.mpr ⟨_, hlines, rfl⟩
    · rw [scan, scanNpb, Traced.bind_ok hlines]
      exact reports_update npb_lines_used _

theorem search_once {p : Text → Bool} {tokenOf : Text → Except Fault Text} {value : Text → ℚ}
    (hscan : ∀ fuel, scan conv test fuel lines = search p tokenOf value fuel lines)
    (hdocumented : ∀ l ∈ lines, ∀ t, tokenOf l = .ok t → Documented conv test lines (value t)) :
    (∃ fuel, ScansOnce conv test lines fuel) ↔
      ∃ l t, lines.find? p = some l ∧ tokenOf l = .ok t := by
  constructor
  · rintro ⟨fuel, hok, -⟩
    rw [hscan] at hok
    obtain ⟨l, t, hl, ht, -⟩ := search_ok hok
    exact ⟨l, t, hl, ht⟩
  · rintro ⟨l, t, hl, ht⟩
    have hfound : (search p tokenOf value (lines.length+1) lines).outcome = some (.ok ()) ∧
        reports (search p tokenOf value (lines.length+1) lines).events = [some (value t)] :=
      found_search hl ht
    obtain ⟨hok, hreports⟩ := hfound
    refine ⟨lines.length+1, ?_, value t, ?_, hdocumented l (List.mem_of_find?_eq_some hl) t ht⟩
    · rw [hscan]
      exact hok
    · rw [hscan]
      exact hreports

theorem strtod_documented {l t : Text} {value : ℚ} (hl : l ∈ lines) (ht : t <:+: l)
    (hconverts : Converts conv test t (conv.strtod t))
    (hvalue : reportedValue test (some (conv.strtod t)) = some value) :
    Documented conv test lines value := Or.inl ⟨l, hl, t, _, ht, hconverts, hvalue⟩

theorem behind_exists {p p' : Text → Bool} {d : Char → Bool} {n : ℕ} :
    (∃ l t, lines.find? p = some l ∧ tokenBehind p' d n l = .ok t) ↔
      ∃ l r, lines.find? p = some l ∧ Tokenizer.Finds isBlank p' l r ∧
        (nthToken d n r).isSome := by
  constructor
  · rintro ⟨l, t, hl, ht⟩
    obtain ⟨r, r', hr, hnth⟩ := token_behind_ok.mp ht
    exact ⟨l, r, hl, hr, Option.isSome_iff_exists.mpr ⟨_, hnth⟩⟩
  · rintro ⟨l, r, hl, hr, hsome⟩
    obtain ⟨⟨t, r'⟩, hnth⟩ := Option.isSome_iff_exists.mp hsome
    exact ⟨l, t, hl, token_behind_ok.mpr ⟨r, r', hr, hnth⟩⟩

theorem latency_io_search (fuel : ℕ) : scan conv .latencyIo fuel lines =
    search (startsWith 'T') (tokenBehind (· == "bandwidth".toList) isBlank 0)
      (fun t => 1/conv.strtod t) fuel lines := search_behind

theorem noncontig_search (fuel : ℕ) : scan conv .noncontig fuel lines =
    search (startsWith ' ') (tokenBehind (startsWith ':') isBlankOrSlash 1)
      (fun t => -1*conv.strtod t) fuel lines := search_behind

theorem scans_once_iff : (∃ fuel, ScansOnce conv test lines fuel) ↔ Reportable conv test lines := by
  cases test with
  | netpipe => exact netpipe_once
  | skampi => exact skampi_once
  | npb => exact npb_once
  | latencyIo =>
    refine (search_once latency_io_search fun l hl t ht => ?_).trans behind_exists
    exact strtod_documented hl (token_behind_part ht) rfl rfl
  | noncontig =>
    refine (search_once noncontig_search fun l hl t ht => ?_).trans behind_exists
    exact strtod_documented hl (token_behind_part ht) rfl rfl
  | mpiTileIo =>
    refine (search_once (fun fuel => rfl) fun l hl t ht => ?_).trans ?_
    · obtain ⟨r, hr⟩ := the_token_ok.mp ht
      exact strtod_documented hl (nth_token_part hr) rfl rfl
    · simp only [the_token_ok, Reportable, Option.isSome_iff_exists, Prod.exists,
        exists_and_left]

end Scanners

section Whole

variable {conv : Conversions} {test : Test} {lines : List Text}

def readOpened (conv : Conversions) (contents : Test → List Text) (test : Test) (fuel : ℕ) :
    Action Status := do
  Traced.emit (.handle (.opened test))
  readFile conv contents test fuel

theorem request_reads (conv : Conversions) (test : Test) (lines : List Text) (fuel : ℕ) :
    ∃ k, UpdateRequest.updateAdclRequest conv (fun _ => lines) opened test k =
      readOpened conv (fun _ => lines) test fuel := by
  cases test with
  | skampi | mpiTileIo => exact ⟨fuel, rfl⟩
  | netpipe | npb | latencyIo | noncontig => exact ⟨fuel+1, rfl⟩

theorem request_opened {fuel : ℕ} {status : Status}
    (h : (UpdateRequest.updateAdclRequest conv (fun _ => lines) opened test fuel).outcome =
      some (.ok status)) :
    ∃ k, UpdateRequest.updateAdclRequest conv (fun _ => lines) opened test fuel =
      readOpened conv (fun _ => lines) test k := by
  cases test with
  | skampi | mpiTileIo => exact ⟨fuel, rfl⟩
  | netpipe | npb | latencyIo | noncontig =>
    cases fuel with
    | zero => cases h
    | succ fuel => exact ⟨fuel, rfl⟩

theorem read_opened_ok {fuel : ℕ} {status : Status} :
    (readOpened conv (fun _ => lines) test fuel).outcome = some (.ok status) ↔
      (scan conv test fuel lines).outcome = some (.ok ()) ∧ status = .success := by
  change (readFile conv (fun _ => lines) test fuel).outcome = _ ↔ _
  constructor
  · intro h
    obtain ⟨⟨⟩, hscan, hrest⟩ := Traced.outcome_bind_ok.mp h
    cases hrest
    exact ⟨hscan, rfl⟩
  · rintro ⟨hscan, rfl⟩
    exact Traced.outcome_bind_ok.mpr ⟨(), hscan, rfl⟩

theorem read_opened_reports {fuel : ℕ} (h : (scan conv test fuel lines).outcome = some (.ok ())) :
    reports (readOpened conv (fun _ => lines) test fuel).events =
      reports (scan conv test fuel lines).events := by
  have hread : readFile conv (fun _ => lines) test fuel =
      ⟨(scan conv test fuel lines).events ++ (finish test ++ []), some (.ok .success)⟩ :=
    Traced.bind_ok h
  change reports (readFile conv (fun _ => lines) test fuel).events = _
  rw [hread, reports_append, List.append_nil, reports_finish, List.append_nil]

theorem reports_once_iff (conv : Conversions) (test : Test) (lines : List Text) :
    ReportsOnce conv test lines ↔ Reportable conv test lines := by
  rw [← scans_once_iff]
  constructor
  · rintro ⟨fuel, status, hok, honce⟩
    obtain ⟨k, hk⟩ := request_opened hok
    rw [hk] at hok honce
    obtain ⟨hscan, rfl⟩ := read_opened_ok.mp hok
    rw [read_opened_reports hscan] at honce
    exact ⟨k, hscan, honce rfl⟩
  · rintro ⟨fuel, hscan, hreports⟩
    obtain ⟨k, hk⟩ := request_reads conv test lines fuel
    refine ⟨k, .success, ?_, fun _ => ?_⟩
    · rw [hk]
      exact read_opened_ok.mpr ⟨hscan, rfl⟩
    · rw [hk, read_opened_reports hscan]
      exact hreports

end Whole

/-- An empty file of NetPIPE is read with success and without a report. -/
theorem empty_file_unreported : ¬ ReportsOnce ⟨fun _ => 0, fun _ => none⟩ .netpipe [] := by
  rintro ⟨fuel, status, hok, honce⟩
  cases fuel with
  | zero => cases hok
  | succ fuel =>
    cases hok
    obtain ⟨value, h, -⟩ := honce rfl
    cases h

end Otpo.ReportedOnce
