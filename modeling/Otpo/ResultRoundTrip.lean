import Otpo.ResultLines
import Otpo.LineWidths

/-!
# Reading a result file back

Two readers skip what lies between the combinations, each in its own way, and
find all that was written.
-/

set_option autoImplicit false

namespace Otpo.ResultRoundTrip
open Otpo.ParamList Otpo.NumberText Otpo.ValueMerge Otpo.ResultFile Otpo.ResultLines

def Readable (qs : List (Text × Text)) : Prop := ∀ q ∈ qs, Named q.1 ∧ q.2 ≠ [] ∧ Unbroken q.2

def entryLines (qs : List (Text × Text)) : List Text := qs.map fun q => line (entryLine q)

section Intermediate

variable {names : List Text} {b : Bucket} {buckets : List Bucket}
variable {qs : List (Text × Text)} {rest : List Text}

theorem skip_stars_entry {q : Text × Text} (h : Named q.1) :
    skipStars (line (entryLine q)::rest) = some (line (entryLine q), rest) := by
  rw [skipStars, if_neg]
  rw [entry_starts h (by decide)]
  exact Bool.false_ne_true

theorem read_row_entries (h : Readable qs) :
    readRow qs.length (entryLines qs ++ rest) = .ok (qs, rest) := by
  induction qs with
  | nil => rfl
  | cons q qs ih =>
    obtain ⟨hn, hv⟩ := h q List.mem_cons_self
    have htail := ih fun p hp => h p (List.mem_cons_of_mem q hp)
    rw [List.length_cons, entryLines, List.map_cons, List.cons_append, readRow,
      skip_stars_entry hn]
    simp only [entry_tokens hn hv]
    rw [show qs.map (fun q => line (entryLine q)) = entryLines qs from rfl, htail]

/-- A line of stars in front of a combination is skipped. -/
theorem read_row_stars (h : Readable qs) (hne : qs ≠ []) :
    readRow qs.length (line stars::(entryLines qs ++ rest)) = .ok (qs, rest) := by
  have hread : readRow qs.length (entryLines qs ++ rest) = .ok (qs, rest) := read_row_entries h
  cases qs with
  | nil => exact absurd rfl hne
  | cons q qs =>
    rw [List.length_cons, readRow] at hread ⊢
    have hskip : skipStars (line stars::(entryLines (q::qs) ++ rest)) =
        skipStars (entryLines (q::qs) ++ rest) := rfl
    rw [hskip]
    exact hread

def rowsLines (rows : List (List (Text × Text))) : List Text :=
  rows.flatMap fun qs => entryLines qs ++ [line stars]

theorem read_rows_lines {k : ℕ} (hk : 0 < k) {rows : List (List (Text × Text))}
    (h : ∀ qs ∈ rows, qs.length = k ∧ Readable qs) (rest : List Text) :
    readRows k rows.length (rowsLines rows ++ rest) =
        .ok (rows, if rows = [] then rest else line stars::rest) ∧
      readRows k rows.length (line stars::(rowsLines rows ++ rest)) =
        .ok (rows, line stars::rest) := by
  induction rows with
  | nil => exact ⟨rfl, rfl⟩
  | cons qs rows ih =>
    obtain ⟨rfl, hread⟩ := h qs List.mem_cons_self
    have hne : qs ≠ [] := List.length_pos_iff.mp hk
    have htail := (ih (fun p hp => h p (List.mem_cons_of_mem qs hp))).2
    have hlines : rowsLines (qs::rows) ++ rest =
        entryLines qs ++ (line stars::(rowsLines rows ++ rest)) := by
      simp [rowsLines]
    rw [hlines, List.length_cons, readRows, readRows, read_row_entries hread,
      read_row_stars hread hne]
    simp [htail]

def pairs (names : List Text) (b : Bucket) : List (List (Text × Text)) := b.rows.map names.zip

theorem pairs_readable (hn : ∀ n ∈ names, Named n) (h : Written names b) :
    ∀ qs ∈ pairs names b, qs.length = names.length ∧ Readable qs := by
  intro qs hqs
  obtain ⟨row, hrow, rfl⟩ := List.mem_map.mp hqs
  constructor
  · rw [List.length_zip, h.width row hrow, Nat.min_self]
  · intro q hq
    obtain ⟨hname, hvalue⟩ := List.of_mem_zip hq
    exact ⟨hn _ hname, h.values row hrow _ hvalue⟩

theorem bucket_lines_pairs (names : List Text) (b : Bucket) :
    (bucketLines names b).map line = line [] :: line separator :: line (header b) ::
      rowsLines (pairs names b) := by
  simp only [bucketLines, List.map_cons, List.map_flatMap, rowsLines, pairs, List.flatMap_map,
    rowLines, List.map_append, List.map_map, List.map_nil, entryLines]
  rfl

/-- The lines of a file, the first bucket in front. -/
theorem file_lines_cons (names : List Text) (b : Bucket) (buckets : List Bucket) :
    (fileLines names (b::buckets)).map line = line [] :: line separator ::
      line (header b) :: (rowsLines (pairs names b) ++ (fileLines names buckets).map line) := by
  rw [fileLines, List.flatMap_cons, List.map_append, bucket_lines_pairs]
  rfl

theorem read_loop_skips {k numFunctions fuel : ℕ} {l : Text} {ls : List Text}
    {rows : List (List (Text × Text))}
    (h : (startsWith '\n' l || startsWith '=' l || startsWith '*' l) = true) :
    readLoop k numFunctions (fuel+1) (l::ls) rows = readLoop k numFunctions fuel ls rows := by
  rw [readLoop, if_pos h]

/-- The round that reads the combinations of one bucket. -/
theorem read_loop_header {k numFunctions fuel : ℕ} {ls ls' : List Text}
    {rows more : List (List (Text × Text))}
    (hcount : b.rows.length < 2^31) (hfit : rows.length+b.rows.length ≤ numFunctions)
    (hread : readRows k b.rows.length ls = .ok (more, ls')) :
    readLoop k numFunctions (fuel+1) (line (header b)::ls) rows =
      readLoop k numFunctions fuel ls' (rows ++ more) := by
  have hstart : (startsWith '\n' (line (header b)) || startsWith '=' (line (header b)) ||
      startsWith '*' (line (header b))) = false := by
    rw [header_starts (by decide) (by decide) (by decide), header_starts (by decide) (by decide)
      (by decide), header_starts (by decide) (by decide) (by decide)]
    rfl
  have htokens := header_tokens (b := b)
  have hnext : (Tokenizer.next isConditionDelimiter (line (header b))).isNone = false := by
    rw [twoTokens] at htokens
    split at htokens
    · cases htokens
    · next hn => rw [hn]; rfl
  have hatoi := atoi_print hcount
  have hcheck : ¬ (atoi (printD b.rows.length) < 0 ∨
      numFunctions < rows.length+(atoi (printD b.rows.length)).toNat) := by
    rw [hatoi]
    omega
  rw [readLoop, hstart, hnext, htokens]
  simp only [Bool.false_eq_true, if_false]
  rw [if_neg hcheck, hatoi, Int.toNat_natCast, hread]

theorem read_loop_buckets (hne : names ≠ []) (hn : ∀ n ∈ names, Named n)
    (h : ∀ b ∈ buckets, Written names b) {numFunctions fuel : ℕ}
    (rows : List (List (Text × Text)))
    (hsum : rows.length+(buckets.map fun b => b.rows.length).sum ≤ numFunctions)
    (hfuel : ((fileLines names buckets).map line).length ≤ fuel) :
    readLoop names.length numFunctions fuel ((fileLines names buckets).map line) rows =
      .ok (rows ++ buckets.flatMap (pairs names)) := by
  induction buckets generalizing fuel rows with
  | nil =>
    rw [List.flatMap_nil, List.append_nil]
    cases fuel <;> rfl
  | cons b buckets ih =>
    have hb := h b List.mem_cons_self
    rw [List.map_cons, List.sum_cons] at hsum
    rw [file_lines_cons] at hfuel ⊢
    simp only [List.length_cons, List.length_append] at hfuel
    obtain ⟨f, rfl⟩ : ∃ f, fuel = f+3 := ⟨fuel-3, by omega⟩
    have hcount : (pairs names b).length = b.rows.length := List.length_map _
    have hread := (read_rows_lines (List.length_pos_iff.mpr hne) (pairs_readable hn hb)
      ((fileLines names buckets).map line)).1
    rw [hcount] at hread
    have htail : ∀ {f}, ((fileLines names buckets).map line).length ≤ f →
        readLoop names.length numFunctions f ((fileLines names buckets).map line)
          (rows ++ pairs names b) =
            .ok (rows ++ (b::buckets).flatMap (pairs names)) := fun hf => by
      rw [ih (fun c hc => h c (List.mem_cons_of_mem b hc)) _
        (by rw [List.length_append, hcount]; omega) hf, List.flatMap_cons, List.append_assoc]
    rw [read_loop_skips rfl, read_loop_skips rfl, read_loop_header hb.count (by omega) hread]
    by_cases hempty : pairs names b = []
    · rw [if_pos hempty]
      exact htail (by omega)
    · rw [if_neg hempty]
      have hpos : 0 < (rowsLines (pairs names b)).length := by
        obtain ⟨qs, rest, hqs⟩ := List.exists_cons_of_ne_nil hempty
        simp [hqs, rowsLines]
      obtain ⟨g, rfl⟩ : ∃ g, f = g+1 := ⟨f-1, by omega⟩
      rw [read_loop_skips rfl]
      exact htail (by omega)

theorem written_widths (h : ∀ b ∈ buckets, Written names b) :
    ∀ row ∈ buckets.flatMap Bucket.rows, row.length = names.length := fun row hr => by
  obtain ⟨b, hb, hr⟩ := List.mem_flatMap.mp hr
  exact (h b hb).width row hr

theorem pairs_rows (names : List Text) (buckets : List Bucket) :
    buckets.flatMap (pairs names) = (buckets.flatMap Bucket.rows).map names.zip := by
  rw [List.map_flatMap]
  rfl

theorem rows_cons (hrow : ∃ b ∈ buckets, b.rows ≠ []) :
    ∃ row rows, buckets.flatMap Bucket.rows = row::rows := by
  obtain ⟨b, hb, hr⟩ := hrow
  exact List.exists_cons_of_ne_nil fun he => hr (List.flatMap_eq_nil_iff.mp he b hb)

/-- The names of the first combination are those of all of them. -/
theorem read_intermediate (hne : names ≠ []) (hn : ∀ n ∈ names, Named n)
    (h : ∀ b ∈ buckets, Written names b) (hrow : ∃ b ∈ buckets, b.rows ≠ []) :
    readIntermediateResults names.length (buckets.map fun b => b.rows.length).sum
      ((fileLines names buckets).map line) = .ok (names, buckets.flatMap Bucket.rows) := by
  have hloop := read_loop_buckets hne hn h [] (Nat.zero_add _).le le_rfl
  have hall := written_widths h
  rw [readIntermediateResults, hloop, List.nil_append, pairs_rows]
  have hsnd : ((buckets.flatMap Bucket.rows).map names.zip).map (fun row => row.map Prod.snd) =
      buckets.flatMap Bucket.rows := by
    rw [List.map_map]
    refine (List.map_congr_left fun row hr => ?_).trans (List.map_id _)
    exact List.map_snd_zip (hall row hr).le
  have hfst : (((buckets.flatMap Bucket.rows).map names.zip).headD []).map Prod.fst = names := by
    obtain ⟨row, rows, hcons⟩ := rows_cons hrow
    rw [hcons, List.map_cons, List.headD_cons]
    exact List.map_fst_zip (hall row (hcons ▸ List.mem_cons_self)).ge
  simp only [hfst, hsnd]

end Intermediate

section Values

variable {names : List Text} {b : Bucket} {buckets : List Bucket}
variable {qs : List (Text × Text)} {rest : List Text}

theorem entry_line_starts {q : Text × Text} (h : Named q.1) :
    startsWith '\n' (line (entryLine q)) = false ∧ startsWith '=' (line (entryLine q)) = false ∧
      startsWith '*' (line (entryLine q)) = false :=
  ⟨entry_starts h (by decide), entry_starts h (by decide), entry_starts h (by decide)⟩

theorem count_entries (h : Readable qs) (count : ℕ) :
    countLoop false (entryLines qs ++ line stars::rest) count = count+qs.length := by
  induction qs generalizing count with
  | nil => rfl
  | cons q qs ih =>
    obtain ⟨hnewline, hequals, hstar⟩ := entry_line_starts (h q List.mem_cons_self).1
    rw [entryLines, List.map_cons, List.cons_append, countLoop, hnewline, hequals, hstar]
    simp only [Bool.false_eq_true, if_false]
    rw [show qs.map (fun q => line (entryLine q)) = entryLines qs from rfl,
      ih (fun p hp => h p (List.mem_cons_of_mem q hp)), List.length_cons]
    omega

theorem rows_lines_cons (rows : List (List (Text × Text))) :
    rowsLines (qs::rows) = entryLines qs ++ line stars::rowsLines rows := by
  simp [rowsLines]

theorem rows_lines_length (rows : List (List (Text × Text))) :
    rows.length ≤ (rowsLines rows).length := by
  induction rows with
  | nil => exact Nat.le_refl _
  | cons qs rows ih =>
    rw [rows_lines_cons, List.length_append, List.length_cons, List.length_cons]
    omega

/-- The first combination of the file tells how many parameters there are. -/
theorem get_num_parameters (hn : ∀ n ∈ names, Named n) (h : ∀ b ∈ buckets, Written names b)
    (hrow : ∃ b ∈ buckets, b.rows ≠ []) :
    getNumParameters ((fileLines names buckets).map line) = names.length := by
  rw [getNumParameters]
  induction buckets with
  | nil =>
    obtain ⟨b, hb, _⟩ := hrow
    cases hb
  | cons b buckets ih =>
    rw [file_lines_cons]
    change countLoop false (rowsLines (pairs names b) ++ (fileLines names buckets).map line) 0 = _
    by_cases hempty : b.rows = []
    · have hrest : ∃ c ∈ buckets, c.rows ≠ [] := by
        obtain ⟨c, hc, hr⟩ := hrow
        rcases List.mem_cons.mp hc with rfl | hc
        · exact absurd hempty hr
        · exact ⟨c, hc, hr⟩
      rw [pairs, hempty]
      exact ih (fun c hc => h c (List.mem_cons_of_mem b hc)) hrest
    · obtain ⟨row, rows, hcons⟩ := List.exists_cons_of_ne_nil hempty
      obtain ⟨hlength, hread⟩ := pairs_readable hn (h b List.mem_cons_self) (names.zip row)
        (List.mem_map_of_mem (hcons ▸ List.mem_cons_self))
      rw [pairs, hcons, List.map_cons, rows_lines_cons, List.append_assoc, List.cons_append,
        count_entries hread, Nat.zero_add, hlength]

/-- One combination, and the line behind it. -/
theorem read_entries_lines {q : Text × Text} {m : Text} (h : Readable (q::qs)) :
    readEntries (q::qs).length (line (entryLine q)) (entryLines qs ++ m::rest) =
      .ok (q::qs, rest) := by
  induction qs generalizing q with
  | nil =>
    obtain ⟨hn, hv⟩ := h q List.mem_cons_self
    simp only [List.length_cons, List.length_nil, readEntries, entry_tokens hn hv, entryLines,
      List.map_nil, List.nil_append]
  | cons p qs ih =>
    obtain ⟨hn, hv⟩ := h q List.mem_cons_self
    have htail := ih (q := p) fun r hr => h r (List.mem_cons_of_mem q hr)
    rw [List.length_cons, readEntries, entry_tokens hn hv, entryLines, List.map_cons,
      List.cons_append]
    simp only
    rw [show qs.map (fun q => line (entryLine q)) = entryLines qs from rfl, htail]

def addRows (params : Option (List ReadParam)) (rows : List (List (Text × Text))) :
    Option (List ReadParam) :=
  rows.foldl (fun params qs => some (addEntries params qs)) params

theorem read_file_rows {k fuel : ℕ} (hk : 0 < k) {rows : List (List (Text × Text))}
    (h : ∀ qs ∈ rows, qs.length = k ∧ Readable qs) (params : Option (List ReadParam)) :
    readFileLoop k (fuel+rows.length) (rowsLines rows ++ rest) params =
      readFileLoop k fuel rest (addRows params rows) := by
  induction rows generalizing params with
  | nil => rfl
  | cons qs rows ih =>
    obtain ⟨rfl, hread⟩ := h qs List.mem_cons_self
    obtain ⟨q, qs, rfl⟩ := List.exists_cons_of_ne_nil (List.length_pos_iff.mp hk)
    obtain ⟨hnewline, hequals, hstar⟩ := entry_line_starts (hread q List.mem_cons_self).1
    have hentries : readEntries (q::qs).length (line (entryLine q))
        (entryLines qs ++ line stars::(rowsLines rows ++ rest)) =
          .ok (q::qs, rowsLines rows ++ rest) := read_entries_lines hread
    rw [rows_lines_cons, List.append_assoc, List.cons_append,
      show fuel+((q::qs)::rows).length = fuel+rows.length+1 from rfl, entryLines, List.map_cons,
      List.cons_append, readFileLoop, hnewline, hequals, hstar]
    simp only [Bool.or_self, Bool.false_eq_true, if_false]
    rw [show qs.map (fun q => line (entryLine q)) = entryLines qs from rfl, hentries]
    exact ih (fun p hp => h p (List.mem_cons_of_mem _ hp)) _

theorem read_file_buckets (hne : names ≠ []) (hn : ∀ n ∈ names, Named n)
    (h : ∀ b ∈ buckets, Written names b) {fuel : ℕ} (params : Option (List ReadParam))
    (hfuel : ((fileLines names buckets).map line).length ≤ fuel) :
    readFileLoop names.length fuel ((fileLines names buckets).map line) params =
      .ok (addRows params (buckets.flatMap (pairs names))) := by
  induction buckets generalizing fuel params with
  | nil => cases fuel <;> rfl
  | cons b buckets ih =>
    have hb := h b List.mem_cons_self
    have hrows := rows_lines_length (pairs names b)
    rw [file_lines_cons] at hfuel ⊢
    simp only [List.length_cons, List.length_append] at hfuel
    obtain ⟨f, rfl⟩ : ∃ f, fuel = f+(pairs names b).length+2 :=
      ⟨fuel-(pairs names b).length-2, by omega⟩
    change readFileLoop names.length (f+(pairs names b).length)
      (rowsLines (pairs names b) ++ (fileLines names buckets).map line) params = _
    rw [read_file_rows (List.length_pos_iff.mpr hne) (pairs_readable hn hb),
      ih (fun c hc => h c (List.mem_cons_of_mem b hc)) _ (by omega)]
    rw [addRows, addRows, addRows, List.flatMap_cons, List.foldl_append]

structure Holds (names : List Text) (seen : List (List Text)) (params : List ReadParam) :
    Prop where
  names : ∀ i : ℕ, (params[i]?).map (fun p => p.param.name) = names[i]?
  values : ∀ (i : ℕ) (p : ReadParam), params[i]? = some p → ∃ l : ValueList,
    p.param.values = l.values ∧ p.numValues = l.count ∧
      ∀ v, v ∈ l.values ↔ ∃ row ∈ seen, row[i]? = some v

variable {row : List Text} {seen : List (List Text)}

theorem zip_get (h : row.length = names.length) (i : ℕ) :
    ((names.zip row)[i]?).map Prod.fst = names[i]? := by
  rw [← List.getElem?_map, List.map_fst_zip h.ge]

theorem first_holds (h : row.length = names.length) :
    Holds names [row] (addEntries none (names.zip row)) := by
  constructor
  · intro i
    rw [addEntries, List.getElem?_map, Option.map_map]
    exact zip_get h i
  · intro i p hp
    rw [addEntries, List.getElem?_map, Option.map_eq_some_iff] at hp
    obtain ⟨q, hq, rfl⟩ := hp
    obtain ⟨_, hvalue⟩ := List.getElem?_zip_eq_some.mp hq
    obtain ⟨l, hl, hkeyed⟩ := ValueList.empty.insert_keeps q.2
    have hfirst : insert q.2 [] 0 = (l.values, l.count) := hl
    refine ⟨l, by rw [firstParam, hfirst], by rw [firstParam, hfirst], fun v => ?_⟩
    rw [hkeyed, KeyedList.Keyed.mem_insert]
    simp [ValueList.empty, KeyedList.Keyed.empty, hvalue, eq_comm]

theorem next_holds {params : List ReadParam} (h : row.length = names.length)
    (hp : Holds names seen params) :
    Holds names (seen ++ [row]) (addEntries (some params) (names.zip row)) := by
  constructor
  · intro i
    have hname := hp.names i
    have hrow := zip_get h i
    rw [addEntries, List.getElem?_zipWith]
    cases hi : params[i]? with
    | none =>
      rw [hi] at hname
      exact hname
    | some p =>
      cases hq : (names.zip row)[i]? with
      | none =>
        rw [hq] at hrow
        exact hrow
      | some q =>
        rw [hi] at hname
        exact hname
  · intro i p hi
    obtain ⟨p, q, hpi, hqi, rfl⟩ := List.getElem?_zipWith_eq_some.mp hi
    obtain ⟨_, hvalue⟩ := List.getElem?_zip_eq_some.mp hqi
    obtain ⟨l, hvalues, hcount, hmem⟩ := hp.values i p hpi
    obtain ⟨m, hm, hkeyed⟩ := l.insert_keeps q.2
    have hadd : insert q.2 p.param.values p.numValues = (m.values, m.count) := by
      rw [hvalues, hcount, hm]
    refine ⟨m, by rw [addValue, hadd], by rw [addValue, hadd], fun v => ?_⟩
    rw [hkeyed, KeyedList.Keyed.mem_insert, hmem]
    simp [hvalue, or_comm, eq_comm, or_and_right, exists_or]

theorem rows_hold {rows : List (List Text)} (h : ∀ row ∈ rows, row.length = names.length)
    {params : List ReadParam} (hp : Holds names seen params) :
    ∃ params', addRows (some params) (rows.map names.zip) = some params' ∧
      Holds names (seen ++ rows) params' := by
  induction rows generalizing seen params with
  | nil => exact ⟨params, rfl, by rwa [List.append_nil]⟩
  | cons row rows ih =>
    obtain ⟨params', hrun, hholds⟩ := ih (fun r hr => h r (List.mem_cons_of_mem row hr))
      (next_holds (h row List.mem_cons_self) hp)
    rw [List.append_assoc, List.singleton_append] at hholds
    exact ⟨params', hrun, hholds⟩

/-- The parameters of the file hold what was written. -/
theorem read_result_file (hne : names ≠ []) (hn : ∀ n ∈ names, Named n)
    (h : ∀ b ∈ buckets, Written names b) (hrow : ∃ b ∈ buckets, b.rows ≠ []) :
    ∃ params, readResultFile names.length ((fileLines names buckets).map line) =
        .ok (some params) ∧ Holds names (buckets.flatMap Bucket.rows) params := by
  have hall := written_widths h
  obtain ⟨row, rows, hcons⟩ := rows_cons hrow
  rw [hcons] at hall
  obtain ⟨params, hrun, hholds⟩ := rows_hold (fun r hr => hall r (List.mem_cons_of_mem row hr))
    (first_holds (hall row List.mem_cons_self))
  refine ⟨params, ?_, hcons ▸ hholds⟩
  rw [readResultFile, read_file_buckets hne hn h none le_rfl, pairs_rows, hcons, ← hrun]
  rfl

end Values

/-- Where each name fits a line with each of its values, the one reader finds
the combinations in their order and the other one the values of each parameter. -/
theorem written_round_trip {names : List Text} {buckets : List Bucket} (hne : names ≠ [])
    (hn : ∀ n ∈ names, Named n) (h : ∀ b ∈ buckets, Written names b)
    (hrow : ∃ b ∈ buckets, b.rows ≠ []) (hf : ∀ b ∈ buckets, Fits names b) :
    let lines := fgetsLines (writeFile names buckets)
    readIntermediateResults names.length (buckets.map fun b => b.rows.length).sum lines =
      .ok (names, buckets.flatMap Bucket.rows) ∧
    getNumParameters lines = names.length ∧
    ∃ params, readResultFile names.length lines = .ok (some params) ∧
      params.map (fun p => p.param.name) = names ∧
      ∀ (i : ℕ) (p : ReadParam), params[i]? = some p →
        p.numValues = p.param.values.length ∧ p.param.values.Nodup ∧
        ∀ v, v ∈ p.param.values ↔ ∃ b ∈ buckets, ∃ row ∈ b.rows, row[i]? = some v := by
  intro lines
  have hlines : lines = (fileLines names buckets).map line := lines_written hn h hf
  rw [hlines]
  obtain ⟨params, hread, hholds⟩ := read_result_file hne hn h hrow
  refine ⟨read_intermediate hne hn h hrow, get_num_parameters hn h hrow, params, hread, ?_, ?_⟩
  · refine List.ext_getElem? fun i => ?_
    rw [List.getElem?_map]
    exact hholds.names i
  · intro i p hp
    obtain ⟨l, hvalues, hcount, hmem⟩ := hholds.values i p hp
    rw [hvalues, hcount]
    refine ⟨l.counted, l.nodup, fun v => ?_⟩
    rw [hmem]
    simp only [List.mem_flatMap]
    constructor
    · rintro ⟨row, ⟨b, hb, hr⟩, hv⟩
      exact ⟨b, hb, row, hr, hv⟩
    · rintro ⟨b, hb, row, hr, hv⟩
      exact ⟨row, ⟨b, hb, hr⟩, hv⟩

section Parameters

open Otpo.ParseLine Otpo.InitializeList

structure Reported (ps : List ListParam) (b : Bucket) : Prop where
  finite : Finite b.result
  count : b.rows.length < 2^31
  values : ∀ row ∈ b.rows, List.Forall₂ (fun p v => v ∈ ValueNames.names p) ps row

variable {ps : List ListParam} {b : Bucket} {row : List Text}

theorem row_values (h : List.Forall₂ (fun p v => v ∈ ValueNames.names p) ps row) :
    ∀ q ∈ (ps.map ListParam.name).zip row,
      ∃ p ∈ ps, q.1 = p.name ∧ q.2 ∈ ValueNames.names p := by
  induction h with
  | nil => exact List.forall_mem_nil _
  | cons hv _ ih =>
    refine List.forall_mem_cons.mpr ⟨⟨_, List.mem_cons_self, rfl, hv⟩, fun q hq => ?_⟩
    obtain ⟨p, hp, heq⟩ := ih q hq
    exact ⟨p, List.mem_cons_of_mem _ hp, heq⟩

theorem reported_written (hv : ∀ p ∈ ps, ∀ v ∈ ValueNames.names p, v ≠ [] ∧ Unbroken v)
    (h : Reported ps b) : Written (ps.map ListParam.name) b := by
  refine ⟨h.finite, h.count, fun row hrow => ?_, fun row hrow v hmem => ?_⟩
  · rw [List.length_map]
    exact (h.values row hrow).length_eq.symm
  · obtain ⟨p, hp, hname⟩ := RelatedLists.left_of_right (h.values row hrow) hmem
    exact hv p hp v hname

theorem reported_fits {text : Text} {fuel n : ℕ} {ess : List (List RpnElement)}
    (hparse : initializeList fuel n (fgetsLines text) = .ok (some (ps, ess)))
    (h : Reported ps b) : Fits (ps.map ListParam.name) b := by
  intro row hrow q hq
  obtain ⟨p, hp, hname, hvalue⟩ := row_values (h.values row hrow) q hq
  rw [hname]
  exact LineWidths.initialized_fit hparse p hp q.2 hvalue

end Parameters

/-- The results over the parameters of a parameter file are read back: the one
reader finds the combinations in their order and the other one the values of
each parameter. -/
theorem result_file_round_trip {text : Text} {fuel n : ℕ} {ps : List ParseLine.ListParam}
    {ess : List (List RpnElement)} {buckets : List Bucket}
    (hparse : InitializeList.initializeList fuel n (fgetsLines text) = .ok (some (ps, ess)))
    (hne : ps ≠ []) (hn : ∀ p ∈ ps, Named p.name)
    (hv : ∀ p ∈ ps, ∀ v ∈ ValueNames.names p, v ≠ [] ∧ Unbroken v)
    (h : ∀ b ∈ buckets, Reported ps b) (hrow : ∃ b ∈ buckets, b.rows ≠ []) :
    let names := ps.map ParseLine.ListParam.name
    let lines := fgetsLines (writeFile names buckets)
    readIntermediateResults ps.length (buckets.map fun b => b.rows.length).sum lines =
      .ok (names, buckets.flatMap Bucket.rows) ∧
    getNumParameters lines = ps.length ∧
    ∃ params, readResultFile ps.length lines = .ok (some params) ∧
      params.map (fun p => p.param.name) = names ∧
      ∀ (i : ℕ) (p : ReadParam), params[i]? = some p →
        p.numValues = p.param.values.length ∧ p.param.values.Nodup ∧
        ∀ v, v ∈ p.param.values ↔ ∃ b ∈ buckets, ∃ row ∈ b.rows, row[i]? = some v := by
  intro names lines
  have hlength : ps.length = names.length := (List.length_map _).symm
  rw [hlength]
  exact written_round_trip (fun hnil => hne (List.map_eq_nil_iff.mp hnil))
    (List.forall_mem_map.mpr hn) (fun b hb => reported_written hv (h b hb)) hrow
    fun b hb => reported_fits hparse (h b hb)

theorem unbroken_all {s : Text} (h : (s.all fun c => !isSpace c) = true) : Unbroken s :=
  fun c hc => by simpa using List.all_eq_true.mp h c hc

/-- Two parameters, three combinations and an empty bucket between them. -/
theorem round_trip_buckets :
    let names := ["a".toList, "b".toList]
    let lines := fgetsLines (writeFile names [⟨1, [["x".toList, "1".toList],
      ["y".toList, "2".toList]]⟩, ⟨101/100, []⟩, ⟨102/100, [["x".toList, "2".toList]]⟩])
    readIntermediateResults 2 3 lines = .ok (names, [["x".toList, "1".toList],
      ["y".toList, "2".toList], ["x".toList, "2".toList]]) ∧ getNumParameters lines = 2 ∧
    ∃ params, readResultFile 2 lines = .ok (some params) ∧
      params.map (fun p => p.param.name) = names ∧
      ∀ (i : ℕ) (p : ReadParam), params[i]? = some p →
        p.numValues = p.param.values.length ∧ p.param.values.Nodup ∧
        ∀ v, v ∈ p.param.values ↔ ∃ b ∈ [(⟨1, [["x".toList, "1".toList],
          ["y".toList, "2".toList]]⟩ : Bucket), ⟨101/100, []⟩,
            ⟨102/100, [["x".toList, "2".toList]]⟩], ∃ row ∈ b.rows, row[i]? = some v := by
  have hparse : ∃ p q, InitializeList.initializeList 5 2
      (fgetsLines "a -p {x y}\nb -r 1 2 -t increment + 1\n".toList) =
        .ok (some ([p, q], [[], []])) ∧ p.name = "a".toList ∧ q.name = "b".toList ∧
        ValueNames.names p = ["x".toList, "y".toList] ∧
        ValueNames.names q = ["1".toList, "2".toList] := by
    refine ⟨_, _, rfl, rfl, rfl, rfl, rfl⟩
  obtain ⟨p, q, hparse, hp, hq, hpvalues, hqvalues⟩ := hparse
  have hclean : ∀ v ∈ ["x".toList, "y".toList, "1".toList, "2".toList],
      v ≠ [] ∧ Unbroken v := by
    simp only [List.forall_mem_cons]
    exact ⟨⟨by decide, unbroken_all rfl⟩, ⟨by decide, unbroken_all rfl⟩,
      ⟨by decide, unbroken_all rfl⟩, ⟨by decide, unbroken_all rfl⟩, List.forall_mem_nil _⟩
  have hnames : [p, q].map ParseLine.ListParam.name = ["a".toList, "b".toList] := by
    rw [List.map_cons, List.map_singleton, hp, hq]
  have hfinite {x : ℚ} (hx : |x| < 2) : NumberText.Finite x :=
    hx.trans_le (le_self_pow₀ one_le_two (by decide))
  have hnamed : ∀ r ∈ [p, q], Named r.name := by
    simp only [List.forall_mem_cons, hp, hq]
    exact ⟨⟨⟨_, _, rfl, by decide⟩, unbroken_all rfl⟩,
      ⟨⟨_, _, rfl, by decide⟩, unbroken_all rfl⟩, List.forall_mem_nil _⟩
  have hvalues : ∀ r ∈ [p, q], ∀ v ∈ ValueNames.names r, v ≠ [] ∧ Unbroken v := by
    simp only [List.forall_mem_cons, hpvalues, hqvalues]
    simp only [List.forall_mem_cons] at hclean
    tauto
  have hreported : ∀ b ∈ [(⟨1, [["x".toList, "1".toList], ["y".toList, "2".toList]]⟩ : Bucket),
      ⟨101/100, []⟩, ⟨102/100, [["x".toList, "2".toList]]⟩], Reported [p, q] b := by
    simp only [List.forall_mem_cons]
    refine ⟨⟨hfinite (by norm_num), by decide, ?_⟩, ⟨hfinite (by norm_num), by decide, ?_⟩,
      ⟨hfinite (by norm_num), by decide, ?_⟩, List.forall_mem_nil _⟩
    all_goals simp [hpvalues, hqvalues]
  have htrip := result_file_round_trip hparse (List.cons_ne_nil p [q]) hnamed hvalues hreported
    ⟨_, List.mem_cons_self, List.cons_ne_nil _ _⟩
  rw [hnames] at htrip
  exact htrip

end Otpo.ResultRoundTrip
