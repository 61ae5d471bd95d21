import Otpo.GeneratedBounds
import Otpo.ResultRoundTrip

/-!
# From the results of runs to the next parameter file

The results of some runs are written, read and united, and the parameter file
that comes of it is read again. In between only the texts of the files are
handed on.
-/

set_option autoImplicit false

namespace Otpo.NextInput
open Otpo.ParamList Otpo.ResultFile Otpo.ResultLines Otpo.ValueMerge Otpo.GeneratedInput
open Otpo.GeneratedBounds Otpo.ResultRoundTrip
open Tokenizer (Clean)

/-- What a run writes: at least one combination, and a line for each of its
values that the readers take in at once. -/
structure Results where
  names : List Text
  buckets : List Bucket
  nonempty : names ≠ []
  named : ∀ n ∈ names, Named n
  written : ∀ b ∈ buckets, Written names b
  fits : ∀ b ∈ buckets, Fits names b
  reported : ∃ b ∈ buckets, b.rows ≠ []

def Results.lines (r : Results) : List Text := fgetsLines (writeFile r.names r.buckets)

def Results.Reports (r : Results) (n v : Text) : Prop :=
  ∃ i : ℕ, r.names[i]? = some n ∧ ∃ b ∈ r.buckets, ∃ row ∈ b.rows, row[i]? = some v

structure Results.Found (r : Results) (params : List ResultParam) : Prop where
  names : params.map ResultParam.name = r.names
  values : ∀ (i : ℕ) (p : ResultParam), params[i]? = some p →
    ∀ v, v ∈ p.values ↔ ∃ b ∈ r.buckets, ∃ row ∈ b.rows, row[i]? = some v

variable {r : Results} {params : List ResultParam} {n v : Text}

theorem readFile_found (r : Results) : ∃ params, readFile r.lines = .ok params ∧ r.Found params := by
  obtain ⟨-, hnum, params, hread, hnames, hvalues⟩ :=
    written_round_trip r.nonempty r.named r.written r.reported r.fits
  refine ⟨params.map ReadParam.param, ?_, ?_, ?_⟩
  · rw [Results.lines, readFile, hnum, hread]
  · rw [List.map_map]
    exact hnames
  · intro i p hp v
    rw [List.getElem?_map, Option.map_eq_some_iff] at hp
    obtain ⟨q, hq, rfl⟩ := hp
    exact (hvalues i q hq).2.2 v

theorem files_found (files : List Results) : ∃ ps,
    (files.map Results.lines).mapM readFile = .ok ps ∧ List.Forall₂ Results.Found files ps := by
  induction files with
  | nil => exact ⟨[], rfl, .nil⟩
  | cons r files ih =>
    obtain ⟨params, hread, hfound⟩ := readFile_found r
    obtain ⟨ps, hreads, hall⟩ := ih
    refine ⟨params::ps, ?_, .cons hfound hall⟩
    rw [List.map_cons, List.mapM_cons, hread, hreads]
    rfl

theorem Results.Found.mem_names (h : r.Found params) :
    (∃ p ∈ params, p.name = n) ↔ n ∈ r.names := by
  rw [← h.names, List.mem_map]

theorem Results.Found.mem_values (h : r.Found params) :
    (∃ p ∈ params, p.name = n ∧ v ∈ p.values) ↔ r.Reports n v := by
  unfold Results.Reports
  simp only [← h.names, List.getElem?_map, Option.map_eq_some_iff]
  constructor
  · rintro ⟨p, hp, hn, hv⟩
    obtain ⟨i, hi⟩ := List.getElem?_of_mem hp
    exact ⟨i, ⟨p, hi, hn⟩, (h.values i p hi v).mp hv⟩
  · rintro ⟨i, ⟨p, hi, hn⟩, hv⟩
    exact ⟨p, List.mem_of_getElem? hi, hn, (h.values i p hi v).mpr hv⟩

theorem unbroken_clean {s : Text} (hne : s ≠ []) (h : Unbroken s) :
    Clean isConditionDelimiter s := by
  refine ⟨hne, fun c hc => ?_⟩
  have hspace := h c hc
  by_contra hd
  simp only [isConditionDelimiter, Bool.not_eq_false, Bool.or_eq_true, beq_iff_eq] at hd
  obtain (rfl | rfl) | rfl := hd
  · exact absurd hspace (by decide)
  · exact absurd hspace (by decide)
  · exact absurd hspace (by decide)

theorem Results.Found.clean (h : r.Found params) {p : ResultParam} (hp : p ∈ params) :
    Clean isConditionDelimiter p.name ∧ ∀ v ∈ p.values, Clean isConditionDelimiter v := by
  constructor
  · have hnamed := r.named p.name (h.names ▸ List.mem_map_of_mem hp)
    obtain ⟨c, cs, hletter, -⟩ := hnamed.letter
    exact unbroken_clean (by simp [hletter]) hnamed.unbroken
  · intro v hv
    obtain ⟨i, hi⟩ := List.getElem?_of_mem hp
    obtain ⟨b, hb, row, hrow, hget⟩ := (h.values i p hi v).mp hv
    have hvalue := (r.written b hb).values row hrow v (List.mem_of_getElem? hget)
    exact unbroken_clean hvalue.1 hvalue.2

theorem reports_some (r : Results) (hn : n ∈ r.names) : ∃ v, r.Reports n v := by
  obtain ⟨b, hb, hrows⟩ := r.reported
  obtain ⟨row, rows, hrow⟩ := List.exists_cons_of_ne_nil hrows
  have hmem : row ∈ b.rows := by simp [hrow]
  obtain ⟨i, hi⟩ := List.getElem?_of_mem hn
  have hlt : i < row.length := by
    rw [(r.written b hb).width row hmem]
    exact (List.getElem?_eq_some_iff.mp hi).1
  exact ⟨row[i], i, hi, b, hb, row, hmem, List.getElem?_eq_getElem hlt⟩

section union

variable {files : List Results} {ps : List (List ResultParam)}

theorem found_words (h : List.Forall₂ Results.Found files ps) : Words ps := by
  intro params hparams p hp
  obtain ⟨i, hi, rfl⟩ := List.getElem_of_mem hparams
  exact (h.get (h.length_eq ▸ hi) hi).clean hp

theorem exists_found {P : Results → Prop} {Q : List ResultParam → Prop}
    (h : List.Forall₂ Results.Found files ps)
    (hiff : ∀ r params, r.Found params → (Q params ↔ P r)) :
    (∃ params ∈ ps, Q params) ↔ ∃ r ∈ files, P r := by
  induction h with
  | nil => simp
  | cons hfound _ ih => rw [List.exists_mem_cons_iff, List.exists_mem_cons_iff, ih, hiff _ _ hfound]

/-- The united file has each name of the results once, with each value that some
run reported for it once, in the order of their numbers. It is read as these
names and values exactly within the bounds of the parser. -/
theorem next_input (files : List Results) (fuel : ℕ) : ∃ cs text,
    generateInputFile .union (files.map Results.lines) = .ok text ∧
    (cs.map CombinedParam.name).Nodup ∧
    (∀ n, n ∈ cs.map CombinedParam.name ↔ ∃ r ∈ files, n ∈ r.names) ∧
    (∀ c ∈ cs, c.values ≠ [] ∧ c.values.Nodup ∧ (c.values.Pairwise fun a b => atoi a ≤ atoi b) ∧
      ∀ v, v ∈ c.values ↔ ∃ r ∈ files, r.Reports c.name v) ∧
    (Kept fuel cs text ↔ ∀ c ∈ cs, Accepted c) := by
  obtain ⟨ps, hread, hfound⟩ := files_found files
  have hnames (n : Text) : n ∈ (union ps).map CombinedParam.name ↔ ∃ r ∈ files, n ∈ r.names := by
    rw [union_map_name, mem_union_names]
    exact exists_found hfound fun _ _ h => h.mem_names
  have hvalues {c : CombinedParam} (hc : c ∈ union ps) (v : Text) :
      v ∈ c.values ↔ ∃ r ∈ files, r.Reports c.name v := by
    rw [(union_list hc).1]
    exact exists_found hfound fun _ _ h => h.mem_values
  have hnonempty {c : CombinedParam} (hc : c ∈ union ps) : c.values ≠ [] := by
    obtain ⟨r, hr, hn⟩ := (hnames c.name).mp (List.mem_map_of_mem hc)
    obtain ⟨v, hv⟩ := reports_some r hn
    exact List.ne_nil_of_mem ((hvalues hc v).mpr ⟨r, hr, hv⟩)
  have hall : GeneratedInput.written (union ps) = union ps := by
    apply List.filter_eq_self.mpr
    intro c hc
    have hlength := List.length_pos_iff.mpr (hnonempty hc)
    rw [(union_list hc).2.2.2]
    exact decide_eq_true (by omega)
  have hwell : ∀ c ∈ GeneratedInput.written (union ps), Wellformed c :=
    fun c hc => written_wellformed (found_words hfound)
      (show combined .union ps = .ok (union ps) from rfl) hc
  refine ⟨union ps, writeInputFile (union ps), ?_, union_names_nodup ps, hnames, ?_, ?_⟩
  · rw [generateInputFile, hread]
    rfl
  · intro c hc
    obtain ⟨-, hnodup, hsorted, -⟩ := union_list hc
    exact ⟨hnonempty hc, hnodup, hsorted, hvalues hc⟩
  · constructor
    · intro h
      have := kept_accepted hwell h
      rwa [hall] at this
    · intro h
      exact generated_kept hwell (by rwa [hall]) fuel

end union

end Otpo.NextInput
