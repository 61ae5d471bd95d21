import Otpo.ResultLines
import Otpo.Library.Substring

/-!
# Configuration files

A tool splits a result file: it copies the lines of the transport layer, with
an equal sign for the first blank, and opens another file at each line of
stars. The file that is open at the end is removed.
-/

set_option autoImplicit false

namespace Otpo.ConfigFiles
open Otpo.ParamList Otpo.NumberText Otpo.ResultFile Otpo.ResultLines

section Program

def bufSize : ℕ := 80

def btl : Text := "btl_".toList

def mark : Text := "****".toList

def replaceStr (orig rep : Text) : Text → Text
  | [] => if orig <+: [] then rep else []
  | c::cs => if orig <+: c::cs then rep ++ (c::cs).drop orig.length else c::replaceStr orig rep cs

structure Writer where
  files : ℕ → Option Text
  i : ℕ

def openFile (files : ℕ → Option Text) (i : ℕ) : Writer :=
  ⟨Function.update files i (some []), i⟩

def write (w : Writer) (text : Text) : Writer :=
  { w with files := Function.update w.files w.i ((w.files w.i).map (· ++ text)) }

def next (w : Writer) : Writer := openFile (write w ['\n']).files (w.i+1)

def step (w : Writer) (line : Text) : Writer :=
  if btl <:+: line then write w (replaceStr " ".toList "=".toList line)
  else if mark <:+: line then next w
  else w

def feed (w : Writer) (text : Text) : Writer :=
  (BoundedLines.lines '\n' (bufSize-1) text).foldl step w

def writeMultiMca (files : ℕ → Option Text) (text : Text) : ℕ → Option Text :=
  let w := feed (openFile files 1) text
  Function.update w.files w.i none

end Program

section Purpose

def option (q : Text × Text) : Text := q.1 ++ '='::q.2

def options (names row : List Text) : Text :=
  ((names.zip row).filter fun q => btl <:+: entryLine q).flatMap fun q => line (option q)

def config (names row : List Text) : Text := options names row ++ ['\n']

structure Separable (names : List Text) (buckets : List Bucket) : Prop where
  name : ∀ n ∈ names, ' ' ∉ n ∧ '\n' ∉ n
  value : ∀ b ∈ buckets, ∀ row ∈ b.rows, ∀ v ∈ row, '\n' ∉ v
  fits : ∀ b ∈ buckets, ∀ row ∈ b.rows, ∀ q ∈ names.zip row,
    btl <:+: entryLine q → (entryLine q).length < bufSize-1
  others : ∀ b ∈ buckets, ∀ row ∈ b.rows, ∀ q ∈ names.zip row,
    ¬ btl <:+: entryLine q → ¬ mark <:+: entryLine q

end Purpose

section Writing

variable {w : Writer}

theorem write_nil (w : Writer) : write w [] = w := by
  have hsame : (w.files w.i).map (· ++ ([]:Text)) = w.files w.i := by simp
  rw [write, hsame, Function.update_eq_self]

theorem write_write (w : Writer) (a b : Text) : write (write w a) b = write w (a ++ b) := by
  have hmap : ((w.files w.i).map (· ++ a)).map (· ++ b) = (w.files w.i).map (· ++ (a ++ b)) := by
    rw [Option.map_map]
    congr 1
    funext text
    exact List.append_assoc text a b
  simp only [write, Function.update_self, Function.update_idem, hmap]

/-- The blank behind the name is the first one. -/
theorem replace_blank {n : Text} (h : ' ' ∉ n) (s : Text) :
    replaceStr " ".toList "=".toList (n ++ ' '::s) = n ++ '='::s := by
  induction n with
  | nil => rfl
  | cons c n ih =>
    rw [List.mem_cons, not_or] at h
    have hother : ¬ " ".toList <+: c::(n ++ ' '::s) := fun hp =>
      h.1 (List.cons_prefix_cons.mp hp).1
    rw [List.cons_append, replaceStr, if_neg hother, ih h.2]
    rfl

theorem part_line {part l : Text} (hne : part ≠ []) (hnl : '\n' ∉ part) :
    part <:+: line l ↔ part <:+: l := by
  constructor
  · intro h
    rcases Substring.infix_seam hnl h with h | h
    · exact h
    · exact absurd (List.infix_nil.mp h) hne
  · exact fun h => h.trans (List.prefix_append _ _).isInfix

theorem btl_line {l : Text} : btl <:+: line l ↔ btl <:+: l := part_line (by decide) (by decide)

theorem mark_line {l : Text} : mark <:+: line l ↔ mark <:+: l := part_line (by decide) (by decide)

end Writing

section Feeding

variable {A : Type} {w : Writer}

def Feeds (text : Text) (f : Writer → Writer) : Prop :=
  ∀ rest w, feed w (text ++ rest) = feed (f w) rest

theorem feeds_append {text text' : Text} {f g : Writer → Writer} (hf : Feeds text f)
    (hg : Feeds text' g) : Feeds (text ++ text') (g ∘ f) := by
  intro rest w
  rw [List.append_assoc, hf, hg]
  rfl

theorem feeds_flat_map {as : List A} {f : A → Text} {g : Writer → A → Writer}
    (h : ∀ a ∈ as, Feeds (f a) (g · a)) : Feeds (as.flatMap f) (as.foldl g ·) := by
  induction as with
  | nil => exact fun _ _ => rfl
  | cons a as ih =>
    rw [List.flatMap_cons]
    exact feeds_append (h a List.mem_cons_self) (ih fun b hb => h b (List.mem_cons_of_mem a hb))

theorem feeds_line {l : Text} (hl : '\n' ∉ l) (hfits : l.length < bufSize-1) :
    Feeds (line l) (step · (line l)) := by
  intro rest w
  rw [line, List.append_assoc, List.singleton_append, feed, BoundedLines.lines_line hl hfits]
  rfl

theorem steps_other {ps : List Text} (h : ∀ p ∈ ps, ¬ btl <:+: p ∧ ¬ mark <:+: p) (w : Writer) :
    ps.foldl step w = w := by
  induction ps with
  | nil => rfl
  | cons p ps ih =>
    obtain ⟨hbtl, hmark⟩ := h p List.mem_cons_self
    rw [List.foldl_cons, step, if_neg hbtl, if_neg hmark]
    exact ih fun p' hp' => h p' (List.mem_cons_of_mem p hp')

/-- A line of any length in which there is nothing to look for. -/
theorem feeds_other {l : Text} (hbtl : ¬ btl <:+: l) (hmark : ¬ mark <:+: l) :
    Feeds (line l) id := by
  intro rest w
  obtain ⟨ps, hlines, hparts⟩ := BoundedLines.lines_split '\n' (bufSize-1) l rest
  have hskip : ps.foldl step w = w := steps_other (fun p hp =>
    ⟨fun h => hbtl (btl_line.mp (h.trans (hparts p hp))),
      fun h => hmark (mark_line.mp (h.trans (hparts p hp)))⟩) w
  rw [line, List.append_assoc, List.singleton_append, feed, hlines, List.foldl_append, hskip]
  rfl

theorem feeds_entry {q : Text × Text} (hn : ' ' ∉ q.1 ∧ '\n' ∉ q.1) (hv : '\n' ∉ q.2)
    (hfits : btl <:+: entryLine q → (entryLine q).length < bufSize-1)
    (hother : ¬ btl <:+: entryLine q → ¬ mark <:+: entryLine q) :
    Feeds (line (entryLine q))
      (write · (([q].filter fun q => btl <:+: entryLine q).flatMap fun q => line (option q))) := by
  rw [List.filter_singleton]
  by_cases hbtl : btl <:+: entryLine q
  · have hnewline : '\n' ∉ entryLine q := by
      rw [entryLine, List.mem_append, List.mem_cons]
      rintro (hc | hc | hc)
      · exact hn.2 hc
      · exact absurd hc (by decide)
      · exact hv hc
    have hreplace : replaceStr " ".toList "=".toList (line (entryLine q)) = line (option q) := by
      rw [line, entryLine, List.append_assoc, List.cons_append, replace_blank hn.1, line, option,
        List.append_assoc, List.cons_append]
    intro rest w
    have hstep : step w (line (entryLine q)) = write w (line (option q)) := by
      rw [step, if_pos (btl_line.mpr hbtl), hreplace]
    rw [feeds_line hnewline (hfits hbtl), decide_eq_true hbtl, cond_true, List.flatMap_singleton]
    exact congrArg (feed · rest) hstep
  · intro rest w
    rw [feeds_other hbtl (hother hbtl), decide_eq_false hbtl]
    exact congrArg (feed · rest) (write_nil w).symm

theorem write_all {qs : List A} (f : A → Text) (w : Writer) :
    qs.foldl (fun w q => write w (f q)) w = write w (qs.flatMap f) := by
  induction qs generalizing w with
  | nil => exact (write_nil w).symm
  | cons q qs ih => rw [List.foldl_cons, ih, write_write, List.flatMap_cons]

end Feeding

section Files

variable {names row : List Text} {rows : List (List Text)} {buckets : List Bucket} {w : Writer}

def turn (names : List Text) (w : Writer) (row : List Text) : Writer :=
  next (write w (options names row))

theorem feeds_row (hn : ∀ n ∈ names, ' ' ∉ n ∧ '\n' ∉ n) (hv : ∀ v ∈ row, '\n' ∉ v)
    (hfits : ∀ q ∈ names.zip row, btl <:+: entryLine q → (entryLine q).length < bufSize-1)
    (hothers : ∀ q ∈ names.zip row, ¬ btl <:+: entryLine q → ¬ mark <:+: entryLine q) :
    Feeds ((rowLines names row).flatMap line) (turn names · row) := by
  have hentries := feeds_flat_map fun q hq => feeds_entry (hn q.1 (List.of_mem_zip hq).1)
    (hv q.2 (List.of_mem_zip hq).2) (hfits q hq) (hothers q hq)
  have hstars : Feeds (line stars) next := by
    intro rest w
    have hstep : step w (line stars) = next w := by
      rw [step, if_neg (by decide), if_pos (by decide)]
    rw [feeds_line (by decide) (by decide)]
    exact congrArg (feed · rest) hstep
  have hbody : ∀ w, (names.zip row).foldl (fun w q => write w
      (([q].filter fun q => btl <:+: entryLine q).flatMap fun q => line (option q))) w =
        write w (options names row) := by
    intro w
    rw [write_all, options, ← List.flatMap_assoc, ← List.filter_flatMap, List.flatMap_singleton']
  rw [rowLines, List.flatMap_append, List.flatMap_map, List.flatMap_singleton]
  intro rest w
  rw [feeds_append hentries hstars, Function.comp_apply, hbody]
  rfl

/-- The lines in front of the combinations of a bucket. -/
theorem feeds_head (b : Bucket) : Feeds (line [] ++ (line separator ++ line (header b))) id := by
  have hheader : ∀ c ∈ header b, c ≠ '_' ∧ c ≠ '*' := by
    intro c hc
    rw [header, List.mem_append, List.mem_cons] at hc
    rcases hc with hc | rfl | hc
    · rcases mem_print_f hc with hc | rfl | rfl
      · constructor <;> rintro rfl <;> exact absurd hc (by decide)
      · decide
      · decide
    · decide
    · have hdigit := print_digits hc
      constructor <;> rintro rfl <;> exact absurd hdigit (by decide)
  have hempty : Feeds (line []) id := feeds_other (by decide) (by decide)
  have hsep : Feeds (line separator) id := feeds_other (by decide) (by decide)
  exact feeds_append hempty (feeds_append hsep (feeds_other
    (fun h => (hheader '_' (h.subset (by decide))).1 rfl)
    (fun h => (hheader '*' (h.subset (by decide))).2 rfl)))

theorem feeds_file (h : Separable names buckets) :
    Feeds (writeFile names buckets) ((buckets.flatMap Bucket.rows).foldl (turn names) ·) := by
  have hbucket : ∀ b ∈ buckets, Feeds ((bucketLines names b).flatMap line)
      (b.rows.foldl (turn names) ·) := by
    intro b hb
    have hrows := feeds_flat_map fun row hrow => feeds_row h.name (h.value b hb row hrow)
      (h.fits b hb row hrow) (h.others b hb row hrow)
    have hall := feeds_append (feeds_head b) hrows
    rw [List.append_assoc, List.append_assoc] at hall
    rw [bucketLines, List.flatMap_cons, List.flatMap_cons, List.flatMap_cons, List.flatMap_assoc]
    exact hall
  have hfile := feeds_flat_map hbucket
  rw [← List.flatMap_assoc] at hfile
  simp only [List.foldl_flatMap]
  exact hfile

structure Left (names : List Text) (rows : List (List Text)) (w w' : Writer) : Prop where
  index : w'.i = w.i+rows.length
  written : ∀ (k : ℕ) (row : List Text), rows[k]? = some row →
    w'.files (w.i+k) = some (config names row)
  opened : w'.files w'.i = some []
  kept : ∀ j, j < w.i ∨ w'.i < j → w'.files j = w.files j

theorem turn_index (w : Writer) (row : List Text) : (turn names w row).i = w.i+1 := rfl

theorem turn_opened (w : Writer) (row : List Text) :
    (turn names w row).files (w.i+1) = some [] := Function.update_self _ _ _

theorem turn_written (h : w.files w.i = some []) (row : List Text) :
    (turn names w row).files w.i = some (config names row) := by
  have hbody : (write w (config names row)).files w.i = some (config names row) := by
    rw [write, h]
    exact Function.update_self _ _ _
  rw [turn, next, write_write]
  exact (Function.update_of_ne (Nat.ne_of_lt (Nat.lt_succ_self w.i)) _ _).trans hbody

theorem turn_kept (row : List Text) {j : ℕ} (hj : j ≠ w.i) (hnext : j ≠ w.i+1) :
    (turn names w row).files j = w.files j := by
  rw [turn, next, write_write, openFile]
  exact (Function.update_of_ne hnext _ _).trans (Function.update_of_ne hj _ _)

theorem turns_left (h : w.files w.i = some []) (rows : List (List Text)) :
    Left names rows w (rows.foldl (turn names) w) := by
  induction rows generalizing w with
  | nil => exact ⟨rfl, (fun k row hk => by cases hk), h, fun _ _ => rfl⟩
  | cons row rows ih =>
    have hnext := ih (w := turn names w row) (turn_opened w row)
    have hindex : ((row::rows).foldl (turn names) w).i = w.i+1+rows.length := hnext.index
    constructor
    · rw [hindex, List.length_cons]
      omega
    · intro k r hk
      cases k with
      | zero =>
        cases hk
        exact (hnext.kept w.i (Or.inl (Nat.lt_succ_self _))).trans (turn_written h _)
      | succ k =>
        have hk' := hnext.written k r hk
        rwa [turn_index, Nat.add_right_comm] at hk'
    · exact hnext.opened
    · intro j hj
      rw [hindex] at hj
      have hout : j < w.i+1 ∨ ((row::rows).foldl (turn names) w).i < j := by omega
      exact (hnext.kept j hout).trans (turn_kept row (by omega) (by omega))

end Files

/-- Each combination gets one file, which holds the options of the transport
layer in their order; the file behind the last one is removed, and others stay. -/
theorem split_files {names : List Text} {buckets : List Bucket} (h : Separable names buckets)
    (files : ℕ → Option Text) :
    let rows := buckets.flatMap Bucket.rows
    let left := writeMultiMca files (writeFile names buckets)
    (∀ (k : ℕ) (row : List Text), rows[k]? = some row → left (k+1) = some (config names row)) ∧
      left (rows.length+1) = none ∧
      ∀ j, j = 0 ∨ rows.length+1 < j → left j = files j := by
  intro rows left
  have hfile := feeds_file h [] (openFile files 1)
  rw [List.append_nil] at hfile
  have hopen : (openFile files 1).files (openFile files 1).i = some [] := by
    simp only [openFile, Function.update_self]
  have hturns : Left names rows (openFile files 1) (feed (openFile files 1)
      (writeFile names buckets)) := hfile ▸ turns_left hopen rows
  have hindex : (feed (openFile files 1) (writeFile names buckets)).i = 1+rows.length :=
    hturns.index
  have hother : ∀ j, j ≠ rows.length+1 →
      left j = (feed (openFile files 1) (writeFile names buckets)).files j := fun j hj =>
    Function.update_of_ne (by omega) _ _
  refine ⟨fun k row hk => ?_, ?_, fun j hj => ?_⟩
  · obtain ⟨hlt, -⟩ := List.getElem?_eq_some_iff.mp hk
    rw [hother (k+1) (by omega), Nat.add_comm]
    exact hturns.written k row hk
  · change Function.update _ _ _ _ = _
    rw [hindex, Nat.add_comm, Function.update_self]
  · have hout : j < (openFile files 1).i ∨
        (feed (openFile files 1) (writeFile names buckets)).i < j := by
      rw [hindex, openFile]
      change j < 1 ∨ _
      omega
    rw [hother j (by omega), hturns.kept j hout, openFile]
    exact Function.update_of_ne (by omega) _ _

/-- Two parameters of the transport layer in three combinations, in a directory
with older files. -/
theorem split_layers :
    let names := ["btl_b".toList, "mpi_x".toList, "btl_a".toList]
    let buckets : List Bucket := [⟨1, [["1".toList, "7".toList, "2".toList],
      ["3".toList, "7".toList, "4".toList]]⟩, ⟨101/100, []⟩,
        ⟨102/100, [["5".toList, "7".toList, "6".toList]]⟩]
    let left := writeMultiMca (fun _ => some "old".toList) (writeFile names buckets)
    left 1 = some "btl_b=1\nbtl_a=2\n\n".toList ∧ left 2 = some "btl_b=3\nbtl_a=4\n\n".toList ∧
      left 3 = some "btl_b=5\nbtl_a=6\n\n".toList ∧ left 4 = none ∧ left 5 = some "old".toList := by
  intro names buckets left
  have hseparable : Separable names buckets := ⟨by decide, by decide, by decide, by decide⟩
  obtain ⟨hfiles, hlast, hkept⟩ := split_files hseparable fun _ => some "old".toList
  have hfirst : config names ["1".toList, "7".toList, "2".toList] =
      "btl_b=1\nbtl_a=2\n\n".toList := by decide
  have hsecond : config names ["3".toList, "7".toList, "4".toList] =
      "btl_b=3\nbtl_a=4\n\n".toList := by decide
  have hthird : config names ["5".toList, "7".toList, "6".toList] =
      "btl_b=5\nbtl_a=6\n\n".toList := by decide
  exact ⟨hfirst ▸ hfiles 0 _ rfl, hsecond ▸ hfiles 1 _ rfl, hthird ▸ hfiles 2 _ rfl, hlast,
    hkept 5 (Or.inr (by decide))⟩

/-- A parameter of another layer is in no file. -/
theorem split_skips :
    let buckets : List Bucket := [⟨1, [["7".toList], ["7".toList]]⟩]
    let left := writeMultiMca (fun _ => none) (writeFile ["a".toList] buckets)
    Separable ["a".toList] buckets ∧
      ¬ ∃ text, left 1 = some text ∧ "a=7".toList <:+: text := by
  intro buckets left
  refine ⟨⟨by decide, by decide, by decide, by decide⟩, ?_⟩
  rintro ⟨text, hleft, hpart⟩
  have hfile : left 1 = some ['\n'] := by decide +kernel
  rw [hfile] at hleft
  cases hleft
  exact absurd hpart (by decide)

end Otpo.ConfigFiles
