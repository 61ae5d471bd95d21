import Otpo.ResultBuckets
import Otpo.ValueMerge
import Otpo.NumberText
import Otpo.Library.Tokenizer
import Otpo.Library.BoundedLines

/-!
# The result file

One writer and two readers. The readers take the text in pieces of a line
buffer; the file ends each combination with a line of stars.
-/

set_option autoImplicit false

namespace Otpo.ResultFile
open Otpo.ParamList Otpo.NumberText Otpo.ValueMerge

def lineSize : ℕ := 1000

def fgetsLines (text : Text) : List Text := BoundedLines.lines '\n' (lineSize-1) text

section Writing

structure Bucket where
  result : ℚ
  rows : List (List Text)
  deriving DecidableEq, Repr

def named (valuesNames : ℕ → List Text) (b : ResultBuckets.Bucket) : Bucket :=
  ⟨b.result, b.functions.map valuesNames⟩

def separator : Text := List.replicate 60 '='

def stars : Text := List.replicate 54 '*'

def header (b : Bucket) : Text := printF b.result ++ ' '::printD b.rows.length

def entryLine (q : Text × Text) : Text := q.1 ++ ' '::q.2

def rowLines (names row : List Text) : List Text := (names.zip row).map entryLine ++ [stars]

def bucketLines (names : List Text) (b : Bucket) : List Text :=
  [] :: separator :: header b :: b.rows.flatMap (rowLines names)

def fileLines (names : List Text) (buckets : List Bucket) : List Text :=
  buckets.flatMap (bucketLines names)

def writeFile (names : List Text) (buckets : List Bucket) : Text :=
  (fileLines names buckets).flatMap fun l => l ++ ['\n']

/-- The header announces the number that the bucket was written with. -/
theorem named_count (valuesNames : ℕ → List Text) (test : BadRuns.Test) (e : Adcl.Emethod)
    (n : ℚ) : (named valuesNames (ResultBuckets.printOutput test e n)).rows.length =
      (ResultBuckets.printOutput test e n).numFunctions := by
  rw [named, List.length_map, ResultBuckets.num_functions_length]

end Writing

section Reading

def startsWith (c : Char) (line : Text) : Bool := line.head? == some c

def twoTokens (line : Text) : Option (Text × Text) :=
  match Tokenizer.next isConditionDelimiter line with
  | none => none
  | some (first, rest) =>
    (Tokenizer.next isConditionDelimiter rest).map fun second => (first, second.1)

/-- The next line that is not of stars. Behind the end of the file the last
line is looked at again: one of stars is skipped forever, and `strtok` has left
one token at most in another one. -/
def skipStars : List Text → Option (Text × List Text)
  | [] => none
  | l::ls => if startsWith '*' l then skipStars ls else some (l, ls)

def readRow : ℕ → List Text → Except Fault (List (Text × Text) × List Text)
  | 0, ls => .ok ([], ls)
  | k+1, ls =>
    match skipStars ls with
    | none => .error .undefined
    | some (l, ls) =>
      match twoTokens l with
      | none => .error .undefined
      | some q =>
        match readRow k ls with
        | .error f => .error f
        | .ok (qs, ls) => .ok (q::qs, ls)

def readRows (k : ℕ) : ℕ → List Text → Except Fault (List (List (Text × Text)) × List Text)
  | 0, ls => .ok ([], ls)
  | n+1, ls =>
    match readRow k ls with
    | .error f => .error f
    | .ok (row, ls) =>
      match readRows k n ls with
      | .error f => .error f
      | .ok (rows, ls) => .ok (row::rows, ls)

/-- The loop over the lines of the file; each round takes one of them at least.
The array ends at `numFunctions`. A negative number of combinations, which
would move back in it, is never written. -/
def readLoop (k numFunctions : ℕ) :
    ℕ → List Text → List (List (Text × Text)) → Except Fault (List (List (Text × Text)))
  | _, [], rows => .ok rows
  | 0, _::_, _ => .error .undefined
  | fuel+1, l::ls, rows =>
    if startsWith '\n' l || startsWith '=' l || startsWith '*' l then
      readLoop k numFunctions fuel ls rows
    else if (Tokenizer.next isConditionDelimiter l).isNone then
      readLoop k numFunctions fuel ls rows
    else
      match twoTokens l with
      | none => .error .undefined
      | some (_, token) =>
        if atoi token < 0 ∨ numFunctions < rows.length+(atoi token).toNat then .error .undefined
        else
          match readRows k (atoi token).toNat ls with
          | .error f => .error f
          | .ok (more, ls) => readLoop k numFunctions fuel ls (rows ++ more)

def readIntermediateResults (numParameters numFunctions : ℕ) (lines : List Text) :
    Except Fault (List Text × List (List Text)) :=
  match readLoop numParameters numFunctions lines.length lines [] with
  | .error f => .error f
  | .ok rows => .ok ((rows.headD []).map Prod.fst, rows.map fun row => row.map Prod.snd)

/-- The loop of `get_num_parameters`; behind a line of equal signs one line is
read without a look at it. -/
def countLoop : Bool → List Text → ℕ → ℕ
  | _, [], count => count
  | true, _::ls, count => countLoop false ls count
  | false, l::ls, count =>
    if startsWith '\n' l then countLoop false ls count
    else if startsWith '*' l then count
    else if startsWith '=' l then countLoop true ls count
    else countLoop false ls (count+1)

def getNumParameters (lines : List Text) : ℕ := countLoop false lines 0

def readEntries : ℕ → Text → List Text → Except Fault (List (Text × Text) × List Text)
  | 0, _, ls => .ok ([], ls)
  | k+1, l, ls =>
    match twoTokens l with
    | none => .error .undefined
    | some q =>
      match ls with
      | [] => if k = 0 then .ok ([q], []) else .error .undefined
      | m::ls =>
        match readEntries k m ls with
        | .error f => .error f
        | .ok (qs, ls) => .ok (q::qs, ls)

structure ReadParam where
  param : ResultParam
  numValues : ℕ
  deriving DecidableEq, Repr

def firstParam (q : Text × Text) : ReadParam :=
  let (values, numValues) := insert q.2 [] 0
  ⟨⟨q.1, values⟩, numValues⟩

def addValue (p : ReadParam) (value : Text) : ReadParam :=
  let (values, numValues) := insert value p.param.values p.numValues
  ⟨{ p.param with values }, numValues⟩

def addEntries (params : Option (List ReadParam)) (qs : List (Text × Text)) : List ReadParam :=
  match params with
  | none => qs.map firstParam
  | some params => List.zipWith (fun p q => addValue p q.2) params qs

def readFileLoop (numParams : ℕ) :
    ℕ → List Text → Option (List ReadParam) → Except Fault (Option (List ReadParam))
  | _, [], params => .ok params
  | 0, _::_, _ => .error .undefined
  | fuel+1, l::ls, params =>
    if startsWith '\n' l then readFileLoop numParams fuel ls params
    else if startsWith '=' l || startsWith '*' l then readFileLoop numParams fuel ls.tail params
    else
      match readEntries numParams l ls with
      | .error f => .error f
      | .ok (qs, ls) => readFileLoop numParams fuel ls (some (addEntries params qs))

def readResultFile (numParams : ℕ) (lines : List Text) :
    Except Fault (Option (List ReadParam)) :=
  readFileLoop numParams lines.length lines none

end Reading

end Otpo.ResultFile
