import Otpo.ParseLine
import Otpo.InterruptFile
import Otpo.Library.Traced
import Otpo.Library.FileHandle

/-!
# Reading the output of a benchmark

Each benchmark has an output file and a scanner of its own. A scanner goes
through lines and words until it finds what it looks for; at the end of the
file the last line stays in the buffer.
-/

set_option autoImplicit false

namespace Otpo.UpdateRequest
open Otpo.ParamList Otpo.BadRuns Otpo.ResultFile Otpo.ParseLine Otpo.InterruptFile

structure Conversions where
  strtod : Text → ℚ
  scanDouble : Text → Option ℚ

inductive Status
  | success
  | fail
  deriving DecidableEq, Repr

inductive Open
  | success
  | missing
  | interrupted
  deriving DecidableEq, Repr

inductive Event
  | handle (event : FileHandle.Event Test)
  | update (value : Option ℚ)
  deriving DecidableEq, Repr

abbrev Action := Traced Event Fault

def used : Event := .handle .used
def closed : Event := .handle .closed

def isSpaceOnly (c : Char) : Bool := c == ' '
def isNewline (c : Char) : Bool := c == '\n'
def isEqualSign (c : Char) : Bool := c == '='
def isBlankOrSlash (c : Char) : Bool := isBlank c || c == '/'

def nthToken (d : Char → Bool) : ℕ → Text → Option (Text × Text)
  | 0, s => Tokenizer.next d s
  | n+1, s => (Tokenizer.next d s).bind fun q => nthToken d n q.2

def theToken (d : Char → Bool) (n : ℕ) (s : Text) : Except Fault Text :=
  match nthToken d n s with
  | none => .error .undefined
  | some (token, _) => .ok token

def findToken (p : Text → Bool) : ℕ → Text → Except Fault Text
  | 0, _ => .error .undefined
  | fuel+1, s =>
    match Tokenizer.next isBlank s with
    | none => .error .undefined
    | some (token, rest) => if p token then .ok rest else findToken p fuel rest

/-- The lines up to one with a property. Behind the end of the file the line
before stays in the buffer, which holds nothing at first. -/
def findLine (p : Text → Bool) : ℕ → Option Text → List Text → Action Text
  | 0, _, _ => .running
  | fuel+1, line, ls => do
    Traced.emit used
    match ls.head?.or line with
    | none => Traced.lift (.error .undefined)
    | some l => if p l then pure l else findLine p fuel (some l) ls.tail

section Scanners

variable (conv : Conversions)

def netpipeValue (line : Text) : ℚ :=
  match nthToken isBlank 2 line with
  | some (token, _) => conv.strtod token*1000000
  | none => 10000000

def scanNetpipe : List Text → Action Unit
  | [] => Traced.emit used
  | l::ls => do
    Traced.emit used
    Traced.emit (.update (some (netpipeValue conv l)))
    scanNetpipe ls

def skampiValue (line : Text) : Option ℚ :=
  let (tmp, rest) := scanInt line
  tmp.bind fun _ => conv.scanDouble rest

def scanSkampi (lines : List Text) : Action Unit := do
  Traced.emits (List.replicate 7 used)
  match (lines.take 7).getLast? with
  | none => Traced.lift (.error .undefined)
  | some line => Traced.emit (.update (skampiValue conv line))

def npbLine : ℕ → Text → Option ℚ → Except Fault (Option ℚ)
  | 0, _, _ => .error .undefined
  | fuel+1, s, exetime =>
    match Tokenizer.next isSpaceOnly s with
    | none => .ok exetime
    | some (ch, rest) =>
      if ch = "seconds".toList then
        match Tokenizer.next isNewline rest with
        | none => .error .undefined
        | some (ch, _) =>
          match Tokenizer.next isEqualSign ch with
          | none => .error .undefined
          | some (temp, rest) => npbLine fuel rest (some (conv.strtod temp))
      else npbLine fuel rest exetime

def npbLines : List Text → Option ℚ → Action (Option ℚ)
  | [], exetime => do
    Traced.emit used
    pure exetime
  | l::ls, exetime => do
    Traced.emit used
    let exetime ← Traced.lift (npbLine conv (l.length+1) l exetime)
    npbLines ls exetime

def scanNpb (lines : List Text) : Action Unit := do
  let exetime ← npbLines conv lines none
  Traced.emit (.update exetime)

def scanLatencyIo (fuel : ℕ) (lines : List Text) : Action Unit := do
  let line ← findLine (startsWith 'T') fuel none lines
  let rest ← Traced.lift (findToken (· == "bandwidth".toList) (line.length+1) line)
  let token ← Traced.lift (theToken isBlank 0 rest)
  Traced.emit (.update (some (1/conv.strtod token)))

def scanNoncontig (fuel : ℕ) (lines : List Text) : Action Unit := do
  let line ← findLine (startsWith ' ') fuel none lines
  let rest ← Traced.lift (findToken (startsWith ':') (line.length+1) line)
  let token ← Traced.lift (theToken isBlankOrSlash 1 rest)
  Traced.emit (.update (some (-1*conv.strtod token)))

def scanMpiTileIo (fuel : ℕ) (lines : List Text) : Action Unit := do
  let line ← findLine (fun l => !startsWith '#' l) fuel none lines
  let token ← Traced.lift (theToken isBlank 3 line)
  Traced.emit (.update (some (-1*conv.strtod token)))

def scan (test : Test) (fuel : ℕ) (lines : List Text) : Action Unit :=
  match test with
  | .netpipe => scanNetpipe conv lines
  | .skampi => scanSkampi conv lines
  | .npb => scanNpb conv lines
  | .latencyIo => scanLatencyIo conv fuel lines
  | .noncontig => scanNoncontig conv fuel lines
  | .mpiTileIo => scanMpiTileIo conv fuel lines

end Scanners

def finish (test : Test) : List Event :=
  match test with
  | .skampi => [closed, used, closed]
  | .npb => [closed, closed]
  | _ => [closed]

section Opening

variable (conv : Conversions) (contents : Test → List Text) (opens : ℕ → Open)

def readFile (test : Test) (fuel : ℕ) : Action Status := do
  scan conv test fuel (contents test)
  Traced.emits (finish test)
  pure .success

def attempt (test : Test) (fuel k : ℕ) (again : Action Status) : Action Status :=
  match opens k with
  | .success => do
    Traced.emit (.handle (.opened test))
    readFile conv contents test fuel
  | .missing => do
    Traced.emit (.handle (.refused test))
    pure .fail
  | .interrupted => do
    Traced.emit (.handle (.refused test))
    again

def openFile (test : Test) : ℕ → ℕ → Action Status
  | 0, _ => .running
  | fuel+1, k => attempt conv contents opens test fuel k (openFile test fuel (k+1))

def openSkampi (fuel : ℕ) : ℕ → ℕ → Action Status
  | 0, _ => do
    Traced.emits [.update (some 100000), closed]
    pure .success
  | counter+1, k =>
    match opens k with
    | .success => do
      Traced.emit (.handle (.opened .skampi))
      readFile conv contents .skampi fuel
    | _ => do
      Traced.emit (.handle (.refused .skampi))
      openSkampi fuel counter (k+1)

/-- `update_adcl_request`. The retry of the last case jumps to the one in front
of it. -/
def updateAdclRequest (test : Test) (fuel : ℕ) : Action Status :=
  match test with
  | .skampi => openSkampi conv contents opens fuel 20 0
  | .mpiTileIo => attempt conv contents opens .mpiTileIo fuel 0
      (openFile conv contents opens .noncontig fuel 1)
  | test => openFile conv contents opens test fuel 0

end Opening

end Otpo.UpdateRequest
