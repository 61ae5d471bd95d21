import Otpo.Emethod

/-!
# The 2k search

The corners of the function set are tested first, in the order of their signs
with the first attribute fastest. Then the set is reduced to the best corner's
value for every attribute of little impact, and what is left is tested in the
order of the set. The position read behind the corners is discarded at once.
The number of corners fits an `int` where the number of combinations of as many
attributes with two values or more does.
-/

set_option autoImplicit false

namespace Otpo.Adcl
open Otpo.ParamList Otpo.Statistics

def cornerVals (a : Attrset) (attrValues : List ℤ) : List ℤ :=
  List.zipWith (fun sign (v : ℤ × ℤ) => if sign = 1 then v.2 else v.1) attrValues
    (a.baseval.zip a.maxval)

/-- `get_twok_functions`: the positions in the order they are written. An
absent corner leaves its entry unwritten. -/
def getTwokFunctions (f : Fnctset) : ℕ → List ℤ → List (Option ℕ)
  | 0, attrValues =>
    [-1, 1].map fun (i : ℤ) => f.getFnctByAttrs (cornerVals f.attrset (attrValues.set 0 i))
  | level+1, attrValues =>
    [-1, 1].flatMap fun (i : ℤ) => getTwokFunctions f level (attrValues.set (level+1) i)

def signColumns : ℕ → ℕ → List ℤ → List (List ℤ) × List ℤ
  | 0, _, flag => ([], flag)
  | r+1, i, flag =>
    let (inner, left) := signColumns r (i+1) (flag.set i 1)
    let (rest, left) := signColumns r (i+1) (left.set i (-1))
    (flag.set i 1 :: inner ++ rest, left)

def signValue (a : Attrset) (flag : List ℤ) (f : Function) : ℤ :=
  (flag.zip (f.attrVals.zip a.baseval)).foldl
    (fun val q => if q.1 = 1 ∧ q.2.1 = q.2.2 then -val else val) 1

def signLabels (length : ℕ) : ℕ → ℕ → List ℤ → List (List ℤ) × List ℤ
  | 0, _, temp => ([], temp)
  | r+1, i, temp =>
    let label := temp.take i ++ 1 :: List.replicate (length-i-1) 0
    let (inner, left) := signLabels length r (i+1) (temp.set i 1)
    let (rest, left) := signLabels length r (i+1) (left.set i 0)
    (label :: inner ++ rest, left)

def generateSignTable (a : Attrset) (functions : List Function) :
    List (List ℤ) × List (List ℤ) :=
  let (columns, tmp) := signColumns a.maxnum 0 (List.replicate a.maxnum (-1))
  (functions.map fun f => 1 :: columns.map fun flag => signValue a flag f,
    List.replicate a.maxnum 0 :: (signLabels a.maxnum a.maxnum 0 tmp).1)

/-- `ADCL_twok_init`. A corner without a function makes the 2k function set
read an uninitialised pointer. -/
def twokInit (threshold : ℤ) (e : Emethod) : Except Fault Emethod :=
  match e.fnctset.attrset.maxnum with
  | 0 => .error .undefined
  | k+1 =>
    match (getTwokFunctions e.fnctset k (List.replicate (k+1) 0)).mapM id with
    | none => .error .undefined
    | some fnctsPos =>
      let functions := fnctsPos.filterMap (e.fnctset.functions[·]?)
      let (signTable, labels) := generateSignTable e.orgfnctset.attrset functions
      .ok { e with
        last := fnctsPos.getD 0 0
        twok := some
          { num := 2^(k+1), functions, attrset := e.orgfnctset.attrset, fnctsPos, nextPos := 1
            best := none, labels, signTable, threshold, twokdone := false } }

def plus (x y : Double) : Double := x.bind fun a => y.map (a+·)

def filteringPoint (f : Filtering) (p : Points) : Double :=
  match f with
  | .unfiltered => p.unfiltered
  | .filtered => p.filtered

def computeQs (e : Emethod) (t : Twok) : List Double :=
  (List.range t.num).map fun i =>
    ((t.signTable.zip t.fnctsPos).map fun q =>
      (((e.stats[q.2]?).bind fun s => filteringPoint e.filtering s.gpts).map
        fun x => (q.1.getD i 0 : ℚ)*x)).foldl plus (some 0)

def largest (squares : List Double) : ℚ :=
  squares.foldl (fun m s => match s with | some x => if x > m then x else m | none => m) 0

def computeSSTs (qs : List Double) : List Double :=
  let squares := qs.tail.map (Option.map (·^2))
  some 0 :: squares.map fun s =>
    if largest squares = 0 then none else s.map fun x => x/largest squares*100

def singleFactor (label : List ℤ) : Option ℕ :=
  if label.count 1 = 1 then label.findIdx? (· == 1) else none

def unimportant (threshold : ℤ) (sst : Double) : Bool :=
  match sst with
  | some x => x < threshold
  | none => false

def reduceColumn (t : Twok) (best : Function) (e : Emethod) (column : List ℤ × Double) :
    Emethod :=
  match singleFactor column.1 with
  | some attr =>
    if unimportant t.threshold column.2 then
      if best.attrVals.getD attr 0 = t.attrset.baseval.getD attr 0 then
        shrinklistByattr e attr (t.attrset.baseval.getD attr 0)
      else shrinklistByattr e attr (t.attrset.maxval.getD attr 0)
    else e
  | none => e

def reduceFnctset (t : Twok) (best : Function) (sst : List Double) (e : Emethod) : Emethod :=
  (t.labels.zip sst).tail.foldl (reduceColumn t best) e

def getFromRemaining (e : Emethod) : Option ℕ := e.stats.findIdx? (fun s => !s.tested)

def finishCorners (e : Emethod) (t : Twok) : Except Fault (Option ℕ × Emethod) :=
  match getWinner e e.fnctset.maxnum with
  | .error f => .error f
  | .ok (best, e) =>
    match best.bind (e.orgfnctset.functions[·]?) with
    | none => .error .undefined
    | some bestFunction =>
      let e := reduceFnctset t bestFunction (computeSSTs (computeQs e t)) e
      .ok (getFromRemaining e, { e with twok := some { t with best, twokdone := true } })

def twokGetNext (e : Emethod) : Except Fault (Option ℕ × Emethod) :=
  match e.twok with
  | none => .error .undefined
  | some t =>
    if t.twokdone then .ok (getFromRemaining e, e)
    else if t.num < t.nextPos+1 then finishCorners e { t with nextPos := t.nextPos+1 }
    else
      match t.fnctsPos[t.nextPos]? with
      | none => .error .undefined
      | some next => .ok (some next, { e with twok := some { t with nextPos := t.nextPos+1 } })

end Otpo.Adcl
