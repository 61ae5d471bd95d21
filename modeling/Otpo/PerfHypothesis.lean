import Otpo.Request

/-!
# The search over performance hypotheses

One attribute at a time is varied. Where a block of combinations ends, the
attributes are evaluated, and the set is shrunk to a value that was best in
enough blocks. The loops over combinations get fuel; a search that needs more
does not return.
-/

set_option autoImplicit false

namespace Otpo.PerfHypothesis
open Otpo.ParamList Otpo.Statistics Otpo.Adcl

def attrNotSet : ℤ := -1

def hypoReqConfidence : ℤ := 2

def attributeGetNextval (attr : List ℤ) (val : ℤ) : ℤ :=
  match attr.findIdx? (· == val) with
  | none => -1
  | some i => if i ≠ attr.length-1 then attr.getD (i+1) 0 else i

section Combinations

variable (attrset : Attrset)

def stepAttr (i : ℕ) (val : ℤ) : Bool × ℤ :=
  if val < attrset.maxval.getD i 0 then (true, attributeGetNextval (attrset.attrs.getD i []) val)
  else if val = attrset.maxval.getD i 0 then (false, attrset.baseval.getD i 0)
  else (false, val)

def nextExcluding (active : ℕ) : ℕ → List ℤ → Bool × List ℤ
  | _, [] => (false, [])
  | i, val::vals =>
    if i = active then
      let (more, vals) := nextExcluding active (i+1) vals
      (more, val::vals)
    else
      match stepAttr attrset i val with
      | (true, next) => (true, next::vals)
      | (false, next) =>
        let (more, vals) := nextExcluding active (i+1) vals
        (more, next::vals)

inductive Step
  | same
  | newBlock
  | evalDone
  deriving DecidableEq, Repr

def nextAttrCombination (active : ℕ) (vals : List ℤ) : Step × List ℤ :=
  let val := vals.getD active 0
  if val < attrset.maxval.getD active 0 then
    (.same, vals.set active (attributeGetNextval (attrset.attrs.getD active []) val))
  else if val = attrset.maxval.getD active 0 then
    match nextExcluding attrset active 0 (vals.set active (attrset.baseval.getD active 0)) with
    | (true, vals) => (.newBlock, vals)
    | (false, vals) => (.evalDone, vals)
  else (.evalDone, vals)

end Combinations

def setHypo (e : Emethod) (hypo : Hypothesis) : Emethod := { e with hypo := some hypo }

structure Beliefs where
  hypothesis : List ℤ
  confidence : List ℤ
  deriving DecidableEq, Repr

def hypothesisSet (b : Beliefs) (attrPos : ℕ) (val : ℤ) : Beliefs :=
  let current := b.hypothesis.getD attrPos 0
  let confidence := b.confidence.getD attrPos 0
  if current = attrNotSet then ⟨b.hypothesis.set attrPos val, b.confidence.set attrPos 1⟩
  else if val = current then { b with confidence := b.confidence.set attrPos (confidence+1) }
  else
    { hypothesis := if confidence-1 = 0 then b.hypothesis.set attrPos attrNotSet else b.hypothesis
      confidence := b.confidence.set attrPos (confidence-1) }

section Evaluation

variable (functions : List (Function × Stat)) (attrset : Attrset)

def getStatsByAttrs (vals : List ℤ) : Option (Function × Stat) :=
  functions.find? (·.1.attrVals == vals)

def blockStats (vals : List ℤ) (attrPos : ℕ) : List ℤ → Option (List (Function × Stat))
  | [] => some []
  | v::vs =>
    match getStatsByAttrs functions (vals.set attrPos v) with
    | none => blockStats vals attrPos vs
    | some q => if q.2.filtered then (blockStats vals attrPos vs).map (q::·) else none

def evalOneAttr (vals : List ℤ) (attrPos : ℕ) (attr : List ℤ) : Except Fault (Option ℤ) :=
  match blockStats functions vals attrPos attr with
  | none => .ok none
  | some qs =>
    if qs.length < 2 then .ok none
    else
      match getWinnerV3 (qs.map Prod.snd) with
      | .error f => .error f
      | .ok (_, winner) =>
        match winner.bind (qs[·]?) with
        | none => .error .undefined
        | some q => .ok (q.1.attrVals[attrPos]?)

def evalBlocks (attrPos : ℕ) (attr : List ℤ) : ℕ → List ℤ → Beliefs → Except Fault Beliefs
  | 0, _, _ => .error .undefined
  | fuel+1, vals, b =>
    match evalOneAttr functions vals attrPos attr with
    | .error f => .error f
    | .ok winner =>
      let b := match winner with
        | some v => hypothesisSet b attrPos v
        | none => b
      match nextExcluding attrset attrPos 0 (vals.set attrPos (attr.getD 0 0)) with
      | (true, vals) => evalBlocks attrPos attr fuel vals b
      | (false, _) => .ok b

def resetHypotheses (b : Beliefs) : Beliefs where
  hypothesis := (b.hypothesis.zip b.confidence).map
    fun q => if q.2 < hypoReqConfidence then attrNotSet else q.1
  confidence := b.confidence.map fun c => if c < hypoReqConfidence then 0 else c

def evalHypotheses (fuel : ℕ) (b : Beliefs) : Except Fault Beliefs :=
  (List.range attrset.maxnum).foldlM
    (fun b loop =>
      if b.hypothesis.getD loop 0 ≠ attrNotSet then .ok b
      else evalBlocks functions attrset loop (attrset.attrs.getD loop []) fuel attrset.baseval b)
    (resetHypotheses b)

def reached (b : Beliefs) : List (ℕ × ℤ) :=
  (List.range attrset.maxnum).filterMap fun loop =>
    if hypoReqConfidence ≤ b.confidence.getD loop 0 ∧
        b.hypothesis.getD loop 0 ≠ attrNotSet ∧ 1 < (attrset.attrs.getD loop []).length
    then some (loop, b.hypothesis.getD loop 0)
    else none

end Evaluation

def evaluate (fuel : ℕ) (e : Emethod) (hypo : Hypothesis) : Except Fault Beliefs :=
  evalHypotheses (e.fnctset.functions.zip e.stats) e.fnctset.attrset fuel
    ⟨hypo.attrHypothesis, hypo.attrConfidence⟩

def evalV3 (fuel : ℕ) (e : Emethod) (hypo : Hypothesis) : Except Fault (Bool × Emethod) :=
  match evaluate fuel e hypo with
  | .error f => .error f
  | .ok b =>
    let hypo := { hypo with attrHypothesis := b.hypothesis, attrConfidence := b.confidence }
    let settled := reached e.fnctset.attrset b
    .ok (!settled.isEmpty,
      settled.foldl (fun e q => shrinklistByattr e q.1 q.2) (setHypo e hypo))

def nextActive (attrs : List (List ℤ)) (active : ℕ) : ℕ :=
  active+(attrs.drop active).findIdx (·.length != 1)

inductive Round
  | finish (next : Option ℕ)
  | again (justEvaluated : Bool) (next : Option ℕ)
  deriving DecidableEq, Repr

def isTested (e : Emethod) (n : ℕ) : Bool := (e.stats[n]?).any Stat.tested

/-- What follows a change of the set. Its base combination is looked up again;
found untested, `ADCL_CHANGE_OCCURED` is returned in place of its position. -/
def afterChange (n : ℕ) (e : Emethod) (hypo : Hypothesis) : Except Fault (Round × Emethod) :=
  let attrset := e.fnctset.attrset
  let active :=
    if (attrset.attrs.getD hypo.activeAttrpos []).length = 1 then
      nextActive attrset.attrs hypo.activeAttrpos
    else hypo.activeAttrpos
  if active = attrset.maxnum then
    .ok (.finish none, setHypo e { hypo with activeAttrpos := active })
  else
    let e := setHypo e { hypo with activeAttrpos := active, currAttrvals := attrset.baseval }
    match e.fnctset.getFnctByAttrs attrset.baseval with
    | none => .ok (.again true (some n), e)
    | some m => if isTested e m then .ok (.again true (some m), e) else .error .undefined

def evaluationRound (fuel n : ℕ) (e : Emethod) (hypo : Hypothesis) :
    Except Fault (Round × Emethod) :=
  match evalV3 fuel e hypo with
  | .error f => .error f
  | .ok (false, e) => .ok (.finish (some n), e)
  | .ok (true, e) =>
    match e.hypo with
    | none => .error .undefined
    | some hypo => afterChange n e hypo

def round (fuel : ℕ) (justEvaluated : Bool) (next : Option ℕ) (e : Emethod) :
    Except Fault (Round × Emethod) :=
  match e.hypo with
  | none => .error .undefined
  | some hypo =>
    let (step, vals) :=
      nextAttrCombination e.fnctset.attrset hypo.activeAttrpos hypo.currAttrvals
    let hypo := { hypo with currAttrvals := vals }
    let e := setHypo e hypo
    if step = .evalDone then .ok (.finish next, e)
    else
      match e.fnctset.getFnctByAttrs vals with
      | none => .ok (.again justEvaluated next, e)
      | some n =>
        if isTested e n then .ok (.again justEvaluated (some n), e)
        else if step = .newBlock ∧ justEvaluated = false then evaluationRound fuel n e hypo
        else .ok (.finish (some n), e)

def getNextLoop (evalFuel : ℕ) : ℕ → Bool → Option ℕ → Emethod →
    Except Fault (Option ℕ × Emethod)
  | 0, _, _, _ => .error .undefined
  | fuel+1, justEvaluated, next, e =>
    match round evalFuel justEvaluated next e with
    | .error f => .error f
    | .ok (.finish next, e) => .ok (next, e)
    | .ok (.again justEvaluated next, e) => getNextLoop evalFuel fuel justEvaluated next e

def hypothesisGetNext (fuel : ℕ) (e : Emethod) : Except Fault (Option ℕ × Emethod) :=
  getNextLoop fuel fuel false none e

def evaluates : ℕ → Emethod → Bool
  | 0, _ => false
  | fuel+1, e =>
    match e.hypo with
    | none => false
    | some hypo =>
      let (step, vals) :=
        nextAttrCombination e.fnctset.attrset hypo.activeAttrpos hypo.currAttrvals
      let e := setHypo e { hypo with currAttrvals := vals }
      if step = .evalDone then false
      else
        match e.fnctset.getFnctByAttrs vals with
        | none => evaluates fuel e
        | some n => if isTested e n then evaluates fuel e else step = .newBlock

def firstShrink (fuel : ℕ) (e : Emethod) : Option (ℕ × ℤ) :=
  if evaluates fuel e then
    match e.hypo with
    | none => none
    | some hypo =>
      match evaluate fuel e hypo with
      | .error _ => none
      | .ok b => (reached e.fnctset.attrset b).head?
  else none

end Otpo.PerfHypothesis
