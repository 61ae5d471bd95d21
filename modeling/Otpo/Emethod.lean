import Otpo.Statistics

/-!
# The selection object

The evaluation method owns a working copy of the function set and one
statistics object for each of its functions; reducing the set moves both
together. Positions refer to the working set, `pos` of a statistics object to
the original one.
-/

set_option autoImplicit false

namespace Otpo.Adcl
open Otpo.ParamList Otpo.Statistics

structure Function where
  id : ℕ
  attrVals : List ℤ
  deriving DecidableEq, Repr

structure Attrset where
  attrs : List (List ℤ)
  baseval : List ℤ
  maxval : List ℤ
  numval : List ℕ
  deriving DecidableEq, Repr

def Attrset.maxnum (a : Attrset) : ℕ := a.attrs.length

structure Fnctset where
  functions : List Function
  attrset : Attrset
  deriving DecidableEq, Repr

def Fnctset.maxnum (f : Fnctset) : ℕ := f.functions.length

def Fnctset.getFnctByAttrs (f : Fnctset) (attrVals : List ℤ) : Option ℕ :=
  f.functions.findIdx? (·.attrVals == attrVals)

def functionAt (f : Fnctset) (i : ℕ) : Function := f.functions.getD i ⟨0, []⟩

theorem functionAt_get {f : Fnctset} {i : ℕ} (h : i < f.maxnum) :
    f.functions[i]? = some (functionAt f i) := by
  rw [functionAt, List.getD_eq_getElem?_getD, List.getElem?_eq_getElem h, Option.getD_some]

inductive State
  | testing
  | decision
  | regular
  deriving DecidableEq, Repr

inductive SearchAlgo
  | bruteForce
  | perfHypo
  | twokFactorial
  deriving DecidableEq, Repr

/-- `ADCL_twok_factorial_t`, with the importance threshold and the static
`twokdone` of the search. Its function set keeps the original attribute set. -/
structure Twok where
  num : ℕ
  functions : List Function
  attrset : Attrset
  fnctsPos : List ℕ
  nextPos : ℕ
  best : Option ℕ
  labels : List (List ℤ)
  signTable : List (List ℤ)
  threshold : ℤ
  twokdone : Bool
  deriving DecidableEq, Repr

structure Hypothesis where
  attrHypothesis : List ℤ
  attrConfidence : List ℤ
  currAttrvals : List ℤ
  activeAttrpos : ℕ
  deriving DecidableEq, Repr

/-- `ADCL_emethod_t`. Both arrays that follow `fs_maxnum` end with it. -/
structure Emethod where
  state : State
  last : ℕ
  searchAlgo : SearchAlgo
  filtering : Filtering
  stats : List Stat
  orgfnctset : Fnctset
  fnctset : Fnctset
  twok : Option Twok
  hypo : Option Hypothesis
  wfunction : Option Function
  orgstats : List Points
  deriving DecidableEq, Repr

def updateStat (e : Emethod) (i : ℕ) (f : Stat → Stat) : Except Fault Emethod :=
  if i < e.stats.length then .ok { e with stats := e.stats.modify i f } else .error .undefined

def syncStatobjects (e : Emethod) : Emethod :=
  { e with orgstats := e.stats.foldl (fun o s => o.set s.pos s.gpts) e.orgstats }

def getWinner (e : Emethod) (count : ℕ) : Except Fault (Option ℕ × Emethod) :=
  if e.stats.length < count then .error .undefined
  else
    let filtered := (e.stats.take count).map filterTimings
    let measured := if e.searchAlgo = .perfHypo then filtered else filtered.map globalMax
    match getWinnerV3 measured with
    | .error f => .error f
    | .ok (filtering, winner) =>
      .ok (winner, syncStatobjects
        { e with stats := measured ++ e.stats.drop count, filtering })

def keeps (attrPos : ℕ) (requiredValue : ℤ) (f : Function) : Bool :=
  f.attrVals[attrPos]? == some requiredValue

def shrinklistByattr (e : Emethod) (attrPos : ℕ) (requiredValue : ℤ) : Emethod :=
  let kept := (e.fnctset.functions.zip e.stats).filter (fun q => keeps attrPos requiredValue q.1)
  let e := syncStatobjects
    { e with
      fnctset := { e.fnctset with functions := kept.map Prod.fst }
      stats := kept.map Prod.snd }
  { e with
    fnctset := { e.fnctset with
      attrset :=
        { attrs := e.fnctset.attrset.attrs.set attrPos [requiredValue]
          baseval := e.fnctset.attrset.baseval.set attrPos requiredValue
          maxval := e.fnctset.attrset.maxval.set attrPos requiredValue
          numval := e.fnctset.attrset.numval.set attrPos 1 } } }

theorem getWinner_take {e : Emethod} {m : ℕ} (h : e.searchAlgo ≠ .perfHypo)
    (hm : m ≤ e.stats.length) :
    getWinner e m =
      match getWinnerV3 ((e.stats.take m).map fun s => globalMax (filterTimings s)) with
      | .error f => .error f
      | .ok (filtering, winner) =>
        .ok (winner, syncStatobjects
          { e with
            stats := (e.stats.take m).map (fun s => globalMax (filterTimings s)) ++
              e.stats.drop m
            filtering }) := by
  simp only [getWinner, if_neg (Nat.not_lt.mpr hm), if_neg h, List.map_map, Function.comp_def]

theorem getWinner_all {e : Emethod} (h : e.searchAlgo ≠ .perfHypo) :
    getWinner e e.stats.length =
      match getWinnerV3 (e.stats.map fun s => globalMax (filterTimings s)) with
      | .error f => .error f
      | .ok (filtering, winner) =>
        .ok (winner, syncStatobjects
          { e with stats := e.stats.map fun s => globalMax (filterTimings s), filtering }) := by
  rw [getWinner_take h (Nat.le_refl _), List.take_length, List.drop_length]
  simp only [List.append_nil]

theorem getWinner_state {e d : Emethod} {m : ℕ} {w : Option ℕ} (s : State)
    (h : getWinner e m = .ok (w, d)) :
    getWinner { e with state := s } m = .ok (w, { d with state := s }) := by
  simp only [getWinner] at h ⊢
  split at h
  · cases h
  · next hlen =>
    rw [if_neg hlen]
    split at h
    · cases h
    · cases h
      rfl

def freshStat (pos : ℕ) : Stat where
  count := 0
  time := []
  tested := false
  filtered := false
  lpts := noPoints
  gpts := noPoints
  pos := pos

end Otpo.Adcl
