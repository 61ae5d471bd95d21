import Otpo.AttributeCodes
import Otpo.Library.RelatedResults

/-!
# The evaluation of corresponding sets

The blocks of two corresponding working sets have winners with corresponding
values. The hypotheses then correspond as well, unless a value that wins is the
marker for an attribute without hypothesis in one of the sets only.
-/

set_option autoImplicit false

namespace Otpo.CodedEvaluation
open AlignedLists RelatedLists RelatedResults Otpo.ParamList Otpo.Statistics Otpo.Adcl
open Otpo.PerfHypothesis Otpo.HypothesisOdometer Otpo.AttributeCodes

def Within (a a' b b' : Attrset) : Prop := ∀ m v w, Codes a a' m v w → Codes b b' m v w

def Same (b b' : Attrset) (q q' : Function × Stat) : Prop :=
  Valued b b' q.1.attrVals q'.1.attrVals ∧ q.2 = q'.2

section Blocks

variable {a a' b b' : Attrset} {qs qs' : List (Function × Stat)} {vals vals' : List ℤ} {m : ℕ}

theorem vals_eq_iff (hb : Matching b b') {x x' : List ℤ} (hx : Valued b b' x x')
    (hv : Indexed (Codes b b') 0 vals vals') : x = vals ↔ x' = vals' :=
  indexed_eq_iff (S := Codes b b') (fun _ _ _ _ _ => codes_eq hb) hx.codes hv

theorem stats_by_attrs_codes (hb : Matching b b') (hq : List.Forall₂ (Same b b') qs qs')
    (hv : Indexed (Codes b b') 0 vals vals') :
    Option.Rel (Same b b') (getStatsByAttrs qs vals) (getStatsByAttrs qs' vals') :=
  related_find hq fun _ _ h => Bool.eq_iff_iff.mpr <| by
    rw [beq_iff_eq, beq_iff_eq]
    exact vals_eq_iff hb h.1 hv

theorem block_stats_codes (hb : Matching b b') (hq : List.Forall₂ (Same b b') qs qs')
    (hv : Indexed (Codes b b') 0 vals vals') {attr attr' : List ℤ}
    (hattr : List.Forall₂ (Codes b b' m) attr attr') :
    Option.Rel (List.Forall₂ (Same b b')) (blockStats qs vals m attr)
      (blockStats qs' vals' m attr') := by
  induction hattr with
  | nil => exact .some .nil
  | @cons v w attr attr' hvw _ ih =>
    have hset : Indexed (Codes b b') 0 (vals.set m v) (vals'.set m w) :=
      indexed_set hv ((Nat.zero_add m).symm ▸ hvw)
    have hfind := stats_by_attrs_codes hb hq hset
    rw [blockStats, blockStats]
    generalize getStatsByAttrs qs (vals.set m v) = found at hfind
    generalize getStatsByAttrs qs' (vals'.set m w) = found' at hfind
    cases hfind with
    | none => exact ih
    | @some q q' hsame =>
      simp only [← hsame.2]
      split
      · generalize blockStats qs vals m attr = rest at ih
        generalize blockStats qs' vals' m attr' = rest' at ih
        cases ih with
        | none => exact .none
        | some hrest => exact .some (.cons hsame hrest)
      · exact .none

theorem codes_all (h : Matching a a') (hw : Within a a' b b') (m : ℕ) :
    List.Forall₂ (Codes b b' m) (a.attrs.getD m []) (a'.attrs.getD m []) := by
  refine List.forall₂_iff_get.mpr ⟨lengths_get h m, fun j hj hj' => hw m _ _ ⟨j, ?_, ?_⟩⟩
  · exact List.getElem?_eq_getElem hj
  · exact List.getElem?_eq_getElem hj'

theorem stats_eq {x x' : List (Function × Stat)} (h : List.Forall₂ (Same b b') x x') :
    x.map Prod.snd = x'.map Prod.snd := by
  induction h with
  | nil => rfl
  | cons hq _ ih => rw [List.map_cons, List.map_cons, hq.2, ih]

/-- A block has a winner in both sets, with corresponding values, or in none. -/
theorem eval_one_codes (hb : Matching b b') (hq : List.Forall₂ (Same b b') qs qs')
    (hv : Indexed (Codes b b') 0 vals vals') {attr attr' : List ℤ}
    (hattr : List.Forall₂ (Codes b b' m) attr attr') :
    Agree (Option.Rel (Codes b b' m)) (evalOneAttr qs vals m attr)
      (evalOneAttr qs' vals' m attr') := by
  have hblock := block_stats_codes hb hq hv hattr
  rw [evalOneAttr, evalOneAttr]
  generalize blockStats qs vals m attr = block at hblock
  generalize blockStats qs' vals' m attr' = block' at hblock
  cases hblock with
  | none => exact Option.Rel.none
  | @some x x' hx =>
    simp only [← hx.length_eq, ← stats_eq hx]
    split
    · exact Option.Rel.none
    · cases getWinnerV3 (x.map Prod.snd) with
      | error fault => rfl
      | ok result =>
        obtain ⟨filtering, winner⟩ := result
        cases winner with
        | none => rfl
        | some n =>
          simp only [Option.bind_some]
          cases hn : x[n]? with
          | none =>
            rw [List.getElem?_eq_none_iff, hx.length_eq, ← List.getElem?_eq_none_iff] at hn
            rw [hn]
            rfl
          | some q =>
            obtain ⟨q', hn', hsame⟩ := related_get hx hn
            rw [hn']
            have hget := indexed_get_rel hsame.1.codes m
            rwa [Nat.zero_add] at hget

end Blocks

def Belief (b b' : Attrset) (m : ℕ) (v w : ℤ) : Prop :=
  v = attrNotSet ∧ w = attrNotSet ∨ v ≠ attrNotSet ∧ w ≠ attrNotSet ∧ Codes b b' m v w

structure Believed (b b' : Attrset) (x x' : Beliefs) : Prop where
  length : x.hypothesis.length = b.maxnum
  hypothesis : Indexed (Belief b b') 0 x.hypothesis x'.hypothesis
  known : x.confidence.length = b.maxnum
  confidence : x.confidence = x'.confidence

def Unconfused (a a' : Attrset) (qs qs' : List (Function × Stat)) : Prop :=
  ∀ m vals vals' v w, Valued a a' vals vals' →
    evalOneAttr qs vals m (a.attrs.getD m []) = .ok (some v) →
    evalOneAttr qs' vals' m (a'.attrs.getD m []) = .ok (some w) →
    (v = attrNotSet ↔ w = attrNotSet)

section Beliefs

variable {a a' b b' : Attrset} {qs qs' : List (Function × Stat)} {vals vals' : List ℤ} {m : ℕ}
variable {x x' : Beliefs} {v w : ℤ}

theorem belief_marker (h : Belief b b' m v w) : v = attrNotSet ↔ w = attrNotSet := by
  rcases h with ⟨hv, hw⟩ | ⟨hv, hw, _⟩
  · exact ⟨fun _ => hw, fun _ => hv⟩
  · exact ⟨fun h => absurd h hv, fun h => absurd h hw⟩

theorem believed_get (h : Believed b b' x x') (hm : m < b.maxnum) :
    Belief b b' m (x.hypothesis.getD m 0) (x'.hypothesis.getD m 0) := by
  have hget := indexed_get_default h.hypothesis (h.length.symm ▸ hm) 0 0
  rwa [Nat.zero_add] at hget

theorem believed_set (h : Believed b b' x x') (hvw : Belief b b' m v w) (c : ℤ) :
    Believed b b' ⟨x.hypothesis.set m v, x.confidence.set m c⟩
      ⟨x'.hypothesis.set m w, x.confidence.set m c⟩ :=
  ⟨(List.length_set ..).trans h.length,
    indexed_set h.hypothesis ((Nat.zero_add m).symm ▸ hvw), (List.length_set ..).trans h.known, rfl⟩

theorem believed_confidence (h : Believed b b' x x') (c : ℤ) :
    Believed b b' { x with confidence := x.confidence.set m c }
      { x' with confidence := x.confidence.set m c } :=
  ⟨h.length, h.hypothesis, (List.length_set ..).trans h.known, rfl⟩

/-- A winner that is not confused with the marker sets corresponding hypotheses. -/
theorem hypothesis_set_codes (hb : Matching b b') (h : Believed b b' x x')
    (hvw : Codes b b' m v w) (hmarker : v = attrNotSet ↔ w = attrNotSet) :
    Believed b b' (hypothesisSet x m v) (hypothesisSet x' m w) := by
  have hm := codes_lt_maxnum hvw
  have hbelief := believed_get h hm
  have hset : Belief b b' m v w := by
    by_cases hv : v = attrNotSet
    · exact Or.inl ⟨hv, hmarker.mp hv⟩
    · exact Or.inr ⟨hv, mt hmarker.mpr hv, hvw⟩
  simp only [hypothesisSet, ← h.confidence]
  by_cases hunset : x.hypothesis.getD m 0 = attrNotSet
  · rw [if_pos hunset, if_pos ((belief_marker hbelief).mp hunset)]
    exact believed_set h hset _
  · obtain ⟨_, hunset', hcodes⟩ := hbelief.resolve_left fun hboth => hunset hboth.1
    rw [if_neg hunset, if_neg hunset']
    by_cases hsame : v = x.hypothesis.getD m 0
    · rw [if_pos hsame, if_pos ((codes_eq hb hvw hcodes).mp hsame)]
      exact believed_confidence h _
    · rw [if_neg hsame, if_neg (mt (codes_eq hb hvw hcodes).mpr hsame)]
      by_cases hzero : x.confidence.getD m 0-1 = 0
      · rw [if_pos hzero, if_pos hzero]
        exact believed_set h (Or.inl ⟨rfl, rfl⟩) _
      · rw [if_neg hzero, if_neg hzero]
        exact believed_confidence h _

theorem reset_indexed {i : ℕ} {l l' : List ℤ} (h : Indexed (Belief b b') i l l') (c : List ℤ) :
    Indexed (Belief b b') i
      ((l.zip c).map fun q => if q.2 < hypoReqConfidence then attrNotSet else q.1)
      ((l'.zip c).map fun q => if q.2 < hypoReqConfidence then attrNotSet else q.1) := by
  induction h generalizing c with
  | nil i => exact .nil i
  | @cons i v w l l' hvw _ ih =>
    cases c with
    | nil => exact .nil i
    | cons c cs =>
      have hreset : Belief b b' i (if c < hypoReqConfidence then attrNotSet else v)
          (if c < hypoReqConfidence then attrNotSet else w) := by
        split
        · exact Or.inl ⟨rfl, rfl⟩
        · exact hvw
      exact .cons hreset (ih cs)

theorem reset_codes (h : Believed b b' x x') :
    Believed b b' (resetHypotheses x) (resetHypotheses x') := by
  have hlength : (x.hypothesis.zip x.confidence).length = b.maxnum := by
    rw [List.length_zip, h.length, h.known, Nat.min_self]
  refine ⟨(List.length_map _).trans hlength, ?_, (List.length_map _).trans h.known, ?_⟩
  · simp only [resetHypotheses, ← h.confidence]
    exact reset_indexed h.hypothesis _
  · simp only [resetHypotheses, h.confidence]

theorem winner_codes (hb : Matching b b') (h : Believed b b' x x') {winner winner' : Option ℤ}
    (hwinner : Option.Rel (Codes b b' m) winner winner')
    (hmarker : ∀ v w, winner = some v → winner' = some w → (v = attrNotSet ↔ w = attrNotSet)) :
    Believed b b' (winner.elim x (hypothesisSet x m)) (winner'.elim x' (hypothesisSet x' m)) := by
  cases hwinner with
  | none => exact h
  | some hvw => exact hypothesis_set_codes hb h hvw (hmarker _ _ rfl rfl)

theorem eval_blocks_succ (qs : List (Function × Stat)) (a : Attrset) (m : ℕ) (attr : List ℤ)
    (fuel : ℕ) (vals : List ℤ) (x : Beliefs) :
    evalBlocks qs a m attr (fuel+1) vals x =
      match evalOneAttr qs vals m attr with
      | .error f => .error f
      | .ok winner =>
        match nextExcluding a m 0 (vals.set m (attr.getD 0 0)) with
        | (true, vals) => evalBlocks qs a m attr fuel vals (winner.elim x (hypothesisSet x m))
        | (false, _) => .ok (winner.elim x (hypothesisSet x m)) := by
  rw [evalBlocks]
  cases evalOneAttr qs vals m attr with
  | error f => rfl
  | ok winner => cases winner <;> rfl

theorem eval_blocks_codes (hb : Matching b b') (h : Matching a a') (hw : Within a a' b b')
    (hq : List.Forall₂ (Same b b') qs qs') (hclear : Unconfused a a' qs qs') (hm : m < a.maxnum)
    (fuel : ℕ) (hv : Valued a a' vals vals') (hx : Believed b b' x x') :
    Agree (Believed b b') (evalBlocks qs a m (a.attrs.getD m []) fuel vals x)
      (evalBlocks qs' a' m (a'.attrs.getD m []) fuel vals' x') := by
  induction fuel generalizing vals vals' x x' with
  | zero => rfl
  | succ fuel ih =>
    have hone := eval_one_codes hb hq (indexed_mono hw hv.codes) (codes_all h hw m)
    rw [eval_blocks_succ, eval_blocks_succ]
    rcases agree_cases hone with ⟨fault, he, he'⟩ | ⟨winner, winner', he, he', hwinner⟩
    · simp only [he, he']
      rfl
    · have hbelieved := winner_codes hb hx hwinner fun v w hv' hw' =>
        hclear m _ _ v w hv (hv' ▸ he) (hw' ▸ he')
      have hbase : Codes a a' m ((a.attrs.getD m []).getD 0 0) ((a'.attrs.getD m []).getD 0 0) := by
        have hhead := ascending_base h.left hm
        have hhead' := ascending_base h.right (maxnum_eq h ▸ hm)
        rw [List.getD_eq_getElem?_getD, List.getD_eq_getElem?_getD (l := a'.attrs.getD m []),
          hhead, hhead']
        exact ⟨0, hhead, hhead'⟩
      obtain ⟨hmore, hnext⟩ := valued_excluding m h (valued_set hv hbase)
      simp only [he, he']
      generalize nextExcluding a m 0 (vals.set m ((a.attrs.getD m []).getD 0 0)) = s
        at hmore hnext ⊢
      generalize nextExcluding a' m 0 (vals'.set m ((a'.attrs.getD m []).getD 0 0)) = s'
        at hmore hnext ⊢
      obtain ⟨more, vals₁⟩ := s
      obtain ⟨more', vals₁'⟩ := s'
      cases hmore
      cases more with
      | true => exact ih hnext hbelieved
      | false => exact hbelieved

theorem eval_hypotheses_codes (hb : Matching b b') (h : Matching a a') (hw : Within a a' b b')
    (ha : a.maxnum = b.maxnum) (hq : List.Forall₂ (Same b b') qs qs')
    (hclear : Unconfused a a' qs qs') (fuel : ℕ) (hx : Believed b b' x x') :
    Agree (Believed b b') (evalHypotheses qs a fuel x) (evalHypotheses qs' a' fuel x') := by
  rw [evalHypotheses, evalHypotheses, ← maxnum_eq h]
  refine agree_fold (fun m hm y y' hy => ?_) (reset_codes hx)
  have hm := List.mem_range.mp hm
  have hmarker := belief_marker (believed_get hy (ha ▸ hm))
  by_cases hset : y.hypothesis.getD m 0 ≠ attrNotSet
  · rw [if_pos hset, if_pos (mt hmarker.mpr hset)]
    exact hy
  · rw [if_neg hset, if_neg (not_not.mpr (hmarker.mp (not_not.mp hset)))]
    exact eval_blocks_codes hb h hw hq hclear hm fuel (valued_base h) hy

/-- Corresponding attributes reach the threshold, with corresponding values. -/
theorem reached_codes (h : Matching a a') (ha : a.maxnum = b.maxnum) (hx : Believed b b' x x') :
    List.Forall₂ (fun q q' => q.1 = q'.1 ∧ Codes b b' q.1 q.2 q'.2) (reached a x)
      (reached a' x') := by
  rw [reached, reached, ← maxnum_eq h]
  simp only [← hx.confidence, ← lengths_get h]
  have hall : ∀ m ∈ List.range a.maxnum, m < b.maxnum := fun m hm => ha ▸ List.mem_range.mp hm
  generalize List.range a.maxnum = ms at hall
  induction ms with
  | nil => exact .nil
  | cons m ms ih =>
    rw [List.forall_mem_cons] at hall
    have hbelief := believed_get hx hall.1
    have hmarker := belief_marker hbelief
    rw [List.filterMap_cons, List.filterMap_cons]
    by_cases hreached : hypoReqConfidence ≤ x.confidence.getD m 0 ∧
        x.hypothesis.getD m 0 ≠ attrNotSet ∧ 1 < (a.attrs.getD m []).length
    · obtain ⟨hconf, hset, hlen⟩ := hreached
      rw [if_pos ⟨hconf, hset, hlen⟩, if_pos ⟨hconf, mt hmarker.mpr hset, hlen⟩]
      obtain ⟨_, _, hcodes⟩ := hbelief.resolve_left fun hboth => hset hboth.1
      exact .cons ⟨rfl, hcodes⟩ (ih hall.2)
    · rw [if_neg hreached, if_neg fun hr => hreached ⟨hr.1, mt hmarker.mp hr.2.1, hr.2.2⟩]
      exact ih hall.2

end Beliefs

end Otpo.CodedEvaluation
