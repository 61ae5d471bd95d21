import Otpo.TwokKnowledge

/-!
# The starts of the 2k search

What one start does among the corners, behind the last of them, and among the
remaining functions.
-/

set_option autoImplicit false

namespace Otpo.TwokSearch
open Otpo.ParamList Otpo.Statistics Otpo.Adcl Otpo.TwokCorners Otpo.TwokReduction
  Otpo.TwokKnowledge

section Steps

variable {hypothesisGetNext : Emethod → Except Fault (Option ℕ × Emethod)}
variable {f : Fnctset} {r : Request} {report : Function → ℚ} {kept kept' : List ℕ}
variable {cell cell' : ℕ → Stat} {started : List ℕ} {p q j : ℕ} {d : Emethod}

theorem running_once (h : Progress f r kept cell started p) : (cell p).time.length = 1 := by
  obtain ⟨c, _, _, htime⟩ := h.running.time
  rw [htime]
  rfl

theorem search_twok {e : Emethod} {next : Option ℕ} (h : e.searchAlgo = .twokFactorial)
    (hn : twokGetNext e = .ok (next, d)) : searchNext hypothesisGetNext e = advance next d := by
  simp only [searchNext, h, hn]

theorem start_continue (hc : Bounded f report) (h : Progress f r kept cell started p)
    (hn : searchNext hypothesisGetNext (markedWith r.emethod kept cell p) = advance (some j) d)
    (hd : Marked f d kept' cell' started) (hj : kept'[j]? = some q) (hq : q ∉ started) :
    ∃ r' cell'', requestStart hypothesisGetNext report r = .ok r' ∧
      r'.function = some (functionAt f q) ∧ r'.emethod.state = .testing ∧
      r'.emethod.twok = d.twok ∧ Progress f r' kept' cell'' (started ++ [q]) q := by
  have hmem : q ∈ kept' := List.mem_of_getElem? hj
  have hfresh := hd.fresh q hmem hq
  have hcost := hc _ (List.mem_of_getElem? (functionAt_get (kept_lt hd hmem)))
  have hw := hd.working
  refine ⟨_, Function.update cell' q
    (recordTime (timeDiff 0 (report (functionAt f q))) (called (cell' q))),
    start_next h.working.cells h.last h.working.testing h.running.count (running_once h) hn
      hw.cells hj hw.testing (kept_function hd hj) hfresh.time, rfl, hw.testing, rfl, ?_⟩
  refine ⟨working_recell hw rfl rfl rfl rfl rfl, hd.inside, hj, ?_, by simp, ?_, ?_⟩
  · rw [Function.update_self, timeDiff_pos hcost.1]
    exact fresh_started hfresh hcost.1 hcost.2
  · intro x hx hn
    have hne : x ≠ q := fun he => hn (by simp [he])
    rw [Function.update_of_ne hne]
    exact hd.fresh x hx fun hs => hn (List.mem_append_left _ hs)
  · intro x hx hs hne
    rw [Function.update_of_ne hne]
    rcases List.mem_append.mp hs with hs | hs
    · exact hd.done x hx hs
    · exact absurd (List.mem_singleton.mp hs) hne

theorem start_over (report : Function → ℚ) (h : Progress f r kept cell started p)
    (hn : searchNext hypothesisGetNext (markedWith r.emethod kept cell p) = advance none d)
    (hd : Marked f d kept' cell' started) (hne : kept' ≠ [])
    (hall : ∀ q ∈ kept', q ∈ started) :
    ∃ r' g, requestStart hypothesisGetNext report r = .ok r' ∧ r'.function = some g ∧
      r'.emethod.state = .regular ∧ r'.emethod.wfunction = some g ∧
      r'.emethod.fnctset.functions = kept'.map (functionAt f) := by
  have hget := getNext_reported h.working.cells h.last h.running.count (running_once h) hn
  obtain ⟨x, hx⟩ := List.exists_mem_of_ne_nil kept' hne
  obtain ⟨w, q, hw, hq, _⟩ := measured_winner hd ⟨x, hx, hall x hx⟩
  have hdecision : getWinner { d with state := .decision } d.fnctset.maxnum =
      .ok (some w, { measuredWith d kept' cell' with state := .decision }) :=
    getWinner_state .decision hw
  exact ⟨_, functionAt f q, start_decide h.working.testing hget hdecision (kept_function hd hq),
    rfl, rfl, rfl, hd.working.functions⟩

def Remaining (r : Request) : Prop := ∃ t, r.emethod.twok = some t ∧ t.twokdone = true

def Advances (hypothesisGetNext : Emethod → Except Fault (Option ℕ × Emethod)) (f : Fnctset)
    (report : Function → ℚ) (r : Request) (kept started : List ℕ) : Prop :=
  (∃ r' kept' cell' q, requestStart hypothesisGetNext report r = .ok r' ∧
    r'.function = some (functionAt f q) ∧ r'.emethod.state = .testing ∧ q ∉ started ∧
    q ∈ kept ∧ kept'.Sublist kept ∧ Progress f r' kept' cell' (started ++ [q]) q ∧
    Remaining r') ∨
  ∃ r' g, requestStart hypothesisGetNext report r = .ok r' ∧ r'.function = some g ∧
    r'.emethod.state = .regular ∧ r'.emethod.wfunction = some g

def Exhausts (hypothesisGetNext : Emethod → Except Fault (Option ℕ × Emethod)) (f : Fnctset)
    (report : Function → ℚ) (r : Request) (kept started : List ℕ) : Prop :=
  (∃ r' cell' q, requestStart hypothesisGetNext report r = .ok r' ∧
    r'.function = some (functionAt f q) ∧ r'.emethod.state = .testing ∧ q ∉ started ∧
    q ∈ kept ∧ Progress f r' kept cell' (started ++ [q]) q ∧ Remaining r') ∨
  ∃ r' g, requestStart hypothesisGetNext report r = .ok r' ∧ r'.function = some g ∧
    r'.emethod.state = .regular ∧ r'.emethod.wfunction = some g ∧
    r'.emethod.fnctset.functions = kept.map (functionAt f) ∧ ∀ q ∈ kept, q ∈ started

/-- What follows once the next function comes from the remaining ones. -/
theorem exhausts_remaining (hc : Bounded f report) (h : Progress f r kept cell started p)
    (hn : searchNext hypothesisGetNext (markedWith r.emethod kept cell p) =
      advance (getFromRemaining d) d)
    (hd : Marked f d kept' cell' started) (hex : ∃ q ∈ kept', q ∈ started)
    (ht : ∃ t, d.twok = some t ∧ t.twokdone = true) :
    Exhausts hypothesisGetNext f report r kept' started := by
  cases hi : getFromRemaining d with
  | none =>
    rw [hi] at hn
    obtain ⟨x, hx, _⟩ := hex
    have hall := none_remaining hd hi
    obtain ⟨r', g, hr, hfun, hst, hw, hkept⟩ :=
      start_over report h hn hd (List.ne_nil_of_mem hx) hall
    exact Or.inr ⟨r', g, hr, hfun, hst, hw, hkept, hall⟩
  | some i =>
    rw [hi] at hn
    obtain ⟨q, hq, hnew⟩ := next_remaining hd hi
    obtain ⟨r', cell'', hr, hfun, hst, htwok, hp⟩ := start_continue hc h hn hd hq hnew
    exact Or.inl ⟨r', cell'', q, hr, hfun, hst, hnew, List.mem_of_getElem? hq, hp,
      by rw [Remaining, htwok]; exact ht⟩

theorem advances_exhausts (h : Exhausts hypothesisGetNext f report r kept' started)
    (hsub : kept'.Sublist kept) : Advances hypothesisGetNext f report r kept started := by
  rcases h with ⟨r', cell', q, hr, hfun, hst, hnew, hq, hp, ht⟩ | ⟨r', g, hr, hfun, hst, hw, _⟩
  · exact Or.inl ⟨r', kept', cell', q, hr, hfun, hst, hnew, hsub.subset hq, hsub, hp, ht⟩
  · exact Or.inr ⟨r', g, hr, hfun, hst, hw⟩

theorem remaining_exhausts (hc : Bounded f report) (h : Progress f r kept cell started p)
    (ht : Remaining r) : Exhausts hypothesisGetNext f report r kept started := by
  have hd := marked_of_progress h
  obtain ⟨t, htwok, hdone⟩ := ht
  have hnext : twokGetNext (markedWith r.emethod kept cell p) =
      .ok (getFromRemaining (markedWith r.emethod kept cell p),
        markedWith r.emethod kept cell p) := by
    have hmarked : (markedWith r.emethod kept cell p).twok = some t := htwok
    simp only [twokGetNext, hmarked, hdone, if_true]
  exact exhausts_remaining hc h (search_twok hd.working.algo hnext) hd
    ⟨p, List.mem_of_getElem? h.last, h.current⟩ ⟨t, htwok, hdone⟩

theorem remaining_step (hc : Bounded f report) (h : Progress f r kept cell started p)
    (ht : Remaining r) : Advances hypothesisGetNext f report r kept started :=
  advances_exhausts (remaining_exhausts hc h ht) (List.Sublist.refl kept)

structure CornerTwok (f : Fnctset) (t : Twok) : Prop where
  fnctsPos : t.fnctsPos = cornerPos f
  num : t.num = (cornerPos f).length
  attrset : t.attrset = f.attrset
  labels : ∀ label ∈ t.labels, label.length = f.attrset.maxnum
  twokdone : t.twokdone = false

structure AtCorner (f : Fnctset) (r : Request) (kept started : List ℕ) (t : Twok) : Prop where
  twok : r.emethod.twok = some t
  corner : CornerTwok f t
  kept : kept = List.range f.maxnum
  started : started = (cornerPos f).take t.nextPos
  bound : t.nextPos ≤ (cornerPos f).length

section Corners

variable {t : Twok}

theorem corner_search (h : Progress f r kept cell started p) (hcorner : AtCorner f r kept started t)
    (hq : (cornerPos f)[t.nextPos]? = some q) :
    searchNext hypothesisGetNext (markedWith r.emethod kept cell p) =
      advance (some q) { markedWith r.emethod kept cell p with
        twok := some { t with nextPos := t.nextPos+1 } } := by
  have hmarked : (markedWith r.emethod kept cell p).twok = some t := hcorner.twok
  have hlt := (List.getElem?_eq_some_iff.mp hq).1
  have hnum : ¬ t.num < t.nextPos+1 := by
    rw [hcorner.corner.num]
    omega
  refine search_twok (marked_of_progress h).working.algo ?_
  simp only [twokGetNext, hmarked, hcorner.corner.twokdone, Bool.false_eq_true, if_false, hnum,
    hcorner.corner.fnctsPos, hq]

theorem corner_marked (h : Progress f r kept cell started p) (t : Twok) :
    Marked f { markedWith r.emethod kept cell p with twok := some t } kept
      (Function.update cell p (markTested (cell p))) started := by
  have hd := marked_of_progress h
  exact ⟨working_recell hd.working rfl rfl rfl rfl rfl, hd.inside, hd.fresh, hd.done⟩

theorem corner_kept (hf : Cornered f) (hcorner : AtCorner f r kept started t)
    (hq : (cornerPos f)[t.nextPos]? = some q) : kept[q]? = some q := by
  rw [hcorner.kept]
  exact List.getElem?_range (cornerPos_lt hf (List.mem_of_getElem? hq))

/-- Among distinct corners the next one is new. -/
theorem corner_new (hn : (cornerPos f).Nodup) (hcorner : AtCorner f r kept started t)
    (hq : (cornerPos f)[t.nextPos]? = some q) : q ∉ started := by
  rw [hcorner.started]
  intro hin
  obtain ⟨i, hi, he⟩ := List.mem_take_iff_getElem.mp hin
  obtain ⟨hbound, hq⟩ := List.getElem?_eq_some_iff.mp hq
  have hsame := (hn.getElem_inj_iff).mp (he.trans hq.symm)
  omega

/-- A start at a new corner. -/
theorem corner_step (hf : Cornered f) (hc : Bounded f report)
    (h : Progress f r kept cell started p) (hcorner : AtCorner f r kept started t)
    (hq : (cornerPos f)[t.nextPos]? = some q) (hnew : q ∉ started) :
    ∃ r' cell', requestStart hypothesisGetNext report r = .ok r' ∧
      r'.function = some (functionAt f q) ∧ r'.emethod.state = .testing ∧
      Progress f r' kept cell' (started ++ [q]) q ∧
      AtCorner f r' kept (started ++ [q]) { t with nextPos := t.nextPos+1 } := by
  obtain ⟨r', cell', hr, hfun, hst, htwok, hp⟩ := start_continue hc h (corner_search h hcorner hq)
    (corner_marked h _) (corner_kept hf hcorner hq) hnew
  have ht := hcorner.corner
  refine ⟨r', cell', hr, hfun, hst, hp, htwok,
    ⟨ht.fnctsPos, ht.num, ht.attrset, ht.labels, ht.twokdone⟩, hcorner.kept, ?_,
    (List.getElem?_eq_some_iff.mp hq).1⟩
  rw [hcorner.started, List.take_add_one, hq]
  rfl

/-- A start at a corner that another one has tested. -/
theorem corner_repeat (hf : Cornered f) (h : Progress f r kept cell started p)
    (hcorner : AtCorner f r kept started t) (hq : (cornerPos f)[t.nextPos]? = some q)
    (hold : q ∈ started) : requestStart hypothesisGetNext report r = .error .undefined := by
  have hd := corner_marked h { t with nextPos := t.nextPos+1 }
  have hkept := corner_kept hf hcorner hq
  exact start_again h.working.cells h.last h.working.testing h.running.count (running_once h)
    (corner_search h hcorner hq) hd.working.cells hkept hd.working.testing (kept_function hd hkept)
    (hd.done q (List.mem_of_getElem? hkept) hold).time

theorem marked_sublist {e : Emethod} (h : Marked f e kept cell started)
    (hw : Working f d kept' cell) (hsub : kept'.Sublist kept) : Marked f d kept' cell started :=
  ⟨hw, hsub.trans h.inside, fun q hq => h.fresh q (hsub.subset hq),
    fun q hq => h.done q (hsub.subset hq)⟩

/-- Behind the last corner the set is reduced around the winner so far. -/
theorem finish_search {e d : Emethod} {w : ℕ} {best : Function} (he : e.twok = some t)
    (ht : CornerTwok f t) (hend : t.nextPos = (cornerPos f).length)
    (hwin : getWinner e e.fnctset.maxnum = .ok (some w, d))
    (hbest : d.orgfnctset.functions[w]? = some best) :
    twokGetNext e = .ok (getFromRemaining (reduceFnctset t best (computeSSTs (computeQs d t)) d),
      { reduceFnctset t best (computeSSTs (computeQs d t)) d with
        twok := some { t with nextPos := t.nextPos+1, best := some w, twokdone := true } }) := by
  have hnum : t.num < t.nextPos+1 := by
    rw [ht.num]
    omega
  have hbind : (some w).bind (d.orgfnctset.functions[·]?) = some best := hbest
  simp only [twokGetNext, he, ht.twokdone, Bool.false_eq_true, if_false, hnum, if_true,
    finishCorners, hwin, hbind]
  rfl

/-- The search step behind the last corner: it reduces the set, keeps the best
corner and goes on with the remaining functions. -/
theorem corners_finish (hf : Cornered f) (h : Progress f r kept cell started p)
    (hcorner : AtCorner f r kept started t) (hend : t.nextPos = (cornerPos f).length) :
    ∃ d kept' cell', searchNext hypothesisGetNext (markedWith r.emethod kept cell p) =
        advance (getFromRemaining d) d ∧
      Marked f d kept' cell' started ∧ kept'.Sublist kept ∧
      (∃ t, d.twok = some t ∧ t.twokdone = true) ∧ ∃ q e, q ∈ kept' ∧ q ∈ started ∧
        getWinner (markedWith r.emethod kept cell p)
          (markedWith r.emethod kept cell p).fnctset.maxnum = .ok (some q, e) := by
  have hd := marked_of_progress h
  obtain ⟨w, q, hwin, hq, hs⟩ := measured_winner hd ⟨p, List.mem_of_getElem? h.last, h.current⟩
  have hqw : q = w := by
    rw [hcorner.kept] at hq
    obtain ⟨_, hq⟩ := List.getElem?_eq_some_iff.mp hq
    rw [← hq, List.getElem_range]
  subst hqw
  have hpos : q ∈ cornerPos f := List.mem_of_mem_take (hcorner.started ▸ hs)
  have hget := functionAt_get (cornerPos_lt hf hpos)
  have hbest : ∀ m, m < f.attrset.maxnum → ∃ v, (functionAt f q).attrVals[m]? = some v ∧
      (t.attrset.baseval[m]? = some v ∨ t.attrset.maxval[m]? = some v) := by
    rw [hcorner.corner.attrset]
    exact fun m hm => cornerPos_values hf hpos hget hm
  obtain ⟨e, he⟩ : ∃ e, e = measuredWith (markedWith r.emethod kept cell p) kept
    (Function.update cell p (markTested (cell p))) := ⟨_, rfl⟩
  have hmeasured := measured_marked hd
  rw [← he] at hwin hmeasured
  have hlabels : ∀ c ∈ (t.labels.zip (computeSSTs (computeQs e t))).tail,
      c.1.length = f.attrset.maxnum :=
    fun c hc => hcorner.corner.labels _ (List.of_mem_zip (List.mem_of_mem_tail hc)).1
  obtain ⟨kept', hworking, hsub, hmem⟩ := reduce_keeps hbest _ hlabels hmeasured.working
    (List.mem_of_getElem? hq)
  have horg : e.orgfnctset.functions[q]? = some (functionAt f q) := by
    rw [hmeasured.working.org, hget]
  have hfinish := finish_search (show (markedWith r.emethod kept cell p).twok = some t from
    hcorner.twok) hcorner.corner hend hwin horg
  refine ⟨{ reduceFnctset t (functionAt f q) (computeSSTs (computeQs e t)) e with
      twok := some { t with nextPos := t.nextPos+1, best := some q, twokdone := true } },
    kept', _, search_twok hd.working.algo hfinish, marked_sublist hmeasured ?_ hsub, hsub,
    ⟨_, rfl, rfl⟩, q, e, hmem, hs, hwin⟩
  exact working_recell hworking hworking.cells.stats rfl rfl rfl rfl

/-- The start behind the last corner, and the best corner in what is left. -/
theorem corners_exhaust
    (hypothesisGetNext : Emethod → Except Fault (Option ℕ × Emethod))
    (hf : Cornered f) (hc : Bounded f report)
    (h : Progress f r kept cell started p) (hcorner : AtCorner f r kept started t)
    (hend : t.nextPos = (cornerPos f).length) :
    ∃ kept', kept'.Sublist kept ∧ Exhausts hypothesisGetNext f report r kept' started ∧
      ∃ q e, q ∈ kept' ∧ q ∈ started ∧ getWinner (markedWith r.emethod kept cell p)
        (markedWith r.emethod kept cell p).fnctset.maxnum = .ok (some q, e) := by
  obtain ⟨d, kept', cell', hn, hd, hsub, ht, q, e, hq, hs, hwin⟩ :=
    corners_finish hf h hcorner hend
  exact ⟨kept', hsub, exhausts_remaining hc h hn hd ⟨q, hq, hs⟩ ht, q, e, hq, hs, hwin⟩

theorem corner_end (hf : Cornered f) (hc : Bounded f report)
    (h : Progress f r kept cell started p) (hcorner : AtCorner f r kept started t)
    (hend : t.nextPos = (cornerPos f).length) :
    Advances hypothesisGetNext f report r kept started := by
  obtain ⟨kept', hsub, hexhausts, _⟩ := corners_exhaust hypothesisGetNext hf hc h hcorner hend
  exact advances_exhausts hexhausts hsub

end Corners

end Steps

end Otpo.TwokSearch
