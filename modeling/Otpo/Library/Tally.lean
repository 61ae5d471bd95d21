import Mathlib.Data.Finset.Card
import Mathlib.Algebra.BigOperators.Group.List.Basic
import Mathlib.Tactic.Ring

/-!
# Tallies

Amounts are added up under keys. A key that is new comes behind the others.
-/

set_option autoImplicit false

namespace Tally

variable {K : Type*} [DecidableEq K]

def add (k : K) (n : ℕ) : List (K × ℕ) → List (K × ℕ)
  | [] => [(k, n)]
  | e::l => if e.1 = k then (e.1, e.2+n)::l else e::add k n l

def tally (es : List (K × ℕ)) : List (K × ℕ) := es.foldl (fun l e => add e.1 e.2 l) []

def total (es : List (K × ℕ)) (k : K) : ℕ := ((es.filter fun e => e.1 = k).map Prod.snd).sum

structure Tallies (l es : List (K × ℕ)) : Prop where
  nodup : (l.map Prod.fst).Nodup
  keys : ∀ k, k ∈ l.map Prod.fst ↔ k ∈ es.map Prod.fst
  totals : ∀ e ∈ l, e.2 = total es e.1

variable {k : K} {n : ℕ} {l es : List (K × ℕ)}

theorem add_new (h : k ∉ l.map Prod.fst) : add k n l = l ++ [(k, n)] := by
  induction l with
  | nil => rfl
  | cons e l ih =>
    rw [List.map_cons, List.mem_cons, not_or] at h
    rw [add, if_neg (Ne.symm h.1), ih h.2, List.cons_append]

theorem add_keys (h : k ∈ l.map Prod.fst) : (add k n l).map Prod.fst = l.map Prod.fst := by
  induction l with
  | nil => cases h
  | cons e l ih =>
    by_cases he : e.1 = k
    · rw [add, if_pos he, List.map_cons, List.map_cons]
    · rw [List.map_cons, List.mem_cons, or_iff_right (Ne.symm he)] at h
      rw [add, if_neg he, List.map_cons, ih h, List.map_cons]

theorem mem_add_keys {k' : K} :
    k' ∈ (add k n l).map Prod.fst ↔ k' ∈ l.map Prod.fst ∨ k' = k := by
  by_cases h : k ∈ l.map Prod.fst
  · rw [add_keys h]
    exact (or_iff_left_of_imp fun hk => hk ▸ h).symm
  · rw [add_new h, List.map_append, List.mem_append]
    exact or_congr_right List.mem_singleton

theorem total_append (es es' : List (K × ℕ)) (k : K) :
    total (es ++ es') k = total es k+total es' k := by
  rw [total, List.filter_append, List.map_append, List.sum_append]
  rfl

theorem total_single (e : K × ℕ) (k : K) : total [e] k = if e.1 = k then e.2 else 0 := by
  by_cases h : e.1 = k
  · rw [total, List.filter_singleton, decide_eq_true h, if_pos h]
    exact List.sum_singleton
  · rw [total, List.filter_singleton, decide_eq_false h, if_neg h]
    rfl

theorem total_nil (h : k ∉ es.map Prod.fst) : total es k = 0 := by
  have hnone : (es.filter fun e => e.1 = k) = [] := by
    rw [List.filter_eq_nil_iff]
    intro e he
    rw [decide_eq_true_eq]
    exact fun heq => h (heq ▸ List.mem_map_of_mem he)
  rw [total, hnone]
  rfl

theorem mem_add (hnodup : (l.map Prod.fst).Nodup) {e : K × ℕ} (he : e ∈ add k n l) :
    (e.1 ≠ k ∧ e ∈ l) ∨ (∃ m, (k, m) ∈ l ∧ e = (k, m+n)) ∨
      (k ∉ l.map Prod.fst ∧ e = (k, n)) := by
  induction l with
  | nil => exact Or.inr (Or.inr ⟨List.not_mem_nil, List.mem_singleton.mp he⟩)
  | cons d l ih =>
    rw [List.map_cons, List.nodup_cons] at hnodup
    by_cases hd : d.1 = k
    · rw [add, if_pos hd, List.mem_cons] at he
      rcases he with rfl | he
      · refine Or.inr (Or.inl ⟨d.2, ?_, ?_⟩)
        · rw [← hd]
          exact List.mem_cons_self
        · rw [hd]
      · refine Or.inl ⟨fun heq => hnodup.1 ?_, List.mem_cons_of_mem d he⟩
        rw [hd, ← heq]
        exact List.mem_map_of_mem he
    · rw [add, if_neg hd, List.mem_cons] at he
      rcases he with rfl | he
      · exact Or.inl ⟨hd, List.mem_cons_self⟩
      · rcases ih hnodup.2 he with ⟨hne, he⟩ | ⟨m, hm, he⟩ | ⟨hk, he⟩
        · exact Or.inl ⟨hne, List.mem_cons_of_mem d he⟩
        · exact Or.inr (Or.inl ⟨m, List.mem_cons_of_mem d hm, he⟩)
        · refine Or.inr (Or.inr ⟨?_, he⟩)
          rw [List.map_cons, List.mem_cons, not_or]
          exact ⟨Ne.symm hd, hk⟩

theorem tallies_nil : Tallies ([] : List (K × ℕ)) [] :=
  ⟨List.nodup_nil, fun _ => Iff.rfl, List.forall_mem_nil _⟩

theorem tallies_add (h : Tallies l es) (k : K) (n : ℕ) :
    Tallies (add k n l) (es ++ [(k, n)]) := by
  constructor
  · by_cases hk : k ∈ l.map Prod.fst
    · rw [add_keys hk]
      exact h.nodup
    · rw [add_new hk, List.map_append]
      refine h.nodup.append (List.nodup_singleton _) fun k' hk' hsame => ?_
      have heq : k' = k := List.mem_singleton.mp hsame
      exact hk (heq ▸ hk')
  · intro k'
    rw [mem_add_keys, List.map_append, List.mem_append, h.keys]
    exact or_congr_right List.mem_singleton.symm
  · intro e he
    rw [total_append, total_single]
    rcases mem_add h.nodup he with ⟨hne, he⟩ | ⟨m, hm, rfl⟩ | ⟨hk, rfl⟩
    · rw [if_neg (Ne.symm hne), Nat.add_zero]
      exact h.totals e he
    · rw [if_pos rfl]
      exact congrArg (·+n) (h.totals (k, m) hm)
    · rw [if_pos rfl, total_nil fun hes => hk ((h.keys k).mpr hes), Nat.zero_add]

theorem tally_append (es es' : List (K × ℕ)) :
    tally (es ++ es') = es'.foldl (fun l e => add e.1 e.2 l) (tally es) := List.foldl_append

theorem tally_tallies (es : List (K × ℕ)) : Tallies (tally es) es := by
  induction es using List.reverseRecOn with
  | nil => exact tallies_nil
  | append_singleton es e ih =>
    rw [tally_append]
    exact tallies_add ih e.1 e.2

theorem mem_tally {e : K × ℕ} : e ∈ tally es ↔ e.1 ∈ es.map Prod.fst ∧ e.2 = total es e.1 := by
  have h := tally_tallies es
  constructor
  · exact fun he => ⟨(h.keys e.1).mp (List.mem_map_of_mem he), h.totals e he⟩
  · rintro ⟨hkey, htotal⟩
    obtain ⟨d, hd, hsame⟩ := List.mem_map.mp ((h.keys e.1).mpr hkey)
    have hd2 : d.2 = e.2 := by rw [h.totals d hd, hsame, htotal]
    rwa [Prod.ext hsame hd2] at hd

theorem tally_length (es : List (K × ℕ)) :
    (tally es).length = (es.map Prod.fst).toFinset.card := by
  have h := tally_tallies es
  have hset : (es.map Prod.fst).toFinset = ((tally es).map Prod.fst).toFinset := by
    ext k
    rw [List.mem_toFinset, List.mem_toFinset, h.keys]
  rw [hset, List.toFinset_card_of_nodup h.nodup, List.length_map]

theorem le_total {e : K × ℕ} (h : e ∈ es) : e.2 ≤ total es e.1 := by
  obtain ⟨front, back, rfl⟩ := List.append_of_mem h
  rw [List.append_cons, total_append, total_append, total_single, if_pos rfl]
  omega

theorem total_zero (h : ∀ e ∈ es, e.2 = 0) : total es k = 0 := by
  refine List.sum_eq_zero fun n hn => ?_
  obtain ⟨e, he, rfl⟩ := List.mem_map.mp hn
  exact h e (List.mem_of_mem_filter he)

/-- With each key once, an amount is the sum of its key. -/
theorem total_of_mem (h : (l.map Prod.fst).Nodup) {e : K × ℕ} (he : e ∈ l) :
    total l e.1 = e.2 := by
  obtain ⟨front, back, rfl⟩ := List.append_of_mem he
  rw [List.map_append, List.map_cons, List.nodup_middle, List.nodup_cons, List.mem_append,
    not_or] at h
  rw [List.append_cons, total_append, total_append, total_single, if_pos rfl, total_nil h.1.1,
    total_nil h.1.2, Nat.zero_add, Nat.add_zero]

end Tally
