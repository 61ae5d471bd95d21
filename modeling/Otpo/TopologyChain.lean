import Otpo.TopologySpans
import Mathlib.Tactic.Ring

/-!
# Chains below the root

The ranks but the root are cut into chains. The first `mark` of them are by one
rank longer than the others, if there is a remainder.
-/

set_option autoImplicit false

namespace Otpo.TopologyChain
open WrapAround Otpo.ReduceTopo Otpo.TopologySpans

variable {size fanout root s i j : ℕ}

def length (size fanout i : ℕ) : ℕ :=
  if i < mark size fanout then maxchainlen size fanout else maxchainlen size fanout-1

def head (size fanout : ℕ) : ℕ → ℕ
  | 0 => 1
  | i+1 => head size fanout i+length size fanout i

theorem head_mono (h : i ≤ j) : head size fanout i ≤ head size fanout j := by
  induction h with
  | refl => exact le_rfl
  | step _ ih => exact ih.trans (Nat.le_add_right _ _)

theorem head_pos : 0 < head size fanout i :=
  Nat.lt_of_lt_of_le Nat.one_pos (head_mono (Nat.zero_le i))

theorem head_lt_iff (hi : head size fanout i ≤ s) (hj : s < head size fanout j) : i < j := by
  by_contra h
  have : head size fanout j ≤ head size fanout i := head_mono (Nat.not_lt.mp h)
  omega

theorem head_unique (hi : head size fanout i ≤ s) (hi' : s < head size fanout (i+1))
    (hj : head size fanout j ≤ s) (hj' : s < head size fanout (j+1)) : i = j := by
  have := head_lt_iff hi hj'
  have := head_lt_iff hj hi'
  omega

theorem head_left (h : i ≤ mark size fanout) :
    head size fanout i = 1+i*maxchainlen size fanout := by
  induction i with
  | zero => simp [head]
  | succ i ih =>
    rw [head, ih (by omega), length, if_pos (by omega), Nat.succ_mul]
    omega

theorem head_right (i : ℕ) : head size fanout (mark size fanout+i) =
    mark size fanout*maxchainlen size fanout+1+i*(maxchainlen size fanout-1) := by
  induction i with
  | zero =>
    rw [Nat.add_zero, head_left le_rfl]
    omega
  | succ i ih =>
    rw [← Nat.add_assoc, head, ih, length, if_neg (by omega), Nat.succ_mul]
    omega

/-- The chains are as long together as there are ranks below the root. -/
theorem head_last (hfanout : 0 < fanout) (hsize : 0 < size) : head size fanout fanout = size := by
  have hdiv := Nat.div_add_mod (size-1) fanout
  by_cases hrest : (size-1)%fanout = 0
  · have hmark : mark size fanout = fanout+1 := if_neg (not_not.mpr hrest)
    have hlen : maxchainlen size fanout = (size-1)/fanout := if_neg (not_not.mpr hrest)
    rw [head_left (by omega), hlen]
    omega
  · have hmark : mark size fanout = (size-1)%fanout := if_pos hrest
    have hlen : maxchainlen size fanout = (size-1)/fanout+1 := if_pos hrest
    have hlt := Nat.mod_lt (size-1) hfanout
    obtain ⟨k, hk⟩ := Nat.exists_eq_add_of_lt hlt
    have hfirst : head size fanout (mark size fanout+(k+1)) = _ := head_right (k+1)
    rw [hmark, ← Nat.add_assoc, ← hk, hlen, Nat.add_sub_cancel] at hfirst
    rw [hfirst]
    have : (size-1)%fanout*((size-1)/fanout+1)+1+(k+1)*((size-1)/fanout) =
        ((size-1)%fanout+k+1)*((size-1)/fanout)+(size-1)%fanout+1 := by ring
    rw [this, ← hk]
    omega

theorem length_pos (hfanout : 0 < fanout) (hsize : fanout < size) (hi : i < fanout) :
    0 < length size fanout i := by
  have hdiv := Nat.div_pos (show fanout ≤ size-1 by omega) hfanout
  unfold length mark maxchainlen
  by_cases hrest : (size-1)%fanout = 0
  · simp only [hrest, ne_eq, not_true_eq_false, if_false, if_pos (by omega : i < fanout+1)]
    exact hdiv
  · simp only [hrest, ne_eq, not_false_eq_true, if_true]
    split <;> omega

theorem ownChain_spec (hfanout : 0 < fanout) (hsize : fanout < size) (hs : s ≠ 0)
    (hlt : s < size) :
    ∃ i, i < fanout ∧ ownChain size fanout s = (head size fanout i, length size fanout i) ∧
      head size fanout i ≤ s ∧ s < head size fanout (i+1) := by
  have hlast := head_last hfanout (by omega : 0 < size)
  obtain ⟨i, hown, hlow, hhigh⟩ : ∃ i,
      ownChain size fanout s = (head size fanout i, length size fanout i) ∧
      head size fanout i ≤ s ∧ s < head size fanout (i+1) := by
    unfold ownChain
    simp only
    split
    · rename_i hleft
      have hcolumn := Nat.div_lt_of_lt_mul (Nat.mul_comm _ _ ▸ hleft)
      have hlen : 0 < maxchainlen size fanout := Nat.pos_of_mul_pos_left (by omega : 0 <
        mark size fanout*maxchainlen size fanout)
      have hdiv := Nat.div_add_mod' (s-1) (maxchainlen size fanout)
      have hmod := Nat.mod_lt (s-1) hlen
      refine ⟨(s-1)/maxchainlen size fanout, ?_, ?_, ?_⟩
      · rw [head_left hcolumn.le, length, if_pos hcolumn]
      · rw [head_left hcolumn.le]
        omega
      · rw [head, head_left hcolumn.le, length, if_pos hcolumn]
        omega
    · rename_i hright
      have hmark : mark size fanout ≤ fanout := by
        by_contra hmany
        have hle : head size fanout fanout ≤ head size fanout (mark size fanout) :=
          head_mono (by omega)
        rw [hlast, head_left le_rfl] at hle
        omega
      have hlong : 0 < maxchainlen size fanout-1 := by
        obtain hlt | heq := Nat.lt_or_eq_of_le hmark
        · have := length_pos hfanout hsize hlt
          rwa [length, if_neg (lt_irrefl _)] at this
        · have hall : head size fanout (mark size fanout) = _ := head_left le_rfl
          rw [heq, hlast] at hall
          rw [heq] at hright
          omega
      have hdiv := Nat.div_add_mod' (s-1-mark size fanout*maxchainlen size fanout)
        (maxchainlen size fanout-1)
      have hmod := Nat.mod_lt (s-1-mark size fanout*maxchainlen size fanout) hlong
      refine ⟨mark size fanout+(s-1-mark size fanout*maxchainlen size fanout)/
        (maxchainlen size fanout-1), ?_, ?_, ?_⟩
      · rw [head_right, Nat.add_sub_cancel_left, length,
          if_neg (Nat.not_lt.mpr (Nat.le_add_right _ _))]
      · rw [head_right]
        omega
      · rw [head, head_right, length, if_neg (Nat.not_lt.mpr (Nat.le_add_right _ _))]
        omega
  exact ⟨i, head_lt_iff hlow (by omega), hown, hlow, hhigh⟩

def children (size fanout s : ℕ) : List ℕ :=
  if s = 0 then (List.range fanout).map (head size fanout)
  else if s = (ownChain size fanout s).1+(ownChain size fanout s).2-1 then []
  else if s+1 < size then [s+1] else []

def parent (size fanout s : ℕ) : ℕ := if s = (ownChain size fanout s).1 then 0 else s-1

theorem ownChain_head (hfanout : 0 < fanout) (hsize : fanout < size) (hi : i < fanout) :
    ownChain size fanout (head size fanout i) = (head size fanout i, length size fanout i) := by
  have hlen := length_pos hfanout hsize hi
  have hlt : head size fanout i < head size fanout (i+1) := by
    rw [head]
    omega
  have hle : head size fanout (i+1) ≤ head size fanout fanout := head_mono hi
  rw [head_last hfanout (by omega)] at hle
  obtain ⟨j, -, hown, hlow, hhigh⟩ := ownChain_spec (s := head size fanout i) hfanout hsize
    head_pos.ne' (by omega)
  rw [hown, head_unique hlow hhigh le_rfl hlt]

theorem children_lt (hfanout : 0 < fanout) (hsize : fanout < size) {p q : ℕ}
    (hq : q ∈ children size fanout p) : q < size := by
  unfold children at hq
  split at hq
  · obtain ⟨i, hi, rfl⟩ := List.mem_map.mp hq
    have hi := List.mem_range.mp hi
    have hlen := length_pos hfanout hsize hi
    have hle : head size fanout (i+1) ≤ head size fanout fanout := head_mono hi
    rw [head_last hfanout (by omega), head] at hle
    omega
  · split at hq
    · cases hq
    · split at hq
      · obtain rfl := List.mem_singleton.mp hq
        assumption
      · cases hq

theorem heads_nodup (hfanout : 0 < fanout) (hsize : fanout < size) :
    ((List.range fanout).map (head size fanout)).Nodup := by
  apply List.nodup_range.map_on
  intro i hi j hj heq
  have hnext {i : ℕ} (hi : i ∈ List.range fanout) :
      head size fanout i < head size fanout (i+1) :=
    Nat.lt_add_of_pos_right (length_pos hfanout hsize (List.mem_range.mp hi))
  exact head_unique le_rfl (hnext hi) heq.ge (heq ▸ hnext hj)

/-- Below the root a chain goes on to the next rank up to its end. -/
theorem linked_below (hfanout : 0 < fanout) (hsize : fanout < size) {p q : ℕ} (hp : p < size)
    (hq : q < size) (hpos : p ≠ 0) :
    q ∈ children size fanout p ↔ q ≠ 0 ∧ parent size fanout q = p := by
  obtain ⟨i, -, hown, hlow, hhigh⟩ := ownChain_spec hfanout hsize hpos hp
  rw [children, if_neg hpos, hown, parent]
  simp only
  rw [head] at hhigh
  constructor
  · intro hmem
    split at hmem
    · cases hmem
    · rename_i hend
      split at hmem
      · obtain rfl := List.mem_singleton.mp hmem
        obtain ⟨j, -, hown', hlow', hhigh'⟩ := ownChain_spec hfanout hsize (Nat.succ_ne_zero p) hq
        have hij := head_unique (i := i) (s := p+1) (by omega) (by rw [head]; omega) hlow' hhigh'
        rw [hown', ← hij, if_neg (by omega)]
        omega
      · cases hmem
  · rintro ⟨hne, hparent⟩
    obtain ⟨j, -, hown', hlow', hhigh'⟩ := ownChain_spec hfanout hsize hne hq
    rw [hown'] at hparent
    split at hparent
    · omega
    · rename_i hstart
      have hij := head_unique (i := i) (s := p) hlow (by rw [head]; omega)
        (by omega : head size fanout j ≤ p) (by omega)
      subst hij
      rw [head] at hhigh'
      rw [if_neg (by omega), if_pos (by omega)]
      simp only [List.mem_singleton]
      omega

theorem rooted (hfanout : 0 < fanout) (hsize : fanout < size) :
    Rooted size (children size fanout) (parent size fanout) where
  child_lt := fun _ hq => children_lt hfanout hsize hq
  children_nodup := by
    intro p _
    unfold children
    split
    · exact heads_nodup hfanout hsize
    · split
      · exact List.nodup_nil
      · split <;> simp
  linked := by
    intro p q hp hq
    by_cases hpos : p = 0
    · subst hpos
      rw [children, if_pos rfl, List.mem_map]
      constructor
      · rintro ⟨i, hi, rfl⟩
        rw [parent, ownChain_head hfanout hsize (List.mem_range.mp hi)]
        exact ⟨head_pos.ne', if_pos rfl⟩
      · rintro ⟨hne, hparent⟩
        obtain ⟨i, hi, hown, hlow, -⟩ := ownChain_spec hfanout hsize hne hq
        rw [parent, hown] at hparent
        simp only at hparent
        have : 0 < head size fanout i := head_pos
        refine ⟨i, List.mem_range.mpr hi, ?_⟩
        split at hparent <;> omega
    · exact linked_below hfanout hsize hp hq hpos
  parent_lt := by
    intro q _ hne
    unfold parent
    split <;> omega

theorem chainHeads_spec (root n : ℕ) (chain : Tree) (hsize : fanout < size) (hi : i+n < fanout) :
    (chainHeads size fanout (List.range' (i+1) n) ((head size fanout i+root)%size : ℕ)
      chain).children = chain.children++
        ((List.range' (i+1) n).map (head size fanout)).map (fun c => (c+root)%size) ∧
    (chainHeads size fanout (List.range' (i+1) n) ((head size fanout i+root)%size : ℕ)
      chain).root = chain.root := by
  induction n generalizing i chain with
  | zero => simp [chainHeads]
  | succ n ih =>
    have hlen := length_pos (by omega) hsize (by omega : i < fanout)
    have hnext : (if i+1 > mark size fanout then
        (((head size fanout i+root)%size : ℕ) : ℤ)+maxchainlen size fanout-1
        else ((head size fanout i+root)%size : ℕ)+maxchainlen size fanout)%size =
        ((head size fanout (i+1)+root)%size : ℕ) := by
      have hstep : (if i+1 > mark size fanout then
          (((head size fanout i+root)%size : ℕ) : ℤ)+maxchainlen size fanout-1
          else ((head size fanout i+root)%size : ℕ)+maxchainlen size fanout) =
          ((head size fanout i+root)%size : ℕ)+(length size fanout i : ℕ) := by
        unfold length at *
        by_cases hmark : i < mark size fanout
        · rw [if_neg (by omega), if_pos hmark]
        · rw [if_neg hmark] at hlen
          rw [if_pos (by omega), if_neg hmark]
          omega
      rw [hstep, Int.natCast_emod, Int.emod_add_emod, head, Int.natCast_emod]
      congr 1
      omega
    rw [List.range'_succ, chainHeads]
    simp only [hnext]
    obtain ⟨hchildren, hroot⟩ := ih (i := i+1)
      (chain.push ((head size fanout (i+1)+root)%size : ℕ)) (by omega)
    rw [hchildren, hroot, children_push, Int.toNat_natCast]
    simp

theorem numchain_pos (hsize : 2 ≤ size) : 0 < numchain size fanout := by
  unfold numchain maxTreeFanout
  grind

theorem numchain_lt (hsize : 2 ≤ size) : numchain size fanout < size := by
  unfold numchain maxTreeFanout
  grind

theorem single_chain (hsize : 2 ≤ size) (hs : s ≠ 0) (hlt : s < size) :
    ownChain size 1 s = (1, size-1) := by
  obtain ⟨i, hi, hown, -⟩ := ownChain_spec Nat.one_pos (by omega) hs hlt
  have hlast : head size 1 1 = size := head_last Nat.one_pos (by omega)
  have hfirst : head size 1 0 = 1 := rfl
  rw [head, hfirst] at hlast
  rw [hown, Nat.lt_one_iff.mp hi, hfirst, ← hlast, Nat.add_sub_cancel_left, hlast]

theorem children_single (hsize : 2 ≤ size) (hlt : s < size) :
    children size 1 s = if s+1 < size then [s+1] else [] := by
  rw [children]
  by_cases hs : s = 0
  · rw [if_pos hs, hs, if_pos (by omega)]
    rfl
  · rw [if_neg hs, single_chain hsize hs hlt]
    by_cases hend : s+1 < size
    · rw [if_neg (by omega)]
    · rw [if_pos (by omega), if_neg hend]

theorem parent_single (hsize : 2 ≤ size) (hs : s ≠ 0) (hlt : s < size) :
    parent size 1 s = s-1 := by
  rw [parent, single_chain hsize hs hlt]
  split <;> omega

/-- What one rank builds where there is one chain only. -/
theorem buildChain_single {rank : ℕ} (hsize : 2 ≤ size) (hroot : root < size)
    (hrank : rank < size) (hsingle : numchain size fanout = 1) :
    (buildChain size rank root fanout).root = root ∧
    (buildChain size rank root fanout).children =
      (children size 1 (ahead size root rank)).map (fun c => (c+root)%size) ∧
    (rank ≠ root → (buildChain size rank root fanout).prev =
      ((parent size 1 (ahead size root rank)+root)%size : ℕ)) := by
  have hlt := ahead_lt hroot hrank
  rw [buildChain, hsingle, children_single hsize hlt]
  simp only [if_true]
  refine ⟨by split <;> rfl, ?_, ?_⟩
  · by_cases hend : ahead size root rank+1 < size
    · rw [if_pos hend, if_neg (Nat.not_le.mpr hend), children_push, Int.toNat_natCast]
      rfl
    · rw [if_neg hend, if_pos (Nat.not_lt.mp hend)]
      rfl
  · intro hne
    have hzero : ahead size root rank ≠ 0 := fun h => hne ((ahead_eq_zero hroot).mp h)
    rw [parent_single hsize hzero hlt, if_neg hzero]
    split <;> rfl

/-- What one rank builds where there are several chains. -/
theorem buildChain_several {rank : ℕ} (hsize : 2 ≤ size) (hroot : root < size)
    (hrank : rank < size) (hseveral : numchain size fanout ≠ 1) :
    (buildChain size rank root fanout).root = root ∧
    (buildChain size rank root fanout).children =
      (children size (numchain size fanout) (ahead size root rank)).map
        (fun c => (c+root)%size) ∧
    (rank ≠ root → (buildChain size rank root fanout).prev =
      ((parent size (numchain size fanout) (ahead size root rank)+root)%size : ℕ)) := by
  have hlt := ahead_lt hroot hrank
  have hpos : 0 < numchain size fanout := numchain_pos hsize
  have hless : numchain size fanout < size := numchain_lt hsize
  rw [buildChain]
  simp only [hseveral, if_false, show ¬ size = 1 by omega]
  generalize numchain size fanout = n at *
  by_cases hne : rank = root
  · subst hne
    obtain ⟨m, rfl⟩ : ∃ m, n = m+1 := ⟨n-1, by omega⟩
    obtain ⟨hchildren, hhead⟩ := chainHeads_spec rank (i := 0) m
      ((Tree.empty rank).push ((rank+1)%size : ℕ)) hless (by omega)
    have hzero : ahead size rank rank = 0 := (ahead_eq_zero hroot).mpr rfl
    rw [head, Nat.add_comm 1 rank, Nat.zero_add] at hchildren hhead
    simp only [if_true, Nat.add_sub_cancel, hhead, hchildren, hzero]
    refine ⟨rfl, ?_, fun h => absurd rfl h⟩
    rw [children, if_pos rfl, children_push, Int.toNat_natCast, List.range_eq_range',
      List.range'_succ, List.map_cons, List.map_cons, head, Nat.add_comm 1 rank]
    rfl
  · have hzero : ahead size root rank ≠ 0 := fun h => hne ((ahead_eq_zero hroot).mp h)
    simp only [hne, if_false]
    generalize ahead size root rank = s at *
    refine ⟨by split <;> (try split) <;> rfl, ?_, ?_⟩
    · rw [children, if_neg hzero]
      split
      · rfl
      · split
        · rw [children_push, Int.toNat_natCast]
          rfl
        · rfl
    · intro _
      split
      · rfl
      · split <;> rfl

/-- The ranks build chains that reach all of them. -/
theorem buildChain_spans (fanout : ℕ) (hsize : 2 ≤ size) (hroot : root < size) :
    Spans size root (ahead size root) (fun rank => buildChain size rank root fanout) := by
  have hrank (rank : ℕ) (hrank : rank < size) :
      (buildChain size rank root fanout).root = root ∧
      (buildChain size rank root fanout).children =
        (children size (numchain size fanout) (ahead size root rank)).map
          (fun c => (c+root)%size) ∧
      (rank ≠ root → (buildChain size rank root fanout).prev =
        ((parent size (numchain size fanout) (ahead size root rank)+root)%size : ℕ)) := by
    by_cases hsingle : numchain size fanout = 1
    · rw [hsingle]
      exact buildChain_single hsize hroot hrank hsingle
    · exact buildChain_several hsize hroot hrank hsingle
  exact (rooted (numchain_pos hsize) (numchain_lt hsize)).spans hroot
    (fun p hp => (hrank p hp).1) (fun p hp => (hrank p hp).2.1) (fun p hp => (hrank p hp).2.2)

theorem buildChain_hangs (fanout : ℕ) (hsize : 2 ≤ size) (hroot : root < size) :
    Hangs size root (fun rank => buildChain size rank root fanout) :=
  (buildChain_spans fanout hsize hroot).hangs_ahead hroot

theorem buildChain_hangs_three : (buildChain 8 5 5 3).children = [6, 1, 3] ∧
    Hangs 8 5 (fun rank => buildChain 8 rank 5 3) :=
  ⟨by decide, buildChain_hangs 3 (by decide) (by decide)⟩

end Otpo.TopologyChain
