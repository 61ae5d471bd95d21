import Otpo.TopologySpans
import Mathlib.Tactic.Ring

/-!
# The tree by levels

Level `L` has `fanout^L` nodes. The children of a node are `fanout^L` nodes
apart from each other, so that a level is filled from left to right before any
node gets its second child.
-/

set_option autoImplicit false

namespace Otpo.TopologyLevels
open WrapAround Otpo.ReduceTopo Otpo.TopologySpans

variable {fanout size s q : ℕ}

theorem foldl_mul (fanout num : ℕ) :
    (List.range num).foldl (fun p _ => p*fanout) 1 = fanout^num := by
  induction num with
  | zero => rfl
  | succ num ih =>
    rw [List.range_succ, List.foldl_append, List.foldl_cons, List.foldl_nil, ih, Nat.pow_succ]

theorem pown_eq (fanout num : ℕ) : pown fanout num = fanout^num := by
  unfold pown
  split
  · rename_i h
    rw [h, Nat.pow_one]
  · split
    · rename_i h
      rw [h, Nat.one_shiftLeft]
    · exact foldl_mul fanout num

def above (fanout : ℕ) : ℕ → ℕ
  | 0 => 0
  | L+1 => above fanout L+fanout^L

theorem above_mono {L M : ℕ} (h : L ≤ M) : above fanout L ≤ above fanout M := by
  induction h with
  | refl => exact le_rfl
  | step _ ih => exact ih.trans (Nat.le_add_right _ _)

theorem le_above (h : 0 < fanout) (L : ℕ) : L ≤ above fanout L := by
  induction L with
  | zero => exact le_rfl
  | succ L ih =>
    have := Nat.pow_pos (n := L) h
    rw [above]
    omega

theorem above_unique {L M : ℕ} (hL : above fanout L ≤ s) (hL' : s < above fanout (L+1))
    (hM : above fanout M ≤ s) (hM' : s < above fanout (M+1)) : L = M := by
  by_contra hne
  obtain h | h := Nat.lt_or_gt_of_ne hne
  · have : above fanout (L+1) ≤ above fanout M := above_mono h
    omega
  · have : above fanout (M+1) ≤ above fanout L := above_mono h
    omega

theorem above_eq (h : 2 ≤ fanout) (L : ℕ) :
    calculateNumNodesUpToLevel fanout L = above fanout L := by
  have hsum : (fanout-1)*above fanout L+1 = fanout^L := by
    obtain ⟨k, rfl⟩ := Nat.exists_eq_add_of_le' (Nat.one_le_of_lt h)
    induction L with
    | zero => rfl
    | succ L ih =>
      rw [above, Nat.pow_succ, Nat.add_sub_cancel] at *
      rw [← ih]
      ring
  rw [calculateNumNodesUpToLevel, pown_eq, ← hsum, Nat.add_sub_cancel,
    Nat.mul_div_cancel_left _ (by omega)]

theorem calculateLevelLoop_spec (h : 0 < fanout) (fuel level : ℕ) (hfuel : s < fuel+level)
    (hlevel : above fanout level ≤ s) :
    ∃ L, calculateLevelLoop fanout s fuel level (above fanout level) = L+1 ∧
      above fanout L ≤ s ∧ s < above fanout (L+1) := by
  induction fuel generalizing level with
  | zero =>
    have := le_above h level
    omega
  | succ fuel ih =>
    rw [calculateLevelLoop, if_pos hlevel, pown_eq]
    by_cases hnext : above fanout (level+1) ≤ s
    · exact ih (level+1) (by omega) hnext
    · refine ⟨level, ?_, hlevel, Nat.not_le.mp hnext⟩
      cases fuel with
      | zero => rfl
      | succ fuel => exact if_neg hnext

theorem calculateLevel_spec (h : 0 < fanout) (s : ℕ) :
    above fanout (calculateLevel fanout s) ≤ s ∧
      s < above fanout (calculateLevel fanout s+1) := by
  obtain ⟨L, hloop, hL⟩ := calculateLevelLoop_spec h (s+2) 0 (by omega) (Nat.zero_le s)
  have : calculateLevel fanout s = L := by
    rw [calculateLevel]
    change calculateLevelLoop fanout s (s+2) 0 0 = L+1 at hloop
    omega
  rwa [this]

theorem sparentLoop_spec {slimit step : ℕ} (hstep : 0 < step) (hslimit : step ≤ slimit)
    (fuel sparent : ℕ) (hfuel : sparent ≤ fuel) (habove : slimit ≤ sparent) :
    ∃ k, sparent = sparentLoop slimit step fuel sparent+step*(k+1) ∧
      sparentLoop slimit step fuel sparent < slimit ∧
      slimit ≤ sparentLoop slimit step fuel sparent+step := by
  induction fuel generalizing sparent with
  | zero => omega
  | succ fuel ih =>
    rw [sparentLoop, if_pos habove]
    by_cases hagain : slimit ≤ sparent-step
    · obtain ⟨k, hk, hlt, hle⟩ := ih (sparent-step) (by omega) hagain
      refine ⟨k+1, ?_, hlt, hle⟩
      rw [Nat.mul_add step (k+1)]
      omega
    · have hend : sparentLoop slimit step fuel (sparent-step) = sparent-step := by
        cases fuel with
        | zero => rfl
        | succ fuel => exact if_neg hagain
      rw [hend]
      exact ⟨0, by omega, by omega, by omega⟩

/-- The parent is on the level above, a multiple of its length to the left. -/
theorem findParent_spec (h : 2 ≤ fanout) (hq : q ≠ 0) :
    ∃ L i, i < fanout ∧ q = findParent fanout q+fanout^L*(i+1) ∧
      above fanout L ≤ findParent fanout q ∧ findParent fanout q < above fanout (L+1) := by
  unfold findParent
  by_cases hfirst : q < fanout
  · rw [if_pos hfirst]
    refine ⟨0, q-1, by omega, ?_, le_rfl, by simp [above]⟩
    rw [Nat.pow_zero]
    omega
  · rw [if_neg hfirst, above_eq h, pown_eq]
    obtain ⟨hlow, hhigh⟩ := calculateLevel_spec (by omega : 0 < fanout) q
    obtain ⟨L, hL⟩ : ∃ L, calculateLevel fanout q = L+1 := by
      apply Nat.exists_eq_succ_of_ne_zero
      intro hzero
      rw [hzero] at hhigh
      simp only [above, Nat.pow_zero] at hhigh
      omega
    rw [hL] at hlow hhigh ⊢
    have hpos := Nat.pow_pos (n := L) (by omega : 0 < fanout)
    have habove : above fanout (L+1) = above fanout L+fanout^L := rfl
    rw [Nat.pow_succ, Nat.mul_div_cancel _ (by omega)]
    obtain ⟨i, hi, hlt, hle⟩ := sparentLoop_spec hpos (by omega : fanout^L ≤ above fanout (L+1)) q q
      le_rfl hlow
    refine ⟨L, i, ?_, hi, ?_, hlt⟩
    · by_contra hmany
      have := Nat.mul_le_mul_left (fanout^L) (by omega : fanout+1 ≤ i+1)
      rw [above, Nat.pow_succ] at hhigh
      rw [Nat.mul_add, Nat.mul_one] at this
      omega
    · omega

def children (fanout size s : ℕ) : List ℕ :=
  ((List.range fanout).filter
    (fun i => s+pown fanout (calculateLevel fanout s)*(i+1) < size)).map
      fun i => s+pown fanout (calculateLevel fanout s)*(i+1)

theorem mem_children : q ∈ children fanout size s ↔
    q < size ∧ ∃ i, i < fanout ∧ q = s+fanout^calculateLevel fanout s*(i+1) := by
  simp only [children, pown_eq, List.mem_map, List.mem_filter, List.mem_range, decide_eq_true_eq]
  constructor
  · rintro ⟨i, ⟨hi, hlt⟩, rfl⟩
    exact ⟨hlt, i, hi, rfl⟩
  · rintro ⟨hlt, i, hi, rfl⟩
    exact ⟨i, ⟨hi, hlt⟩, rfl⟩

theorem same_column {d a b i j : ℕ} (h : a+d*i = b+d*j) (hab : a < b+d) (hba : b < a+d) :
    a = b := by
  obtain hij | rfl | hij := Nat.lt_trichotomy i j
  · have := Nat.mul_le_mul_left d (Nat.succ_le_of_lt hij)
    rw [Nat.succ_eq_add_one, Nat.mul_add, Nat.mul_one] at this
    omega
  · omega
  · have := Nat.mul_le_mul_left d (Nat.succ_le_of_lt hij)
    rw [Nat.succ_eq_add_one, Nat.mul_add, Nat.mul_one] at this
    omega

theorem child_level {L i : ℕ} (hi : i < fanout) (hlow : above fanout L ≤ s)
    (hhigh : s < above fanout (L+1)) :
    above fanout (L+1) ≤ s+fanout^L*(i+1) ∧ s+fanout^L*(i+1) < above fanout (L+1+1) := by
  have := Nat.mul_le_mul_left (fanout^L) (Nat.succ_le_of_lt hi)
  have habove : above fanout (L+1) = above fanout L+fanout^L := rfl
  have habove' : above fanout (L+1+1) = above fanout (L+1)+fanout^L*fanout := by
    rw [above, Nat.pow_succ]
  rw [Nat.succ_eq_add_one, Nat.mul_add, Nat.mul_one] at this
  rw [Nat.mul_add, Nat.mul_one]
  constructor <;> omega

theorem rooted (h : 2 ≤ fanout) (size : ℕ) :
    Rooted size (children fanout size) (findParent fanout) where
  child_lt := fun _ hq => (mem_children.mp hq).1
  children_nodup := by
    intro p _
    have hpos := Nat.pow_pos (n := calculateLevel fanout p) (by omega : 0 < fanout)
    refine (List.nodup_range.filter _).map ?_
    intro i j hij
    simp only [pown_eq] at hij
    have := Nat.eq_of_mul_eq_mul_left hpos (Nat.add_left_cancel hij)
    omega
  linked := by
    intro p q _ hqsize
    have hpos : 0 < fanout := by omega
    obtain ⟨hlow, hhigh⟩ := calculateLevel_spec hpos p
    rw [mem_children]
    constructor
    · rintro ⟨-, i, hi, hq⟩
      have hchild := child_level hi hlow hhigh
      rw [← hq] at hchild
      have hne : q ≠ 0 := by
        have := le_above hpos (calculateLevel fanout p+1)
        omega
      obtain ⟨L, j, hj, hparent, hplow, hphigh⟩ := findParent_spec h hne
      have hchild' := child_level hj hplow hphigh
      rw [← hparent] at hchild'
      have hL := above_unique hchild.1 hchild.2 hchild'.1 hchild'.2
      obtain rfl : calculateLevel fanout p = L := by omega
      rw [above] at hhigh hphigh
      exact ⟨hne, same_column (hparent.symm.trans hq) (by omega) (by omega)⟩
    · rintro ⟨hne, hparent⟩
      obtain ⟨L, i, hi, hq, hplow, hphigh⟩ := findParent_spec h hne
      rw [hparent] at hq hplow hphigh
      obtain rfl := above_unique hlow hhigh hplow hphigh
      exact ⟨hqsize, i, hi, hq⟩
  parent_lt := by
    intro q _ hne
    obtain ⟨L, i, -, hq, -⟩ := findParent_spec h hne
    have := Nat.mul_pos (Nat.pow_pos (n := L) (by omega : 0 < fanout)) (show 0 < i+1 by omega)
    omega

theorem findChildren_children (size root s delta : ℕ) (is : List ℕ) (tree : Tree)
    (hsorted : is.Pairwise (· < ·)) :
    (findChildren size root s delta is tree).children = tree.children++
      ((is.filter (fun i => s+delta*(i+1) < size)).map (fun i => s+delta*(i+1))).map
        (fun c => (c+root)%size) := by
  induction is generalizing tree with
  | nil => simp [findChildren]
  | cons i is ih =>
    obtain ⟨hlater, hrest⟩ := List.pairwise_cons.mp hsorted
    rw [findChildren]
    split
    · rename_i hfits
      rw [ih _ hrest, children_push, List.filter_cons_of_pos (by simpa using hfits),
        Int.toNat_natCast]
      simp
    · rename_i hfits
      have hnone : (i::is).filter (fun i => s+delta*(i+1) < size) = [] := by
        rw [List.filter_eq_nil_iff]
        intro j hj
        have hij : i+1 ≤ j+1 := by
          obtain rfl | hj := List.mem_cons.mp hj
          · exact le_rfl
          · have := hlater j hj
            omega
        have := Nat.mul_le_mul_left delta hij
        simp only [decide_eq_true_eq]
        omega
      simp [hnone]

theorem findChildren_root (size root s delta : ℕ) (is : List ℕ) (tree : Tree) :
    (findChildren size root s delta is tree).root = tree.root := by
  induction is generalizing tree with
  | nil => rfl
  | cons i is ih =>
    rw [findChildren]
    split
    · rw [ih, push_root]
    · rfl

/-- The ranks build a tree that reaches all of them. -/
theorem buildTree_spans {root : ℕ} (hfanout : 2 ≤ fanout) (hmax : fanout ≤ maxTreeFanout)
    (hsize : 2 ≤ size) (hroot : root < size) :
    ∃ tree : ℕ → Tree, (∀ rank, buildTree fanout size rank root = some (tree rank)) ∧
      Spans size root (ahead size root) tree := by
  refine ⟨fun rank => { findChildren size root (ahead size root rank)
      (pown fanout (calculateLevel fanout (ahead size root rank))) (List.range fanout)
      (.empty root) with
    prev := ((findParent fanout (ahead size root rank)+root)%size : ℕ) }, ?_, ?_⟩
  · intro rank
    rw [buildTree, if_neg (by omega), if_neg (by omega), if_neg (by omega)]
  · apply (rooted hfanout size).spans hroot
    · intro p _
      exact findChildren_root size root _ _ _ _
    · intro p _
      exact findChildren_children size root _ _ _ _ List.pairwise_lt_range
    · intro p _ _
      rfl

theorem buildTree_hangs {root : ℕ} (hfanout : 2 ≤ fanout) (hmax : fanout ≤ maxTreeFanout)
    (hsize : 2 ≤ size) (hroot : root < size) :
    ∃ tree : ℕ → Tree, (∀ rank, buildTree fanout size rank root = some (tree rank)) ∧
      Hangs size root tree := by
  obtain ⟨tree, hbuilt, hspans⟩ := buildTree_spans hfanout hmax hsize hroot
  exact ⟨tree, hbuilt, hspans.hangs_ahead hroot⟩

theorem buildTree_hangs_ternary : (buildTree 3 9 6 4).map Tree.children = some [0, 3] ∧
    ∃ tree : ℕ → Tree, (∀ rank, buildTree 3 9 rank 4 = some (tree rank)) ∧ Hangs 9 4 tree :=
  ⟨by decide, buildTree_hangs (by decide) (by decide) (by decide) (by decide)⟩

end Otpo.TopologyLevels
