import Otpo.TopologySpans
import Otpo.Library.BitPartner

/-!
# The binomial tree

The parent of a node is the node without its lowest bit. The children of a node
have one more bit below all bits of the node.
-/

set_option autoImplicit false

namespace Otpo.TopologyBinomial
open WrapAround BitPartner Otpo.ReduceTopo Otpo.TopologySpans

variable {size root vrank q i l : ℕ}

def Lowest (q i : ℕ) : Prop := q%2^i = 0 ∧ q/2^i%2 = 1

theorem mod_double (q i : ℕ) : q%2^(i+1) = q%2^i+2^i*(q/2^i%2) := by
  rw [Nat.pow_succ, Nat.mod_mul]

theorem Lowest.mod_ne_zero (h : Lowest q i) {j : ℕ} (hij : i < j) : q%2^j ≠ 0 := by
  intro hzero
  have hdvd : 2^(i+1) ∣ q :=
    (Nat.pow_dvd_pow 2 hij).trans (Nat.dvd_of_mod_eq_zero hzero)
  have := mod_double q i
  rw [Nat.mod_eq_zero_of_dvd hdvd, h.1, h.2] at this
  have := Nat.two_pow_pos i
  omega

theorem Lowest.unique (h : Lowest q i) (hl : Lowest q l) : i = l := by
  by_contra hne
  obtain hlt | hlt := Nat.lt_or_gt_of_ne hne
  · exact h.mod_ne_zero hlt hl.1
  · exact hl.mod_ne_zero hlt h.1

theorem Lowest.le (h : Lowest q i) : 2^i ≤ q := by
  by_contra hlt
  have := h.2
  rw [Nat.div_eq_of_lt (by omega)] at this
  cases this

theorem exists_lowest (hq : q ≠ 0) : ∃ i, Lowest q i := by
  induction q using Nat.strongRecOn with
  | ind q ih =>
    by_cases hodd : q%2 = 1
    · exact ⟨0, by simp [Lowest, Nat.mod_one, hodd]⟩
    · obtain ⟨i, hzero, hone⟩ := ih (q/2) (by omega) (by omega)
      refine ⟨i+1, ?_, ?_⟩
      · rw [Nat.pow_succ', Nat.mod_mul, hzero]
        omega
      · rw [Nat.pow_succ', ← Nat.div_div_eq_div_mul, hone]

open Classical in
noncomputable def parent (q : ℕ) : ℕ :=
  if h : q = 0 then 0 else q-2^Classical.choose (exists_lowest h)

theorem parent_eq (h : Lowest q i) : parent q = q-2^i := by
  have hq : q ≠ 0 := by
    have := h.le
    have := Nat.two_pow_pos i
    omega
  rw [parent, dif_neg hq, (Classical.choose_spec (exists_lowest hq)).unique h]

def children (size vrank : ℕ) : List ℕ :=
  ((List.range size).filter (fun i => vrank%2^(i+1) = 0 ∧ vrank+2^i < size)).map
    fun i => vrank+2^i

theorem mem_children : q ∈ children size vrank ↔
    q < size ∧ ∃ i, vrank%2^(i+1) = 0 ∧ q = vrank+2^i := by
  simp only [children, List.mem_map, List.mem_filter, List.mem_range, decide_eq_true_eq]
  constructor
  · rintro ⟨i, ⟨-, hbits, hlt⟩, rfl⟩
    exact ⟨hlt, i, hbits, rfl⟩
  · rintro ⟨hlt, i, hbits, rfl⟩
    have := Nat.lt_two_pow_self (n := i)
    exact ⟨i, ⟨by omega, hbits, hlt⟩, rfl⟩

theorem lowest_child (h : vrank%2^(i+1) = 0) : Lowest (vrank+2^i) i := by
  have hpos := Nat.two_pow_pos i
  rw [mod_double] at h
  have hmod : vrank%2^i = 0 := by omega
  refine ⟨by rw [Nat.add_mod_right, hmod], ?_⟩
  have heven : 2^i*(vrank/2^i%2) = 0 := by omega
  obtain hzero | hzero := Nat.mul_eq_zero.mp heven
  · omega
  · rw [Nat.add_div_right _ hpos]
    omega

theorem lowest_parent (h : Lowest q i) : (q-2^i)%2^(i+1) = 0 := by
  have hle := h.le
  have hpos := Nat.two_pow_pos i
  rw [← Nat.sub_add_cancel hle] at h
  generalize q-2^i = r at *
  rw [mod_double]
  have hmod := h.1
  have hdiv := h.2
  rw [Nat.add_mod_right] at hmod
  rw [Nat.add_div_right _ hpos] at hdiv
  rw [hmod, show r/2^i%2 = 0 by omega, Nat.mul_zero]

theorem rooted (size : ℕ) : Rooted size (children size) parent where
  child_lt := fun _ hq => (mem_children.mp hq).1
  children_nodup := by
    intro p _
    refine (List.nodup_range.filter _).map ?_
    intro i j hij
    exact Nat.pow_right_injective le_rfl (Nat.add_left_cancel hij)
  linked := by
    intro p q _ hqsize
    rw [mem_children]
    constructor
    · rintro ⟨-, i, hbits, rfl⟩
      have := Nat.two_pow_pos i
      rw [parent_eq (lowest_child hbits)]
      omega
    · rintro ⟨hne, rfl⟩
      obtain ⟨i, hi⟩ := exists_lowest hne
      have := hi.le
      rw [parent_eq hi]
      exact ⟨hqsize, i, lowest_parent hi, by omega⟩
  parent_lt := by
    intro q _ hne
    obtain ⟨i, hi⟩ := exists_lowest hne
    have := Nat.two_pow_pos i
    rw [parent_eq hi]
    omega

theorem filter_later (p : ℕ → Bool) {i n : ℕ} (h : ∀ j, i ≤ j → ¬ p j = true) :
    (i::List.range' (i+1) n).filter p = [] := by
  rw [List.filter_eq_nil_iff]
  intro j hj
  obtain rfl | hj := List.mem_cons.mp hj
  · exact h j le_rfl
  · have := (List.mem_range'_1.mp hj).1
    exact h j (by omega)

/-- What the loop adds from mask `2^i` on. -/
theorem bmtreeLoop_spec (root vrank : ℕ) (hsize : size ≤ 2^30) (n : ℕ) (tree : Tree)
    (hvrank : vrank%2^i = 0) (hnext : tree.nextsize ≤ i) :
    ∃ bmtree, bmtreeLoop size root vrank (List.range' i n) tree = some bmtree ∧
      bmtree.root = tree.root ∧
      bmtree.children = tree.children++
        (((List.range' i n).filter (fun i => vrank%2^(i+1) = 0 ∧ vrank+2^i < size)).map
          fun i => vrank+2^i).map (fun c => (c+root)%size) ∧
      ∀ l, i ≤ l → l < i+n → Lowest vrank l → 2^l < size →
        bmtree.prev = ((vrank-2^l+root)%size : ℕ) := by
  induction n generalizing i tree with
  | zero => exact ⟨tree, rfl, rfl, by simp, fun l _ _ => by omega⟩
  | succ n ih =>
    rw [List.range'_succ, bmtreeLoop, Nat.one_shiftLeft]
    by_cases hmask : 2^i < size
    · have hi : i < 30 := (Nat.pow_lt_pow_iff_right (by decide)).mp (hmask.trans_le hsize)
      rw [if_pos hmask]
      by_cases hbit : vrank/2^i%2 = 1
      · -- the lowest bit: the loop ends at the parent
        have hlow : Lowest vrank i := ⟨hvrank, hbit⟩
        have hback := partner_set hbit
        have hpos := Nat.two_pow_pos i
        rw [if_pos (by omega)]
        refine ⟨_, rfl, rfl, ?_, ?_⟩
        · rw [filter_later _ (fun j hij => by simp [hlow.mod_ne_zero (Nat.lt_succ_of_le hij)])]
          simp [Tree.children]
        · intro l _ _ hl _
          have : vrank-2^i = vrank ^^^ 2^i := by omega
          rw [hl.unique hlow, this]
      · -- a bit that is free: the partner is a child
        have hclear := partner_clear hbit
        have hnext' : vrank%2^(i+1) = 0 := by
          rw [mod_double, hvrank, show vrank/2^i%2 = 0 by omega, Nat.mul_zero]
        have hlater {l : ℕ} (hil : i ≤ l) (hl : Lowest vrank l) : i+1 ≤ l := by
          by_contra hlt
          obtain rfl : l = i := by omega
          exact hbit hl.2
        rw [hclear, if_neg (by omega)]
        by_cases hfits : vrank+2^i < size
        · rw [if_pos hfits, if_neg (by rw [push_nextsize, maxTreeFanout]; omega)]
          obtain ⟨bmtree, hloop, hroot, hchildren, hprev⟩ :=
            ih (tree.push ((vrank+2^i+root)%size : ℕ)) hnext' (by rw [push_nextsize]; omega)
          refine ⟨bmtree, hloop, hroot, ?_, ?_⟩
          · rw [hchildren, children_push, Int.toNat_natCast,
              List.filter_cons_of_pos (by simp [hnext', hfits])]
            simp
          · intro l hil hln hl
            exact hprev l (hlater hil hl) (by omega) hl
        · rw [if_neg hfits]
          obtain ⟨bmtree, hloop, hroot, hchildren, hprev⟩ := ih tree hnext' (by omega)
          refine ⟨bmtree, hloop, hroot, ?_, ?_⟩
          · rw [hchildren, List.filter_cons_of_neg (by simp [hfits])]
          · intro l hil hln hl
            exact hprev l (hlater hil hl) (by omega) hl
    · rw [if_neg hmask]
      refine ⟨tree, rfl, rfl, ?_, ?_⟩
      · have hlarge (j : ℕ) (hij : i ≤ j) :
            ¬ decide (vrank%2^(j+1) = 0 ∧ vrank+2^j < size) = true := by
          have := Nat.pow_le_pow_right (n := 2) (by decide) hij
          simp only [decide_eq_true_eq]
          omega
        rw [filter_later _ hlarge]
        simp
      · intro l hil _ _ hl
        have := Nat.pow_le_pow_right (n := 2) (by decide) hil
        omega

/-- The ranks build a tree that reaches all of them, and never too many children
for the field `tree_next`. -/
theorem buildInOrderBmtree_spans (hsize : size ≤ 2^30) (hroot : root < size) :
    ∃ tree : ℕ → Tree,
      (∀ rank, rank < size → buildInOrderBmtree size rank root = some (tree rank)) ∧
      Spans size root (ahead size root) tree := by
  have hbuilt (rank : ℕ) (hrank : rank < size) : ∃ bmtree,
      buildInOrderBmtree size rank root = some bmtree ∧ bmtree.root = root ∧
        bmtree.children = (children size (ahead size root rank)).map (fun c => (c+root)%size) ∧
        (rank ≠ root →
          bmtree.prev = ((parent (ahead size root rank)+root)%size : ℕ)) := by
    have hvrank : (rank+size-root)%size = ahead size root rank := by
      unfold ahead
      rw [mod_once (by omega)]
      split <;> split <;> omega
    let start : Tree :=
      if root = rank then { Tree.empty root with prev := root } else Tree.empty root
    have hstart : start.root = root ∧ start.children = [] ∧ start.nextsize = 0 := by
      unfold start
      split <;> exact ⟨rfl, rfl, rfl⟩
    obtain ⟨bmtree, hloop, hbroot, hchildren, hprev⟩ :=
      bmtreeLoop_spec root (ahead size root rank) (i := 0) hsize size start
        (by rw [Nat.pow_zero, Nat.mod_one]) (by omega)
    rw [hstart.2.1, List.nil_append, ← List.range_eq_range'] at hchildren
    refine ⟨bmtree, ?_, hbroot.trans hstart.1, hchildren, ?_⟩
    · rw [buildInOrderBmtree, hvrank, List.range_eq_range']
      exact hloop
    · intro hne
      have hlt := ahead_lt hroot hrank
      obtain ⟨l, hl⟩ := exists_lowest (fun h => hne ((ahead_eq_zero hroot).mp h))
      have hle := hl.le
      have := Nat.lt_two_pow_self (n := l)
      rw [parent_eq hl]
      exact hprev l (by omega) (by omega) hl (by omega)
  choose! tree htree using hbuilt
  refine ⟨tree, fun rank hrank => (htree rank hrank).1, ?_⟩
  exact (rooted size).spans hroot (fun p hp => (htree p hp).2.1)
    (fun p hp => (htree p hp).2.2.1) (fun p hp => (htree p hp).2.2.2)

theorem buildInOrderBmtree_hangs (hsize : size ≤ 2^30) (hroot : root < size) :
    ∃ tree : ℕ → Tree,
      (∀ rank, rank < size → buildInOrderBmtree size rank root = some (tree rank)) ∧
      Hangs size root tree := by
  obtain ⟨tree, hbuilt, hspans⟩ := buildInOrderBmtree_spans hsize hroot
  exact ⟨tree, hbuilt, hspans.hangs_ahead hroot⟩

theorem buildInOrderBmtree_hangs_seven :
    (buildInOrderBmtree 7 4 2).map Tree.children = some [5] ∧
    ∃ tree : ℕ → Tree,
      (∀ rank, rank < 7 → buildInOrderBmtree 7 rank 2 = some (tree rank)) ∧ Hangs 7 2 tree :=
  ⟨by decide, buildInOrderBmtree_hangs (by decide) (by decide)⟩

end Otpo.TopologyBinomial
