import Otpo.TopologySpans

/-!
# The binary tree in the order of the ranks

The root is the last rank. What is below it is cut into two parts. The last rank
of each part is a child, and so on.
-/

set_option autoImplicit false

namespace Otpo.TopologyInOrder
open Otpo.ReduceTopo Otpo.TopologySpans

@[simp] theorem children_none (root : ℕ) (prev : ℤ) :
    (bintreeNode root (prev, -1, -1)).children = [] := rfl

@[simp] theorem children_left (root l : ℕ) (prev : ℤ) :
    (bintreeNode root (prev, l, -1)).children = [l] := by
  simp [bintreeNode, Tree.children]

structure InOrder (d n : ℕ) (node : ℕ → Tree) : Prop where
  prev {q : ℕ} : d ≤ q → q < d+n-1 → ∃ r, q < r ∧ r < d+n ∧ (node q).prev = (r : ℕ)
  child {r q : ℕ} : d ≤ r → r < d+n → q ∈ (node r).children → d ≤ q ∧ q < r
  nodup {r : ℕ} : d ≤ r → r < d+n → (node r).children.Nodup
  linked {r q : ℕ} : d ≤ r → r < d+n → d ≤ q → q < d+n →
    (q ∈ (node r).children ↔ q < d+n-1 ∧ (node q).prev = r)

variable {d n h : ℕ} {node : ℕ → Tree}

theorem InOrder.single (h : (node d).children = []) : InOrder d 1 node where
  prev := by
    intro q _ _
    omega
  child := by
    intro r q _ _ hq
    obtain rfl : r = d := by omega
    simp [h] at hq
  nodup := by
    intro r _ _
    obtain rfl : r = d := by omega
    simp [h]
  linked := by
    intro r q _ _ _ _
    obtain rfl : r = d := by omega
    simp [h]
    omega

theorem InOrder.congr {node' : ℕ → Tree} (h : InOrder d n node)
    (heq : ∀ r, d ≤ r → r < d+n → node' r = node r) : InOrder d n node' where
  prev := by
    intro q hlow hhigh
    rw [heq q hlow (by omega)]
    exact h.prev hlow hhigh
  child := by
    intro r q hlow hhigh hq
    rw [heq r hlow hhigh] at hq
    exact h.child hlow hhigh hq
  nodup := by
    intro r hlow hhigh
    rw [heq r hlow hhigh]
    exact h.nodup hlow hhigh
  linked := by
    intro r q hlow hhigh hqlow hqhigh
    rw [heq r hlow hhigh, heq q hqlow hqhigh]
    exact h.linked hlow hhigh hqlow hqhigh

/-- A tree of two nodes. -/
theorem InOrder.pair (hchildren : (node (d+1)).children = [d]) (hlow : (node d).children = [])
    (hprev : (node d).prev = (d+1 : ℕ)) : InOrder d 2 node where
  prev := by
    intro q _ _
    obtain rfl : q = d := by omega
    exact ⟨q+1, by omega, by omega, hprev⟩
  child := by
    intro r q _ _ hq
    obtain rfl | rfl : r = d ∨ r = d+1 := by omega
    · simp [hlow] at hq
    · simp only [hchildren, List.mem_singleton] at hq
      omega
  nodup := by
    intro r _ _
    obtain rfl | rfl : r = d ∨ r = d+1 := by omega
    · simp [hlow]
    · simp [hchildren]
  linked := by
    intro r q _ _ _ _
    obtain rfl | rfl : r = d ∨ r = d+1 := by omega
    · obtain rfl | rfl : q = r ∨ q = r+1 := by omega
      · simp [hlow, hprev]
      · simp [hlow]
    · obtain rfl | rfl : q = d ∨ q = d+1 := by omega
      · simp [hchildren, hprev]
      · simp [hchildren]

section loop

variable (fuel : ℕ) {r : ℕ} (p : ℤ)

end loop

end Otpo.TopologyInOrder
