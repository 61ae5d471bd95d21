import Otpo.ReduceTopo

/-!
# Topologies that reach all ranks

What the ranks find, each for itself, fits together to a tree with all of them.
It is enough to show this for ranks that are shifted so that the root is 0.
-/

set_option autoImplicit false

namespace Otpo.TopologySpans
open WrapAround Otpo.ReduceTopo

structure Spans (size root : ℕ) (level : ℕ → ℕ) (tree : ℕ → Tree) : Prop where
  root_eq {p : ℕ} : p < size → (tree p).root = root
  child_lt {p q : ℕ} : p < size → q ∈ (tree p).children → q < size
  children_nodup {p : ℕ} : p < size → (tree p).children.Nodup
  linked {p q : ℕ} : p < size → q < size →
    (q ∈ (tree p).children ↔ q ≠ root ∧ (tree q).prev = p)
  prev_lt {q : ℕ} : q < size → q ≠ root → ∃ p, p < size ∧ (tree q).prev = (p : ℕ)
  level_lt {p q : ℕ} : p < size → q ∈ (tree p).children → level p < level q

structure Rooted (size : ℕ) (children : ℕ → List ℕ) (parent : ℕ → ℕ) : Prop where
  child_lt {p q : ℕ} : p < size → q ∈ children p → q < size
  children_nodup {p : ℕ} : p < size → (children p).Nodup
  linked {p q : ℕ} : p < size → q < size → (q ∈ children p ↔ q ≠ 0 ∧ parent q = p)
  parent_lt {q : ℕ} : q < size → q ≠ 0 → parent q < q

variable {size root : ℕ} {children : ℕ → List ℕ} {parent : ℕ → ℕ} {tree : ℕ → Tree}

theorem ahead_eq_zero {p : ℕ} (hroot : root < size) :
    ahead size root p = 0 ↔ p = root := by
  unfold ahead
  split <;> omega

theorem ahead_back {p : ℕ} (hp : p < size) (hroot : root < size) :
    (ahead size root p+root)%size = p := by
  rw [Nat.add_comm, add_ahead hroot hp]

theorem back_ahead {s : ℕ} (hs : s < size) (hroot : root < size) :
    ahead size root ((s+root)%size) = s := by
  rw [Nat.add_comm, ahead_add hroot hs]

theorem Rooted.mem_shifted (h : Rooted size children parent) (hroot : root < size) {p q : ℕ}
    (hp : p < size) (hq : q < size)
    (hchildren : (tree p).children =
      (children (ahead size root p)).map (fun s => (s+root)%size)) :
    q ∈ (tree p).children ↔ ahead size root q ∈ children (ahead size root p) := by
  rw [hchildren, List.mem_map]
  constructor
  · rintro ⟨s, hs, rfl⟩
    rw [back_ahead (h.child_lt (ahead_lt hroot hp) hs) hroot]
    exact hs
  · intro hmem
    exact ⟨_, hmem, ahead_back hq hroot⟩

theorem Rooted.spans (h : Rooted size children parent) (hroot : root < size)
    (hroots : ∀ p, p < size → (tree p).root = root)
    (hchildren : ∀ p, p < size → (tree p).children =
      (children (ahead size root p)).map (fun s => (s+root)%size))
    (hprev : ∀ p, p < size → p ≠ root →
      (tree p).prev = ((parent (ahead size root p)+root)%size : ℕ)) :
    Spans size root (ahead size root) tree := by
  have hsize : 0 < size := by omega
  have hlt {p q : ℕ} (hp : p < size) (hq : q ∈ (tree p).children) : q < size := by
    rw [hchildren p hp] at hq
    obtain ⟨s, -, rfl⟩ := List.mem_map.mp hq
    exact Nat.mod_lt _ hsize
  have hparent {q : ℕ} (hq : q < size) (hne : q ≠ root) : parent (ahead size root q) < size := by
    have := h.parent_lt (ahead_lt hroot hq) (fun h => hne ((ahead_eq_zero hroot).mp h))
    have := ahead_lt hroot hq
    omega
  have hlinked {p q : ℕ} (hp : p < size) (hq : q < size) :
      q ∈ (tree p).children ↔ q ≠ root ∧ parent (ahead size root q) = ahead size root p := by
    rw [h.mem_shifted hroot hp hq (hchildren p hp),
      h.linked (ahead_lt hroot hp) (ahead_lt hroot hq), ne_eq, ahead_eq_zero hroot]
  refine ⟨fun hp => hroots _ hp, hlt, ?_, ?_, ?_, ?_⟩
  · intro p hp
    rw [hchildren p hp]
    apply (h.children_nodup (ahead_lt hroot hp)).map_on
    intro s hs s' hs' heq
    rw [← back_ahead (h.child_lt (ahead_lt hroot hp) hs) hroot, heq,
      back_ahead (h.child_lt (ahead_lt hroot hp) hs') hroot]
  · intro p q hp hq
    rw [hlinked hp hq]
    apply and_congr_right
    intro hne
    rw [hprev q hq hne, Int.natCast_inj]
    constructor
    · intro heq
      rw [heq, ahead_back hp hroot]
    · intro heq
      rw [← heq, back_ahead (hparent hq hne) hroot]
  · intro q hq hne
    exact ⟨_, Nat.mod_lt _ hsize, hprev q hq hne⟩
  · intro p q hp hq
    have hqlt := hlt hp hq
    obtain ⟨hne, heq⟩ := (hlinked hp hqlt).mp hq
    rw [← heq]
    exact h.parent_lt (ahead_lt hroot hqlt) (fun h => hne ((ahead_eq_zero hroot).mp h))

def Spans.spanningTree {level : ℕ → ℕ} (h : Spans size root level tree) (hroot : root < size) :
    SpanningTree ℕ where
  nodes := Finset.range size
  root := root
  next := fun p => (tree p).children
  prev := fun p => (tree p).prev.toNat
  level := level
  root_mem := by simpa using hroot
  next_mem := by
    intro p q hp hq
    simpa using h.child_lt (by simpa using hp) hq
  prev_mem := by
    intro q hq hne
    obtain ⟨p, hp, hprev⟩ := h.prev_lt (by simpa using hq) hne
    simpa [hprev] using hp
  next_nodup := by
    intro p hp
    exact h.children_nodup (by simpa using hp)
  linked := by
    intro p q hp hq
    rw [h.linked (by simpa using hp) (by simpa using hq)]
    apply and_congr_right
    intro hne
    obtain ⟨r, -, hprev⟩ := h.prev_lt (by simpa using hq) hne
    rw [hprev, Int.toNat_natCast, Int.natCast_inj]
  level_lt := by
    intro p q hp hq
    exact h.level_lt (by simpa using hp) hq

/-- What the ranks can tell of the tree: each rank but the root is the child of
one rank, which it knows, and on the way up it comes to the root. -/
structure Hangs (size root : ℕ) (tree : ℕ → Tree) : Prop where
  once : (root::(List.range size).flatMap fun p => (tree p).children).Perm (List.range size)
  above {p q : ℕ} : p < size → q ∈ (tree p).children → (tree q).prev = p
  climbs {rank : ℕ} : rank < size →
    ∃ n, n < size ∧ (fun p => (tree p).prev.toNat)^[n] rank = root

theorem Spans.hangs {level : ℕ → ℕ} (h : Spans size root level tree) (hroot : root < size)
    (hlevel : ∀ p, p < size → level p < size+level root) : Hangs size root tree where
  once := (h.spanningTree hroot).next_perm List.nodup_range
    (by intro p; simp [Spans.spanningTree])
  above := by
    intro p q hp hq
    exact ((h.linked hp (h.child_lt hp hq)).mp hq).2
  climbs := by
    intro rank hrank
    obtain ⟨n, hn, hup⟩ := (h.spanningTree hroot).prev_iterate
      (z := rank) (by simpa [Spans.spanningTree] using hrank)
    have hn : n+level root ≤ level rank := hn
    have := hlevel rank hrank
    exact ⟨n, by omega, hup⟩

theorem Spans.hangs_ahead (h : Spans size root (ahead size root) tree) (hroot : root < size) :
    Hangs size root tree :=
  h.hangs hroot fun _ hp => (ahead_lt hroot hp).trans_le (Nat.le_add_right _ _)

end Otpo.TopologySpans
