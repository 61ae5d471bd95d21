import Mathlib.Data.Finset.Basic
import Mathlib.Data.List.Nodup
import Mathlib.Logic.Function.Iterate

/-!
# Spanning trees by links in both directions

Each node knows the nodes next to it on the way down and the previous one on
the way up. The nodes under a node are itself and those under its next ones,
each of them once.
-/

set_option autoImplicit false

structure SpanningTree (P : Type) where
  nodes : Finset P
  root : P
  next : P → List P
  prev : P → P
  level : P → ℕ
  root_mem : root ∈ nodes
  next_mem {p q : P} : p ∈ nodes → q ∈ next p → q ∈ nodes
  prev_mem {q : P} : q ∈ nodes → q ≠ root → prev q ∈ nodes
  next_nodup {p : P} : p ∈ nodes → (next p).Nodup
  linked {p q : P} : p ∈ nodes → q ∈ nodes → (q ∈ next p ↔ q ≠ root ∧ prev q = p)
  level_lt {p q : P} : p ∈ nodes → q ∈ next p → level p < level q

namespace SpanningTree

variable {P : Type} (t : SpanningTree P)

inductive Under : P → P → Prop where
  | self (p : P) : Under p p
  | step {p q r : P} : q ∈ t.next p → Under q r → Under p r

variable {t} {p q r z : P}

theorem Under.mem (h : t.Under p z) (hp : p ∈ t.nodes) : z ∈ t.nodes := by
  induction h with
  | self => exact hp
  | step hq _ ih => exact ih (t.next_mem hp hq)

theorem Under.level_le (h : t.Under p z) (hp : p ∈ t.nodes) : t.level p ≤ t.level z := by
  induction h with
  | self => exact le_rfl
  | step hq _ ih => exact (t.level_lt hp hq).le.trans (ih (t.next_mem hp hq))

theorem Under.trans (h : t.Under p q) (h' : t.Under q r) : t.Under p r := by
  induction h with
  | self => exact h'
  | step hq _ ih => exact .step hq (ih h')

theorem Under.last (h : t.Under p z) (hp : p ∈ t.nodes) :
    z = p ∨ (z ≠ t.root ∧ t.Under p (t.prev z)) := by
  induction h with
  | self => exact Or.inl rfl
  | @step p q z hq _ ih =>
    have hnode := t.next_mem hp hq
    obtain rfl | ⟨hroot, hprev⟩ := ih hnode
    · obtain ⟨hroot, hprev⟩ := (t.linked hp hnode).mp hq
      rw [hprev]
      exact Or.inr ⟨hroot, .self p⟩
    · exact Or.inr ⟨hroot, .step hq hprev⟩

theorem prev_level_lt (hz : z ∈ t.nodes) (hroot : z ≠ t.root) :
    t.level (t.prev z) < t.level z := by
  have hprev := t.prev_mem hz hroot
  exact t.level_lt hprev ((t.linked hprev hz).mpr ⟨hroot, rfl⟩)

/-- The nodes above a node are on one line. -/
theorem Under.total (hq : t.Under q z) (hr : t.Under r z) (hqnode : q ∈ t.nodes)
    (hrnode : r ∈ t.nodes) : t.Under q r ∨ t.Under r q := by
  induction hlevel : t.level z using Nat.strongRecOn generalizing z with
  | ind n ih =>
    obtain rfl | ⟨hroot, hqprev⟩ := hq.last hqnode
    · exact Or.inr hr
    · obtain rfl | ⟨-, hrprev⟩ := hr.last hrnode
      · exact Or.inl hq
      · have hlower := prev_level_lt (hq.mem hqnode) hroot
        exact ih _ (hlevel ▸ hlower) hqprev hrprev rfl

theorem next_apart (hp : p ∈ t.nodes) (hq : q ∈ t.next p) (hr : r ∈ t.next p)
    (hqz : t.Under q z) (hrz : t.Under r z) : q = r := by
  have hqnode := t.next_mem hp hq
  have hrnode := t.next_mem hp hr
  have above {a b : P} (ha : a ∈ t.next p) (hb : b ∈ t.next p) (hab : t.Under a b) : a = b := by
    obtain heq | ⟨-, hprev⟩ := hab.last (t.next_mem hp ha)
    · exact heq.symm
    · rw [((t.linked hp (t.next_mem hp hb)).mp hb).2] at hprev
      have := hprev.level_le (t.next_mem hp ha)
      have := t.level_lt hp ha
      omega
  obtain hqr | hrq := hqz.total hrz hqnode hrnode
  · exact above hq hr hqr
  · exact (above hr hq hrq).symm

theorem under_root (hz : z ∈ t.nodes) : t.Under t.root z := by
  induction hlevel : t.level z using Nat.strongRecOn generalizing z with
  | ind n ih =>
    by_cases hroot : z = t.root
    · rw [hroot]
      exact .self t.root
    · have hprev := t.prev_mem hz hroot
      have habove := ih _ (hlevel ▸ prev_level_lt hz hroot) hprev rfl
      exact habove.trans (.step ((t.linked hprev hz).mpr ⟨hroot, rfl⟩) (.self z))

variable (t)

open Classical in
noncomputable def below (p : P) : List P := (t.nodes.filter (t.Under p)).toList

variable {t}

theorem mem_below (hp : p ∈ t.nodes) : z ∈ t.below p ↔ t.Under p z := by
  simp only [below, Finset.mem_toList, Finset.mem_filter, and_iff_right_iff_imp]
  exact fun h => h.mem hp

theorem below_nodup (p : P) : (t.below p).Nodup := Finset.nodup_toList _

theorem below_perm (hp : p ∈ t.nodes) :
    (t.below p).Perm (p::(t.next p).flatMap t.below) := by
  apply (List.perm_ext_iff_of_nodup (below_nodup p) ?_).mpr
  · intro z
    rw [mem_below hp, List.mem_cons, List.mem_flatMap]
    constructor
    · intro h
      cases h with
      | self => exact Or.inl rfl
      | step hq hz => exact Or.inr ⟨_, hq, (mem_below (t.next_mem hp hq)).mpr hz⟩
    · rintro (rfl | ⟨q, hq, hz⟩)
      · exact .self z
      · exact .step hq ((mem_below (t.next_mem hp hq)).mp hz)
  · rw [List.nodup_cons, List.nodup_flatMap]
    refine ⟨?_, fun q _ => below_nodup q, ?_⟩
    · intro hmem
      obtain ⟨q, hq, hz⟩ := List.mem_flatMap.mp hmem
      have := ((mem_below (t.next_mem hp hq)).mp hz).level_le (t.next_mem hp hq)
      have := t.level_lt hp hq
      omega
    · apply (t.next_nodup hp).pairwise_of_forall_ne
      intro q hq r hr hne z hqz hrz
      exact hne (next_apart hp hq hr ((mem_below (t.next_mem hp hq)).mp hqz)
        ((mem_below (t.next_mem hp hr)).mp hrz))

theorem below_root_perm : (t.below t.root).Perm t.nodes.toList := by
  apply (List.perm_ext_iff_of_nodup (below_nodup _) t.nodes.nodup_toList).mpr
  intro z
  rw [mem_below t.root_mem, Finset.mem_toList]
  exact ⟨fun h => h.mem t.root_mem, under_root⟩

theorem prev_iterate (hz : z ∈ t.nodes) :
    ∃ n, n+t.level t.root ≤ t.level z ∧ t.prev^[n] z = t.root := by
  induction hlevel : t.level z using Nat.strongRecOn generalizing z with
  | ind level ih =>
    by_cases hroot : z = t.root
    · exact ⟨0, by simp [← hlevel, hroot], hroot⟩
    · have hlower := prev_level_lt hz hroot
      obtain ⟨n, hn, hup⟩ := ih _ (hlevel ▸ hlower) (t.prev_mem hz hroot) rfl
      exact ⟨n+1, by omega, hup⟩

/-- The root and all next nodes are all nodes, each of them once. -/
theorem next_perm {l : List P} (hnodup : l.Nodup) (hmem : ∀ p, p ∈ l ↔ p ∈ t.nodes) :
    (t.root::l.flatMap t.next).Perm l := by
  have hnext {q : P} : q ∈ l.flatMap t.next ↔ q ∈ t.nodes ∧ q ≠ t.root := by
    rw [List.mem_flatMap]
    constructor
    · rintro ⟨p, hp, hq⟩
      have hnode := t.next_mem ((hmem p).mp hp) hq
      exact ⟨hnode, ((t.linked ((hmem p).mp hp) hnode).mp hq).1⟩
    · rintro ⟨hq, hroot⟩
      have hprev := t.prev_mem hq hroot
      exact ⟨t.prev q, (hmem _).mpr hprev, (t.linked hprev hq).mpr ⟨hroot, rfl⟩⟩
  apply (List.perm_ext_iff_of_nodup (List.nodup_cons.mpr ⟨?_, ?_⟩) hnodup).mpr
  · intro q
    rw [List.mem_cons, hnext, hmem]
    constructor
    · rintro (rfl | ⟨hq, -⟩)
      · exact t.root_mem
      · exact hq
    · intro hq
      by_cases hroot : q = t.root
      · exact Or.inl hroot
      · exact Or.inr ⟨hq, hroot⟩
  · exact fun hroot => (hnext.mp hroot).2 rfl
  · rw [List.nodup_flatMap]
    refine ⟨fun p hp => t.next_nodup ((hmem p).mp hp), ?_⟩
    apply hnodup.pairwise_of_forall_ne
    intro p hp r hr hne q hqp hqr
    have hp := (hmem p).mp hp
    have hr := (hmem r).mp hr
    have hnode := t.next_mem hp hqp
    exact hne (((t.linked hp hnode).mp hqp).2.symm.trans ((t.linked hr hnode).mp hqr).2)

end SpanningTree
