import Otpo.AllreduceBlocks
import Otpo.Library.EarlyReceives

/-!
# Twice around the ring

Before round `j` of the computation a block has been to `j` more ranks, or to all
behind the present one. The receives of the computation are posted a round early.
-/

set_option autoImplicit false

namespace Otpo.AllreduceRing
open Function MessagePassing WrapAround Combining Otpo.MpiCalls Otpo.Reduce Otpo.Allreduce
open Otpo.AllreduceBlocks

variable (c : Otpo.Allreduce.Call) (start : ℕ → Memory)

def added (j b p : ℕ) : List ℕ :=
  if ahead c.size b p ≤ j then arc c.size b (ahead c.size b p+1) else [p]

structure Kept (m m' : Memory) : Prop where
  beyond {z : ℤ} : z ∉ contiguous 0 c.count → m' .rbuf z = m .rbuf z
  sbuf : m' .sbuf = m .sbuf

structure Computing (j p : ℕ) (m : Memory) : Prop where
  kept : Kept c (start p) m
  block {b : ℕ} {z : ℤ} : b < c.size → z ∈ block c b →
    some (m .rbuf z) = combine c.op.apply ((added c j b p).map (c.contribution start · z))

def sent (j p : ℕ) : ℕ := (p+c.size-j)%c.size

def got (j p : ℕ) : ℕ := (p+c.size-(j+1))%c.size

section rounds

variable {c start} {j k p b : ℕ} {m : Memory}

theorem got_lt (hp : p < c.size) : got c j p < c.size := Nat.mod_lt _ (by omega)

theorem recvfrom_lt (hp : p < c.size) : recvfrom c p < c.size := Nat.mod_lt _ (by omega)

/-- What a rank gets is what the rank behind it sends. -/
theorem sent_recvfrom (hp : p < c.size) (hj : j+1 ≤ c.size) :
    sent c j (recvfrom c p) = got c j p := by
  rw [sent, recvfrom, behind_twice hp (by omega), got, Nat.add_comm 1 j]

theorem ahead_got (hp : p < c.size) (hb : b < c.size) (hj : j+1 < c.size) :
    ahead c.size b p = j+1 ↔ b = got c j p := by
  rw [got, mod_once (by omega)]
  unfold ahead
  split <;> split <;> omega

theorem ahead_recvfrom (hp : p < c.size) (hj : j+1 < c.size) :
    ahead c.size (got c j p) (recvfrom c p) = j := by
  rw [got, recvfrom, mod_once (by omega), mod_once (by omega)]
  unfold ahead
  split <;> split <;> split <;> omega

/-- What rank `p` adds its own part to. -/
theorem added_got (hp : p < c.size) (hj : j+1 < c.size) :
    added c (j+1) (got c j p) p = added c j (got c j p) (recvfrom c p)++[p] := by
  have hgot : got c j p < c.size := got_lt hp
  have hahead : ahead c.size (got c j p) p = j+1 := (ahead_got hp hgot hj).mpr rfl
  have hp' := add_ahead hgot hp
  rw [hahead] at hp'
  rw [added, added, hahead, ahead_recvfrom hp hj, if_pos le_rfl, if_pos le_rfl, arc_succ, hp']

theorem added_other (hp : p < c.size) (hb : b < c.size) (hj : j+1 < c.size)
    (hne : b ≠ got c j p) : added c (j+1) b p = added c j b p := by
  have hahead : ahead c.size b p ≠ j+1 := fun h => hne ((ahead_got hp hb hj).mp h)
  have hiff : ahead c.size b p ≤ j+1 ↔ ahead c.size b p ≤ j := by omega
  rw [added, added]
  simp only [hiff]

end rounds

section memories

variable {c start} {j k p : ℕ} {m m' : Memory}

theorem computing_own {b : ℕ} {z : ℤ} (h : Computing c start j p m) (hb : b < c.size)
    (hz : z ∈ block c b) (hj : j < ahead c.size b p) :
    m .rbuf z = c.contribution start p z := by
  have := h.block hb hz
  rw [added, if_neg (by omega)] at this
  exact Option.some.inj this

def reduced (c : Otpo.Allreduce.Call) (inbi : Bool) (b : ℕ) (m m' : Memory) : Memory :=
  opReduce c.op (.inbuf inbi, 0) (blockPlace c b) (blockcount c b)
    (update m (.inbuf inbi) fun z =>
      if z ∈ contiguous 0 (blockcount c b) then m' .rbuf ((b*segcount c : ℕ)+(z-0))
      else m (.inbuf inbi) z)

theorem reduced_eq (inbi : Bool) (b : ℕ) (z : ℤ) :
    reduced c inbi b m m' .rbuf z =
      if z ∈ block c b then c.op.apply (m' .rbuf z) (m .rbuf z) else m .rbuf z := by
  rw [reduced, opReduce_eq c.op _ (by simp [blockPlace])]
  simp only [blockPlace, update_self, ne_eq, reduceCtorEq, not_false_eq_true, update_of_ne]
  rw [block]
  split
  · rename_i hz
    have hinside : (0 : ℤ)+(z-(b*segcount c : ℕ)) ∈ contiguous 0 (blockcount c b) := by
      obtain ⟨i, hi, rfl⟩ := mem_contiguous.mp hz
      exact mem_contiguous.mpr ⟨i, hi, by omega⟩
    rw [if_pos hinside]
    congr 2
    omega
  · rfl

theorem reduced_sbuf (inbi : Bool) (b : ℕ) : reduced c inbi b m m' .sbuf = m .sbuf := by
  rw [reduced, opReduce_eq c.op _ (by simp [blockPlace]), update_of_ne (by simp [blockPlace]),
    update_of_ne (by simp)]

theorem computing_next (hp : p < c.size) (hj : j+1 < c.size) (inbi : Bool)
    (h : Computing c start j p m) (h' : Computing c start j (recvfrom c p) m') :
    Computing c start (j+1) p (reduced c inbi (got c j p) m m') := by
  have hgot : got c j p < c.size := got_lt hp
  refine ⟨⟨?_, ?_⟩, ?_⟩
  · intro z hz
    rw [reduced_eq, if_neg (fun hin => hz (block_within hgot hin))]
    exact h.kept.beyond hz
  · rw [reduced_sbuf]
    exact h.kept.sbuf
  · intro b z hb hz
    rw [reduced_eq]
    by_cases hbgot : b = got c j p
    · subst hbgot
      have hahead := (ahead_got hp hgot hj).mpr rfl
      have hown := computing_own h hgot hz (by omega)
      have hcame := h'.block hgot hz
      rw [if_pos hz, added_got hp hj, List.map_append, List.map_singleton]
      exact (combine_append hcame.symm (by rw [hown]; rfl)).symm
    · have hout : z ∉ block c (got c j p) := fun hin => hbgot (block_apart hb hgot hz hin)
      rw [if_neg hout, added_other hp hb hj hbgot]
      exact h.block hb hz

def handed (c : Otpo.Allreduce.Call) (b : ℕ) (m m' : Memory) : Memory :=
  update m .rbuf fun z =>
    if z ∈ contiguous (b*segcount c : ℕ) (blockcount c b) then
      m' .rbuf ((b*segcount c : ℕ)+(z-(b*segcount c : ℕ)))
    else m .rbuf z

end memories

end Otpo.AllreduceRing
