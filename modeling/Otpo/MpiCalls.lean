import Otpo.Library.LockStep
import Mathlib.Data.List.Range
import Mathlib.Data.Int.Init

/-!
# Buffers, datatypes and calls of MPI

A buffer has one element at each position. A datatype says which positions a
message is taken from or goes to, in this order. A message that is longer than
the receive has room for is an error, so it is never taken in.
-/

set_option autoImplicit false

namespace Otpo.MpiCalls
open MessagePassing

variable {A M : Type}

abbrev Buffer (A : Type) := ℤ → A

def contiguous (displ : ℤ) (count : ℕ) : List ℤ :=
  (List.range count).map (fun k : ℕ => displ+k)

def typeIndexed (blocks : List (ℕ × ℤ)) : List ℤ :=
  blocks.flatMap (fun block => contiguous block.2 block.1)

def pack (positions : List ℤ) (buffer : Buffer A) : List A := positions.map buffer

def write (positions : List ℤ) (data : List A) (buffer : Buffer A) : Buffer A :=
  (positions.zip data).foldl (fun b cell => Function.update b cell.1 cell.2) buffer

def unpack (positions : List ℤ) (data : List A) (buffer : Buffer A) : Option (Buffer A) :=
  if data.length ≤ positions.length then some (write positions data buffer) else none

abbrev Code (A M : Type) := List (Instruction ℕ M (List A))

def sendrecv (payload : M → List A) (dest : ℕ) (store : List A → M → Option M)
    (source : ℕ) : Code A M :=
  exchange [source] [dest] (fun _ => payload) (fun _ => store)

def onRanks (size : ℕ) (code : ℕ → Code A M) (rank : ℕ) : Code A M :=
  if rank < size then code rank else []

theorem mem_contiguous {displ : ℤ} {count : ℕ} {z : ℤ} :
    z ∈ contiguous displ count ↔ ∃ k : ℕ, k < count ∧ z = displ+k := by
  simp [contiguous, eq_comm]

@[simp] theorem length_contiguous (displ : ℤ) (count : ℕ) :
    (contiguous displ count).length = count := by
  simp [contiguous]

@[simp] theorem length_pack (positions : List ℤ) (buffer : Buffer A) :
    (pack positions buffer).length = positions.length := by
  simp [pack]

theorem contiguous_add (displ : ℤ) (m n : ℕ) :
    contiguous displ (m+n) = contiguous displ m++contiguous (displ+m) n := by
  simp [contiguous, List.range_add, Int.add_assoc, Function.comp_def]

theorem write_map (positions : List ℤ) (f buffer : Buffer A) :
    write positions (positions.map f) buffer =
      fun z => if z ∈ positions then f z else buffer z := by
  induction positions generalizing buffer with
  | nil => rfl
  | cons z positions ih =>
    simp only [write, List.map_cons, List.zip_cons_cons, List.foldl_cons] at *
    rw [ih]
    funext y
    by_cases hy : y = z
    · simp [hy]
    · simp [hy]

theorem unpack_map (positions : List ℤ) (f buffer : Buffer A) :
    unpack positions (positions.map f) buffer =
      some (fun z => if z ∈ positions then f z else buffer z) := by
  rw [unpack, if_pos (by simp), write_map]

/-- A receive with room for more writes only what came. -/
theorem unpack_short {displ : ℤ} {count : ℕ} {data : List A} (buffer : Buffer A)
    (h : data.length ≤ count) : unpack (contiguous displ count) data buffer =
      unpack (contiguous displ data.length) data buffer := by
  obtain ⟨more, rfl⟩ := Nat.exists_eq_add_of_le h
  have hzip : (contiguous displ data.length++contiguous (displ+data.length) more).zip
      (data++[]) = (contiguous displ data.length).zip data++
        (contiguous (displ+data.length) more).zip [] := List.zip_append (by simp)
  rw [List.append_nil, List.zip_nil_right, List.append_nil] at hzip
  rw [unpack, unpack, if_pos (by simp), if_pos (by simp), write, write, contiguous_add, hzip]

theorem onRanks_append (size : ℕ) (f g : ℕ → Code A M) :
    onRanks size (fun rank => f rank++g rank) =
      fun rank => onRanks size f rank++onRanks size g rank := by
  funext rank
  unfold onRanks
  split <;> simp

theorem onRanks_flatMap {I : Type} (size : ℕ) (l : List I) (f : I → ℕ → Code A M) :
    onRanks size (fun rank => l.flatMap (fun i => f i rank)) =
      fun rank => l.flatMap (fun i => onRanks size (f i) rank) := by
  funext rank
  unfold onRanks
  split <;> simp

theorem onRanks_congr {size : ℕ} {f g : ℕ → Code A M}
    (h : ∀ rank, rank < size → f rank = g rank) : onRanks size f = onRanks size g := by
  funext rank
  unfold onRanks
  split
  · rename_i hrank
    exact h rank hrank
  · rfl

/-- Work of the ranks on their own memories. -/
theorem leads_changes (size : ℕ) (changes : ℕ → List (M → M)) (rest : ℕ → Code A M)
    (memories : ℕ → M) :
    Leads (fun p => onRanks size (fun rank => (changes rank).map .compute) p++rest p) memories
      rest (fun p => if p < size then (changes p).foldl (fun m f => f m) (memories p)
        else memories p) := by
  have hlead := leads_compute (D := List A) (Finset.range size)
    (fun p => if p < size then changes p else []) rest memories (by intro p hp; simp_all)
  convert hlead using 2 with p p
  · unfold onRanks
    split <;> rfl
  · split <;> rfl

theorem leads_change (size : ℕ) (change : ℕ → M → M) (rest : ℕ → Code A M) (memories : ℕ → M) :
    Leads (fun p => onRanks size (fun rank => [.compute (change rank)]) p++rest p) memories
      rest (fun p => if p < size then change p (memories p) else memories p) :=
  leads_changes size (fun p => [change p]) rest memories

section rings

variable (size : ℕ) (dest source : ℕ → ℕ) (payload : ℕ → M → List A)
  (store : ℕ → List A → M → Option M) (rest : ℕ → Code A M) (memories memories' : ℕ → M)

theorem dest_iff_source {size : ℕ} {dest source : ℕ → ℕ}
    (hdest : ∀ p, p < size → dest p < size ∧ source (dest p) = p)
    (hsource : ∀ p, p < size → source p < size ∧ dest (source p) = p) (p q : ℕ) :
    q ∈ (if p < size then [dest p] else []) ↔ p ∈ (if q < size then [source q] else []) := by
  by_cases hp : p < size
  · by_cases hq : q < size
    · simp only [hp, hq, if_true, List.mem_singleton]
      constructor
      · intro h
        rw [h, (hdest p hp).2]
      · intro h
        rw [h, (hsource q hq).2]
    · simp only [hp, hq, if_true, if_false, List.mem_singleton, List.not_mem_nil, iff_false]
      exact fun h => hq (h ▸ (hdest p hp).1)
  · by_cases hq : q < size
    · simp only [hp, hq, if_true, if_false, List.mem_singleton, List.not_mem_nil, false_iff]
      exact fun h => hp (h ▸ (hsource q hq).1)
    · simp [hp, hq]

theorem taken_singleton
    (hstore : ∀ p, p < size →
      store p (payload (source p) (memories (source p))) (memories p) = some (memories' p))
    (hidle : ∀ p, ¬ p < size → memories' p = memories p) (p : ℕ) :
    taken (if p < size then [source p] else []) (fun p _ => payload p) (fun _ => store p)
      memories p = some (memories' p) := by
  by_cases hp : p < size
  · simp [taken, hp, hstore p hp]
  · simp [taken, hp, hidle p hp]

/-- A round in which each rank sends to one rank and receives from one. -/
theorem leads_sendrecv
    (hdest : ∀ p, p < size → dest p < size ∧ source (dest p) = p)
    (hsource : ∀ p, p < size → source p < size ∧ dest (source p) = p)
    (hstore : ∀ p, p < size →
      store p (payload (source p) (memories (source p))) (memories p) = some (memories' p))
    (hidle : ∀ p, ¬ p < size → memories' p = memories p) :
    Leads (fun p => onRanks size
        (fun rank => sendrecv (payload rank) (dest rank) (store rank) (source rank)) p++rest p)
      memories rest memories' := by
  have hlead := leads_exchange (Finset.range size)
    (fun p => if p < size then [source p] else []) (fun p => if p < size then [dest p] else [])
    (fun p _ => payload p) (fun p _ => store p) rest memories memories'
    (by intro p; split <;> simp) (by intro p; split <;> simp) (dest_iff_source hdest hsource)
    (by intro p hp; simp_all)
    (taken_singleton size source payload store memories memories' hstore hidle)
  convert hlead using 2 with p
  unfold onRanks
  split <;> simp [sendrecv, exchange]

/-- The same where a rank waits for its message to be taken before it takes in
the one for itself. -/
theorem leads_handOn
    (hdest : ∀ p, p < size → dest p < size ∧ source (dest p) = p)
    (hsource : ∀ p, p < size → source p < size ∧ dest (source p) = p)
    (hstore : ∀ p, p < size →
      store p (payload (source p) (memories (source p))) (memories p) = some (memories' p))
    (hidle : ∀ p, ¬ p < size → memories' p = memories p) :
    Leads (fun p => onRanks size (fun rank => [.post (source rank),
        .send (dest rank) (payload rank), .complete (dest rank),
        .receive (source rank) (store rank)]) p++rest p)
      memories rest memories' := by
  have hlead := leads_handOver (Finset.range size)
    (fun p => if p < size then [source p] else []) (fun p => if p < size then [dest p] else [])
    (fun p _ => payload p) (fun p _ => store p) rest memories memories'
    (by intro p; split <;> simp) (by intro p; split <;> simp) (dest_iff_source hdest hsource)
    (by intro p hp; simp_all)
    (taken_singleton size source payload store memories memories' hstore hidle)
  convert hlead using 2 with p
  unfold onRanks
  split <;> simp [handOver]

end rings

end Otpo.MpiCalls
