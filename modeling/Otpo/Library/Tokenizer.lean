import Mathlib.Algebra.Order.BigOperators.Group.List
import Mathlib.Algebra.Order.Ring.Nat
import Mathlib.Data.List.TakeWhile

/-!
# Tokens between delimiters

A cursor that skips delimiters, returns what follows up to the next delimiter
and moves behind that one. The set of delimiters may change between two calls.
-/

set_option autoImplicit false

namespace Tokenizer

variable {α : Type*} (d : α → Bool)

def next (s : List α) : Option (List α × List α) :=
  match s.dropWhile d with
  | [] => none
  | c::cs => some (c::cs.takeWhile (!d ·), (cs.dropWhile (!d ·)).tail)

def tokens (s : List α) : List (List α) := (s.splitOnP d).filter (· ≠ [])

def Clean (t : List α) : Prop := t ≠ [] ∧ ∀ c ∈ t, d c = false

def Blank (s : List α) : Prop := ∀ c ∈ s, d c = true

instance (s : List α) : Decidable (Clean d s) :=
  inferInstanceAs (Decidable (s ≠ [] ∧ ∀ c ∈ s, d c = false))

instance (s : List α) : Decidable (Blank d s) :=
  inferInstanceAs (Decidable (∀ c ∈ s, d c = true))

variable {d} {b t s : List α} {x : α}

theorem drop_blank (hb : Blank d b) : (b ++ s).dropWhile d = s.dropWhile d := by
  rw [List.dropWhile_append, List.dropWhile_eq_nil_iff.mpr hb]
  rfl

theorem take_clean (ht : ∀ c ∈ t, d c = false) (hx : d x = true) :
    (t ++ x::s).takeWhile (!d ·) = t ∧ (t ++ x::s).dropWhile (!d ·) = x::s := by
  have hall : ∀ c ∈ t, (!d c) = true := fun c hc => by rw [ht c hc]; rfl
  have hstop : ¬ (!d x) = true := by simp [hx]
  constructor
  · rw [List.takeWhile_append_of_pos hall, List.takeWhile_cons_of_neg (by exact hstop),
      List.append_nil]
  · rw [List.dropWhile_append_of_pos hall, List.dropWhile_cons_of_neg (by exact hstop)]

/-- A token begins with the first element that is no delimiter. -/
theorem next_cons (hb : Blank d b) (hx : d x = false) (s : List α) : next d (b ++ x::s) =
    some (x::s.takeWhile (!d ·), (s.dropWhile (!d ·)).tail) := by
  have hgo : ¬ d x = true := by rw [hx]; exact Bool.false_ne_true
  rw [next, drop_blank hb, List.dropWhile_cons_of_neg hgo]

/-- A token in front of a delimiter. -/
theorem next_token (hb : Blank d b) (ht : Clean d t) (hx : d x = true) :
    next d (b ++ (t ++ x::s)) = some (t, s) := by
  obtain ⟨hne, hclean⟩ := ht
  cases t with
  | nil => exact absurd rfl hne
  | cons c t =>
    obtain ⟨htake, hdrop⟩ := take_clean (s := s)
      (fun y hy => hclean y (List.mem_cons_of_mem c hy)) hx
    rw [List.cons_append, next_cons hb (hclean c List.mem_cons_self), htake, hdrop, List.tail_cons]

/-- The last token of a text that does not end in a delimiter. -/
theorem next_last (hb : Blank d b) (ht : Clean d t) : next d (b ++ t) = some (t, []) := by
  obtain ⟨hne, hclean⟩ := ht
  cases t with
  | nil => exact absurd rfl hne
  | cons c t =>
    have hall : ∀ y ∈ t, (!d y) = true := fun y hy => by
      rw [hclean y (List.mem_cons_of_mem c hy)]
      rfl
    rw [next_cons hb (hclean c List.mem_cons_self), List.takeWhile_eq_self_iff.mpr hall,
      List.dropWhile_eq_nil_iff.mpr hall, List.tail_nil]

theorem next_blank (hb : Blank d b) : next d b = none := by
  rw [next, List.dropWhile_eq_nil_iff.mpr hb]

/-- The text splits into delimiters, the token and what is left. -/
theorem next_split {r : List α} (h : next d s = some (t, r)) :
    t <:+: s ∧ r <:+ s ∧ r.length < s.length ∧ t ≠ [] := by
  rw [next] at h
  split at h
  · cases h
  · next c cs hdrop =>
    cases h
    have hsuffix : c::cs <:+ s := hdrop ▸ List.dropWhile_suffix d
    have hrest : (cs.dropWhile (!d ·)).tail <:+ cs :=
      (List.tail_suffix _).trans (List.dropWhile_suffix _)
    have htoken : c::cs.takeWhile (!d ·) <+: c::cs :=
      (List.prefix_cons_inj c).mpr (List.takeWhile_prefix _)
    refine ⟨htoken.isInfix.trans hsuffix.isInfix,
      hrest.trans ((List.suffix_cons c cs).trans hsuffix), ?_, List.cons_ne_nil _ _⟩
    have hle := hrest.length_le
    have hlt := hsuffix.length_le
    rw [List.length_cons] at hlt
    omega

theorem next_length {r : List α} (h : next d s = some (t, r)) : t.length+r.length ≤ s.length := by
  rw [next] at h
  split at h
  · cases h
  · next c cs hdrop =>
    cases h
    have hsplit := congrArg List.length (List.takeWhile_append_dropWhile (p := (!d ·)) (l := cs))
    have hsuffix := (hdrop ▸ List.dropWhile_suffix d : c::cs <:+ s).length_le
    rw [List.length_append] at hsplit
    rw [List.length_cons] at hsuffix ⊢
    rw [List.length_tail]
    omega

/-- No piece is longer than the text. -/
theorem piece_length (h : t ∈ s.splitOnP d) : t.length ≤ s.length := by
  induction s generalizing t with
  | nil =>
    rw [List.splitOnP_nil, List.mem_singleton] at h
    rw [h]
  | cons c s ih =>
    rw [List.splitOnP_cons_eq_if_modifyHead] at h
    rw [List.length_cons]
    split_ifs at h
    · rcases List.mem_cons.mp h with rfl | h
      · exact Nat.zero_le _
      · exact (ih h).trans (Nat.le_succ _)
    · cases hsplit : s.splitOnP d with
      | nil =>
        rw [hsplit] at h
        cases h
      | cons u us =>
        rw [hsplit] at h ih
        rcases List.mem_cons.mp h with rfl | h
        · exact Nat.succ_le_succ (ih List.mem_cons_self)
        · exact (ih (List.mem_cons_of_mem u h)).trans (Nat.le_succ _)

theorem next_clean {r : List α} (h : next d s = some (t, r)) : Clean d t := by
  rw [next] at h
  split at h
  · cases h
  · next c cs hdrop =>
    cases h
    refine ⟨List.cons_ne_nil _ _, List.forall_mem_cons.mpr ⟨?_, fun y hy => ?_⟩⟩
    · have hhead := List.head?_dropWhile_not d s
      rw [hdrop, List.head?_cons] at hhead
      exact hhead
    · simpa using List.mem_takeWhile_imp hy

/-- A piece has elements of the text, and no delimiter. -/
theorem piece_elements (h : t ∈ s.splitOnP d) : ∀ c ∈ t, c ∈ s ∧ d c = false := by
  induction s generalizing t with
  | nil =>
    rw [List.splitOnP_nil, List.mem_singleton] at h
    rw [h]
    exact List.forall_mem_nil _
  | cons x s ih =>
    have hmore {u : List α} (hu : u ∈ s.splitOnP d) : ∀ c ∈ u, c ∈ x::s ∧ d c = false :=
      fun c hc => ⟨List.mem_cons_of_mem x (ih hu c hc).1, (ih hu c hc).2⟩
    rw [List.splitOnP_cons_eq_if_modifyHead] at h
    split_ifs at h with hx
    · rcases List.mem_cons.mp h with rfl | h
      · exact List.forall_mem_nil _
      · exact hmore h
    · obtain ⟨u, us, hsplit⟩ := List.exists_cons_of_ne_nil (List.splitOnP_ne_nil d s)
      rw [hsplit] at h hmore
      rcases List.mem_cons.mp h with rfl | h
      · exact List.forall_mem_cons.mpr
          ⟨⟨List.mem_cons_self, Bool.eq_false_iff.mpr hx⟩, hmore List.mem_cons_self⟩
      · exact hmore (List.mem_cons_of_mem u h)

theorem token_elements (h : t ∈ tokens d s) : ∀ c ∈ t, c ∈ s ∧ d c = false :=
  piece_elements (List.mem_filter.mp h).1

def room (s : List α) : ℕ := if s = [] then 0 else s.length+1

/-- A token takes the room of its elements and of what ends it. -/
theorem next_room {r : List α} (h : next d s = some (t, r)) : t.length+1+room r ≤ room s := by
  have hlength := next_length h
  have hless := (next_split h).2.2.1
  have hs : s ≠ [] := List.ne_nil_of_length_pos (by omega)
  rw [room, room, if_neg hs]
  split_ifs with hr
  · omega
  · rw [next] at h
    split at h
    · cases h
    · next c cs hdrop =>
      cases h
      have hsplit := congrArg List.length (List.takeWhile_append_dropWhile (p := (!d ·)) (l := cs))
      have hsuffix := (hdrop ▸ List.dropWhile_suffix d : c::cs <:+ s).length_le
      have hpos : (cs.dropWhile (!d ·)).length ≠ 0 := fun hzero => hr (by
        rw [List.length_eq_zero_iff.mp hzero]
        rfl)
      rw [List.length_append] at hsplit
      rw [List.length_cons] at hsuffix ⊢
      rw [List.length_tail]
      omega

theorem pieces_room (s : List α) :
    ((s.splitOnP d).map fun t => t.length+1).sum = s.length+1 := by
  induction s with
  | nil => rfl
  | cons c s ih =>
    rw [List.splitOnP_cons_eq_if_modifyHead]
    split_ifs
    · rw [List.map_cons, List.sum_cons, ih, List.length_nil, List.length_cons]
      omega
    · obtain ⟨u, us, hsplit⟩ := List.exists_cons_of_ne_nil (List.splitOnP_ne_nil d s)
      rw [hsplit, List.map_cons, List.sum_cons] at ih
      rw [hsplit, List.modifyHead_cons, List.map_cons, List.sum_cons, List.length_cons,
        List.length_cons]
      omega

/-- A text has room for all its tokens. -/
theorem tokens_room (s : List α) : ((tokens d s).map fun t => t.length+1).sum ≤ s.length+1 := by
  rw [← pieces_room (d := d) s]
  exact (List.filter_sublist.map _).sum_le_sum fun n _ => Nat.zero_le n

inductive Finds (d : α → Bool) (p : List α → Bool) : List α → List α → Prop
  | here {s t r : List α} (h : next d s = some (t, r)) (hp : p t = true) : Finds d p s r
  | later {s t r r' : List α} (h : next d s = some (t, r)) (hp : p t = false)
      (rest : Finds d p r r') : Finds d p s r'

theorem finds_suffix {p : List α → Bool} {r : List α} (h : Finds d p s r) : r <:+ s := by
  induction h with
  | here h _ => exact (next_split h).2.1
  | later h _ _ ih => exact ih.trans (next_split h).2.1

theorem tokens_delimiter (hx : d x = true) : tokens d (x::s) = tokens d s := by
  rw [tokens, tokens, List.splitOnP_cons_eq_if_modifyHead, if_pos hx]
  rfl

theorem tokens_blank_append (hb : Blank d b) : tokens d (b ++ s) = tokens d s := by
  induction b with
  | nil => rfl
  | cons c b ih =>
    rw [List.cons_append, tokens_delimiter (hb c List.mem_cons_self)]
    exact ih fun y hy => hb y (List.mem_cons_of_mem c hy)

theorem tokens_blank (hb : Blank d b) : tokens d b = [] := by
  have h := tokens_blank_append (s := []) hb
  rw [List.append_nil] at h
  rw [h]
  rfl

theorem tokens_token (ht : Clean d t) (hx : d x = true) :
    tokens d (t ++ x::s) = t::tokens d s := by
  rw [tokens, List.splitOnP_append_cons_of_forall_mem ht.2 x hx,
    List.filter_cons_of_pos (by simpa using ht.1)]
  rfl

/-- One delimiter is as good as another. -/
theorem tokens_replace {y : α} (ht : ∀ c ∈ t, d c = false) (hx : d x = true) (hy : d y = true) :
    tokens d (t ++ x::s) = tokens d (t ++ y::s) := by
  rw [tokens, tokens, List.splitOnP_append_cons_of_forall_mem ht x hx,
    List.splitOnP_append_cons_of_forall_mem ht y hy]

theorem tokens_last (ht : Clean d t) : tokens d t = [t] := by
  rw [tokens, List.splitOnP_eq_singleton ht.2, List.filter_cons_of_pos (by simpa using ht.1)]
  rfl

inductive Separated (d : α → Bool) : List (List α) → List α → Prop
  | nil {s : List α} (blank : Blank d s) : Separated d [] s
  | last {b t : List α} (blank : Blank d b) (clean : Clean d t) : Separated d [t] (b ++ t)
  | cons {b t s : List α} {ts : List (List α)} {x : α} (blank : Blank d b) (clean : Clean d t)
      (delimiter : d x = true) (rest : Separated d ts s) : Separated d (t::ts) (b ++ (t ++ x::s))

theorem tokens_separated {ts : List (List α)} (h : Separated d ts s) : tokens d s = ts := by
  induction h with
  | nil hb => exact tokens_blank hb
  | last hb ht => rw [tokens_blank_append hb, tokens_last ht]
  | cons hb ht hx _ ih => rw [tokens_blank_append hb, tokens_token ht hx, ih]

end Tokenizer
