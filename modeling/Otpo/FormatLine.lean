import Otpo.ParameterLines

/-!
# The documented format of a parameter line

A line as the user means it, the options it consists of, and the texts it may
be written as. The options come in any order and blanks run to any length; one
blank stands in front of an opening brace and of the quote of a format.
-/

set_option autoImplicit false

namespace Otpo.FormatLine
open Otpo.ParamList Otpo.ResultFile Otpo.NumberText Otpo.ParseLine Otpo.ParameterLines
open Tokenizer (Clean Blank Separated)

inductive LineOption
  | isVirtual
  | default (value : Text)
  | list (values : List Text)
  | aggregate (format : Text)
  | range (startValue endValue : ℤ)
  | traversal (operation : Operator) (increment : ℤ)
  | condition (tokens : List Text)
  deriving DecidableEq, Repr

structure Line where
  name : Text
  isVirtual : Bool
  default : Option Text
  list : Option (List Text)
  aggregate : Option Text
  range : Option (ℤ × ℤ)
  traversal : Option (Operator × ℤ)
  condition : Option (List Text)
  deriving DecidableEq, Repr

namespace Line

def bare (name : Text) : Line := ⟨name, false, none, none, none, none, none, none⟩

def add (l : Line) : LineOption → Line
  | .isVirtual => { l with isVirtual := true }
  | .default value => { l with default := some value }
  | .list values => { l with list := some values }
  | .aggregate format => { l with aggregate := some format }
  | .range startValue endValue => { l with range := some (startValue, endValue) }
  | .traversal operation increment => { l with traversal := some (operation, increment) }
  | .condition tokens => { l with condition := some tokens }

def Has (l : Line) : LineOption → Prop
  | .isVirtual => l.isVirtual = true
  | .default value => l.default = some value
  | .list values => l.list = some values
  | .aggregate format => l.aggregate = some format
  | .range startValue endValue => l.range = some (startValue, endValue)
  | .traversal operation increment => l.traversal = some (operation, increment)
  | .condition tokens => l.condition = some tokens

def options (l : Line) : List LineOption :=
  (if l.isVirtual then [.isVirtual] else []) ++
    ((l.default.map .default).toList ++ ((l.list.map .list).toList ++
      ((l.aggregate.map .aggregate).toList ++
        ((l.range.map fun q => .range q.1 q.2).toList ++
          ((l.traversal.map fun q => .traversal q.1 q.2).toList ++
            (l.condition.map .condition).toList)))))

def values (l : Line) : List Text := l.aggregate.toList ++ l.list.getD []

def tokens (l : Line) : List Text := l.condition.getD []

theorem mem_options {l : Line} {o : LineOption} : o ∈ l.options ↔ l.Has o := by
  cases o <;> simp [options, Has]

theorem has_commute {l m : Line} {o q : LineOption} (ho : l.Has o) (hq : l.Has q) :
    (m.add o).add q = (m.add q).add o := by
  cases o <;> cases q <;> first | rfl | skip
  all_goals
    have heq := ho.symm.trans hq
    simp only [Option.some.injEq, Prod.mk.injEq] at heq
    simp only [add, heq]

theorem foldl_options (l : Line) : l.options.foldl add (bare l.name) = l := by
  obtain ⟨name, isVirtual, default, list, aggregate, range, traversal, condition⟩ := l
  cases isVirtual <;> cases default <;> cases list <;> cases aggregate <;> cases range <;>
    cases traversal <;> cases condition <;> rfl

/-- The order of the options does not matter. -/
theorem foldl_perm {l : Line} {os : List LineOption} (h : os.Perm l.options) :
    os.foldl add (bare l.name) = l := by
  rw [h.foldl_eq' fun o ho q hq m => has_commute (mem_options.mp (h.mem_iff.mp ho))
    (mem_options.mp (h.mem_iff.mp hq)), foldl_options]

end Line

section Rendering

def Run (b : Text) : Prop := b ≠ [] ∧ Blank isBlank b

def IsInt (z : ℤ) : Prop := -2147483648 ≤ z ∧ z ≤ 2147483647

def operationSigns : List (Char × Operator) :=
  [('+', .add), ('*', .multiply), ('-', .subtract), ('/', .divide)]

inductive Rendered : LineOption → Text → Prop
  | isVirtual : Rendered .isVirtual "-v".toList
  | default {b value : Text} (blanks : Run b) (clean : Clean isConditionDelimiter value) :
      Rendered (.default value) ("-d".toList ++ (b ++ value))
  | list {values : List Text} {x : Char} {inner : Text} (blank : isBlank x = true)
      (nonempty : values ≠ []) (separated : Separated isListDelimiter values inner)
      (text : ∀ c ∈ inner, isBrace c = false ∧ c ≠ '\n') :
      Rendered (.list values) ("-p".toList ++ x:: '{'::(inner ++ ['}']))
  | aggregate {x : Char} {format : Text} (blank : isBlank x = true) (clean : Clean isQuote format)
      (line : '\n' ∉ format) :
      Rendered (.aggregate format) ("-a".toList ++ x:: '\"'::(format ++ ['\"']))
  | range {b₁ b₂ : Text} {startValue endValue : ℤ} (blanks₁ : Run b₁) (blanks₂ : Run b₂)
      (start : IsInt startValue) (stop : IsInt endValue) :
      Rendered (.range startValue endValue)
        ("-r".toList ++ (b₁ ++ (printInt startValue ++ (b₂ ++ printInt endValue))))
  | traversal {b₁ b₂ b₃ : Text} {c : Char} {operation : Operator} {increment : ℤ}
      (blanks₁ : Run b₁) (blanks₂ : Run b₂) (blanks₃ : Run b₃)
      (sign : (c, operation) ∈ operationSigns) (operand : IsInt increment) :
      Rendered (.traversal operation increment)
        ("-t".toList ++ (b₁ ++ ("increment".toList ++ (b₂ ++ ([c] ++ (b₃ ++ printInt increment))))))
  | condition {b first rest : Text} {x : Char} {tokens : List Text} (blanks : Run b)
      (blank : isBlank x = true) (nonempty : rest ≠ [])
      (word : ∀ c ∈ first, isConditionDelimiter c = false)
      (text : ∀ c ∈ first ++ rest, isQuote c = false ∧ c ≠ '\n')
      (separated : Separated isConditionDelimiter tokens (first ++ x::rest))
      (short : first.length+rest.length+1 < conditionLength) :
      Rendered (.condition tokens) ("-i".toList ++ (b ++ '\"'::(first ++ x::(rest ++ ['\"']))))

inductive RenderedOptions : List LineOption → Text → Prop
  | done {b : Text} (blanks : Blank isBlank b) : RenderedOptions [] (b ++ ['\n'])
  | option {b t s : Text} {o : LineOption} {os : List LineOption} (blanks : Run b)
      (option : Rendered o t) (rest : RenderedOptions os s) :
      RenderedOptions (o::os) (b ++ (t ++ s))

structure RenderedLine (l : Line) (text : Text) : Prop where
  name : Clean isConditionDelimiter l.name
  parameter : startsWith '#' l.name = false
  written : ∃ os x rest, os.Perm l.options ∧ isBlank x = true ∧ RenderedOptions os (x::rest) ∧
    text = l.name ++ x::rest

end Rendering

section Lines

variable {b t s text : Text} {o : LineOption} {os : List LineOption} {l : Line} {x : Char}

theorem rendered_one_line (h : Rendered o t) : '\n' ∉ t := by
  cases h with
  | isVirtual => decide
  | default hb hv =>
    simp only [List.mem_append, not_or]
    exact ⟨by decide, blank_one_line hb.2, clean_one_line hv.2⟩
  | list hx _ _ htext =>
    simp only [List.mem_append, List.mem_cons, not_or]
    exact ⟨by decide, (blank_ne_newline hx).symm, by decide, fun hn => (htext _ hn).2 rfl,
      by decide, List.not_mem_nil⟩
  | aggregate hx _ hline =>
    simp only [List.mem_append, List.mem_cons, not_or]
    exact ⟨by decide, (blank_ne_newline hx).symm, by decide, hline, by decide, List.not_mem_nil⟩
  | range h₁ h₂ =>
    simp only [List.mem_append, not_or]
    exact ⟨by decide, blank_one_line h₁.2, print_int_one_line _, blank_one_line h₂.2,
      print_int_one_line _⟩
  | traversal h₁ h₂ h₃ hsign =>
    simp only [List.mem_append, not_or]
    refine ⟨by decide, blank_one_line h₁.2, by decide, blank_one_line h₂.2, ?_,
      blank_one_line h₃.2, print_int_one_line _⟩
    intro hn
    rw [← List.mem_singleton.mp hn] at hsign
    have hfst : '\n' ∈ operationSigns.map Prod.fst := List.mem_map_of_mem hsign
    exact absurd hfst (by decide)
  | condition hb hx _ _ htext =>
    simp only [List.mem_append, List.mem_cons, not_or]
    exact ⟨by decide, blank_one_line hb.2, by decide,
      fun hn => (htext _ (List.mem_append_left _ hn)).2 rfl, (blank_ne_newline hx).symm,
      fun hn => (htext _ (List.mem_append_right _ hn)).2 rfl, by decide, List.not_mem_nil⟩

theorem rendered_options_line (h : RenderedOptions os s) : ∃ l, s = l ++ ['\n'] ∧ '\n' ∉ l := by
  induction h with
  | done hb => exact ⟨_, rfl, blank_one_line hb⟩
  | @option b t s o os hb ht _ ih =>
    obtain ⟨l, rfl, hl⟩ := ih
    refine ⟨b ++ (t ++ l), by simp only [List.append_assoc], ?_⟩
    simp only [List.mem_append, not_or]
    exact ⟨blank_one_line hb.2, rendered_one_line ht, hl⟩

theorem rendered_line (h : RenderedLine l text) : ∃ t, text = t ++ ['\n'] ∧ '\n' ∉ t := by
  obtain ⟨hname, _, os, x, rest, _, _, hos, rfl⟩ := h
  obtain ⟨t, heq, ht⟩ := rendered_options_line hos
  refine ⟨l.name ++ t, by rw [heq, List.append_assoc], ?_⟩
  rw [List.mem_append, not_or]
  exact ⟨clean_one_line hname.2, ht⟩

end Lines

end Otpo.FormatLine
