/-
# `Regex.Span` — how a piece of a regular expression falls apart

A span is a piece of the source together with the position of its first
character.  `Span.shape` looks at one span and says what it is: a literal, a group,
a union at its first bar outside of any group, or a first operand with its
repetition signs and what is left.  The pieces are spans again, and every one of
them is shorter than the span they come from (`Span.length_part`), which is why
taking spans apart ends.
-/
import FrontEnd.Regex.Basic

namespace FrontEnd.Regex

/-- A piece of the source, with the position of its first character. -/
structure Span where
  start : Nat
  chars : List Char
  deriving DecidableEq, Repr

namespace Span

/-- How many characters the span has. -/
def length (s : Span) : Nat := s.chars.length

/-- The first `n` characters. -/
def take (s : Span) (n : Nat) : Span := ⟨s.start, s.chars.take n⟩

/-- All but the first `n` characters. -/
def drop (s : Span) (n : Nat) : Span := ⟨s.start + n, s.chars.drop n⟩

@[simp] theorem length_take (s : Span) (n : Nat) : (s.take n).length = min n s.length := by
  simp [length, take]

@[simp] theorem length_drop (s : Span) (n : Nat) : (s.drop n).length = s.length - n := by
  simp [length, drop]

end Span

/-! ## Parentheses -/

/-- The first parenthesis without a partner.  `opened` holds the positions of the
open ones, the innermost first; `pos` is the position of the next character. -/
def unpaired (pos : Nat) (opened : List Nat) : List Char → Option Nat
  | [] => opened.getLast?
  | c :: cs =>
    if c = '(' then unpaired (pos + 1) (pos :: opened) cs
    else if c = ')' then
      match opened with
      | [] => some pos
      | _ :: outer => unpaired (pos + 1) outer cs
    else unpaired (pos + 1) opened cs

/-- With `depth` groups open: how many characters there are up to the one that
closes the last of them, that one included. -/
def closing (depth : Nat) : List Char → Option Nat
  | [] => none
  | c :: cs =>
    if c = '(' then (closing (depth + 1) cs).map (· + 1)
    else if c = ')' then
      if depth ≤ 1 then some 1 else (closing (depth - 1) cs).map (· + 1)
    else (closing depth cs).map (· + 1)

/-- With `depth` groups open: how many characters stand before the first bar outside
of any group. -/
def firstBar (depth : Nat) : List Char → Option Nat
  | [] => none
  | c :: cs =>
    if c = '(' then (firstBar (depth + 1) cs).map (· + 1)
    else if c = ')' then (firstBar (depth - 1) cs).map (· + 1)
    else if c = '|' ∧ depth = 0 then some 0
    else (firstBar depth cs).map (· + 1)

theorem closing_bounds {depth n : Nat} {cs : List Char} (h : closing depth cs = some n) :
    0 < n ∧ n ≤ cs.length := by
  induction cs generalizing depth n with
  | nil => simp [closing] at h
  | cons c cs ih =>
    have step {d : Nat} (h : (closing d cs).map (· + 1) = some n) :
        0 < n ∧ n ≤ (c :: cs).length := by
      obtain ⟨m, hm, rfl⟩ := Option.map_eq_some_iff.1 h
      have := ih hm
      simp only [List.length_cons]
      omega
    unfold closing at h
    split at h
    · exact step h
    · split at h
      · split at h
        · cases h
          simp
        · exact step h
      · exact step h

theorem firstBar_lt {depth i : Nat} {cs : List Char} (h : firstBar depth cs = some i) :
    i < cs.length := by
  induction cs generalizing depth i with
  | nil => simp [firstBar] at h
  | cons c cs ih =>
    have step {d : Nat} (h : (firstBar d cs).map (· + 1) = some i) : i < (c :: cs).length := by
      obtain ⟨m, hm, rfl⟩ := Option.map_eq_some_iff.1 h
      have := ih hm
      simp only [List.length_cons]
      omega
    unfold firstBar at h
    split at h
    · exact step h
    · split at h
      · exact step h
      · split at h
        · cases h
          simp
        · exact step h

/-! ## The shape of a span -/

/-- What a span is made of. -/
inductive Shape where
  /-- A character that stands for itself. -/
  | literal (c : Char)
  /-- One group and nothing around it. -/
  | group (inner : Span)
  /-- Two sides of a bar. -/
  | union (left right : Span)
  /-- A first operand, `stars` repetition signs, and the rest if there is one. -/
  | factor (operand : Span) (stars : Nat) (rest : Option Span)
  deriving DecidableEq, Repr

/-- The smaller spans of a shape. -/
def Shape.parts : Shape → List Span
  | literal _ => []
  | group inner => [inner]
  | union left right => [left, right]
  | factor operand _ rest => operand :: rest.toList

/-- How many characters the operand at the front of a span takes: a group goes up to
its closing parenthesis, any other character stands alone, and an operator is no
operand. -/
def Span.operand (s : Span) : Except RegexError Nat :=
  match s.chars with
  | [] => .error (.emptyOperand s.start)
  | c :: _ =>
    if c = '(' then
      match closing 0 s.chars with
      | some n => .ok n
      | none => .error (.unbalancedParen s.start)
    else if c = ')' then .error (.unbalancedParen s.start)
    else if c = '*' then .error (.danglingStar s.start)
    else if c = '|' then .error (.emptyOperand s.start)
    else .ok 1

/-- The shape of the part of a span that starts with an operand of `n` characters. -/
def Span.factor (s : Span) (n : Nat) : Shape :=
  let stars := ((s.chars.drop n).takeWhile (· = '*')).length
  if n + stars < s.length then .factor (s.take n) stars (some (s.drop (n + stars)))
  else .factor (s.take n) stars none

/-- What a span is, or why it is nothing. -/
def Span.shape (s : Span) : Except RegexError Shape :=
  match s.chars with
  | [] => .error (.emptyOperand s.start)
  | [c] => s.operand.map fun _ => .literal c
  | c :: _ =>
    if c = '(' ∧ closing 0 s.chars = some s.length then
      .ok (.group ((s.drop 1).take (s.length - 2)))
    else
      match firstBar 0 s.chars with
      | some i => .ok (.union (s.take i) (s.drop (i + 1)))
      | none => s.operand.map s.factor

theorem Span.operand_bounds {s : Span} {n : Nat} (h : s.operand = .ok n) :
    0 < n ∧ n ≤ s.length ∧ (n = 1 ∨ closing 0 s.chars = some n ∧ s.chars.head? = some '(') := by
  obtain ⟨start, chars⟩ := s
  cases chars with
  | nil => simp [operand] at h
  | cons c cs =>
    simp only [operand] at h
    split at h
    · rename_i hc
      split at h
      · rename_i m hm
        cases h
        have := closing_bounds hm
        exact ⟨this.1, this.2, .inr ⟨hm, congrArg some hc⟩⟩
      · cases h
    · split at h
      · cases h
      · split at h
        · cases h
        · split at h
          · cases h
          · cases h
            simp [length]

/-- Every part of a span is shorter than the span. -/
theorem Span.length_part {s : Span} {shape : Shape} (h : s.shape = .ok shape) {t : Span}
    (ht : t ∈ shape.parts) : t.length < s.length := by
  unfold Span.shape at h
  split at h
  · cases h
  · cases ho : s.operand with
    | error e => rw [ho] at h; cases h
    | ok n =>
      rw [ho] at h
      cases h
      simp [Shape.parts] at ht
  · rename_i c cs hne hcs
    have hlen : 2 ≤ s.length := by
      cases cs with
      | nil => exact absurd rfl hne
      | cons d ds => simp [length, hcs]
    split at h
    · cases h
      simp only [Shape.parts, List.mem_singleton] at ht
      subst ht
      simp only [length_take, length_drop]
      omega
    · rename_i hgroup
      split at h
      · rename_i i hi
        cases h
        have := firstBar_lt hi
        simp only [Shape.parts, List.mem_cons, List.not_mem_nil, or_false] at ht
        simp only [length] at this ⊢
        rcases ht with rfl | rfl
        · simp only [take, List.length_take]
          omega
        · simp only [drop, List.length_drop]
          omega
      · cases ho : s.operand with
        | error e => rw [ho] at h; cases h
        | ok n =>
          rw [ho] at h
          cases h
          obtain ⟨hpos, hle, hcase⟩ := operand_bounds ho
          have hlt : n < s.length := by
            rcases hcase with rfl | ⟨hcl, hhead⟩
            · omega
            · have hc : c = '(' := by simpa [hcs] using hhead
              have hn : n ≠ s.length := fun hn => hgroup ⟨hc, hn ▸ hcl⟩
              omega
          unfold factor at ht
          dsimp only at ht
          split at ht
          · simp only [Shape.parts, Option.toList_some, List.mem_cons, List.not_mem_nil,
              or_false] at ht
            rcases ht with rfl | rfl
            · simp only [length_take]; omega
            · simp only [length_drop]; omega
          · simp only [Shape.parts, Option.toList_none, List.mem_singleton] at ht
            subst ht
            simp only [length_take]
            omega

end FrontEnd.Regex
