/-
# `Regex.Parse` — reading a regular expression

A source of one character is that character, whichever it is, so an operator can be
matched literally.  A longer source first has its parentheses paired; then it is taken
apart span by span.  The first fault from the left is the one reported.
-/
import FrontEnd.Regex.Span

namespace FrontEnd.Regex

/-- The expression that a span spells. -/
def ofSpan (s : Span) : Except RegexError Regex :=
  match _h : s.shape with
  | .error e => .error e
  | .ok (.literal c) => .ok (.symbol c)
  | .ok (.group inner) => ofSpan inner
  | .ok (.union left right) => do
    let l ← ofSpan left
    let r ← ofSpan right
    return .union l r
  | .ok (.factor operand stars none) => do
    let first ← ofSpan operand
    return first.starred stars
  | .ok (.factor operand stars (some rest)) => do
    let first ← ofSpan operand
    let second ← ofSpan rest
    return .concat (first.starred stars) second
termination_by s.length
decreasing_by all_goals exact Span.length_part _h (by simp [Shape.parts])

/-- The expression that a source spells. -/
def parse (source : String) : Except RegexError Regex :=
  match source.toList with
  | [] => .error .empty
  | [c] => .ok (.symbol c)
  | cs =>
    match unpaired 0 [] cs with
    | some pos => .error (.unbalancedParen pos)
    | none => ofSpan ⟨0, cs⟩

end FrontEnd.Regex
