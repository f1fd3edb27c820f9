/-
# `Regex` — regular expressions over literal characters

Three operators, from the weakest to the strongest: union `a|b`, concatenation
`ab` and repetition `a*`.  Parentheses group and leave no trace in the tree.
-/

namespace FrontEnd

/-- The tree of a regular expression. -/
inductive Regex where
  /-- This character. -/
  | symbol (c : Char)
  /-- A word of either side. -/
  | union (left right : Regex)
  /-- A word of the first, then a word of the second. -/
  | concat (first second : Regex)
  /-- Any number of words, none included, one after the other. -/
  | star (inner : Regex)
  deriving DecidableEq, Repr, Inhabited

/-- An expression with `n` repetition signs behind it, one `star` each. -/
def Regex.starred (e : Regex) : Nat → Regex
  | 0 => e
  | n + 1 => .star (e.starred n)

/-- Why a text is not a regular expression.  Positions count characters from 0. -/
inductive RegexError where
  | empty
  /-- A parenthesis without a partner. -/
  | unbalancedParen (pos : Nat)
  /-- An operand should start here, and none does. -/
  | emptyOperand (pos : Nat)
  /-- A repetition sign with nothing to repeat. -/
  | danglingStar (pos : Nat)
  deriving DecidableEq, Repr

/-- The text of the report. -/
def RegexError.message : RegexError → String
  | empty => "[ERROR]: regular expression is empty"
  | unbalancedParen pos => s!"[ERROR] ({pos}): unbalanced parenthesis"
  | emptyOperand pos => s!"[ERROR] ({pos}): expected an operand"
  | danglingStar pos => s!"[ERROR] ({pos}): `*` does not follow an operand"

end FrontEnd
