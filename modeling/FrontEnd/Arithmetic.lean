/-
# `Arithmetic` — a small language of expressions

Numbers, names, operators and brackets, with blanks between them skipped.  Two grammars use the
tokens: sums and products of numbers, and the same with differences, quotients and names.  An
operator becomes a node over its operands, and parentheses leave nothing behind.
-/
import FrontEnd.Language

namespace FrontEnd.Arithmetic

/-- The kinds of tokens. -/
inductive Kind where
  | id
  | number
  | plus
  | minus
  | star
  | slash
  | comma
  | openBracket
  | closeBracket
  | openParen
  | closeParen
  | equals
  | doubleEquals
  /-- An explicit end of the input. -/
  | dollar
  deriving DecidableEq, Repr

/-- The terminal as which a token is parsed. -/
def Kind.terminal : Kind → Symbol
  | id => "id"
  | number => "number"
  | plus => "+"
  | minus => "-"
  | star => "*"
  | slash => "/"
  | comma => ","
  | openBracket => "["
  | closeBracket => "]"
  | openParen => "("
  | closeParen => ")"
  | equals => "="
  | doubleEquals => "=="
  | dollar => endMarker

/-! ## Tokens -/

/-- The `count` characters from `first` on. -/
def charsFrom (first : Char) (count : Nat) : List Char :=
  (List.range count).map fun i => Char.ofNat (first.toNat + i)

/-- A regular expression for any one of the characters. -/
def anyOf (cs : List Char) : String := "(" ++ "|".intercalate (cs.map Char.toString) ++ ")"

/-- A regular expression for a letter of the ASCII alphabet. -/
def letter : String := anyOf (charsFrom 'a' 26 ++ charsFrom 'A' 26)

/-- A regular expression for a decimal digit. -/
def digit : String := anyOf (charsFrom '0' 10)

/-- A regular expression for a space, tab, newline or return. -/
def blank : String := anyOf [' ', '\t', '\n', '\r']

/-- The token classes.  A name is a letter and then letters and digits; blanks are skipped. -/
def classes : List (String × Option Kind) := [
  (letter ++ "((" ++ letter ++ "|" ++ digit ++ ")*)", some .id),
  (digit ++ "(" ++ digit ++ "*)", some .number),
  ("+", some .plus),
  ("-", some .minus),
  ("*", some .star),
  ("/", some .slash),
  (",", some .comma),
  ("[", some .openBracket),
  ("]", some .closeBracket),
  ("(", some .openParen),
  (")", some .closeParen),
  ("==", some .doubleEquals),
  ("=", some .equals),
  ("$", some .dollar),
  (blank ++ "(" ++ blank ++ "*)", none)]

/-- The lexicon of the classes. -/
def lexicon : Except ClassError (Lexicon Kind) := Lexicon.compile classes

/-! ## Grammars -/

/-- A production for a binary operator: a node over both operands. -/
def binary (head operator operand : Symbol) : Production :=
  { head, body := [head, operator, operand], definition := some (.tree operator [0, 2]) }

/-- An expression in parentheses stands for itself. -/
def parenthesized : Production :=
  { head := "factor", body := ["(", "expr", ")"], definition := some (.copy 1) }

/-- Sums of products of numbers. -/
def draft : Draft :=
  (Draft.augment {} "expr")
    |>.add (binary "expr" "+" "term")
    |>.addAll "expr" [["term"]]
    |>.add (binary "term" "*" "factor")
    |>.addAll "term" [["factor"]]
    |>.addAll "factor" [["number"]]
    |>.add parenthesized

/-- Sums and differences of products and quotients of numbers and names. -/
def extendedDraft : Draft :=
  (Draft.augment {} "expr")
    |>.add (binary "expr" "+" "term")
    |>.add (binary "expr" "-" "term")
    |>.add (binary "term" "*" "factor")
    |>.add (binary "term" "/" "factor")
    |>.addAll "expr" [["term"]]
    |>.addAll "term" [["factor"]]
    |>.addAll "factor" [["number"], ["id"]]
    |>.add parenthesized

/-- The language of a grammar over the tokens. -/
def languageOf (d : Draft) : Except Failure (Language Kind) := do
  Language.assemble (← lexicon.mapError .regex) d .reject Kind.terminal

/-- The language of sums and products of numbers. -/
def language : Except Failure (Language Kind) := languageOf draft

/-- The language with all four operators and names. -/
def extendedLanguage : Except Failure (Language Kind) := languageOf extendedDraft

end FrontEnd.Arithmetic
