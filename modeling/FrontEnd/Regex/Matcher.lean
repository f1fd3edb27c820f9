/-
# `Matcher` — a regular expression made ready to match

Compiling reads the expression, builds its automaton and makes that deterministic;
matching runs the deterministic one.
-/
import FrontEnd.Automaton.Machine
import FrontEnd.Regex.Parse
import FrontEnd.Text.Bytes

namespace FrontEnd

/-- A compiled regular expression. -/
structure Matcher where
  /-- The text it was compiled from. -/
  source : String
  nfa : Nfa
  dfa : Dfa
  deriving DecidableEq, Repr

namespace Matcher

/-- Compiles the text of a regular expression. -/
def compile (source : String) : Except RegexError Matcher := do
  let nfa := Nfa.ofRegex (← Regex.parse source)
  return { source, nfa, dfa := nfa.toDfa }

/-- How many characters the longest non-empty matching prefix has. -/
def prefixLength (m : Matcher) (text : List Char) : Option Nat := m.dfa.machine.longestPrefix text

/-- How many bytes the longest non-empty matching prefix has. -/
def longestPrefix (m : Matcher) (text : String) : Option Nat :=
  (m.prefixLength text.toList).map fun n => Text.byteLength (text.toList.take n)

/-- The longest non-empty matching prefix; the empty text when there is none. -/
def matchPrefix (m : Matcher) (text : String) : String :=
  String.ofList (text.toList.take ((m.prefixLength text.toList).getD 0))

/-- Whether the whole text matches. -/
def isMatch (m : Matcher) (text : String) : Bool := m.dfa.machine.accepts text.toList

end Matcher

end FrontEnd
