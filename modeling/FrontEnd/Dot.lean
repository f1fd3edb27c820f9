/-
# `Dot` — graphs as text

The parts of the text of a directed graph that all drawings share.
-/

namespace FrontEnd.Dot

/-- The line of an edge. -/
def edge (source target : Nat) (label : String) : String :=
  s!"\t{source} -> {target} [label = \"{label}\"];"

/-- A named graph. -/
def graph (name content : String) : String := "digraph " ++ name ++ " \x7b\n" ++ content ++ "\x7d"

end FrontEnd.Dot
