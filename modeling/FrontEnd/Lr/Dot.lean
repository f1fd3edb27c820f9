/-
# `Lr.Dot` — the automaton of a grammar drawn as a graph

Every state is a box that lists its items, one under the other.  Names of symbols can hold
any character, so labels are escaped: a backslash is doubled, and a quote has a backslash in
front.  A backslash followed by the letter `n` ends a line.
-/
import FrontEnd.Dot
import FrontEnd.Lr.Automaton

namespace FrontEnd.Lr

/-- A character inside a label. -/
def escapeChar (c : Char) : List Char :=
  if c = '\\' then ['\\', '\\'] else if c = '"' then ['\\', '"'] else [c]

/-- A text inside a label. -/
def escapeLabel (s : String) : String := String.ofList (s.toList.flatMap escapeChar)

/-- A label of several lines. -/
def labelText (lines : List String) : String := "\\n".intercalate (lines.map escapeLabel)

/-- The drawing of the automaton of a grammar. -/
def Automaton.toDot (a : Automaton) (g : Grammar) : String :=
  let nodes := a.states.map fun s =>
    let label := labelText (s.items.toList.map (Item.text g))
    s!"\t{s.id} [label=\"{label}\"];\n"
  let edges := a.states.flatMap fun s => s.transitions.map fun (x, target) =>
    Dot.edge s.id target (escapeLabel x) ++ "\n"
  Dot.graph "cfsm" ("\trankdir=LR;\n\n\tnode [shape=rectangle];\n" ++ String.join nodes ++ "\n"
    ++ String.join edges) ++ "\n"

end FrontEnd.Lr
