/-
# `Automaton.Dot` — automata drawn as graphs

The text of a directed graph: final states as double circles, the start state as a
circle, one line per edge.
-/
import FrontEnd.Automaton.Dfa
import FrontEnd.Dot
import FrontEnd.Text.Escape

namespace FrontEnd

/-- The text of a label; the letter `ε` stands for reading nothing. -/
def Label.text : Label → String
  | epsilon => "ε"
  | char c => Text.ascii c

/-- The graph of an automaton; `note` is the comment over the final states. -/
def Dot.automaton (name note finals start : String) (edges : List String) : String :=
  Dot.graph name <| "\trankdir = LR;\n\n\t// " ++ note
    ++ "\n\tnode [shape = doublecircle]; " ++ finals
    ++ ";\n\tnode [shape = circle]; " ++ start
    ++ ";\n\n" ++ "\n".intercalate edges ++ "\n"

/-- The drawing of a nondeterministic automaton. -/
def Nfa.toDot (n : Nfa) : String :=
  Dot.automaton "nfa" "final state" (toString n.final) (toString n.start)
    ((List.range n.size).flatMap fun s =>
      (n.edges s).map fun (label, target) => Dot.edge s target label.text)

/-- The drawing of a deterministic automaton. -/
def Dfa.toDot (d : Dfa) : String :=
  Dot.automaton "dfa" "final states" (" ".intercalate (d.finals.map toString)) (toString d.start)
    (d.states.toList.zipIdx.flatMap fun (state, s) =>
      state.transitions.map fun (c, target) => Dot.edge s target (Text.ascii c))

end FrontEnd
