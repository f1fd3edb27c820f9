/-
# `Dfa` — deterministic automata and the subset construction

A state of the deterministic automaton stands for a non-empty set of states
that the nondeterministic one can be in.  The sets are listed as a breadth-first
search meets them, starting with the ε-closure of the start state and trying
characters in ascending order; a state's number is the place of its set in that list.

A transition that is missing leads nowhere: the run is dead.
-/
import FrontEnd.Automaton.Nfa

namespace FrontEnd

/-- Whether a state accepts, and where its transitions lead, ascending by character. -/
structure DfaState where
  final : Bool
  transitions : List (Char × Nat)
  deriving DecidableEq, Repr

/-- A deterministic automaton; the states are numbered from 0. -/
structure Dfa where
  start : Nat
  states : Array DfaState
  deriving DecidableEq, Repr

namespace Dfa

/-- How many states there are, the dead one not counted. -/
def size (d : Dfa) : Nat := d.states.size

/-- Whether a state accepts. -/
def isFinal (d : Dfa) (s : Nat) : Bool :=
  match d.states[s]? with
  | some state => state.final
  | none => false

/-- Where a state goes on `c`. -/
def step (d : Dfa) (s : Nat) (c : Char) : Option Nat :=
  d.states[s]?.bind (·.transitions.lookup c)

/-- The accepting states, ascending. -/
def finals (d : Dfa) : List Nat := (List.range d.size).filter d.isFinal

end Dfa

namespace Nfa

/-- The non-empty sets that lie one character behind `s`, ascending by character. -/
def successors (n : Nfa) (s : StateSet) : List (Char × StateSet) :=
  (n.leaving s).toList.filterMap fun c =>
    let target := n.move s c
    if target.isEmpty then none else some (c, target)

/-- The sets that the automaton can be in after some word, in the order in which they are
met, each with the sets one character behind it.  There are at most as many as there
are sets of states. -/
def subsets (n : Nfa) : List (StateSet × List (Char × StateSet)) :=
  Discovery.survey n.successors (Nat.pow 2 n.size) [n.initial] [n.initial]

/-- The deterministic automaton whose states are the sets of `subsets`. -/
def toDfa (n : Nfa) : Dfa :=
  let subsets := n.subsets
  let order := subsets.map Prod.fst
  ⟨0, (subsets.map fun (s, out) =>
    { final := decide (n.final ∈ s)
      transitions := out.map fun (c, target) => (c, order.idxOf target) }).toArray⟩

end Nfa

end FrontEnd
