/-
# `Nfa` — nondeterministic automata with one start and one final state

States are numbered from 0; an automaton is the list of their outgoing edges.
The constructions put automata one behind the other: a state of an automaton moved
behind `k` others has its number raised by `k`.  New edges are ε-edges.

An automaton can be in a set of states.  Such a set is followed along ε-edges
(`closure`) and along a character (`move`).
-/
import FrontEnd.Discovery
import FrontEnd.Regex.Basic
import FrontEnd.SortedSet

namespace FrontEnd

/-- What an edge reads. -/
inductive Label where
  /-- Nothing. -/
  | epsilon
  /-- Exactly this character. -/
  | char (c : Char)
  deriving DecidableEq, Repr

/-- The edges that leave a state, by label and then by target. -/
abbrev Edges := List (Label × Nat)

/-- An automaton over characters; state `i` has the edges `states[i]`. -/
structure Nfa where
  start : Nat
  final : Nat
  states : Array Edges
  deriving DecidableEq, Repr

namespace Nfa

/-- How many states there are. -/
def size (n : Nfa) : Nat := n.states.size

/-! ## Constructions -/

/-- Edges to the given targets that read nothing. -/
def epsilons (targets : List Nat) : Edges := targets.map fun t => (.epsilon, t)

/-- The states of an automaton, moved behind `k` others. -/
def shifted (n : Nfa) (k : Nat) : List Edges :=
  n.states.toList.map fun edges => edges.map fun (label, target) => (label, target + k)

/-- The states with further ε-edges from `source`. -/
def link (states : List Edges) (source : Nat) (targets : List Nat) : List Edges :=
  states.modify source (· ++ epsilons targets)

/-- Accepts the one word `c`. -/
def symbol (c : Char) : Nfa :=
  ⟨0, 1, #[[(.char c, 1)], []]⟩

/-- Accepts the words of `a` and the words of `b`: a new start state leads into both,
and both lead to a new final state. -/
def union (a b : Nfa) : Nfa :=
  let last := 1 + a.size + b.size
  let states := [epsilons [a.start + 1, b.start + (1 + a.size)]]
    ++ a.shifted 1 ++ b.shifted (1 + a.size) ++ [[]]
  ⟨0, last, (link (link states (a.final + 1) [last]) (b.final + (1 + a.size)) [last]).toArray⟩

/-- Accepts a word of `a` followed by a word of `b`. -/
def concat (a b : Nfa) : Nfa :=
  let states := a.shifted 0 ++ b.shifted a.size
  ⟨a.start, b.final + a.size, (link states a.final [b.start + a.size]).toArray⟩

/-- Accepts any number of words of `a`: a new start state leads into `a` or past it,
and the final state of `a` leads back or out. -/
def star (a : Nfa) : Nfa :=
  let last := 1 + a.size
  let states := [epsilons [a.start + 1, last]] ++ a.shifted 1 ++ [[]]
  ⟨0, last, (link states (a.final + 1) [a.start + 1, last]).toArray⟩

/-- The automaton of a regular expression, built operator by operator. -/
def ofRegex : Regex → Nfa
  | .symbol c => symbol c
  | .union l r => (ofRegex l).union (ofRegex r)
  | .concat l r => (ofRegex l).concat (ofRegex r)
  | .star e => (ofRegex e).star

/-! ## Following edges -/

/-- The edges of a state; a state that does not exist has none. -/
def edges (n : Nfa) (s : Nat) : Edges := n.states[s]?.getD []

/-- The targets of the edges of `s` that carry `label`. -/
def targets (n : Nfa) (s : Nat) (label : Label) : List Nat :=
  (n.edges s).filterMap fun (l, t) => if l = label then some t else none

/-- A set of states an automaton can be in. -/
abbrev StateSet := SortedSet Nat

/-- The states reachable from the given ones by ε-edges alone.  Each is met once, and
it is one of the given states or a state of the automaton, which bounds the search. -/
def closure (n : Nfa) (states : List Nat) : StateSet :=
  .ofList (Discovery.discover (n.targets · .epsilon) (states.length + n.size) states)

/-- The states reachable from a member of `s` by one edge that reads `c` and then by
ε-edges. -/
def move (n : Nfa) (s : StateSet) (c : Char) : StateSet :=
  n.closure (s.toList.flatMap (n.targets · (.char c)))

/-- The characters that an edge out of `s` reads. -/
def leaving (n : Nfa) (s : StateSet) : SortedSet Char :=
  .ofList <| s.toList.flatMap fun q => (n.edges q).filterMap fun
    | (.char c, _) => some c
    | (.epsilon, _) => none

/-- The states the automaton is in before it has read anything. -/
def initial (n : Nfa) : StateSet := n.closure [n.start]

end Nfa

end FrontEnd
