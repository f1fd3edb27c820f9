/-
# `Lr.Automaton` — the canonical collection of item sets

The states are the item sets that can be reached from the closure of the augmenting
item, numbered as a breadth-first search meets them; the symbols of a set are tried in the
order in which its items read them.
-/
import FrontEnd.Lr.Item

namespace FrontEnd.Lr

/-- A state: its number, its items, and where it goes, ascending by symbol. -/
structure State where
  id : Nat
  items : ItemSet
  transitions : List (Symbol × Nat)
  deriving DecidableEq

/-- The automaton of a grammar. -/
structure Automaton where
  states : List State
  deriving DecidableEq

/-- The item set in which parsing starts. -/
def initial (g : Grammar) : ItemSet := ItemSet.closure g [⟨g.augmenting, 0⟩]

/-- The item sets one symbol behind `s`. -/
def successors (g : Grammar) (s : ItemSet) : List ItemSet := (s.nextSymbols g).map (s.goto g)

/-- How many items there are: a dot stands in front of each symbol of a body or at its end. -/
def itemCount (g : Grammar) : Nat :=
  g.productions.length + (g.productions.flatMap (·.body)).length

/-- The item sets of the states, in order.  There are at most as many as there are sets
of items. -/
def collection (g : Grammar) : List ItemSet :=
  Discovery.discover (successors g) (Nat.pow 2 (itemCount g)) [initial g]

/-- The state with number `q` for the set `s`; the numbers of its targets are their places among
all sets. -/
def State.ofItems (g : Grammar) (sets : List ItemSet) (q : Nat) (s : ItemSet) : State where
  id := q
  items := s
  transitions := (SortedSet.ofList (s.nextSymbols g)).toList.map fun x =>
    (x, sets.idxOf (s.goto g x))

namespace Automaton

/-- The automaton of a grammar; its states are numbered in the order in which they are found. -/
def ofGrammar (g : Grammar) : Automaton :=
  let sets := collection g
  ⟨sets.zipIdx.map fun (s, q) => .ofItems g sets q s⟩

/-- How many states there are. -/
def size (a : Automaton) : Nat := a.states.length

/-- The state with number `q`. -/
def state? (a : Automaton) (q : Nat) : Option State := a.states[q]?

/-- Where state `q` goes on `x`. -/
def transition (a : Automaton) (q : Nat) (x : Symbol) : Option Nat :=
  (a.state? q).bind (·.transitions.lookup x)

/-- The number of the state with exactly these items. -/
def find (a : Automaton) (items : ItemSet) : Option Nat :=
  (a.states.find? fun s => s.items = items).map State.id

end Automaton

end FrontEnd.Lr
