/-
# `Grammar.Analysis` — nullable symbols, FIRST and FOLLOW

A symbol is nullable when it derives the empty string; that is found in rounds, each of
which adds the heads of the productions whose bodies are known to be nullable.

FIRST and FOLLOW are questions of reachability.  From a non-terminal one can step
to every symbol that can stand first in one of its bodies; the terminals
that can be reached are FIRST.  From a non-terminal that can end a body one can step to
the head; FOLLOW is what can stand directly behind one of the symbols reached.
-/
import FrontEnd.Discovery
import FrontEnd.Grammar.Basic

namespace FrontEnd.Grammar

/-! ## Nullable symbols -/

/-- The heads found to derive the empty string after so many rounds. -/
def nullableAfter (ps : Productions) : Nat → List Symbol
  | 0 => []
  | rounds + 1 =>
    let known := nullableAfter ps rounds
    (ps.filter fun p => p.body.all (· ∈ known)).map (·.head)

/-- The symbols of a sequence that can stand first in it: those up to the first one that is not
nullable, that one included. -/
def leading (nullable : List Symbol) : List Symbol → List Symbol
  | [] => []
  | s :: rest => if s ∈ nullable then s :: leading nullable rest else [s]

/-- What stands behind each occurrence of `s` in a body. -/
def behind (s : Symbol) : List Symbol → List (List Symbol)
  | [] => []
  | x :: rest => if x = s then rest :: behind s rest else behind s rest

/-- The symbols that derive the empty string.  A round that finds nothing new is the last
one to matter, so as many rounds as productions are enough. -/
def nullable (g : Grammar) : List Symbol := nullableAfter g.productions g.productions.length

/-- Whether a symbol derives the empty string. -/
def isNullable (g : Grammar) (s : Symbol) : Bool := s ∈ g.nullable

/-! ## FIRST -/

/-- The symbols that can stand first in a body of `s`. -/
def firstSteps (g : Grammar) (nullable : List Symbol) (s : Symbol) : List Symbol :=
  g.productions.flatMap fun p => if p.head = s then leading nullable p.body else []

/-- The terminals that can stand first in what a sequence derives, given the nullable
symbols. -/
def firstWith (g : Grammar) (nullable : List Symbol) (sequence : List Symbol) :
    SortedSet Symbol :=
  let bound := sequence.length + (g.productions.flatMap (·.body)).length
  .ofList <| (Discovery.discover (g.firstSteps nullable) bound (leading nullable sequence)).filter
    g.isTerminal

/-- The FIRST set of a sequence, and whether all its symbols are nullable. -/
def firstOf (g : Grammar) (sequence : List Symbol) : SortedSet Symbol × Bool :=
  let nullable := g.nullable
  (g.firstWith nullable sequence, sequence.all (· ∈ nullable))

/-- The FIRST set of a symbol: for a non-terminal that of its bodies, while a terminal has
itself. -/
def first (g : Grammar) (s : Symbol) : SortedSet Symbol :=
  if g.isTerminal s then .ofList [s]
  else
    let nullable := g.nullable
    .ofList <| g.productions.flatMap fun p =>
      if p.head = s then (g.firstWith nullable p.body).toList else []

/-! ## FOLLOW -/

/-- The heads of the productions in whose bodies only nullable symbols stand behind an
occurrence of `s`. -/
def followSteps (g : Grammar) (nullable : List Symbol) (s : Symbol) : List Symbol :=
  g.productions.flatMap fun p =>
    (behind s p.body).filterMap fun rest => if rest.all (· ∈ nullable) then some p.head else none

/-- What stands directly behind `s` in some body, and the end marker behind the start
symbol. -/
def followHere (g : Grammar) (nullable : List Symbol) (s : Symbol) : List Symbol :=
  (g.productions.flatMap fun p =>
    (behind s p.body).flatMap fun rest => (g.firstWith nullable rest).toList) ++
  if s = g.start then [endMarker] else []

/-- The FOLLOW set of a non-terminal; a terminal has none. -/
def follow (g : Grammar) (s : Symbol) : SortedSet Symbol :=
  if g.isTerminal s then ∅
  else
    let nullable := g.nullable
    .ofList <| (Discovery.discover (g.followSteps nullable) (g.productions.length + 1) [s]).flatMap
      (g.followHere nullable)

end FrontEnd.Grammar
