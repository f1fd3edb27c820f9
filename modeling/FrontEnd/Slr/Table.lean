/-
# `Table` — what an SLR(1) parser does in each state

A cell of the table belongs to a state and a symbol.  The states and transitions of
the grammar's automaton claim cells: a transition claims its cell for a shift, and a
completed item claims the cells of everything that can follow the head of its
production for a reduction, or for acceptance at the end of the input.

Claims are written in a fixed order, all shifts first.  Two different actions for one cell
are a conflict, and the policy decides: refuse the grammar, or let the later one win.
-/
import FrontEnd.Grammar.Analysis
import FrontEnd.Lr.Automaton

namespace FrontEnd

/-- What to do in a state at a symbol. -/
inductive Action where
  /-- Go to this state; on a terminal, the symbol is taken from the input. -/
  | shift (state : Nat)
  /-- Replace the body of this production by its head. -/
  | reduce (production : Nat)
  | accept
  deriving DecidableEq, Repr

/-- The text of an action. -/
def Action.text : Action → String
  | shift state => s!"shift({state})"
  | reduce production => s!"reduce({production})"
  | accept => "accept"

/-- What to do about two actions for one cell. -/
inductive Policy where
  /-- The grammar is refused. -/
  | reject
  /-- The later action replaces the earlier one. -/
  | lastWins
  deriving DecidableEq, Repr

/-- Two actions for one cell: `incoming` came when `existing` was there. -/
structure Conflict where
  state : Nat
  symbol : Symbol
  existing : Action
  incoming : Action
  deriving DecidableEq, Repr

namespace Conflict

/-- The report when the grammar is refused. -/
def message (c : Conflict) : String :=
  s!"grammar is not SLR(1): state {c.state} on `{c.symbol}` has both "
    ++ c.existing.text ++ " and " ++ c.incoming.text

/-- The report when the earlier action is replaced. -/
def warning (c : Conflict) : String :=
  s!"conflict in state {c.state} on `{c.symbol}`: "
    ++ c.incoming.text ++ " replaces " ++ c.existing.text

end Conflict

/-- The cells of a state that are taken, ascending by symbol. -/
abbrev Row := List (Symbol × Action)

/-- Puts an action into a cell, in the place of what may be there. -/
def Row.put (x : Symbol) (a : Action) : Row → Row
  | [] => [(x, a)]
  | (y, b) :: row =>
    match compare x y with
    | .lt => (x, a) :: (y, b) :: row
    | .eq => (x, a) :: row
    | .gt => (y, b) :: Row.put x a row

/-- The parse table of a grammar. -/
structure Table where
  grammar : Grammar
  /-- The row of each state. -/
  rows : List Row
  /-- The conflicts in which the later action has won, in the order of writing. -/
  overwritten : List Conflict

/-- The wish of a state to have an action at a symbol. -/
structure Claim where
  state : Nat
  symbol : Symbol
  action : Action
  deriving DecidableEq, Repr

namespace Table

/-- How many states there are. -/
def size (t : Table) : Nat := t.rows.length

/-- The action of state `q` at `x`. -/
def action (t : Table) (q : Nat) (x : Symbol) : Option Action :=
  t.rows[q]?.bind (·.lookup x)

/-- The state entered from `q` when `x` has been recognised. -/
def goto (t : Table) (q : Nat) (x : Symbol) : Option Nat :=
  match t.action q x with
  | some (.shift target) => some target
  | _ => none

/-- The terminals at which state `q` has an action, ascending. -/
def expected (t : Table) (q : Nat) : List Symbol :=
  ((t.rows[q]?.getD []).map Prod.fst).filter t.grammar.isTerminal

/-! ## Filling the table -/

/-- The claims of the transitions, by state and symbol. -/
def shiftClaims (a : Lr.Automaton) : List Claim :=
  a.states.flatMap fun s => s.transitions.map fun (x, target) => ⟨s.id, x, .shift target⟩

/-- What a completed item of production `p` does at `x`: the start symbol at the end marker
is the end of the parse. -/
def completion (g : Grammar) (p : Nat) (head x : Symbol) : Action :=
  if head = g.start ∧ x = endMarker then .accept else .reduce p

/-- The claims of a completed item in state `q`. -/
def completionClaims (g : Grammar) (q : Nat) (i : Item) : List Claim :=
  match g.production? i.production with
  | none => []
  | some p => (g.follow p.head).toList.map fun x => ⟨q, x, completion g i.production p.head x⟩

/-- The claims of the completed items, by state, item and symbol. -/
def reduceClaims (g : Grammar) (a : Lr.Automaton) : List Claim :=
  a.states.flatMap fun s => (s.items.reducible g).flatMap (completionClaims g s.id)

/-- The table without any action. -/
def blank (g : Grammar) (a : Lr.Automaton) : Table := ⟨g, List.replicate a.size [], []⟩

/-- Puts the action of a claim into its cell. -/
def put (t : Table) (c : Claim) : Table :=
  { t with rows := t.rows.modify c.state (Row.put c.symbol c.action) }

/-- Writes a claim into the table.  An action that is there already is no conflict. -/
def write (policy : Policy) (t : Table) (c : Claim) : Except Conflict Table :=
  match t.action c.state c.symbol with
  | none => .ok (t.put c)
  | some existing =>
    if existing = c.action then .ok t
    else
      let conflict : Conflict := ⟨c.state, c.symbol, existing, c.action⟩
      match policy with
      | .reject => .error conflict
      | .lastWins => .ok { t.put c with overwritten := t.overwritten ++ [conflict] }

/-- The table of a grammar, or the first conflict. -/
def build (policy : Policy) (g : Grammar) : Except Conflict Table :=
  let a := Lr.Automaton.ofGrammar g
  (shiftClaims a ++ reduceClaims g a).foldlM (write policy) (blank g a)

end Table

end FrontEnd
