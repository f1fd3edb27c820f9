/-
# `Parser` — shift and reduce, move by move

A configuration is a stack of states over an input that has been read up to some position.  The
table says what to do for the state on top and the next symbol, the lookahead; behind the input
there are only end markers.  A move shifts the lookahead, reduces the states of a
body to one state, accepts, or finds that there is no way on.

A parse is a run of moves, and its trace lists them.  A table whose conflicts have
been overwritten can make a parser go round in circles, so runs have a limit.
-/
import FrontEnd.Slr.Table

namespace FrontEnd

/-- A move of the parser. -/
inductive Move where
  | shift
  /-- By the production with this number. -/
  | reduce (production : Nat)
  | accept
  | error
  deriving DecidableEq, Repr

/-- The moves of a parser, in order. -/
abbrev Trace := List Move

/-- Whether the parser moves on. -/
inductive Status where
  | running
  | accepted
  | stuck
  deriving DecidableEq, Repr

/-- What the parser holds between two moves. -/
structure Configuration where
  input : List Symbol
  /-- The index of the lookahead. -/
  position : Nat
  /-- The states, the top one first. -/
  stack : List Nat
  status : Status
  deriving DecidableEq, Repr

namespace Configuration

/-- The configuration before the first move. -/
def start (input : List Symbol) : Configuration := ⟨input, 0, [0], .running⟩

/-- The next symbol of the input; the end marker behind its end. -/
def lookahead (c : Configuration) : Symbol := c.input[c.position]?.getD endMarker

/-- Whether the parser has accepted or got stuck. -/
def isDone (c : Configuration) : Bool := c.status ≠ .running

/-- There is no way on. -/
def halt (c : Configuration) : Move × Configuration := (.error, { c with status := .stuck })

end Configuration

/-- The parser got stuck. -/
structure ParseError where
  /-- The state on top of the stack. -/
  state : Nat
  /-- The index of the lookahead. -/
  position : Nat
  lookahead : Symbol
  /-- The terminals at which the state has an action. -/
  expected : List Symbol
  /-- The moves, up to the error. -/
  trace : Trace
  deriving DecidableEq, Repr

/-- The text of the report. -/
def ParseError.message (e : ParseError) : String :=
  s!"[ERROR] ({e.position}): unexpected `{e.lookahead}`, expected one of "
    ++ ", ".intercalate (e.expected.map fun s => "`" ++ s ++ "`")

namespace Table

/-- Takes the states of the body of a production off the stack and goes on from the state
below them over the head. -/
def reduce (t : Table) (c : Configuration) (p : Nat) : Move × Configuration :=
  match t.grammar.production? p with
  | none => c.halt
  | some production =>
    if c.stack.length ≤ production.body.length then c.halt
    else
      let below := c.stack.drop production.body.length
      match below.head?.bind (t.goto · production.head) with
      | some target => (.reduce p, { c with stack := target :: below })
      | none => { c with stack := below }.halt

/-- One move.  Non-terminals in the input lead nowhere, and neither does anything behind an
end marker that was given.  After the last move nothing changes any more. -/
def step (t : Table) (c : Configuration) : Move × Configuration :=
  match c.status with
  | .accepted => (.accept, c)
  | .stuck => (.error, c)
  | .running =>
    match c.stack with
    | [] => c.halt
    | state :: _ =>
      if t.grammar.isTerminal c.lookahead then
        match t.action state c.lookahead with
        | some (.shift target) =>
          (.shift, { c with stack := target :: c.stack, position := c.position + 1 })
        | some (.reduce p) => t.reduce c p
        | some .accept =>
          if c.position + 1 < c.input.length then { c with position := c.position + 1 }.halt
          else (.accept, { c with status := .accepted })
        | none => c.halt
      else c.halt

/-- The next `n` moves, each with the configuration behind it. -/
def moves (t : Table) : Nat → Configuration → List (Move × Configuration)
  | 0, _ => []
  | n + 1, c => t.step c :: t.moves n (t.step c).2

/-- The report of a parser that is stuck, with the moves still to be put in front. -/
def report (t : Table) (c : Configuration) : ParseError :=
  let state := c.stack.headD 0
  { state, position := c.position, lookahead := c.lookahead, expected := t.expected state,
    trace := [.error] }

/-- Moves until the parser is done and gives the trace; nothing if that takes more than
`limit` moves. -/
def run (t : Table) : Nat → Configuration → Option (Except ParseError Trace)
  | 0, _ => none
  | limit + 1, c =>
    match t.step c with
    | (.accept, _) => some (.ok [.accept])
    | (.error, d) => some (.error (t.report d))
    | (m, d) =>
      match t.run limit d with
      | none => none
      | some (.ok trace) => some (.ok (m :: trace))
      | some (.error e) => some (.error { e with trace := m :: e.trace })

/-- How many moves a parse may take. -/
def moveLimit : Nat := 10000

/-- Parses an input. -/
def parse (t : Table) (limit : Nat) (input : List Symbol) : Option (Except ParseError Trace) :=
  t.run limit (.start input)

end Table

end FrontEnd
