/-
# `Tree.Replay` — from a trace to a syntax tree

The moves of a parser are replayed over the texts of the tokens, with a stack of trees.  A shift
makes a leaf of the next text; a reduction takes the trees of a body and puts there what the
definition of the production makes of them; at acceptance the one tree on the stack is the
result.
-/
import FrontEnd.Slr.Parser
import FrontEnd.Tree.Node

namespace FrontEnd

/-- Why a trace makes no tree. -/
inductive TreeError where
  /-- The trace ends before it accepts. -/
  | incompleteTrace
  /-- The move at `index` is an error. -/
  | parseFailed (index : Nat)
  /-- The move at `index` shifts, and no text is left. -/
  | tokenUnderflow (index : Nat)
  /-- The body needs more trees than there are. -/
  | stackUnderflow (production needed available : Nat)
  | unknownProduction (production : Nat)
  /-- The definition reads the tree at `index` a second time, or there is none. -/
  | invalidDefinition (production index : Nat)
  /-- The trace accepts, and there is not exactly one tree. -/
  | unfinishedStack (nodes : Nat)
  deriving DecidableEq, Repr

/-- The text of the report. -/
def TreeError.message : TreeError → String
  | incompleteTrace => "trace ends without accepting"
  | parseFailed index => s!"trace records a parse error at action {index}"
  | tokenUnderflow index => s!"shift at action {index} has no lexeme left"
  | stackUnderflow production needed available =>
    s!"reduction by production {production} pops {needed} nodes, but the stack holds {available}"
  | unknownProduction production => s!"trace reduces by unknown production {production}"
  | invalidDefinition production index =>
    s!"definition of production {production} reads body node {index} more than once or out of range"
  | unfinishedStack nodes => s!"accepted with {nodes} nodes on the stack instead of one"

namespace Node

/-- The trees at the given indices, for a definition that has read `used` before. -/
def select (production : Nat) (body : List Node) (used : List Nat) :
    List Nat → Except TreeError (List Node)
  | [] => .ok []
  | index :: rest =>
    match body[index]? with
    | none => .error (.invalidDefinition production index)
    | some tree =>
      if index ∈ used then .error (.invalidDefinition production index)
      else (select production body (index :: used) rest).map (tree :: ·)

/-- What a definition makes of the trees of a body. -/
def define (production : Nat) (body : List Node) : Definition → Except TreeError Node
  | .copy index =>
    match body[index]? with
    | none => .error (.invalidDefinition production index)
    | some tree => .ok tree
  | .tree label children => (select production body [] children).map (node label)

/-- The stack after a reduction by the production with number `p`; the top is first. -/
def reduce (g : Grammar) (p : Nat) (stack : List Node) : Except TreeError (List Node) :=
  match g.production? p with
  | none => .error (.unknownProduction p)
  | some production =>
    let needed := production.body.length
    if stack.length < needed then .error (.stackUnderflow p needed stack.length)
    else
      (define p (stack.take needed).reverse production.effective).map (· :: stack.drop needed)

/-- Replays the moves from the one at `index` on. -/
def replay (g : Grammar) (index : Nat) (lexemes : List String) (stack : List Node) :
    Trace → Except TreeError Node
  | [] => .error .incompleteTrace
  | .shift :: trace =>
    match lexemes with
    | [] => .error (.tokenUnderflow index)
    | lexeme :: rest => replay g (index + 1) rest (leaf lexeme :: stack) trace
  | .reduce p :: trace =>
    match reduce g p stack with
    | .error e => .error e
    | .ok stack => replay g (index + 1) lexemes stack trace
  | .accept :: _ =>
    match stack with
    | [root] => .ok root
    | _ => .error (.unfinishedStack stack.length)
  | .error :: _ => .error (.parseFailed index)

/-- The tree of a trace over the texts of the tokens. -/
def ofTrace (g : Grammar) (lexemes : List String) (trace : Trace) : Except TreeError Node :=
  replay g 0 lexemes [] trace

end Node

end FrontEnd
