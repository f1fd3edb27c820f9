/-
# `Grammar` — context-free grammars with an augmenting production

A grammar has a start symbol with exactly one production, which derives a single
non-terminal; that production is the augmenting one.  The definitions of a grammar read
only symbols that are there.  Both are part of the type.

`Draft` is a grammar under construction: it can be anything, and `Draft.build`
either makes a grammar of it or says what is wrong.
-/
import FrontEnd.Grammar.Production
import FrontEnd.SortedSet

namespace FrontEnd

/-- What makes productions a grammar with this start symbol and augmenting production. -/
structure Grammar.WellFormed (start : Symbol) (augmenting : Nat) (ps : Productions) : Prop where
  /-- The augmenting production is the only one of the start symbol. -/
  only : ∃ p, Productions.numbered ps start = [(p, augmenting)] ∧
    Productions.isSingle ps p.body = true
  /-- Definitions stay inside the body. -/
  inside : ∀ p ∈ ps, p.beyond = none

/-- A context-free grammar. -/
structure Grammar where
  start : Symbol
  /-- The number of the production of the start symbol. -/
  augmenting : Nat
  productions : Productions
  wellFormed : Grammar.WellFormed start augmenting productions

/-- Why a draft is no grammar. -/
inductive GrammarError where
  | missingStartSymbol
  /-- The start symbol has `found` productions instead of one. -/
  | startProductions (start : Symbol) (found : Nat)
  /-- The production of the start symbol does not derive a single non-terminal. -/
  | notAugmenting (production : Production)
  /-- The definition of a production reads `index`, which is beyond its body. -/
  | invalidDefinition (production : Production) (index : Nat)
  deriving DecidableEq, Repr

/-- The text of the report. -/
def GrammarError.message : GrammarError → String
  | missingStartSymbol => "start symbol not set"
  | startProductions start found =>
    s!"start symbol {start} needs exactly one production, found {found}"
  | notAugmenting p =>
    "production `" ++ p.text ++ "` for the start symbol must derive a single non-terminal"
  | invalidDefinition p index =>
    "definition of production `" ++ p.text ++ s!"` reads body index {index}, but the body has "
      ++ toString p.body.length ++ " symbols"

/-- A grammar under construction. -/
structure Draft where
  start : Option Symbol := none
  productions : Productions := []
  deriving DecidableEq, Repr

namespace Draft

/-- Adds a production behind the others. -/
def add (d : Draft) (p : Production) : Draft := { d with productions := d.productions ++ [p] }

/-- Adds a production for every body. -/
def addAll (d : Draft) (head : Symbol) (bodies : List (List Symbol)) : Draft :=
  bodies.foldl (fun d body => d.add { head, body }) d

/-- Makes `s` the start symbol. -/
def startWith (d : Draft) (s : Symbol) : Draft := { d with start := some s }

/-- Adds the production `s' -> s` and makes `s'` the start symbol. -/
def augment (d : Draft) (s : Symbol) : Draft :=
  (d.startWith (s ++ "'")).add { head := s ++ "'", body := [s] }

/-- The grammar of a draft.  A missing start symbol is reported first, then a wrong number of
start productions, then a start production of the wrong form, then definitions. -/
def build (d : Draft) : Except GrammarError Grammar :=
  match d.start with
  | none => .error .missingStartSymbol
  | some start =>
    match only : Productions.numbered d.productions start with
    | [(p, augmenting)] =>
      if single : Productions.isSingle d.productions p.body = true then
        match inside : Productions.misdefined d.productions with
        | some (q, index) => .error (.invalidDefinition q index)
        | none => .ok ⟨start, augmenting, d.productions,
            ⟨⟨p, only, single⟩, Productions.misdefined_eq_none.1 inside⟩⟩
      else .error (.notAugmenting p)
    | found => .error (.startProductions start found.length)

end Draft

namespace Grammar

/-- The production with number `i`. -/
def production? (g : Grammar) (i : Nat) : Option Production := g.productions[i]?

/-- The numbers of the productions of a symbol, ascending. -/
def productionsOf (g : Grammar) (s : Symbol) : List Nat :=
  (Productions.numbered g.productions s).map Prod.snd

/-- Whether a symbol heads no production. -/
def isTerminal (g : Grammar) (s : Symbol) : Bool := !Productions.isHead g.productions s

/-- The symbols that head a production. -/
def nonterminals (g : Grammar) : SortedSet Symbol := .ofList (g.productions.map (·.head))

/-- The terminals that occur in bodies. -/
def terminals (g : Grammar) : SortedSet Symbol :=
  .ofList ((g.productions.flatMap (·.body)).filter g.isTerminal)

/-- One line per production: its number, three wide, and its text. -/
def text (g : Grammar) : String :=
  String.join <| g.productions.zipIdx.map fun (p, i) =>
    let digits := toString i
    String.ofList (List.replicate (3 - digits.length) ' ') ++ digits ++ ": " ++ p.text ++ "\n"

end Grammar

end FrontEnd
