/-
# `Language` — from a text to a syntax tree

A language is a lexicon, a parse table, and the terminal as which each kind of token is parsed.
Its three stages do not know of one another: the text becomes tokens, their terminals become a
trace, and the trace over the texts of the tokens becomes a tree.
-/
import FrontEnd.Lexer.Tokenizer
import FrontEnd.Tree.Replay

namespace FrontEnd

/-- Why there is no language, or no tree. -/
inductive Failure where
  | regex (e : ClassError)
  | grammar (e : GrammarError)
  | table (e : Conflict)
  | lex (e : LexError)
  | parse (e : ParseError)
  | tree (e : TreeError)
  deriving DecidableEq, Repr

/-- The text of the report: that of the stage that failed. -/
def Failure.message : Failure → String
  | regex e => e.cause.message
  | grammar e => e.message
  | table e => e.message
  | lex e => e.message
  | parse e => e.message
  | tree e => e.message

/-- A language whose tokens have kinds in `κ`. -/
structure Language (κ : Type) where
  lexicon : Lexicon κ
  table : Table
  /-- The terminal as which tokens of a kind are parsed. -/
  terminal : κ → Symbol

namespace Language

variable {κ : Type}

/-- The language of a lexicon and a grammar.  A draft that is no grammar is reported before a
conflict. -/
def assemble (lexicon : Lexicon κ) (d : Draft) (policy : Policy) (terminal : κ → Symbol) :
    Except Failure (Language κ) :=
  match d.build with
  | .error e => .error (.grammar e)
  | .ok g =>
    match Table.build policy g with
    | .error e => .error (.table e)
    | .ok table => .ok { lexicon, table, terminal }

/-- The tokens of a text. -/
def tokenize (l : Language κ) (text : String) : Except LexError (List (Token κ)) :=
  (Tokenizer.start l.lexicon text).collect.1

/-- The moves over the terminals of the tokens; nothing beyond `limit` moves. -/
def trace (l : Language κ) (limit : Nat) (tokens : List (Token κ)) :
    Option (Except ParseError Trace) :=
  l.table.parse limit (tokens.map fun t => l.terminal t.kind)

/-- The tree of a trace over the tokens. -/
def tree (l : Language κ) (tokens : List (Token κ)) (trace : Trace) : Except TreeError Node :=
  Node.ofTrace l.table.grammar (tokens.map (·.lexeme)) trace

/-- The tree of tokens; nothing if parsing takes more than `limit` moves. -/
def parseTokens (l : Language κ) (limit : Nat) (tokens : List (Token κ)) :
    Option (Except Failure Node) :=
  (l.trace limit tokens).map fun
    | .error e => .error (.parse e)
    | .ok trace => (l.tree tokens trace).mapError .tree

/-- The tree of a text; nothing if parsing takes more than `limit` moves. -/
def parse (l : Language κ) (limit : Nat) (text : String) : Option (Except Failure Node) :=
  match l.tokenize text with
  | .error e => some (.error (.lex e))
  | .ok tokens => l.parseTokens limit tokens

end Language

end FrontEnd
