/-
# `Production` — rules of a grammar and the trees they make

A symbol is a name.  Nothing in the name says whether it is a terminal: a symbol is
a non-terminal of some rules exactly when one of them has it as head.

A production may say how the tree of its head is made from the trees of its body.
-/

namespace FrontEnd

/-- The name of a terminal or non-terminal. -/
abbrev Symbol := String

/-- The terminal behind every input. -/
def endMarker : Symbol := "$"

/-- How the tree for the head of a production is made from the trees for its body. -/
inductive Definition where
  /-- It is the tree of the body symbol at this index. -/
  | copy (index : Nat)
  /-- It is a new node over the trees of the body symbols at these indices, in this order. -/
  | tree (label : String) (children : List Nat)
  deriving DecidableEq, Repr

/-- The body indices that a definition reads, in the order of reading. -/
def Definition.indices : Definition → List Nat
  | copy index => [index]
  | tree _ children => children

/-- The rule `head -> body`, with a definition if one is given. -/
structure Production where
  head : Symbol
  body : List Symbol
  definition : Option Definition := none
  deriving DecidableEq, Repr

namespace Production

/-- The definition in force.  Without a given one, a body of one symbol passes its tree
on, and any other body becomes a node over all its trees, labelled with the head. -/
def effective (p : Production) : Definition :=
  match p.definition with
  | some d => d
  | none =>
    if p.body.length = 1 then .copy 0 else .tree p.head (List.range p.body.length)

/-- The text `head -> a b c`; the letter `ε` stands for an empty body. -/
def text (p : Production) : String :=
  p.head ++ " ->" ++
    if p.body.isEmpty then " ε" else String.join (p.body.map (" " ++ ·))

/-- The first index that the definition reads beyond the body. -/
def beyond (p : Production) : Option Nat :=
  p.definition.bind fun d => d.indices.find? fun i => p.body.length ≤ i

end Production

/-! ## Lists of productions -/

/-- The rules of a grammar; the number of a production is its place. -/
abbrev Productions := List Production

namespace Productions

/-- Whether a symbol heads one of the productions. -/
def isHead (ps : Productions) (s : Symbol) : Bool := ps.any fun p => p.head = s

/-- The productions with head `s`, each with its number. -/
def numbered (ps : Productions) (s : Symbol) : List (Production × Nat) :=
  ps.zipIdx.filter fun (p, _) => p.head = s

/-- Whether a body is one non-terminal. -/
def isSingle (ps : Productions) : List Symbol → Bool
  | [s] => isHead ps s
  | _ => false

/-- The first production whose definition reads beyond its body, and what it reads. -/
def misdefined (ps : Productions) : Option (Production × Nat) :=
  ps.findSome? fun p => p.beyond.map (p, ·)

theorem misdefined_eq_none {ps : Productions} :
    misdefined ps = none ↔ ∀ p ∈ ps, p.beyond = none := by
  simp [misdefined, List.findSome?_eq_none_iff]

end Productions

end FrontEnd
