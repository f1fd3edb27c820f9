/-
# `Item` — productions with a dot

An item is a production together with a place in its body, the dot: the symbols before the dot
have been read, and the symbol behind it is read next.  Sets of items are ordered by
production and then by dot.

Closing a set adds, for every non-terminal that is read next, its productions with the dot in
front.  Going from a set over a symbol moves the dot over that symbol, in
every item that reads it, and closes the result.
-/
import FrontEnd.Discovery
import FrontEnd.Grammar.Basic

namespace FrontEnd

/-- A production, by its number, and how many symbols of its body have been read. -/
structure Item where
  production : Nat
  dot : Nat
  deriving DecidableEq, Repr

namespace Item

instance : Ord Item := ⟨compareLex (compareOn Item.production) (compareOn Item.dot)⟩

instance : Std.TransOrd Item :=
  inferInstanceAs (Std.TransCmp (compareLex (compareOn Item.production) (compareOn Item.dot)))

instance : Std.LawfulEqOrd Item where
  eq_of_compare {a b} h := by
    obtain ⟨p, d⟩ := a
    obtain ⟨q, e⟩ := b
    have h : (compare p q).then (compare d e) = .eq := h
    obtain ⟨hp, hd⟩ := Ordering.then_eq_eq.1 h
    rw [Nat.compare_eq_eq.1 hp, Nat.compare_eq_eq.1 hd]

/-- The symbol behind the dot. -/
def next (g : Grammar) (i : Item) : Option Symbol :=
  (g.production? i.production).bind (·.body[i.dot]?)

/-- Whether the whole body has been read. -/
def isReducible (g : Grammar) (i : Item) : Bool :=
  (g.production? i.production).any fun p => p.body.length ≤ i.dot

/-- The item with the dot one symbol further on. -/
def advance (i : Item) : Item := { i with dot := i.dot + 1 }

/-- The text `head -> a • b`; a dot beyond the body is written at the end. -/
def text (g : Grammar) (i : Item) : String :=
  match g.production? i.production with
  | none => s!"<unknown production {i.production}>"
  | some p =>
    p.head ++ " ->" ++
      String.join ((p.body.take i.dot ++ "•" :: p.body.drop i.dot).map (" " ++ ·))

/-- The items that must stand beside an item in a closed set: all productions of the symbol
behind the dot, with nothing read. -/
def predicted (g : Grammar) (i : Item) : List Item :=
  match i.next g with
  | none => []
  | some s => (g.productionsOf s).map fun p => ⟨p, 0⟩

end Item

/-- A set of items. -/
abbrev ItemSet := SortedSet Item

namespace ItemSet

/-- The least closed set with the given items.  Every member is one of them or has
its dot in front, which bounds the search. -/
def closure (g : Grammar) (kernel : List Item) : ItemSet :=
  .ofList <| Discovery.discover (Item.predicted g) (kernel.length + g.productions.length) kernel

/-- The closure of a set. -/
def close (g : Grammar) (s : ItemSet) : ItemSet := closure g s.toList

/-- The symbols read next by some item, each at its first place. -/
def nextSymbols (g : Grammar) (s : ItemSet) : List Symbol :=
  Discovery.fresh [] (s.toList.filterMap (Item.next g))

/-- The set behind `s` over the symbol `x`. -/
def goto (g : Grammar) (s : ItemSet) (x : Symbol) : ItemSet :=
  closure g ((s.toList.filter fun i => i.next g = some x).map Item.advance)

/-- The items whose body has been read. -/
def reducible (g : Grammar) (s : ItemSet) : List Item := s.toList.filter (Item.isReducible g)

end ItemSet

end FrontEnd
