/-
# `Arithmetic.Writing` — expressions and the texts that write them

An expression is a tree with numbers and names at its leaves and operators above them.  `Written`
says which lexemes write it, and how strongly they hold together: a sum or a difference has
strength 0, a product or a quotient 1, and a number, a name and whatever is in parentheses 2.
An operator wants operands that hold together at least as strongly as itself on the left, and more
strongly on the right.  So parentheses may stand around everything, and they must where an
operand would be too weak.

Between the lexemes a text has blanks as it likes (`Spaced`).  It needs none: two numbers or
names are never neighbours in what is written, so none of them goes on into the next
(`Written.apart`), and the tokenizer finds the lexemes again (`Spaced.munch`).
-/
import FrontEnd.Proofs.Arithmetic.Lexicon
import FrontEnd.Tree.Node
import Mathlib.Data.List.Chain

namespace FrontEnd.Arithmetic

open Lexicon

/-! ## Expressions -/

/-- A numeral: a digit, and then digits. -/
abbrev Numeral := Word Char.isDigit Char.isDigit

/-- A name: a letter, and then letters and digits. -/
abbrev Name := Word Char.isAlpha Char.isAlphanum

/-- What an expression is made from. -/
inductive Atom where
  | number (n : Numeral)
  | name (x : Name)

namespace Atom

def kind : Atom → Kind
  | number _ => .number
  | name _ => .id

def chars : Atom → List Char
  | number n => n.chars
  | name x => x.chars

end Atom

/-- The operators, all of them between two operands. -/
inductive Operator where
  | plus
  | minus
  | times
  | divide
  deriving DecidableEq

namespace Operator

def kind : Operator → Kind
  | plus => .plus
  | minus => .minus
  | times => .star
  | divide => .slash

def symbol : Operator → String
  | plus => "+"
  | minus => "-"
  | times => "*"
  | divide => "/"

/-- Products and quotients hold together more strongly than sums and differences. -/
def strength : Operator → Nat
  | plus => 0
  | minus => 0
  | times => 1
  | divide => 1

end Operator

inductive Expr where
  | atom (a : Atom)
  | binary (o : Operator) (left right : Expr)

/-- The expression as a syntax tree: an operator over its operands, and the texts of the numbers
and names at the leaves. -/
def Expr.node : Expr → Node
  | atom a => .leaf (String.ofList a.chars)
  | binary o left right => .node o.symbol [left.node, right.node]

/-! ## Writing -/

/-- What stands in a text between blanks. -/
inductive Lexeme where
  | atom (a : Atom)
  | operator (o : Operator)
  | openParen
  | closeParen

namespace Lexeme

def kind : Lexeme → Kind
  | atom a => a.kind
  | operator o => o.kind
  | openParen => .openParen
  | closeParen => .closeParen

def text : Lexeme → String
  | atom a => String.ofList a.chars
  | operator o => o.symbol
  | openParen => "("
  | closeParen => ")"

def IsAtom : Lexeme → Prop
  | atom _ => True
  | _ => False

end Lexeme

/-- `Written k e xs`: the lexemes write the expression with strength `k`. -/
inductive Written : Nat → Expr → List Lexeme → Prop
  | atom (a : Atom) : Written 2 (.atom a) [.atom a]
  | binary {o : Operator} {i j : Nat} {left right : Expr} {xs ys : List Lexeme} :
      o.strength ≤ i → o.strength < j → Written i left xs → Written j right ys →
      Written o.strength (.binary o left right) (xs ++ .operator o :: ys)
  | parenthesized {k : Nat} {e : Expr} {xs : List Lexeme} : Written k e xs →
      Written 2 e (.openParen :: xs ++ [.closeParen])

/-- Nothing but spaces, tabs, newlines and returns. -/
def Blank (cs : List Char) : Prop := ∀ c ∈ cs, c.isWhitespace = true

instance (cs : List Char) : Decidable (Blank cs) :=
  decidable_of_iff (cs.all Char.isWhitespace = true) List.all_eq_true

/-- `Spaced xs cs`: the characters are the lexemes in turn, with any blanks before, between and
behind them. -/
inductive Spaced : List Lexeme → List Char → Prop
  | nil (gap : List Char) : Blank gap → Spaced [] gap
  | cons (gap : List Char) (x : Lexeme) {xs : List Lexeme} {cs : List Char} : Blank gap →
      Spaced xs cs → Spaced (x :: xs) (gap ++ (x.text.toList ++ cs))

/-- The text writes the expression. -/
def Writes (text : String) (e : Expr) : Prop :=
  ∃ k xs, Written k e xs ∧ Spaced xs text.toList

/-! ## Neighbours -/

/-- One of two neighbours is no number or name. -/
def Apart (x y : Lexeme) : Prop := ¬ (x.IsAtom ∧ y.IsAtom)

theorem apart_of_left {x : Lexeme} (h : ¬ x.IsAtom) (y : Lexeme) : Apart x y :=
  fun hboth => h hboth.1

theorem apart_of_right {y : Lexeme} (h : ¬ y.IsAtom) (x : Lexeme) : Apart x y :=
  fun hboth => h hboth.2

theorem isChain_apart {x : Lexeme} (hx : ¬ x.IsAtom) {xs ys : List Lexeme}
    (hxs : xs.IsChain Apart) (hys : ys.IsChain Apart) : (xs ++ x :: ys).IsChain Apart := by
  refine List.isChain_append.mpr ⟨hxs, ?_, ?_⟩
  · exact List.isChain_cons.mpr ⟨fun y _ => apart_of_left hx y, hys⟩
  · intro y _ z hz
    obtain rfl := Option.some.inj hz
    exact apart_of_right hx y

/-- In what is written, numbers and names are apart. -/
theorem Written.apart {k : Nat} {e : Expr} {xs : List Lexeme} (h : Written k e xs) :
    xs.IsChain Apart := by
  induction h with
  | atom a => exact .singleton _
  | @binary o _ _ _ _ _ _ _ _ _ _ ihl ihr => exact isChain_apart (x := .operator o) id ihl ihr
  | parenthesized _ ih =>
      have hclosed := isChain_apart (x := .closeParen) id ih .nil
      exact isChain_apart (x := .openParen) id .nil hclosed

/-! ## The lexemes as tokens -/

/-- The characters up to the first that is not in a class. -/
theorem length_takeWhile_append {Q : Char → Bool} {cs rest : List Char}
    (hcs : ∀ c ∈ cs, Q c = true) (hrest : ∀ c ∈ rest.head?, Q c = false) :
    ((cs ++ rest).takeWhile Q).length = cs.length := by
  rw [List.takeWhile_append_of_pos hcs]
  cases rest with
  | nil => simp
  | cons c rest => simp [hrest c rfl]

theorem isAlphanum_of_isWhitespace {c : Char} (h : c.isWhitespace = true) :
    c.isAlphanum = false := by
  rw [isWhitespace_iff] at h
  simp only [List.mem_cons, List.not_mem_nil, or_false] at h
  rcases h with rfl | rfl | rfl | rfl <;> decide

theorem front_number (n : Numeral) {rest : List Char}
    (hrest : ∀ c ∈ rest.head?, c.isDigit = false) :
    front (n.chars ++ rest) = some ⟨some .number, n.chars.length⟩ := by
  have halpha : ¬ n.first.isAlpha = true := by
    intro h
    exact Bool.false_ne_true ((isDigit_eq_false h).symm.trans n.first_mem)
  rw [Word.chars, List.cons_append, front, if_neg halpha, if_pos n.first_mem,
    length_takeWhile_append n.rest_mem hrest, List.length_cons]

theorem front_name (x : Name) {rest : List Char}
    (hrest : ∀ c ∈ rest.head?, c.isAlphanum = false) :
    front (x.chars ++ rest) = some ⟨some .id, x.chars.length⟩ := by
  rw [Word.chars, List.cons_append, front, if_pos x.first_mem,
    length_takeWhile_append x.rest_mem hrest, List.length_cons]

theorem front_blank {c : Char} {gap rest : List Char} (hgap : Blank (c :: gap))
    (hrest : ∀ d ∈ rest.head?, d.isWhitespace = false) :
    front (c :: gap ++ rest) = some ⟨none, (c :: gap).length⟩ := by
  obtain ⟨hc, hgap⟩ := List.forall_mem_cons.mp hgap
  obtain ⟨halpha, hdigit⟩ := Bool.or_eq_false_iff.mp (isAlphanum_of_isWhitespace hc)
  rw [List.cons_append, front, if_neg (Bool.eq_false_iff.mp halpha),
    if_neg (Bool.eq_false_iff.mp hdigit), if_pos hc, length_takeWhile_append hgap hrest,
    List.length_cons]

/-- A lexeme is read whole, a number or a name if no letter or digit follows. -/
theorem front_lexeme (x : Lexeme) {rest : List Char}
    (hrest : x.IsAtom → ∀ c ∈ rest.head?, c.isAlphanum = false) :
    front (x.text.toList ++ rest) = some ⟨some x.kind, x.text.toList.length⟩ := by
  cases x with
  | atom a =>
      have hstop : ∀ c ∈ rest.head?, c.isAlphanum = false := hrest trivial
      rw [Lexeme.text, String.toList_ofList]
      cases a with
      | number n => exact front_number n fun c hc => (Bool.or_eq_false_iff.mp (hstop c hc)).2
      | name x => exact front_name x hstop
  | operator o => cases o <;> rfl
  | openParen => rfl
  | closeParen => rfl

/-- The first character of a lexeme is no blank, and it is a letter or digit only for a number or
a name. -/
theorem Lexeme.exists_head (x : Lexeme) : ∃ c cs, x.text.toList = c :: cs ∧
    c.isWhitespace = false ∧ (¬ x.IsAtom → c.isAlphanum = false) := by
  have hword {c : Char} (h : c.isAlphanum = true) : c.isWhitespace = false := by
    by_contra hblank
    have hno := isAlphanum_of_isWhitespace (Bool.eq_true_of_not_eq_false hblank)
    exact Bool.false_ne_true (hno.symm.trans h)
  cases x with
  | atom a =>
      rw [text, String.toList_ofList]
      cases a with
      | number n =>
          have hfirst : n.first.isAlphanum = true := Bool.or_eq_true_iff.mpr (Or.inr n.first_mem)
          exact ⟨n.first, n.rest, rfl, hword hfirst, fun h => absurd trivial h⟩
      | name x =>
          have hfirst : x.first.isAlphanum = true := Bool.or_eq_true_iff.mpr (Or.inl x.first_mem)
          exact ⟨x.first, x.rest, rfl, hword hfirst, fun h => absurd trivial h⟩
  | operator o => cases o <;> exact ⟨_, [], rfl, rfl, fun _ => rfl⟩
  | openParen => exact ⟨_, [], rfl, rfl, fun _ => rfl⟩
  | closeParen => exact ⟨_, [], rfl, rfl, fun _ => rfl⟩

/-- A text goes on with a letter or digit only if the next lexeme is a number or a name. -/
theorem Spaced.head_not_alphanum {xs : List Lexeme} {cs : List Char} (h : Spaced xs cs)
    (hxs : ∀ x ∈ xs.head?, ¬ x.IsAtom) : ∀ c ∈ cs.head?, c.isAlphanum = false := by
  have hgap {gap rest : List Char} (hblank : Blank gap)
      (hrest : ∀ c ∈ rest.head?, c.isAlphanum = false) :
      ∀ c ∈ (gap ++ rest).head?, c.isAlphanum = false := by
    cases gap with
    | nil => exact hrest
    | cons d gap =>
        intro c hc
        obtain rfl := Option.some.inj hc
        exact isAlphanum_of_isWhitespace (hblank _ List.mem_cons_self)
  cases h with
  | nil _ hblank =>
      rw [← List.append_nil cs]
      exact hgap hblank (by simp)
  | cons gap x hblank _ =>
      refine hgap hblank ?_
      obtain ⟨c, rest, hx, -, hc⟩ := x.exists_head
      rw [hx]
      intro d hd
      obtain rfl := Option.some.inj hd
      exact hc (hxs x rfl)

/-! ### The scan -/

theorem advance_append (offset : Nat) (cs rest : List Char) :
    Cursor.advance ⟨offset, cs ++ rest⟩ cs.length = ⟨offset + Text.byteLength cs, rest⟩ := by
  simp [Cursor.advance]

/-- Blanks in front of something else are passed over. -/
theorem munch_blank {gap rest : List Char} (hgap : Blank gap)
    (hrest : ∀ c ∈ rest.head?, c.isWhitespace = false) {offset : Nat}
    {r : Except LexError (List (Token Kind))}
    (h : Munch classes ⟨offset + Text.byteLength gap, rest⟩ r) :
    Munch classes ⟨offset, gap ++ rest⟩ r := by
  cases gap with
  | nil => exact h
  | cons c gap =>
      refine .skip (wins_of_front (front_blank hgap hrest)) ?_
      rw [advance_append]
      exact h

/-- A lexeme becomes a token. -/
theorem munch_lexeme (x : Lexeme) {rest : List Char}
    (hrest : x.IsAtom → ∀ c ∈ rest.head?, c.isAlphanum = false) {offset : Nat}
    {tokens : List (Token Kind)}
    (h : Munch classes ⟨offset + Text.byteLength x.text.toList, rest⟩ (.ok tokens)) :
    ∃ token, token.kind = x.kind ∧ token.lexeme = x.text ∧
      Munch classes ⟨offset, x.text.toList ++ rest⟩ (.ok (token :: tokens)) := by
  refine ⟨tokenAt ⟨offset, x.text.toList ++ rest⟩ x.kind x.text.toList.length, rfl, ?_, ?_⟩
  · rw [tokenAt, List.take_left, String.ofList_toList]
  · refine Munch.token (r := .ok tokens) (wins_of_front (front_lexeme x hrest)) ?_
    rw [advance_append]
    exact h

/-- The tokens of a text are the lexemes between its blanks. -/
theorem Spaced.munch {xs : List Lexeme} {cs : List Char} (h : Spaced xs cs) :
    xs.IsChain Apart → ∀ offset, ∃ tokens, Munch classes ⟨offset, cs⟩ (.ok tokens) ∧
      tokens.map (fun t => (t.kind, t.lexeme)) = xs.map fun x => (x.kind, x.text) := by
  induction h with
  | nil gap hblank =>
      intro _ offset
      refine ⟨[], ?_, rfl⟩
      rw [← List.append_nil gap]
      exact munch_blank hblank (by simp) .done
  | @cons gap x xs cs hblank hcs ih =>
      intro hapart offset
      obtain ⟨hnext, hapart⟩ := List.isChain_cons.mp hapart
      obtain ⟨tokens, hmunch, htokens⟩ := ih hapart
        (offset + Text.byteLength gap + Text.byteLength x.text.toList)
      have hrest : x.IsAtom → ∀ c ∈ cs.head?, c.isAlphanum = false := by
        intro hx
        exact hcs.head_not_alphanum fun y hy hatom => hnext y hy ⟨hx, hatom⟩
      obtain ⟨token, hkind, hlexeme, hmunch⟩ := munch_lexeme x hrest hmunch
      refine ⟨token :: tokens, munch_blank hblank ?_ hmunch, ?_⟩
      · obtain ⟨c, rest, hx, hc, -⟩ := x.exists_head
        rw [hx]
        intro d hd
        obtain rfl := Option.some.inj hd
        exact hc
      · rw [List.map_cons, List.map_cons, hkind, hlexeme, htokens]

end FrontEnd.Arithmetic
