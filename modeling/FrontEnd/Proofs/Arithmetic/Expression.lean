/-
# `Arithmetic.Expression` — every expression is read back from every text that writes it

Both grammars have one symbol for each strength.  An operator has its own symbol on the left and
the next stronger one on the right, and a tree of a stronger symbol is passed on to the weaker
ones.  These are the rules of `Written`, so whatever is written has a derivation tree, and the value
of that tree is the expression (`Written.derived`): the definitions of the operators make the
nodes, that of the parentheses copies, and so do all others.

The lexemes of a text are its tokens, and a derivation tree that covers the tokens is all that a
language asks for (`Language.parseTokens_iff`).  What is left is that the tables of the two grammars
have no conflicts, which is a matter of computing them.
-/
import FrontEnd.Proofs.Arithmetic.Writing
import FrontEnd.Proofs.Language

namespace FrontEnd

open FrontEnd.Derivation

/-! ## Derivations with their values -/

/-- The symbol derives the tokens, by a tree with the value `v`. -/
def Grammar.Derived (g : Grammar) (x : Symbol) (tokens : List (Symbol × String)) (v : Node) :
    Prop :=
  ∃ d, From g x d ∧ d.tokens = tokens ∧ d.value g = v

namespace Grammar.Derived

variable {g : Grammar} {x : Symbol} {ts us : List (Symbol × String)} {v w : Node}

theorem leaf (hx : g.isTerminal x = true) (text : String) : g.Derived x [(x, text)] (.leaf text) :=
  ⟨.leaf x text, .leaf hx, rfl, rfl⟩

theorem node {p : Production} (hp : p ∈ g.productions) {ds : List Derivation}
    (h : FromAll g p.body ds) :
    g.Derived p.head (tokensAll ds) (p.effective.apply (valueAll g ds)) := by
  obtain ⟨i, hi⟩ := List.getElem?_of_mem hp
  exact ⟨.node i ds, .node hi h, rfl, value_node hi ds⟩

/-- A body of one symbol passes its tree on. -/
theorem single {head : Symbol} (hp : ⟨head, [x], none⟩ ∈ g.productions) (h : g.Derived x ts v) :
    g.Derived head ts v := by
  obtain ⟨d, hd, rfl, rfl⟩ := h
  have hnode := node hp (.cons hd .nil)
  rw [tokensAll, tokensAll, List.append_nil] at hnode
  exact hnode

theorem binary {head operator operand : Symbol}
    (hp : Arithmetic.binary head operator operand ∈ g.productions)
    (hoperator : g.isTerminal operator = true) (text : String) (hv : g.Derived head ts v)
    (hw : g.Derived operand us w) :
    g.Derived head (ts ++ (operator, text) :: us) (.node operator [v, w]) := by
  obtain ⟨d, hd, rfl, rfl⟩ := hv
  obtain ⟨d', hd', rfl, rfl⟩ := hw
  have hleaf : From g operator (.leaf operator text) := .leaf hoperator
  have hnode := node hp (.cons hd (.cons hleaf (.cons hd' .nil)))
  simp only [tokensAll, tokens, List.append_nil, List.singleton_append] at hnode
  exact hnode

theorem parenthesized (hp : Arithmetic.parenthesized ∈ g.productions)
    (hopen : g.isTerminal "(" = true) (hclose : g.isTerminal ")" = true)
    (h : g.Derived "expr" ts v) :
    g.Derived "factor" (("(", "(") :: ts ++ [(")", ")")]) v := by
  obtain ⟨d, hd, rfl, rfl⟩ := h
  have hfirst : From g "(" (.leaf "(" "(") := .leaf hopen
  have hlast : From g ")" (.leaf ")" ")") := .leaf hclose
  have hnode := node hp (.cons hfirst (.cons hd (.cons hlast .nil)))
  simp only [tokensAll, tokens, List.append_nil, List.singleton_append] at hnode
  exact hnode

end Grammar.Derived

namespace Arithmetic

/-! ## Grammars with a symbol for each strength -/

/-- The symbol for what holds together with this strength. -/
def level : Nat → Symbol
  | 0 => "expr"
  | 1 => "term"
  | _ => "factor"

/-- The production of an operator. -/
def Operator.production (o : Operator) : Production :=
  binary (level o.strength) o.symbol (level (o.strength + 1))

/-- The expression is made of atoms of these kinds and of these operators. -/
def Expr.Over (kinds : List Kind) (operators : List Operator) : Expr → Prop
  | atom a => a.kind ∈ kinds
  | binary o left right => o ∈ operators ∧ left.Over kinds operators ∧ right.Over kinds operators

/-- The grammar has the productions for expressions over these kinds and operators. -/
structure Levelled (kinds : List Kind) (operators : List Operator) (g : Grammar) : Prop where
  root_eq : g.root = level 0
  passing : ⟨level 0, [level 1], none⟩ ∈ g.productions ∧ ⟨level 1, [level 2], none⟩ ∈ g.productions
  atom : ∀ kind ∈ kinds, ⟨level 2, [kind.terminal], none⟩ ∈ g.productions ∧
    g.isTerminal kind.terminal = true
  operator : ∀ o ∈ operators, o.production ∈ g.productions ∧ g.isTerminal o.symbol = true
  parenthesized : parenthesized ∈ g.productions ∧ g.isTerminal "(" = true ∧
    g.isTerminal ")" = true

/-- A lexeme as the leaf of a derivation tree. -/
def Lexeme.leaf (x : Lexeme) : Symbol × String := (x.kind.terminal, x.text)

variable {kinds : List Kind} {operators : List Operator} {g : Grammar}

/-- What holds together strongly can stand where less is asked for. -/
theorem Levelled.weaken (hg : Levelled kinds operators g) {ts : List (Symbol × String)} {v : Node}
    {j k : Nat} (hjk : j ≤ k) (h : g.Derived (level k) ts v) : g.Derived (level j) ts v := by
  induction hjk with
  | refl => exact h
  | @step k _ ih =>
      refine ih ?_
      match k with
      | 0 => exact .single hg.passing.1 h
      | 1 => exact .single hg.passing.2 h
      | k + 2 => exact h

/-- What is written is derived, with the expression as the value. -/
theorem Written.derived (hg : Levelled kinds operators g) {k : Nat} {e : Expr}
    {xs : List Lexeme} (h : Written k e xs) :
    e.Over kinds operators → g.Derived (level k) (xs.map Lexeme.leaf) e.node := by
  induction h with
  | atom a =>
      intro ha
      obtain ⟨hp, hterminal⟩ := hg.atom a.kind ha
      exact .single hp (.leaf hterminal _)
  | @binary o i j left right xs ys hi hj _ _ ihl ihr =>
      rintro ⟨ho, hleft, hright⟩
      obtain ⟨hp, hterminal⟩ := hg.operator o ho
      have hleaf : Lexeme.leaf (.operator o) = (o.symbol, o.symbol) := by cases o <;> rfl
      rw [List.map_append, List.map_cons, hleaf]
      exact .binary hp hterminal _ (hg.weaken hi (ihl hleft)) (hg.weaken hj (ihr hright))
  | @parenthesized k e xs _ ih =>
      intro he
      obtain ⟨hp, hopen, hclose⟩ := hg.parenthesized
      rw [List.map_append]
      exact .parenthesized hp hopen hclose (hg.weaken (Nat.zero_le k) (ih he))

/-! ## Reading what is written -/

theorem languageOf_eq {d : Draft} (hbuild : d.build = .ok g) {t : Table}
    (ht : Table.build .reject g = .ok t) {l : Lexicon Kind} (hl : lexicon = .ok l) :
    languageOf d = .ok ⟨l, t, Kind.terminal⟩ := by
  rw [languageOf, hl]
  show Language.assemble l d .reject Kind.terminal = _
  simp only [Language.assemble, hbuild, ht]

/-- With such a grammar and its table, a text that writes an expression has the expression as its
tree. -/
theorem Levelled.parse_eq (hg : Levelled kinds operators g) (haug : g.Augmented)
    (honce : ∀ p ∈ g.productions, p.ReadsOnce) {t : Table} (ht : Table.build .reject g = .ok t)
    {l : Lexicon Kind} (hl : lexicon = .ok l) {e : Expr} (he : e.Over kinds operators)
    {text : String} (h : Writes text e) :
    ∃ moves, ∀ limit, moves < limit →
      Language.parse ⟨l, t, Kind.terminal⟩ limit text = some (.ok e.node) := by
  obtain ⟨k, xs, hwritten, hspaced⟩ := h
  obtain ⟨tokens, hmunch, htokens⟩ := hspaced.munch hwritten.apart 0
  obtain ⟨d, hd, hleaves, hvalue⟩ := hg.weaken (Nat.zero_le k) (hwritten.derived hg he)
  rw [← hg.root_eq] at hd
  -- the tokens are the lexemes, and those are the leaves of the tree
  have hcovers : d.Covers (Language.leaves Kind.terminal tokens) := by
    have hmap := congrArg (List.map (Prod.map Kind.terminal id)) htokens
    rw [List.map_map, List.map_map] at hmap
    exact Or.inl (hmap.trans hleaves.symm)
  have htokenize : Language.tokenize ⟨l, t, Kind.terminal⟩ text = .ok tokens :=
    (Lexicon.collect_eq_iff hl).mpr hmunch
  refine ⟨d.moves.length, ?_⟩
  intro limit hlimit
  rw [Language.parse, htokenize]
  exact (Language.parseTokens_iff haug honce ht).mpr ⟨d, hd, hcovers, hvalue.symm, hlimit⟩

/-- The draft of such a grammar has a language, if there are no conflicts. -/
theorem Levelled.exists_languageOf (hg : Levelled kinds operators g) (haug : g.Augmented)
    (honce : ∀ p ∈ g.productions, p.ReadsOnce) {d : Draft} (hbuild : d.build = .ok g)
    (htable : (Table.build .reject g).toOption.isSome = true) :
    ∃ l, languageOf d = .ok l ∧ ∀ (e : Expr) (text : String), e.Over kinds operators →
      Writes text e → ∃ moves, ∀ limit, moves < limit →
        l.parse limit text = some (.ok e.node) := by
  obtain ⟨l, hl⟩ := exists_lexicon
  cases ht : Table.build .reject g with
  | error e =>
      rw [ht] at htable
      exact nomatch htable
  | ok t =>
      exact ⟨⟨l, t, Kind.terminal⟩, languageOf_eq hbuild ht hl,
        fun e text he h => hg.parse_eq haug honce ht hl he h⟩

/-! ## The two grammars -/

/-- Sums of products of numbers. -/
def grammar : Grammar :=
  ⟨"expr'", 0, draft.productions,
    ⟨⟨⟨"expr'", ["expr"], none⟩, by decide +kernel, by decide +kernel⟩, by decide +kernel⟩⟩

/-- The grammar with all four operators and names. -/
def extendedGrammar : Grammar :=
  ⟨"expr'", 0, extendedDraft.productions,
    ⟨⟨⟨"expr'", ["expr"], none⟩, by decide +kernel, by decide +kernel⟩, by decide +kernel⟩⟩

theorem build_draft : draft.build = .ok grammar := rfl

theorem build_extendedDraft : extendedDraft.build = .ok extendedGrammar := rfl

theorem levelled_grammar : Levelled [.number] [.plus, .times] grammar :=
  ⟨by decide +kernel, by decide +kernel, by decide +kernel, by decide +kernel, by decide +kernel⟩

theorem levelled_extendedGrammar :
    Levelled [.number, .id] [.plus, .minus, .times, .divide] extendedGrammar :=
  ⟨by decide +kernel, by decide +kernel, by decide +kernel, by decide +kernel, by decide +kernel⟩

theorem Expr.over_all (e : Expr) : e.Over [.number, .id] [.plus, .minus, .times, .divide] := by
  induction e with
  | atom a => cases a <;> simp [Over, Atom.kind]
  | binary o left right ihl ihr => cases o <;> exact ⟨by decide, ihl, ihr⟩

/-- **Every expression is read back.**  Each of the two languages exists, and a text that writes an
expression, with whatever parentheses and blanks, has that expression as its tree; with sums and
products of numbers alone in the one language, and without a restriction in the other.  The limit
only has to allow for the moves. -/
theorem parse_of_writes :
    (∃ l, extendedLanguage = .ok l ∧ ∀ (e : Expr) (text : String), Writes text e →
      ∃ moves, ∀ limit, moves < limit → l.parse limit text = some (.ok e.node)) ∧
    ∃ l, language = .ok l ∧ ∀ (e : Expr) (text : String), e.Over [.number] [.plus, .times] →
      Writes text e → ∃ moves, ∀ limit, moves < limit →
        l.parse limit text = some (.ok e.node) := by
  have honce : ∀ p ∈ draft.productions ++ extendedDraft.productions, p.ReadsOnce := by
    simp [draft, extendedDraft, Draft.augment, Draft.add, Draft.addAll, Draft.startWith, binary,
      parenthesized, Production.ReadsOnce, Definition.indices]
  obtain ⟨honce, honce'⟩ := List.forall_mem_append.mp honce
  obtain ⟨l, hl, hreads⟩ := levelled_extendedGrammar.exists_languageOf
    ⟨by decide +kernel, by decide +kernel⟩ honce' build_extendedDraft (by decide +kernel)
  have hplain := levelled_grammar.exists_languageOf
    ⟨by decide +kernel, by decide +kernel⟩ honce build_draft (by decide +kernel)
  exact ⟨⟨l, hl, fun e text => hreads e text e.over_all⟩, hplain⟩

/-- The expression `x1 / (y - 20)`. -/
def quotient : Expr :=
  .binary .divide (.atom (.name ⟨'x', ['1'], rfl, by simp⟩))
    (.binary .minus (.atom (.name ⟨'y', [], rfl, by simp⟩))
      (.atom (.number ⟨'2', ['0'], rfl, by simp⟩)))

/-- The expression `3 * 4`. -/
def product : Expr :=
  .binary .times (.atom (.number ⟨'3', [], rfl, by simp⟩))
    (.atom (.number ⟨'4', [], rfl, by simp⟩))

theorem parse_of_writes_quotient :
    (∃ l, extendedLanguage = .ok l ∧ Writes " x1/(y - 20)\n" quotient ∧
      ∃ moves, ∀ limit, moves < limit → l.parse limit " x1/(y - 20)\n" =
        some (.ok (.node "/" [.leaf "x1", .node "-" [.leaf "y", .leaf "20"]]))) ∧
    ∃ l, language = .ok l ∧ Writes "(3)*\t4" product ∧
      ∃ moves, ∀ limit, moves < limit → l.parse limit "(3)*\t4" =
        some (.ok (.node "*" [.leaf "3", .leaf "4"])) := by
  obtain ⟨⟨l, hl, hreads⟩, l', hl', hreads'⟩ := parse_of_writes
  have hnone : Blank [] := by decide
  have hspace : Blank [' '] := by decide
  have hquotient : Writes " x1/(y - 20)\n" quotient := by
    refine ⟨_, _, .binary (by decide) (by decide) (.atom _)
      (.parenthesized (.binary (by decide) (by decide) (.atom _) (.atom _))), ?_⟩
    exact .cons _ _ hspace <| .cons _ _ hnone <| .cons _ _ hnone <| .cons _ _ hnone <|
      .cons _ _ hspace <| .cons _ _ hspace <| .cons _ _ hnone <| .nil ['\n'] (by decide)
  have hproduct : Writes "(3)*\t4" product := by
    refine ⟨_, _, .binary (by decide) (by decide) (.parenthesized (.atom _)) (.atom _), ?_⟩
    exact .cons _ _ hnone <| .cons _ _ hnone <| .cons _ _ hnone <| .cons _ _ hnone <|
      .cons ['\t'] _ (by decide) <| .nil _ hnone
  have hover : product.Over [.number] [.plus, .times] := by
    simp [product, Expr.Over, Atom.kind]
  exact ⟨⟨l, hl, hquotient, hreads _ _ hquotient⟩, l', hl', hproduct, hreads' _ _ hover hproduct⟩

end Arithmetic

end FrontEnd
