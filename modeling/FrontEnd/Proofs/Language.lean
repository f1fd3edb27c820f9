/-
# `Language` — what the three stages together compute

A text has a tree exactly when its tokens, as maximal munch finds them, are the leaves of a
derivation tree; and then the tree of the text is the value of the derivation tree.  The
stages meet in the derivation tree alone: its leaves are the tokens, its postorder is the
trace, and its value is what the replay leaves on the stack.
-/
import FrontEnd.Language
import FrontEnd.Proofs.Lexer.Munch
import FrontEnd.Proofs.Slr.Completeness
import FrontEnd.Proofs.Slr.Soundness
import FrontEnd.Proofs.Tree.Value

namespace FrontEnd.Language

open FrontEnd.Derivation

variable {κ : Type} {l : Language κ} {g : Grammar}

/-- The tokens as leaves: the terminal of each, with its text. -/
def leaves (terminal : κ → Symbol) (tokens : List (Token κ)) : List (Symbol × String) :=
  tokens.map fun token => (terminal token.kind, token.lexeme)

theorem trace_eq (l : Language κ) (limit : Nat) (tokens : List (Token κ)) :
    l.trace limit tokens = l.table.parse limit ((leaves l.terminal tokens).map Prod.fst) := by
  rw [trace, leaves, List.map_map]
  rfl

theorem tree_eq (l : Language κ) (tokens : List (Token κ)) (trace : Trace) :
    l.tree tokens trace =
      Node.ofTrace l.table.grammar ((leaves l.terminal tokens).map Prod.snd) trace := by
  rw [tree, leaves, List.map_map]
  rfl

theorem parseTokens_eq_ok_iff {limit : Nat} {tokens : List (Token κ)} {node : Node} :
    l.parseTokens limit tokens = some (.ok node) ↔
      ∃ trace, l.trace limit tokens = some (.ok trace) ∧ l.tree tokens trace = .ok node := by
  rw [parseTokens]
  cases l.trace limit tokens with
  | none => simp
  | some r =>
      cases r with
      | error e => simp
      | ok trace =>
          cases htree : l.tree tokens trace with
          | error e => simp [htree, Except.mapError]
          | ok node' => simp [htree, Except.mapError]

/-- The replay of the moves of a tree that covers the tokens gives the value of the tree. -/
theorem ofTrace_of_covers {x : Symbol} {d : Derivation} (h : From g x d)
    (honce : ∀ p ∈ g.productions, p.ReadsOnce) {tokens : List (Symbol × String)}
    (hcovers : d.Covers tokens) :
    Node.ofTrace g (tokens.map Prod.snd) (d.moves ++ [.accept]) = .ok (d.value g) := by
  have hsparing : Sparing g d.moves := fun i _ p hp => honce p (Grammar.mem_of_production? hp)
  rcases hcovers with rfl | ⟨text, rfl⟩
  · rw [← List.append_nil (d.tokens.map Prod.snd)]
    exact h.ofTrace hsparing []
  · rw [List.map_append]
    exact h.ofTrace hsparing [text]

/-- The tree of tokens is the value of the derivation tree that covers them. -/
theorem parseTokens_iff (hg : g.Augmented) (honce : ∀ p ∈ g.productions, p.ReadsOnce)
    (ht : Table.build .reject g = .ok l.table) {limit : Nat} {tokens : List (Token κ)}
    {node : Node} :
    l.parseTokens limit tokens = some (.ok node) ↔
      ∃ d, From g g.root d ∧ d.Covers (leaves l.terminal tokens) ∧ node = d.value g ∧
        d.moves.length < limit := by
  rw [parseTokens_eq_ok_iff]
  simp only [trace_eq, tree_eq, Table.build_grammar ht]
  refine ⟨?_, ?_⟩
  · rintro ⟨trace, hparse, htree⟩
    obtain ⟨-, hlen⟩ := Table.parse_eq_ok_iff.mp hparse
    obtain ⟨d, hd, rfl, hcovers⟩ := Table.exists_tree_of_parse hg ht hparse
    rw [ofTrace_of_covers hd honce hcovers] at htree
    refine ⟨d, hd, hcovers, (Except.ok.inj htree).symm, ?_⟩
    rwa [List.length_append] at hlen
  · rintro ⟨d, hd, hcovers, rfl, hlen⟩
    refine ⟨d.moves ++ [.accept], Table.parse_eq_ok_iff.mpr ⟨?_, ?_⟩,
      ofTrace_of_covers hd honce hcovers⟩
    · refine Table.accepts_of_tree hg ht hd ?_
      rcases hcovers with hleaves | ⟨text, hleaves⟩
      · exact Or.inl (by rw [hleaves]; rfl)
      · exact Or.inr (by rw [hleaves, List.map_append]; rfl)
    · rw [List.length_append]
      exact hlen

/-- **The meaning of a language**, where conflicts are refused and no definition reads a body
symbol twice.  A text has a tree exactly when maximal munch makes tokens of it that a
derivation tree covers, and the tree of the text is the value of the derivation tree.  The limit
only has to allow for the moves. -/
theorem parse_iff_value {classes : List (String × Option κ)} {lexicon : Lexicon κ}
    (hl : Lexicon.compile classes = .ok lexicon) (hg : g.Augmented)
    (honce : ∀ p ∈ g.productions, p.ReadsOnce) {t : Table} (ht : Table.build .reject g = .ok t)
    (terminal : κ → Symbol) (limit : Nat) (text : String) (node : Node) :
    (Language.mk lexicon t terminal).parse limit text = some (.ok node) ↔
      ∃ tokens, Lexicon.Munch classes ⟨0, text.toList⟩ (.ok tokens) ∧
        ∃ d, From g g.root d ∧ d.Covers (leaves terminal tokens) ∧ node = d.value g ∧
          d.moves.length < limit := by
  have htokens (tokens : List (Token κ)) :
      (Language.mk lexicon t terminal).tokenize text = .ok tokens ↔
        Lexicon.Munch classes ⟨0, text.toList⟩ (.ok tokens) :=
    Lexicon.collect_eq_iff hl
  have hparse (tokens : List (Token κ)) :
      (Language.mk lexicon t terminal).parseTokens limit tokens = some (.ok node) ↔
        ∃ d, From g g.root d ∧ d.Covers (leaves terminal tokens) ∧ node = d.value g ∧
          d.moves.length < limit :=
    parseTokens_iff hg honce ht
  simp only [← htokens, ← hparse, parse]
  cases (Language.mk lexicon t terminal).tokenize text with
  | error e => simp
  | ok tokens => simp

/-- Lists of items, an item being `a` and any number of `b`; the last item comes first in the
tree. -/
def items : Grammar :=
  ⟨"S'", 0, [⟨"S'", ["S"], none⟩, ⟨"S", ["S", "a"], some (.tree "," [1, 0])⟩, ⟨"S", [], none⟩],
    ⟨⟨⟨"S'", ["S"], none⟩, by decide +kernel, by decide +kernel⟩, by decide +kernel⟩⟩

/-- Items, blanks that are skipped, and end markers. -/
def itemClasses : List (String × Option Bool) :=
  [("ab*", some true), (" ", none), ("$", some false)]

theorem parse_iff_value_items :
    ∃ tokens, Lexicon.Munch itemClasses ⟨0, "a abb$".toList⟩ (.ok tokens) ∧
      ∃ d, From items "S" d ∧ d.Covers (leaves (fun item => if item then "a" else "$") tokens) ∧
        d.value items = .node "," [.leaf "abb", .node "," [.leaf "a", .leaf "S"]] := by
  have heval : ((Lexicon.compile itemClasses).toOption.bind fun lexicon =>
      (Table.build .reject items).toOption.bind fun t =>
        (parse ⟨lexicon, t, fun item => if item then "a" else "$"⟩ 7 "a abb$").bind
          Except.toOption) =
      some (.node "," [.leaf "abb", .node "," [.leaf "a", .leaf "S"]]) := by
    decide +kernel
  obtain ⟨lexicon, hl, heval⟩ := Option.bind_eq_some_iff.mp heval
  obtain ⟨t, ht, heval⟩ := Option.bind_eq_some_iff.mp heval
  obtain ⟨r, hr, heval⟩ := Option.bind_eq_some_iff.mp heval
  have hok {ε α : Type} {x : Except ε α} {a : α} (h : x.toOption = some a) : x = .ok a := by
    cases x with
    | error e => exact nomatch h
    | ok b => rw [Option.some.inj h]
  rw [hok heval] at hr
  have honce : ∀ p ∈ items.productions, p.ReadsOnce := by
    simp [items, Production.ReadsOnce, Definition.indices]
  obtain ⟨tokens, hmunch, d, hd, hcovers, hvalue, -⟩ := (parse_iff_value (hok hl)
    ⟨by decide +kernel, by decide +kernel⟩ honce (hok ht) _ _ _ _).mp hr
  exact ⟨tokens, hmunch, d, hd, hcovers, hvalue.symm⟩

end FrontEnd.Language
