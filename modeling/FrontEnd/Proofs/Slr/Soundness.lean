/-
# `Slr.Soundness` — what a parser accepts is derived, as its trace says

Between two moves, the stack of a parser is a path of the automaton, the symbols of the path
are at the roots of derivation trees, the leaves of the trees are what has been read,
and the moves so far are those that build the trees (`Explains`).  A shift adds a
leaf, and a reduction makes one tree of those for a body.  Conflicts do not matter, because
the stack is a path whichever claims have won.

At acceptance one tree is left, for the symbol of the augmenting production, and with it
a rightmost derivation of the input.
-/
import FrontEnd.Proofs.Grammar.Rightmost
import FrontEnd.Proofs.Slr.Stack

namespace FrontEnd

open FrontEnd.Derivation

/-! ## The word of an input -/

/-- The word that an input asks about: an end marker at its end is not part of it. -/
def wordOf (input : List Symbol) : List Symbol :=
  if input.getLast? = some endMarker then input.dropLast else input

theorem wordOf_append_endMarker (w : List Symbol) : wordOf (w ++ [endMarker]) = w := by
  simp [wordOf]

theorem wordOf_of_notMem {w : List Symbol} (h : endMarker ∉ w) : wordOf w = w := by
  rw [wordOf]
  split
  · rename_i hlast
    exact absurd (List.mem_of_getLast? hlast) h
  · rfl

/-- The tokens are the leaves of the tree, with an end marker behind them or without. -/
def Derivation.Covers (t : Derivation) (tokens : List (Symbol × String)) : Prop :=
  tokens = t.tokens ∨ ∃ text, tokens = t.tokens ++ [(endMarker, text)]

theorem Derivation.Covers.wordOf_eq {t : Derivation} {tokens : List (Symbol × String)}
    (h : t.Covers tokens) (ht : endMarker ∉ t.yield) : wordOf (tokens.map Prod.fst) = t.yield := by
  rcases h with rfl | ⟨text, rfl⟩
  · exact wordOf_of_notMem ht
  · rw [List.map_append]
    exact wordOf_append_endMarker t.yield

namespace Table

variable {g : Grammar} {policy : Policy} {t : Table} {c d : Configuration}
  {tokens : List (Symbol × String)} {past : Trace} {xs : List Symbol} {ts : List Derivation}

/-! ## The invariant -/

/-- `Explains g tokens c past xs ts`: the parser at `c` has read its tokens into the trees
`ts`, whose roots `xs` (the last one first) are the symbols on its stack, by the moves `past`. -/
structure Explains (g : Grammar) (tokens : List (Symbol × String)) (c : Configuration)
    (past : Trace) (xs : List Symbol) (ts : List Derivation) : Prop where
  input_eq : c.input = tokens.map Prod.fst
  within : c.position ≤ tokens.length
  path : Lr.Path g xs c.stack
  trees : FromAll g xs.reverse ts
  read : tokensAll ts = tokens.take c.position
  moves_eq : movesAll ts = past

theorem explains_start (g : Grammar) (tokens : List (Symbol × String)) :
    Explains g tokens (.start (tokens.map Prod.fst)) [] [] [] :=
  ⟨rfl, Nat.zero_le _, .start, .nil, rfl, rfl⟩

theorem Explains.yield_eq (h : Explains g tokens c past xs ts) :
    yieldAll ts = c.input.take c.position := by
  rw [yieldAll, h.read, h.input_eq, List.map_take]

theorem Explains.position_le (h : Explains g tokens c past xs ts) :
    c.position ≤ c.input.length := by
  rw [h.input_eq, List.length_map]
  exact h.within

/-- No state goes on over the end marker. -/
theorem transition_ne_endMarker (hg : g.Augmented) {q r : Nat} {x : Symbol}
    (h : (Lr.Automaton.ofGrammar g).transition q x = some r) : x ≠ endMarker := by
  rintro rfl
  obtain ⟨p, hp, hx⟩ := Lr.exists_body_of_transition h
  exact (hg.end_fresh p hp).2 hx

/-- A lookahead that is not the end marker is a token. -/
theorem Explains.exists_token (h : Explains g tokens c past xs ts)
    (hne : c.lookahead ≠ endMarker) :
    c.position < tokens.length ∧ ∃ text, tokens[c.position]? = some (c.lookahead, text) := by
  have hlook : c.lookahead = (tokens[c.position]?.map Prod.fst).getD endMarker := by
    rw [Configuration.lookahead, h.input_eq, List.getElem?_map]
  cases htok : tokens[c.position]? with
  | none =>
      rw [htok] at hlook
      exact absurd hlook hne
  | some token =>
      rw [htok] at hlook
      exact ⟨(List.getElem?_eq_some_iff.mp htok).1, token.2, by rw [hlook]; rfl⟩

theorem Explains.shift (hg : g.Augmented) (ht : build policy g = .ok t)
    (h : Explains g tokens c past xs ts) (hm : Makes t c .shift d) :
    ∃ xs' ts', Explains g tokens d (past ++ [.shift]) xs' ts' := by
  have hpath := hm.path_shift ht h.path
  cases hm with
  | @shift q r rest hstack hterm hact =>
      have htrans := (build_claimed ht hact).of_shift
      obtain ⟨hlt, text, htok⟩ := h.exists_token (transition_ne_endMarker hg htrans)
      rw [build_grammar ht] at hterm
      refine ⟨c.lookahead :: xs, ts ++ [.leaf c.lookahead text], h.input_eq, hlt, hpath,
        ?_, ?_, ?_⟩
      · rw [List.reverse_cons]
        exact h.trees.append (.cons (.leaf hterm) .nil)
      · show tokensAll _ = tokens.take (c.position + 1)
        rw [tokensAll_append, h.read, List.take_add_one, htok]
        rfl
      · rw [movesAll_append, h.moves_eq]
        rfl

theorem Explains.reduce (ht : build policy g = .ok t) {i : Nat}
    (h : Explains g tokens c past xs ts) (hm : Makes t c (.reduce i) d) :
    ∃ xs' ts', Explains g tokens d (past ++ [.reduce i]) xs' ts' := by
  obtain ⟨p, hp, htake, hpath⟩ := hm.path_reduce ht h.path
  have hsplit : xs.reverse = (xs.drop p.body.length).reverse ++ p.body := calc
    xs.reverse = (xs.take p.body.length ++ xs.drop p.body.length).reverse := by
      rw [List.take_append_drop]
    _ = (xs.drop p.body.length).reverse ++ p.body := by
      rw [List.reverse_append, htake, List.reverse_reverse]
  have htrees := h.trees
  rw [hsplit] at htrees
  obtain ⟨lefts, children, rfl, hlefts, hchildren⟩ := htrees.split
  cases hm with
  | reduce =>
      refine ⟨p.head :: xs.drop p.body.length, lefts ++ [.node i children], h.input_eq,
        h.within, hpath, ?_, ?_, ?_⟩
      · rw [List.reverse_cons]
        exact hlefts.append (.cons (.node hp hchildren) .nil)
      · have hread := h.read
        rw [tokensAll_append] at hread ⊢
        simpa [tokensAll, Derivation.tokens] using hread
      · rw [← h.moves_eq, movesAll_append, movesAll_append]
        simp [movesAll, Derivation.moves]

/-- The trees go along with every move but the last. -/
theorem Explains.makes (hg : g.Augmented) (ht : build policy g = .ok t)
    (h : Explains g tokens c past xs ts) {m : Move} (hm : Makes t c m d) (hacc : m ≠ .accept) :
    ∃ xs' ts', Explains g tokens d (past ++ [m]) xs' ts' := by
  cases m with
  | shift => exact h.shift hg ht hm
  | reduce i => exact h.reduce ht hm
  | accept => exact absurd rfl hacc
  | error => exact absurd rfl hm.ne_error

/-- A parser that has one tree left, and at most an end marker to read, has covered its tokens. -/
theorem Explains.covers {x : Symbol} {tree : Derivation}
    (h : Explains g tokens c past [x] [tree]) (hlook : c.lookahead = endMarker)
    (hlast : c.input.length ≤ c.position + 1) : tree.Covers tokens := by
  have hread : tree.tokens = tokens.take c.position := by
    simpa [tokensAll] using h.read
  rw [Covers, hread]
  cases hnext : tokens[c.position]? with
  | none =>
      exact Or.inl (List.take_of_length_le (List.getElem?_eq_none_iff.mp hnext)).symm
  | some token =>
      have hlook : token.1 = endMarker := by
        rw [← hlook, Configuration.lookahead, h.input_eq, List.getElem?_map, hnext]
        rfl
      have hlast : tokens.length ≤ c.position + 1 := by
        simpa [h.input_eq] using hlast
      refine Or.inr ⟨token.2, ?_⟩
      rw [← hlook, ← Option.toList_some (a := token), ← hnext, ← List.take_add_one,
        List.take_of_length_le hlast]

/-- Where the parser may accept, one tree is left. -/
theorem Explains.exists_root (hg : g.Augmented) (ht : build policy g = .ok t)
    (h : Explains g tokens c past xs ts) (hc : AcceptsHere t c) :
    c.lookahead = endMarker ∧ ∃ tree, From g g.root tree ∧ xs = [g.root] ∧ ts = [tree] := by
  obtain ⟨hlook, rfl⟩ := hc.path hg.start_fresh ht h.path
  obtain ⟨tree, rfl, htree⟩ := h.trees.single
  exact ⟨hlook, tree, htree, rfl, rfl⟩

/-- At acceptance it covers all tokens. -/
theorem Explains.accept (hg : g.Augmented) (ht : build policy g = .ok t)
    (h : Explains g tokens c past xs ts) (hm : Makes t c .accept d) :
    ∃ tree, From g g.root tree ∧ tree.moves = past ∧ tree.Covers tokens := by
  cases hm with
  | @accept q rest hstack hterm hact hlast =>
      obtain ⟨hlook, tree, htree, rfl, rfl⟩ := h.exists_root hg ht ⟨q, rest, hstack, hterm, hact⟩
      exact ⟨tree, htree, by simpa [movesAll] using h.moves_eq, h.covers hlook hlast⟩

/-! ## Whole runs -/

/-- A parser that accepts has built a tree that covers its tokens, by the moves of its trace. -/
theorem Accepts.exists_tree (hg : g.Augmented) (ht : build policy g = .ok t) {trace : Trace}
    (h : Accepts t c trace) (hc : Explains g tokens c past xs ts) :
    ∃ tree, From g g.root tree ∧ past ++ trace = tree.moves ++ [.accept] ∧ tree.Covers tokens := by
  induction h generalizing past xs ts with
  | accept hm =>
      obtain ⟨tree, htree, rfl, hcovers⟩ := hc.accept hg ht hm
      exact ⟨tree, htree, rfl, hcovers⟩
  | @move c d m trace hm hacc _ ih =>
      obtain ⟨xs', ts', hd⟩ := hc.makes hg ht hm hacc
      obtain ⟨tree, htree, hmoves, hcovers⟩ := ih hd
      refine ⟨tree, htree, ?_, hcovers⟩
      rw [← hmoves, List.append_assoc]
      rfl

/-- A parser that is still running has read its tokens into trees. -/
theorem Explains.runs (hg : g.Augmented) (ht : build policy g = .ok t) {moves : Trace}
    (h : Runs t c moves d) (hc : Explains g tokens c past xs ts) :
    ∃ xs' ts', Explains g tokens d (past ++ moves) xs' ts' := by
  induction h generalizing past xs ts with
  | done => exact ⟨xs, ts, by rwa [List.append_nil]⟩
  | @move c d e m moves hm hacc _ ih =>
      obtain ⟨xs', ts', hd⟩ := hc.makes hg ht hm hacc
      obtain ⟨xs'', ts'', he⟩ := ih hd
      rw [List.append_assoc] at he
      exact ⟨xs'', ts'', he⟩

/-- A successful parse builds a derivation tree that covers the input. -/
theorem exists_tree_of_parse (hg : g.Augmented) (ht : build policy g = .ok t) {limit : Nat}
    {trace : Trace} (h : t.parse limit (tokens.map Prod.fst) = some (.ok trace)) :
    ∃ tree, From g g.root tree ∧ trace = tree.moves ++ [.accept] ∧ tree.Covers tokens :=
  (parse_eq_ok_iff.mp h).1.exists_tree hg ht (explains_start g tokens)

/-- **Soundness**, under either policy.  When a parse succeeds, the word of the input is all
terminals, each is shifted once, and the reductions of the trace read backwards are the
productions of a rightmost derivation of the word. -/
theorem rightmost_of_parse (hg : g.Augmented) (ht : build policy g = .ok t) {limit : Nat}
    {input : List Symbol} {trace : Trace} (h : t.parse limit input = some (.ok trace)) :
    (∀ x ∈ wordOf input, g.isTerminal x = true) ∧
      trace.count .shift = (wordOf input).length ∧
      ∃ rs, Rightmost g [g.root] rs (wordOf input) ∧
        rs.map (·.production) = (reductions trace).reverse := by
  obtain ⟨tokens, rfl⟩ : ∃ tokens : List (Symbol × String), input = tokens.map Prod.fst :=
    ⟨input.map fun x => (x, x), by simp [Function.comp_def]⟩
  obtain ⟨tree, htree, rfl, hcovers⟩ := exists_tree_of_parse hg ht h
  obtain ⟨rs, hrs, hmoves⟩ := htree.rightmost
  rw [hcovers.wordOf_eq (htree.endMarker_notMem hg hg.root_ne_endMarker)]
  refine ⟨htree.yield_terminal, ?_, rs, hrs, ?_⟩
  · rw [List.count_append, count_shift_moves, yield, List.length_map]
    rfl
  · have htrace : traceOf tree.yield rs = tree.moves ++ [.accept] := by rw [traceOf, hmoves]
    rw [← htrace, reductions_traceOf, List.reverse_reverse]

/-- Sums that can be grouped either way, so that their table has a conflict. -/
def sums : Grammar :=
  ⟨"S'", 0, [⟨"S'", ["S"], none⟩, ⟨"S", ["S", "+", "S"], none⟩, ⟨"S", ["a"], none⟩],
    ⟨⟨⟨"S'", ["S"], none⟩, by decide +kernel, by decide +kernel⟩, by decide +kernel⟩⟩

theorem rightmost_of_parse_sums : (∃ e, build .reject sums = .error e) ∧
    ∃ t, build .lastWins sums = .ok t ∧
      t.parse 12 ["a", "+", "a", "+", "a", "$"] = some (.ok [.shift, .reduce 2, .shift, .shift,
        .reduce 2, .reduce 1, .shift, .shift, .reduce 2, .reduce 1, .accept]) ∧
      ∃ rs, Rightmost sums ["S"] rs ["a", "+", "a", "+", "a"] ∧
        rs.map (·.production) = [1, 2, 1, 2, 2] := by
  have hg : sums.Augmented := ⟨by decide +kernel, by decide +kernel⟩
  obtain ⟨t, ht, h⟩ : ∃ t, build .lastWins sums = .ok t ∧
      t.parse 12 ["a", "+", "a", "+", "a", "$"] = some (.ok [.shift, .reduce 2, .shift, .shift,
        .reduce 2, .reduce 1, .shift, .shift, .reduce 2, .reduce 1, .accept]) := ⟨_, rfl, rfl⟩
  exact ⟨⟨_, rfl⟩, t, ht, h, (rightmost_of_parse hg ht h).2.2⟩

end Table

end FrontEnd
