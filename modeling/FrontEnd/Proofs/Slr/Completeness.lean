/-
# `Slr.Completeness` — a parser without conflicts follows every derivation tree

Where conflicts are refused, a state makes every move that it claims.  So a parser can
be led along a derivation tree, in postorder: before the leaf of a terminal it shifts, and
behind the children of an inner node it reduces, because the state there holds the item of
the production with the dot at its end and the lookahead is in FOLLOW of its head.

The lemmas are about a tree in its context: a state that goes on over the root of the tree,
and an input of which the leaves come next.  They say that whatever is accepted behind the
tree is accepted in front of it, with the moves of the tree first.

A rightmost derivation is a tree, and the parser has one run only; so there is one
derivation at most.
-/
import FrontEnd.Proofs.Grammar.Analysis
import FrontEnd.Proofs.Grammar.Rightmost
import FrontEnd.Proofs.Slr.Parser
import FrontEnd.Proofs.Slr.Table

namespace FrontEnd

open FrontEnd.Derivation

namespace Configuration

/-- The configuration with another stack, `n` symbols further on. -/
def after (c : Configuration) (stack : List Nat) (n : Nat) : Configuration :=
  { c with stack := stack, position := c.position + n }

/-- What is left to read. -/
def remaining (c : Configuration) : List Symbol := c.input.drop c.position

theorem lookahead_eq (c : Configuration) : c.lookahead = upcoming c.remaining := by
  rw [lookahead, upcoming, remaining, List.head?_drop]

theorem after_after (c : Configuration) (stack stack' : List Nat) (m n : Nat) :
    (c.after stack m).after stack' n = c.after stack' (m + n) := by
  simp [after, Nat.add_assoc]

theorem remaining_after {c : Configuration} {word rest : List Symbol}
    (h : c.remaining = word ++ rest) (stack : List Nat) :
    (c.after stack word.length).remaining = rest := by
  show c.input.drop (c.position + word.length) = rest
  rw [← List.drop_drop]
  show c.remaining.drop word.length = rest
  rw [h, List.drop_left]

end Configuration

namespace Table

variable {g : Grammar} {t : Table}

/-! ## One move -/

theorem accepts_shift (ht : build .reject g = .ok t) {c : Configuration} {q r : Nat}
    {stack : List Nat} {x : Symbol} {rest : List Symbol} {trace : Trace}
    (hstack : c.stack = q :: stack) (hrem : c.remaining = x :: rest)
    (hx : g.isTerminal x = true) (htrans : (Lr.Automaton.ofGrammar g).transition q x = some r)
    (h : Accepts t (c.after (r :: c.stack) 1) trace) : Accepts t c (.shift :: trace) := by
  have hlook : c.lookahead = x := by
    rw [c.lookahead_eq, hrem]
    rfl
  refine .move (.shift hstack ?_ ?_) nofun h
  · rw [build_grammar ht, hlook]
    exact hx
  · rw [hlook]
    exact build_action ht (.shift htrans)

theorem accepts_reduce (hg : g.Augmented) (ht : build .reject g = .ok t) {c : Configuration}
    {q q' i r : Nat} {below stack : List Nat} {p : Production} {trace : Trace}
    (hstack : c.stack = q :: below) (hp : g.production? i = some p)
    (hholds : Lr.Holds g q ⟨i, p.body.length⟩) (hlook : c.lookahead ∈ g.follow p.head)
    (hdrop : c.stack.drop p.body.length = q' :: stack)
    (htrans : (Lr.Automaton.ofGrammar g).transition q' p.head = some r)
    (h : Accepts t { c with stack := r :: q' :: stack } trace) :
    Accepts t c (.reduce i :: trace) := by
  have hstart : p.head ≠ g.start := by
    obtain ⟨j, -, hnext⟩ := Lr.exists_holds_of_transition htrans
    obtain ⟨p', hp', hx⟩ := Option.bind_eq_some_iff.mp hnext
    intro heq
    exact hg.start_fresh p' (Grammar.mem_of_production? hp') (heq ▸ List.mem_of_getElem? hx)
  refine .move (.reduce hstack ?_ ?_ ?_ hdrop (build_goto_of_transition ht htrans)) nofun h
  · rw [build_grammar ht]
    exact Grammar.isTerminal_of_mem_follow hg.isTerminal_endMarker hlook
  · exact build_action ht (.reduce hp hholds hlook fun hend => hstart hend.1)
  · rw [build_grammar ht]
    exact hp

/-! ## Following a tree -/

mutual

theorem accepts_tree (hg : g.Augmented) (ht : build .reject g = .ok t) {x : Symbol}
    {tree : Derivation} (h : From g x tree) {c : Configuration} {q r : Nat} {stack : List Nat}
    {rest : List Symbol} {trace : Trace} (hstack : c.stack = q :: stack)
    (hrem : c.remaining = tree.yield ++ rest)
    (hrest : g.isTerminal x ≠ true → upcoming rest ∈ g.follow x)
    (htrans : (Lr.Automaton.ofGrammar g).transition q x = some r)
    (hacc : Accepts t (c.after (r :: c.stack) tree.yield.length) trace) :
    Accepts t c (tree.moves ++ trace) := by
  cases h with
  | leaf hx => exact accepts_shift ht hstack hrem hx htrans hacc
  | @node i p children hp hchildren =>
      rw [yield_node] at hrem hacc
      obtain ⟨j, hj, hnext⟩ := Lr.exists_holds_of_transition htrans
      have hbody : p.body = [] ++ p.body := rfl
      obtain ⟨q', below, states, hlen, htop, hholds, hgo⟩ := accepts_trees hg ht hchildren hp
        hbody hstack (hj.predict hp hnext) hrem (hrest (Grammar.not_isTerminal_head hp))
      rw [Derivation.moves, List.append_assoc]
      have hdrop : (states ++ c.stack).drop p.body.length = q :: stack := by
        rw [← hlen, List.drop_left, hstack]
      refine hgo (accepts_reduce hg ht htop hp hholds ?_ hdrop htrans ?_)
      · rw [Configuration.lookahead_eq, Configuration.remaining_after hrem]
        exact hrest (Grammar.not_isTerminal_head hp)
      · rw [hstack] at hacc
        exact hacc

/-- Along the body of a production the parser puts one state for each symbol on its stack, and
the dot goes to the end of the body. -/
theorem accepts_trees (hg : g.Augmented) (ht : build .reject g = .ok t) {xs : List Symbol}
    {ts : List Derivation} (h : FromAll g xs ts) {c : Configuration} {q i : Nat}
    {stack : List Nat} {p : Production} {before rest : List Symbol}
    (hp : g.production? i = some p) (hbody : p.body = before ++ xs)
    (hstack : c.stack = q :: stack) (hholds : Lr.Holds g q ⟨i, before.length⟩)
    (hrem : c.remaining = yieldAll ts ++ rest) (hrest : upcoming rest ∈ g.follow p.head) :
    ∃ q' below states, states.length = xs.length ∧ states ++ c.stack = q' :: below ∧
      Lr.Holds g q' ⟨i, p.body.length⟩ ∧
      ∀ {trace}, Accepts t (c.after (states ++ c.stack) (yieldAll ts).length) trace →
        Accepts t c (movesAll ts ++ trace) := by
  cases h with
  | nil =>
      refine ⟨q, stack, [], rfl, hstack, ?_, fun hacc => hacc⟩
      rw [hbody, List.append_nil]
      exact hholds
  | @cons x xs tree ts htree hts =>
      have hnext : Item.next g ⟨i, before.length⟩ = some x := by
        simp [Item.next, hp, hbody]
      obtain ⟨r, htrans, hadv⟩ := hholds.advance hnext
      rw [yieldAll_cons, List.append_assoc] at hrem
      have hbody' : p.body = (before ++ [x]) ++ xs := by
        rw [hbody, List.append_assoc]
        rfl
      obtain ⟨q', below, states, hlen, htop, hend, hgo⟩ := accepts_trees hg ht hts
        (c := c.after (r :: c.stack) tree.yield.length) hp hbody' rfl
        (by simpa [Item.advance] using hadv) (Configuration.remaining_after hrem _) hrest
      refine ⟨q', below, states ++ [r], by simp [hlen], ?_, hend, ?_⟩
      · rw [List.append_assoc]
        exact htop
      · intro trace hacc
        rw [movesAll, List.append_assoc]
        refine accepts_tree hg ht htree hstack hrem ?_ htrans (hgo ?_)
        · intro hx
          exact hts.upcoming_mem_follow hp hbody hx hrest
        · rw [yieldAll_cons, List.length_append, List.append_assoc] at hacc
          rw [Configuration.after_after]
          exact hacc

end

/-- The parser follows a tree of the grammar to acceptance, whether or not the end marker is
given. -/
theorem accepts_of_tree (hg : g.Augmented) (ht : build .reject g = .ok t) {tree : Derivation}
    (h : From g g.root tree) {input : List Symbol}
    (hinput : input = tree.yield ∨ input = tree.yield ++ [endMarker]) :
    Accepts t (.start input) (tree.moves ++ [.accept]) := by
  obtain ⟨p, hp, hhead, hbody⟩ := g.production?_augmenting
  obtain ⟨rest, hrem, hlen, hup⟩ : ∃ rest, (Configuration.start input).remaining =
      tree.yield ++ rest ∧ rest.length ≤ 1 ∧ upcoming rest = endMarker := by
    rcases hinput with rfl | rfl
    · exact ⟨[], (List.append_nil _).symm, Nat.zero_le _, rfl⟩
    · exact ⟨[endMarker], rfl, Nat.le_refl _, rfl⟩
  have hfollow : endMarker ∈ g.follow g.root := by
    have hsplit : p.body = [] ++ g.root :: [] := hbody
    refine Grammar.mem_follow_of_head hp hsplit g.not_isTerminal_root ?_ ?_
    · intro y hy
      exact absurd hy List.not_mem_nil
    rw [hhead]
    exact g.endMarker_mem_follow_start
  have hnext : Item.next g ⟨g.augmenting, 0⟩ = some g.root := by
    simp [Item.next, hp, hbody]
  obtain ⟨r, htrans, hadv⟩ := Lr.holds_zero.advance hnext
  have hlook : ((Configuration.start input).after [r, 0] tree.yield.length).lookahead =
      endMarker := by
    rw [Configuration.lookahead_eq, Configuration.remaining_after hrem, hup]
  refine accepts_tree hg ht h rfl hrem (fun _ => hup ▸ hfollow) htrans
    (.accept (.accept rfl ?_ ?_ ?_))
  · rw [build_grammar ht]
    exact hlook ▸ hg.isTerminal_endMarker
  · refine hlook ▸ build_action ht (.accept hp ?_ ?_ hhead)
    · rw [hbody]
      exact hadv
    · rw [hhead]
      exact g.endMarker_mem_follow_start
  · show input.length ≤ 0 + tree.yield.length + 1
    have hinput : input = tree.yield ++ rest := hrem
    rw [hinput, List.length_append]
    omega

/-- **Completeness**, where conflicts are refused.  A rightmost derivation of a word of terminals
is the parse of the word, with or without an end marker behind it; so the word has no other. -/
theorem parse_of_rightmost (hg : g.Augmented) (ht : build .reject g = .ok t) {w : List Symbol}
    {rs : List Rewriting} (hw : ∀ x ∈ w, g.isTerminal x = true)
    (h : Rightmost g [g.root] rs w) :
    (∀ limit, (traceOf w rs).length ≤ limit →
      t.parse limit w = some (.ok (traceOf w rs)) ∧
        t.parse limit (w ++ [endMarker]) = some (.ok (traceOf w rs))) ∧
      ∀ rs', Rightmost g [g.root] rs' w → rs' = rs := by
  have haccepts {rs : List Rewriting} (h : Rightmost g [g.root] rs w) {input : List Symbol}
      (hinput : input = w ∨ input = w ++ [endMarker]) :
      Accepts t (.start input) (traceOf w rs) := by
    obtain ⟨ts, hts, hyield, hmoves⟩ := h.forest hw
    obtain ⟨tree, rfl, htree⟩ := hts.single
    rw [traceOf, ← hmoves, movesAll, movesAll, List.append_nil]
    refine accepts_of_tree hg ht htree ?_
    rwa [← hyield, yieldAll_cons, yieldAll_nil, List.append_nil] at hinput
  refine ⟨fun limit hlimit => ⟨?_, ?_⟩, fun rs' h' => ?_⟩
  · exact parse_eq_ok_iff.mpr ⟨haccepts h (Or.inl rfl), hlimit⟩
  · exact parse_eq_ok_iff.mpr ⟨haccepts h (Or.inr rfl), hlimit⟩
  · exact h'.eq_of_traceOf_eq h ((haccepts h' (Or.inl rfl)).unique rfl (haccepts h (Or.inl rfl)))

/-- Any number of `a`, with a production that derives nothing. -/
def repetition : Grammar :=
  ⟨"S'", 0, [⟨"S'", ["S"], none⟩, ⟨"S", ["S", "a"], none⟩, ⟨"S", [], none⟩],
    ⟨⟨⟨"S'", ["S"], none⟩, by decide +kernel, by decide +kernel⟩, by decide +kernel⟩⟩

theorem parse_of_rightmost_repetition : ∃ t, build .reject repetition = .ok t ∧
    t.parse 6 ["a", "a"] =
      some (.ok [.reduce 2, .shift, .reduce 1, .shift, .reduce 1, .accept]) ∧
    ∀ rs, Rightmost repetition ["S"] rs ["a", "a"] →
      rs = [⟨1, [], []⟩, ⟨1, [], ["a"]⟩, ⟨2, [], ["a", "a"]⟩] := by
  have hg : repetition.Augmented := ⟨by decide +kernel, by decide +kernel⟩
  obtain ⟨t, ht⟩ : ∃ t, build .reject repetition = .ok t := ⟨_, rfl⟩
  have h : Rightmost repetition ["S"] [⟨1, [], []⟩, ⟨1, [], ["a"]⟩, ⟨2, [], ["a", "a"]⟩]
      ["a", "a"] :=
    .step (r := ⟨1, [], []⟩) (p := ⟨"S", ["S", "a"], none⟩) rfl nofun <|
    .step (r := ⟨1, [], ["a"]⟩) (p := ⟨"S", ["S", "a"], none⟩) rfl (by decide +kernel) <|
    .step (r := ⟨2, [], ["a", "a"]⟩) (p := ⟨"S", [], none⟩) rfl (by decide +kernel) <|
    .refl ["a", "a"]
  obtain ⟨hparse, hunique⟩ := parse_of_rightmost hg ht (by decide +kernel) h
  exact ⟨t, ht, (hparse 6 (by decide)).1, hunique⟩

end Table

end FrontEnd
