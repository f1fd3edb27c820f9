/-
# `Slr.Report` — what a parse error says of its lookahead

The report of a parser that is stuck is put together behind its last move: the state that is then
on top, the lookahead that is then next, and the terminals at which that state has an action.
Where the cell of the lookahead was empty, or the lookahead was no terminal, the
last move has changed none of them, and so the lookahead is not among those terminals.

The last move can change them in two ways.  A reduction takes the states of a body off the
stack and may then find no goto; but where the start symbol is in no body there is one, unless
another action has been written over it (`not_reducesHere_of_error`).  And behind an end marker
that was given, the move goes on to the next symbol of the input, while the state on top is
still the one that was to accept at the end marker (`ParseError.BehindEnd`).  That state may well
have an action at the next symbol.
-/
import FrontEnd.Proofs.Slr.Acceptance
import FrontEnd.Proofs.Slr.Invariant

namespace FrontEnd

/-- The parser was about to accept at an end marker, and was stopped by what stands behind it. -/
structure ParseError.BehindEnd (e : ParseError) (t : Table) (input : List Symbol) : Prop where
  behind : 0 < e.position
  within : e.position < input.length
  marker : input[e.position - 1]? = some endMarker
  accepts : t.action e.state endMarker = some .accept

namespace Table

variable {g : Grammar} {policy : Policy} {t : Table} {c d : Configuration} {xs : List Symbol}

/-- The expected symbols are the terminals whose cells are taken. -/
theorem mem_expected {q : Nat} {x : Symbol} :
    x ∈ t.expected q ↔ t.grammar.isTerminal x = true ∧ ∃ a, t.action q x = some a := by
  rw [expected, List.mem_filter, and_comm, action]
  refine and_congr_right fun _ => ?_
  rw [← Option.isSome_iff_exists, ← Option.ne_none_iff_isSome]
  cases t.rows[q]? with
  | none => simp
  | some row => simp [List.lookup_eq_none_iff]

/-- Where there is neither a reduction nor acceptance to make, a state that is stuck does not
expect the lookahead. -/
theorem lookahead_notMem_of_step_error (hc : c.status = .running) (h : t.step c = (.error, d))
    (haccepts : ¬ AcceptsHere t c) (hreduces : ∀ i, ¬ ReducesHere t c i) {q : Nat}
    {rest : List Nat} (hstack : c.stack = q :: rest) : c.lookahead ∉ t.expected q := by
  intro hmem
  obtain ⟨hterm, a, ha⟩ := mem_expected.mp hmem
  rw [action_of_step_error hc h haccepts hreduces hstack hterm] at ha
  exact nomatch ha

/-- A parser that was to accept and is stuck stands behind an end marker that was given. -/
theorem behindEnd_of_acceptsHere (ht : build policy g = .ok t) (hacc : AcceptsHere t c)
    (hmore : c.position + 1 < c.input.length) (past : Trace) :
    ParseError.BehindEnd
      { t.report { c with position := c.position + 1, status := .stuck } with trace := past }
      t c.input := by
  obtain ⟨q, rest, hstack, -, hact⟩ := hacc
  obtain ⟨hlook, -⟩ := (build_claimed ht hact).of_accept
  have hlt : c.position < c.input.length := Nat.lt_of_succ_lt hmore
  have hread : c.input[c.position]? = some c.lookahead := by
    rw [Configuration.lookahead, List.getElem?_eq_getElem hlt]
    rfl
  refine ⟨Nat.succ_pos _, hmore, ?_, ?_⟩
  · rw [← hlook]
    exact hread
  · show t.action (c.stack.headD 0) endMarker = some .accept
    rw [hstack, ← hlook]
    exact hact

/-- A parse error does not expect its own lookahead, or it is about something behind an end marker
that was given. -/
theorem notMem_expected_or_behindEnd (hstart : ∀ p ∈ g.productions, g.start ∉ p.body)
    (hmark : policy = .reject ∨ g.isTerminal endMarker = true) (ht : build policy g = .ok t)
    {limit : Nat} {input : List Symbol} {e : ParseError}
    (h : t.parse limit input = some (.error e)) :
    e.lookahead ∉ e.expected ∨ e.BehindEnd t input := by
  obtain ⟨past, c, last, hruns, hstep, rfl⟩ := exists_runs_of_run rfl h
  obtain ⟨hc, hinput⟩ := hruns.running
  obtain ⟨xs, hpath⟩ := hruns.path ht .start
  rcases step_error_cases hc hstep with ⟨hacc, stack, rfl⟩ | ⟨hacc, hmore, rfl⟩
  · have hreduces := not_reducesHere_of_error hstart hmark ht hc hpath hstep
    obtain rfl : stack = c.stack := stack_of_step_error hc hstep hreduces
    obtain ⟨q, rest, hstack⟩ := hpath.exists_top
    refine Or.inl ?_
    show c.lookahead ∉ t.expected (c.stack.headD 0)
    rw [hstack]
    exact lookahead_notMem_of_step_error hc hstep hacc hreduces hstack
  · refine Or.inr ?_
    obtain rfl : c.input = input := hinput
    exact behindEnd_of_acceptsHere ht hacc hmore _

/-- **A parse error does not expect its own lookahead**, under either policy, where the start symbol
is in no body, the end marker is a terminal or conflicts are refused, and nothing stands behind
an end marker in the input. -/
theorem lookahead_notMem_expected (hstart : ∀ p ∈ g.productions, g.start ∉ p.body)
    (hmark : policy = .reject ∨ g.isTerminal endMarker = true) (ht : build policy g = .ok t)
    {limit : Nat} {input : List Symbol} (hlast : endMarker ∉ input.dropLast) {e : ParseError}
    (h : t.parse limit input = some (.error e)) : e.lookahead ∉ e.expected := by
  rcases notMem_expected_or_behindEnd hstart hmark ht h with hnot | hbehind
  · exact hnot
  · have hpos := hbehind.behind
    have hlt := hbehind.within
    refine absurd (List.mem_of_getElem? (i := e.position - 1) ?_) hlast
    rw [List.getElem?_dropLast, if_pos (by omega)]
    exact hbehind.marker

/-- Here the table has a conflict, and the input ends with an end marker that comes too early. -/
theorem lookahead_notMem_expected_sums : ∃ t e, build .lastWins sums = .ok t ∧
    t.parse 9 ["a", "+", "a", "+", "$"] = some (.error e) ∧ e.position = 4 ∧
    e.lookahead = "$" ∧ e.expected = ["a"] ∧ e.lookahead ∉ e.expected := by
  obtain ⟨t, ht, e, he, hposition, hlook, hexpected⟩ : ∃ t, build .lastWins sums = .ok t ∧
      ∃ e, t.parse 9 ["a", "+", "a", "+", "$"] = some (.error e) ∧ e.position = 4 ∧
        e.lookahead = "$" ∧ e.expected = ["a"] := ⟨_, rfl, _, rfl, rfl, rfl, rfl⟩
  have hstart : ∀ p ∈ sums.productions, sums.start ∉ p.body := by decide +kernel
  have hmark : sums.isTerminal endMarker = true := by decide +kernel
  exact ⟨t, e, ht, he, hposition, hlook, hexpected,
    lookahead_notMem_expected hstart (.inr hmark) ht (by decide +kernel) he⟩

/-- A whole sentence between a parenthesis and a `b`, or a `b`. -/
def openNested : Grammar :=
  ⟨"S'", 0, [⟨"S'", ["S"], none⟩, ⟨"S", ["(", "S'", "b"], none⟩, ⟨"S", ["b"], none⟩],
    ⟨⟨⟨"S'", ["S"], none⟩, by decide +kernel, by decide +kernel⟩, by decide +kernel⟩⟩

/-- Here the end marker is a non-terminal. -/
def markedHead : Grammar :=
  ⟨"S'", 0, [⟨"S'", ["S"], none⟩, ⟨"S", ["E"], none⟩, ⟨"S", ["$", "y"], none⟩,
      ⟨"S", ["y", "z"], none⟩, ⟨"E", [], none⟩, ⟨"$", ["b"], none⟩],
    ⟨⟨⟨"S'", ["S"], none⟩, by decide +kernel, by decide +kernel⟩, by decide +kernel⟩⟩

/-- Without each of the conditions a parse error can expect its own lookahead: behind an end marker
that was given; where the start symbol is in a body, and a reduction by its production finds no
goto; and where the goto over the end marker has been overwritten. -/
theorem lookahead_mem_expected :
    (∃ t e, build .reject lists = .ok t ∧ t.parse 3 ["a", "$", ","] = some (.error e) ∧
      e.position = 2 ∧ e.lookahead = "," ∧ e.expected = ["$", ","] ∧ e.lookahead ∈ e.expected) ∧
    (∃ t e, build .reject openNested = .ok t ∧ t.parse 3 ["b", "b"] = some (.error e) ∧
      e.lookahead = "b" ∧ e.expected = ["(", "b"] ∧ e.lookahead ∈ e.expected) ∧
    ∃ t e, build .lastWins markedHead = .ok t ∧ t.parse 2 ["b", "y"] = some (.error e) ∧
      e.lookahead = "y" ∧ e.expected = ["b", "y"] ∧ e.lookahead ∈ e.expected := by
  refine ⟨⟨_, _, rfl, rfl, rfl, rfl, rfl, ?_⟩, ⟨_, _, rfl, rfl, rfl, rfl, ?_⟩,
    ⟨_, _, rfl, rfl, rfl, rfl, ?_⟩⟩
  · decide +kernel
  · decide +kernel
  · decide +kernel

end Table

end FrontEnd
