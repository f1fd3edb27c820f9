/-
# `Slr.Invariant` — what holds of a parser between two moves

Under either policy the stack is a path of the automaton, over symbols that derive what has been
read.  That is so for a parser that is running, since every move keeps it (`Explains.runs`); here
it is shown of the last move too, for which the reductions have to be looked into.

A reduction takes the states of a body off the stack before it looks for the goto.  The goto is
there.  The item that is complete on top was predicted where its body begins, in the state that
the body is read from; so that state goes on over the head, and since no completed item wants a
cell at a non-terminal, nothing has overwritten the transition (`build_goto_of_nonterminal`).
The one item that is not predicted belongs to the augmenting production, which is completed at
the end marker only, and there it accepts.
-/
import FrontEnd.Proofs.Grammar.Analysis
import FrontEnd.Proofs.Slr.Soundness

namespace FrontEnd

open FrontEnd.Derivation

/-- The symbols that have been read.  An end marker behind which the parser got stuck is none of
them. -/
def Configuration.read (c : Configuration) : List Symbol :=
  if c.status = .stuck then wordOf (c.input.take c.position) else c.input.take c.position

namespace Table

variable {g : Grammar} {policy : Policy} {t : Table} {c d : Configuration}
  {tokens : List (Symbol × String)} {past : Trace} {xs : List Symbol} {ts : List Derivation}

/-! ## Reductions -/

/-- A transition over a non-terminal is a goto, where conflicts are refused or the end marker is
a terminal. -/
theorem build_goto_of_nonterminal (hmark : policy = .reject ∨ g.isTerminal endMarker = true)
    (ht : build policy g = .ok t) {q r : Nat} {x : Symbol} (hx : g.isTerminal x ≠ true)
    (htrans : (Lr.Automaton.ofGrammar g).transition q x = some r) : t.goto q x = some r := by
  rcases hmark with rfl | hend
  · exact build_goto_of_transition ht htrans
  obtain ⟨a, ha⟩ := build_taken ht (.shift htrans)
  rw [goto, ha]
  cases build_claimed ht ha with
  | shift htrans' =>
      obtain rfl := Option.some.inj (htrans.symm.trans htrans')
      rfl
  | reduce _ _ hfollow => exact absurd (Grammar.isTerminal_of_mem_follow hend hfollow) hx
  | accept => exact absurd hend hx

/-- A reduction that the table asks for on a path can be made, where the start symbol is in
no body. -/
theorem ReducesHere.exists_goto_of_fresh (hstart : ∀ p ∈ g.productions, g.start ∉ p.body)
    (hmark : policy = .reject ∨ g.isTerminal endMarker = true) (ht : build policy g = .ok t)
    {i : Nat} (h : ReducesHere t c i) (hpath : Lr.Path g xs c.stack) :
    ∃ p q rest r, g.production? i = some p ∧ p.body.length < c.stack.length ∧
      c.stack.drop p.body.length = q :: rest ∧ t.goto q p.head = some r := by
  obtain ⟨top, below, hstack, -, hact⟩ := h
  obtain ⟨p, hp, hholds, hfollow, hend⟩ := (build_claimed ht hact).of_reduce
  have hhead : p.head ≠ g.start := by
    intro heq
    exact hend heq (Grammar.eq_endMarker_of_mem_follow_start hstart (heq ▸ hfollow))
  have hvalid := Lr.Path.valid (hstack ▸ hpath) hholds
  -- the state below the body
  obtain ⟨hle, -⟩ := hvalid.take_eq hp
  have hunder := hpath.drop hle
  obtain ⟨q, rest, hdrop⟩ := hunder.exists_top
  have hlt : p.body.length < c.stack.length := by
    refine Nat.lt_of_not_le fun hge => ?_
    rw [List.drop_eq_nil_of_le hge] at hdrop
    exact nomatch hdrop
  rw [hdrop] at hunder
  -- has the item that predicted the production
  rcases hvalid.front.front_cases with rfl | ⟨j, p', hj, hp', hnext⟩
  · obtain ⟨p', hp', haugmenting, -⟩ := g.production?_augmenting
    obtain rfl : p = p' := Option.some.inj (hp.symm.trans hp')
    exact absurd haugmenting hhead
  · obtain rfl : p = p' := Option.some.inj (hp.symm.trans hp')
    obtain ⟨r, htrans, -⟩ := (Lr.Path.holds hj hunder).advance hnext
    exact ⟨p, q, rest, r, hp, hlt, hdrop,
      build_goto_of_nonterminal hmark ht (Grammar.not_isTerminal_head hp) htrans⟩

theorem ReducesHere.exists_goto (hg : g.Augmented) (ht : build policy g = .ok t) {i : Nat}
    (h : ReducesHere t c i) (hpath : Lr.Path g xs c.stack) :
    ∃ p q rest r, g.production? i = some p ∧ p.body.length < c.stack.length ∧
      c.stack.drop p.body.length = q :: rest ∧ t.goto q p.head = some r :=
  h.exists_goto_of_fresh hg.start_fresh (.inr hg.isTerminal_endMarker) ht hpath

/-- So a parser on a path that finds no way on was not told to reduce. -/
theorem not_reducesHere_of_error (hstart : ∀ p ∈ g.productions, g.start ∉ p.body)
    (hmark : policy = .reject ∨ g.isTerminal endMarker = true) (ht : build policy g = .ok t)
    (hc : c.status = .running) (hpath : Lr.Path g xs c.stack) (h : t.step c = (.error, d))
    (i : Nat) : ¬ ReducesHere t c i := by
  intro hreduces
  obtain ⟨p, q, rest, r, hp, -, hdrop, hgoto⟩ := hreduces.exists_goto_of_fresh hstart hmark ht hpath
  rw [← build_grammar ht] at hp
  exact not_reducesHere_of_step_error hc h hp hdrop hgoto hreduces

/-- It leaves its stack as it is. -/
theorem stack_of_error (hg : g.Augmented) (ht : build policy g = .ok t)
    (hc : c.status = .running) (hpath : Lr.Path g xs c.stack) (h : t.step c = (.error, d)) :
    d.stack = c.stack :=
  stack_of_step_error hc h
    (not_reducesHere_of_error hg.start_fresh (.inr hg.isTerminal_endMarker) ht hc hpath h)

/-! ## What has been read -/

/-- `OnTrack g input c`: a parser over `input` is at a place in it, and its stack is a path over
symbols that derive what has been read. -/
structure OnTrack (g : Grammar) (input : List Symbol) (c : Configuration) : Prop where
  input_eq : c.input = input
  within : c.position ≤ input.length
  path : ∃ xs rs, Lr.Path g xs c.stack ∧ Rightmost g xs.reverse rs c.read

theorem path_endMarker_notMem (hg : g.Augmented) {stack : List Nat} (h : Lr.Path g xs stack) :
    endMarker ∉ xs := by
  induction h with
  | start => exact List.not_mem_nil
  | step _ htrans ih =>
      intro hmem
      rcases List.mem_cons.mp hmem with heq | hmem
      · exact transition_ne_endMarker hg htrans heq.symm
      · exact ih hmem

/-- No end marker has been read into the trees. -/
theorem Explains.endMarker_notMem (hg : g.Augmented) (h : Explains g tokens c past xs ts) :
    endMarker ∉ c.input.take c.position := by
  rw [← h.yield_eq]
  refine h.trees.endMarker_notMem hg ?_
  rw [List.mem_reverse]
  exact path_endMarker_notMem hg h.path

theorem Explains.onTrack (h : Explains g tokens c past xs ts) (hinput : d.input = c.input)
    (hwithin : d.position ≤ c.input.length) (hstack : d.stack = c.stack)
    (hread : d.read = c.input.take c.position) : OnTrack g c.input d := by
  obtain ⟨rs, hrs, -⟩ := h.trees.rightmost
  refine ⟨hinput, hwithin, xs, rs, hstack ▸ h.path, ?_⟩
  rw [hread, ← h.yield_eq]
  exact hrs

/-- The last move of all leaves the stack where it is, and reads an end marker at most. -/
theorem Explains.onTrack_last (hg : g.Augmented) (ht : build policy g = .ok t)
    (h : Explains g tokens c past xs ts) (hc : c.status = .running)
    (hdone : (t.step c).2.isDone = true) : OnTrack g c.input (t.step c).2 := by
  rcases step_cases t hc with ⟨d, hstep, -⟩ | ⟨m, d, hstep, hmakes⟩
  · rw [hstep]
    have hstack := stack_of_error hg ht hc h.path hstep
    rcases step_error_cases hc hstep with ⟨-, stack, rfl⟩ | ⟨hacc, hmore, rfl⟩
    · refine h.onTrack rfl h.position_le hstack ?_
      show wordOf (c.input.take c.position) = _
      exact wordOf_of_notMem (h.endMarker_notMem hg)
    · refine h.onTrack rfl (Nat.le_of_lt hmore) hstack ?_
      obtain ⟨hlook, -⟩ := hacc.path hg.start_fresh ht h.path
      have hlt : c.position < c.input.length := Nat.lt_of_succ_lt hmore
      rw [Configuration.lookahead, List.getElem?_eq_getElem hlt, Option.getD_some] at hlook
      show wordOf (c.input.take (c.position + 1)) = _
      rw [List.take_add_one, List.getElem?_eq_getElem hlt, hlook]
      exact wordOf_append_endMarker _
  · rw [hstep] at hdone ⊢
    by_cases hm : m = .accept
    · subst hm
      obtain ⟨-, rfl⟩ := hmakes.acceptsHere
      exact h.onTrack rfl h.position_le rfl rfl
    · have hd : d.status = .running := (hmakes.running hm).1.trans hc
      simp [Configuration.isDone, hd] at hdone

/-- A parser stays on track, whatever it does. -/
theorem onTrack_afterMoves (hg : g.Augmented) (ht : build policy g = .ok t) (input : List Symbol)
    (n : Nat) : OnTrack g input (t.afterMoves n (.start input)) := by
  obtain ⟨tokens, rfl⟩ : ∃ tokens : List (Symbol × String), input = tokens.map Prod.fst :=
    ⟨input.map fun x => (x, x), by simp [Function.comp_def]⟩
  have hsame {d : Configuration} {past : Trace} (h : Runs t (.start (tokens.map Prod.fst)) past d) :
      d.status = .running ∧ d.input = tokens.map Prod.fst := h.running
  rcases afterMoves_cases t n (c := .start (tokens.map Prod.fst)) rfl with
    ⟨past, -, hruns⟩ | ⟨past, d, hruns, hlast, hdone⟩
  · obtain ⟨xs, ts, hd⟩ := (explains_start g tokens).runs hg ht hruns
    obtain ⟨hstatus, hinput⟩ := hsame hruns
    have htrack := hd.onTrack rfl hd.position_le rfl (if_neg (by rw [hstatus]; decide))
    rwa [hinput] at htrack
  · obtain ⟨xs, ts, hd⟩ := (explains_start g tokens).runs hg ht hruns
    obtain ⟨hstatus, hinput⟩ := hsame hruns
    rw [hlast, ← hinput]
    exact hd.onTrack_last hg ht hstatus hdone

/-! ## The invariant -/

/-- `Invariant t g input c`: the parser is on track; a reduction that its table asks for has its
production, more states on the stack than symbols in the body, and a goto over the head; and a
move that finds no way on leaves the stack as it was. -/
structure Invariant (t : Table) (g : Grammar) (input : List Symbol) (c : Configuration) : Prop
    extends OnTrack g input c where
  reduces : ∀ i, ReducesHere t c i → ∃ p q rest r, g.production? i = some p ∧
    p.body.length < c.stack.length ∧ c.stack.drop p.body.length = q :: rest ∧
    t.goto q p.head = some r
  keeps : (t.step c).1 = .error → (t.step c).2.stack = c.stack

/-- **Stack invariant**, under either policy, where the start symbol is in no body and the end
marker in no production, after any number of moves. -/
theorem invariant_afterMoves (hg : g.Augmented) (ht : build policy g = .ok t)
    (input : List Symbol) (n : Nat) : Invariant t g input (t.afterMoves n (.start input)) := by
  have htrack := onTrack_afterMoves hg ht input n
  obtain ⟨xs, rs, hpath, -⟩ := htrack.path
  refine ⟨htrack, ?_, ?_⟩
  · intro i hreduces
    exact hreduces.exists_goto hg ht hpath
  · intro herror
    by_cases hc : (t.afterMoves n (.start input)).status = .running
    · exact stack_of_error hg ht hc hpath (Prod.ext herror rfl)
    · rw [step_of_isDone (by simp [Configuration.isDone, hc])]

/-- Here the table has a conflict, and the parser gets stuck behind an end marker. -/
theorem invariant_afterMoves_sums : ∃ t c, build .lastWins sums = .ok t ∧
    t.afterMoves 7 (.start ["a", "+", "a", "$", "a"]) = c ∧ c.status = .stuck ∧
    c.position = 4 ∧ c.read = ["a", "+", "a"] ∧
    Invariant t sums ["a", "+", "a", "$", "a"] c := by
  have hg : sums.Augmented := ⟨by decide +kernel, by decide +kernel⟩
  obtain ⟨t, ht, hstatus, hposition, hread⟩ : ∃ t, build .lastWins sums = .ok t ∧
      (t.afterMoves 7 (.start ["a", "+", "a", "$", "a"])).status = .stuck ∧
      (t.afterMoves 7 (.start ["a", "+", "a", "$", "a"])).position = 4 ∧
      (t.afterMoves 7 (.start ["a", "+", "a", "$", "a"])).read = ["a", "+", "a"] :=
    ⟨_, rfl, rfl, rfl, rfl⟩
  exact ⟨t, _, ht, rfl, hstatus, hposition, hread, invariant_afterMoves hg ht _ 7⟩

end Table

end FrontEnd
