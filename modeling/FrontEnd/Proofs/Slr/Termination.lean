/-
# `Slr.Termination` — a parser without conflicts is done after some moves

A reduction reads nothing, and one by an empty body even makes the stack higher, so nothing in a
configuration gets smaller with every move.  What bounds a run is that it is the beginning of a
parse that succeeds.  At each move the trees along the stack are the first ones of a tree for the
root, and the parser over the leaves of that tree has made the same moves
(`Runs.over_sentence`).

The parser sees one symbol ahead.  So over all sentences that begin with what has been read and
go on with the same symbol it makes the same moves, and one of these sentences says how many
there are at most (`bddAbove_lengthsAt`).  What has been read ends at some position of the
input, and only symbols in bodies go on; so there are finitely many bounds, and the largest is
one for all runs (`runs_bounded`).

Two things can make a parser go on for ever without a conflict.  A non-terminal that derives
nothing may be predicted again and again, since there is no sentence to come.  And where the
start symbol is in a body, its production can be completed in a circle, since at the end marker
that is not a reduction but acceptance.
-/
import FrontEnd.Proofs.Slr.ViablePrefix
import Mathlib.Data.Set.Finite.Lattice
import Mathlib.Data.Set.Finite.List

namespace FrontEnd

open FrontEnd.Derivation

variable {g : Grammar}

theorem Grammar.live_of_heads (h : ∀ p ∈ g.productions, ∃ d, From g p.head d) : g.Live := by
  intro x _ hx
  by_contra hnone
  refine hx (isTerminal_iff.mpr ?_)
  intro p hp heq
  exact hnone (heq ▸ h p hp)

/-! ## The symbols at the leaves -/

namespace Derivation

mutual

/-- The leaves of a tree are its root or symbols in bodies. -/
theorem From.mem_yield {x y : Symbol} {tree : Derivation} (h : From g x tree)
    (hy : y ∈ tree.yield) : y = x ∨ y ∈ g.productions.flatMap (·.body) := by
  cases h with
  | leaf _ => exact Or.inl (List.mem_singleton.mp hy)
  | @node i p children hp hchildren =>
      rcases hchildren.mem_yield hy with hy | hy
      · exact Or.inr (List.mem_flatMap.mpr ⟨p, Grammar.mem_of_production? hp, hy⟩)
      · exact Or.inr hy

theorem FromAll.mem_yield {xs : List Symbol} {y : Symbol} {ts : List Derivation}
    (h : FromAll g xs ts) (hy : y ∈ yieldAll ts) :
    y ∈ xs ∨ y ∈ g.productions.flatMap (·.body) := by
  cases h with
  | nil => exact absurd hy List.not_mem_nil
  | cons ht hts =>
      rw [yieldAll_cons] at hy
      rcases List.mem_append.mp hy with hy | hy
      · rcases ht.mem_yield hy with rfl | hy
        · exact Or.inl List.mem_cons_self
        · exact Or.inr hy
      · exact (hts.mem_yield hy).imp_left (List.mem_cons_of_mem _)

end

end Derivation

namespace Table

variable {t : Table} {c d : Configuration} {past : Trace} {input : List Symbol}

/-! ## Runs over sentences -/

/-- The symbols that a sentence can go on with. -/
def onward (g : Grammar) : List Symbol := endMarker :: g.productions.flatMap (·.body)

theorem lookahead_mem_onward {tree : Derivation} (h : From g g.root tree) (k : Nat) :
    tree.yield[k]?.getD endMarker ∈ onward g := by
  cases hk : tree.yield[k]? with
  | none => exact List.mem_cons_self
  | some y =>
      obtain ⟨p, hp, -, hbody⟩ := g.production?_augmenting
      refine List.mem_cons_of_mem _ ?_
      rcases h.mem_yield (List.mem_of_getElem? hk) with rfl | hy
      · refine List.mem_flatMap.mpr ⟨p, Grammar.mem_of_production? hp, ?_⟩
        rw [hbody]
        exact List.mem_cons_self
      · exact hy

/-- A run over any input is one over a sentence that begins with what has been read. -/
theorem Runs.over_sentence (hg : g.Augmented) (hlive : g.Live)
    (ht : build .reject g = .ok t) (h : Runs t (.start input) past d) :
    d.position ≤ input.length ∧ ∃ tree e, From g g.root tree ∧
      input.take d.position <+: tree.yield ∧ Runs t (.start tree.yield) past e ∧
      e.position = d.position := by
  obtain ⟨tokens, rfl⟩ : ∃ tokens : List (Symbol × String), input = tokens.map Prod.fst :=
    ⟨input.map fun x => (x, x), by simp [Function.comp_def]⟩
  obtain ⟨xs, ts, hd⟩ := (explains_start g tokens).runs hg ht h
  have hinput : d.input = tokens.map Prod.fst := h.running.2
  obtain ⟨tree, rest, htree, hprefix, hmoves⟩ := hd.path.exists_tree hlive hd.trees
  rw [hd.yield_eq, hinput] at hprefix
  rw [hd.moves_eq, List.nil_append] at hmoves
  have haccepts := accepts_of_tree hg ht htree (Or.inl rfl)
  rw [hmoves, List.append_assoc] at haccepts
  obtain ⟨e, hruns⟩ := haccepts.exists_runs (by simp)
  refine ⟨hinput ▸ hd.position_le, tree, e, htree, hprefix, hruns, ?_⟩
  rw [hruns.position_eq, h.position_eq]
  rfl

/-- A run is shorter than the parse of a sentence with the same lookaheads. -/
theorem Runs.length_lt (h : Runs t (.start input) past d) {w : List Symbol} {trace : Trace}
    (haccepts : Accepts t (.start w) trace)
    (hsame : ∀ k ≤ d.position, w[k]?.getD endMarker = input[k]?.getD endMarker) :
    past.length < trace.length := by
  have hruns : Runs t (.start w) past (d.over w) := h.over rfl hsame
  obtain ⟨rest, hrest⟩ := haccepts.behind hruns rfl
  obtain rfl := haccepts.unique rfl (hrest.after_runs hruns)
  rw [List.length_append]
  exact Nat.lt_add_of_pos_right (List.length_pos_iff.mpr hrest.ne_nil)

/-- Two words that begin with the same symbols and go on with the same one have the same
lookaheads so far. -/
theorem lookahead_of_prefixes {v w : List Symbol} {n : Nat} (hn : n ≤ input.length)
    (hv : input.take n <+: v) (hw : input.take n <+: w)
    (hnext : v[n]?.getD endMarker = w[n]?.getD endMarker) :
    ∀ k ≤ n, v[k]?.getD endMarker = w[k]?.getD endMarker := by
  intro k hk
  obtain ⟨v', rfl⟩ := hv
  obtain ⟨w', rfl⟩ := hw
  have hlen : (input.take n).length = n := by rw [List.length_take, Nat.min_eq_left hn]
  rcases Nat.lt_or_eq_of_le hk with hlt | rfl
  · rw [List.getElem?_append_left (by rwa [hlen]), List.getElem?_append_left (by rwa [hlen])]
  · exact hnext

/-! ## Bounds -/

/-- The lengths of the runs over sentences that begin with the first `n` symbols of the input, go
on with `x`, and have been read up to there. -/
def lengthsAt (t : Table) (g : Grammar) (input : List Symbol) (n : Nat) (x : Symbol) : Set Nat :=
  {k | ∃ tree past d, From g g.root tree ∧ input.take n <+: tree.yield ∧
    tree.yield[n]?.getD endMarker = x ∧ Runs t (.start tree.yield) past d ∧ d.position = n ∧
    past.length = k}

theorem bddAbove_lengthsAt (hg : g.Augmented) (ht : build .reject g = .ok t) {n : Nat}
    (hn : n ≤ input.length) (x : Symbol) : BddAbove (lengthsAt t g input n x) := by
  by_cases hex : ∃ tree, From g g.root tree ∧ input.take n <+: tree.yield ∧
      tree.yield[n]?.getD endMarker = x
  · obtain ⟨tree, htree, hprefix, hnext⟩ := hex
    have haccepts := accepts_of_tree hg ht htree (Or.inl rfl)
    refine ⟨(tree.moves ++ [Move.accept]).length, ?_⟩
    rintro k ⟨tree', past, d, -, hprefix', hnext', hruns, rfl, rfl⟩
    refine Nat.le_of_lt (hruns.length_lt haccepts ?_)
    exact lookahead_of_prefixes hn hprefix hprefix' (hnext.trans hnext'.symm)
  · refine ⟨0, ?_⟩
    rintro k ⟨tree, past, d, htree, hprefix, hnext, -⟩
    exact absurd ⟨tree, htree, hprefix, hnext⟩ hex

/-- There is a bound for all runs over an input. -/
theorem runs_bounded (hg : g.Augmented) (hlive : g.Live)
    (ht : build .reject g = .ok t) (input : List Symbol) :
    ∃ bound, ∀ past d, Runs t (.start input) past d → past.length ≤ bound := by
  have hfinite : {n : Nat | n ≤ input.length}.Finite := Set.finite_le_nat _
  have hbdd : BddAbove (⋃ n ∈ {n | n ≤ input.length}, ⋃ x ∈ {x | x ∈ onward g},
      lengthsAt t g input n x) := by
    refine (Set.Finite.bddAbove_biUnion hfinite).mpr fun n hn => ?_
    exact (Set.Finite.bddAbove_biUnion (List.finite_toSet _)).mpr fun x _ =>
      bddAbove_lengthsAt hg ht hn x
  obtain ⟨bound, hbound⟩ := hbdd
  refine ⟨bound, ?_⟩
  intro past d hruns
  obtain ⟨hle, tree, e, htree, hprefix, hruns', hposition⟩ :=
    hruns.over_sentence hg hlive ht
  refine hbound (Set.mem_biUnion hle (Set.mem_biUnion (lookahead_mem_onward htree d.position) ?_))
  exact ⟨tree, past, e, htree, hprefix, rfl, hruns', hposition, rfl⟩

/-- **Termination**, where conflicts are refused, every non-terminal that can be predicted derives
something and the start symbol is in no body.  After some number of moves the parser is done, and
from that limit on a parse has one outcome. -/
theorem parse_terminates (hg : g.Augmented) (hlive : g.Live)
    (ht : build .reject g = .ok t) (input : List Symbol) :
    ∃ n, (t.afterMoves n (.start input)).isDone = true ∧
      ∃ r, ∀ limit, n ≤ limit → t.parse limit input = some r := by
  obtain ⟨bound, hbound⟩ := runs_bounded hg hlive ht input
  have hdone : (t.afterMoves (bound + 1) (.start input)).isDone = true := by
    rcases afterMoves_cases t (bound + 1) (c := .start input) rfl with
      ⟨past, hlen, hruns⟩ | ⟨past, d, -, hlast, hdone⟩
    · have hle := hbound past _ hruns
      omega
    · rw [hlast]
      exact hdone
  refine ⟨bound + 1, hdone, ?_⟩
  cases hrun : t.run (bound + 1) (.start input) with
  | none => exact absurd ((run_eq_none_iff rfl).mp hrun) (by simp [hdone])
  | some r => exact ⟨r, fun limit hle => run_of_le rfl hle hrun⟩

theorem parse_terminates_repetition : ∃ t, build .reject repetition = .ok t ∧
    repetition.Live ∧ ∃ n, (t.afterMoves n (.start ["a", "b", "a"])).isDone = true ∧
      ∃ r, ∀ limit, n ≤ limit → t.parse limit ["a", "b", "a"] = some r := by
  have hg : repetition.Augmented := ⟨by decide +kernel, by decide +kernel⟩
  have hempty : From repetition "S" (.node 2 []) := .node (p := ⟨"S", [], none⟩) rfl .nil
  have hlive : repetition.Live := by
    refine Grammar.live_of_heads ?_
    intro p hp
    obtain rfl | rfl | rfl : p = ⟨"S'", ["S"], none⟩ ∨ p = ⟨"S", ["S", "a"], none⟩ ∨
        p = ⟨"S", [], none⟩ := by simpa [repetition] using hp
    · exact ⟨_, .node (i := 0) (p := ⟨"S'", ["S"], none⟩) rfl (.cons hempty .nil)⟩
    · exact ⟨_, hempty⟩
    · exact ⟨_, hempty⟩
  obtain ⟨t, ht⟩ : ∃ t, build .reject repetition = .ok t := ⟨_, rfl⟩
  exact ⟨t, ht, hlive, parse_terminates hg hlive ht ["a", "b", "a"]⟩

/-! ## Parsers that go on for ever -/

/-- A parser is never done when its moves keep it among running configurations. -/
theorem endless_of_step {I : Configuration → Prop} (hrunning : ∀ c, I c → c.status = .running)
    (hstep : ∀ c, I c → I (t.step c).2) (hstart : I (.start input)) :
    (∀ n, (t.afterMoves n (.start input)).isDone = false) ∧
      ∀ limit, t.parse limit input = none := by
  have hnever (n : Nat) : (t.afterMoves n (.start input)).isDone = false := by
    simp [Configuration.isDone, hrunning _ (afterMoves_of_step hstep n hstart)]
  exact ⟨hnever, fun limit => (run_eq_none_iff rfl).mpr (hnever limit)⟩

/-- Here `L` derives no word, and what can stand behind `E` comes from another place. -/
def stalling : Grammar :=
  ⟨"S'", 0, [⟨"S'", ["S"], none⟩, ⟨"S", ["L"], none⟩, ⟨"S", ["c", "E", "d"], none⟩,
      ⟨"L", ["E", "L"], none⟩, ⟨"E", [], none⟩],
    ⟨⟨⟨"S'", ["S"], none⟩, by decide +kernel, by decide +kernel⟩, by decide +kernel⟩⟩

/-- Here the start symbol derives itself, and `X` cannot be reached. -/
def circling : Grammar :=
  ⟨"S'", 0, [⟨"S'", ["S"], none⟩, ⟨"S", ["S'"], none⟩, ⟨"S", ["b"], none⟩,
      ⟨"X", ["S'", "c"], none⟩],
    ⟨⟨⟨"S'", ["S"], none⟩, by decide +kernel, by decide +kernel⟩, by decide +kernel⟩⟩

/-- At `d` the state on top reduces by the empty body, and goes on over `E` to the same state. -/
def Stalled (t : Table) (c : Configuration) : Prop :=
  c.status = .running ∧ c.lookahead = "d" ∧ ∃ q rest, c.stack = q :: rest ∧
    t.action q "d" = some (.reduce 4) ∧ t.goto q "E" = some 4

theorem stalling_endless : ∃ t, build .reject stalling = .ok t ∧
    (∀ n, (t.afterMoves n (.start ["d"])).isDone = false) ∧
      ∀ limit, t.parse limit ["d"] = none := by
  obtain ⟨t, ht, hzero, hfour, hgotoZero, hgotoFour⟩ : ∃ t, build .reject stalling = .ok t ∧
      t.action 0 "d" = some (.reduce 4) ∧ t.action 4 "d" = some (.reduce 4) ∧
      t.goto 0 "E" = some 4 ∧ t.goto 4 "E" = some 4 := ⟨_, rfl, rfl, rfl, rfl, rfl⟩
  have hstart : Stalled t (.start ["d"]) := ⟨rfl, rfl, 0, [], rfl, hzero, hgotoZero⟩
  refine ⟨t, ht, endless_of_step (fun c hc => hc.1) ?_ hstart⟩
  -- every move puts one more state for `E` on the stack
  rintro c ⟨hrunning, hlook, q, rest, hstack, hact, hgoto⟩
  have hmakes : Makes t c (.reduce 4) { c with stack := 4 :: q :: rest } := by
    refine .reduce (p := ⟨"E", [], none⟩) hstack ?_ (hlook ▸ hact) ?_ hstack hgoto
    · rw [hlook, build_grammar ht]
      decide +kernel
    · rw [build_grammar ht]
      rfl
  rw [hmakes.step_eq hrunning]
  exact ⟨hrunning, hlook, 4, q :: rest, rfl, hfour, hgotoFour⟩

/-- At the start, or behind `b` with one of three states on top. -/
def Circled (c : Configuration) : Prop :=
  c = .start ["b", "c"] ∨
    ∃ q, c = ⟨["b", "c"], 1, [q, 0], .running⟩ ∧ (q = 3 ∨ q = 1 ∨ q = 2)

theorem circling_endless : ∃ t, build .reject circling = .ok t ∧
    (∀ n, (t.afterMoves n (.start ["b", "c"])).isDone = false) ∧
      ∀ limit, t.parse limit ["b", "c"] = none := by
  obtain ⟨t, ht, hshift, hreduce, hone, htwo⟩ : ∃ t, build .reject circling = .ok t ∧
      t.step (.start ["b", "c"]) = (.shift, ⟨["b", "c"], 1, [3, 0], .running⟩) ∧
      t.step ⟨["b", "c"], 1, [3, 0], .running⟩ = (.reduce 2, ⟨["b", "c"], 1, [1, 0], .running⟩) ∧
      t.step ⟨["b", "c"], 1, [1, 0], .running⟩ = (.reduce 0, ⟨["b", "c"], 1, [2, 0], .running⟩) ∧
      t.step ⟨["b", "c"], 1, [2, 0], .running⟩ = (.reduce 1, ⟨["b", "c"], 1, [1, 0], .running⟩) :=
    ⟨_, rfl, rfl, rfl, rfl, rfl⟩
  have hstart : Circled (.start ["b", "c"]) := Or.inl rfl
  refine ⟨t, ht, endless_of_step ?_ ?_ hstart⟩
  · rintro c (rfl | ⟨q, rfl, -⟩)
    · rfl
    · rfl
  · rintro c (rfl | ⟨q, rfl, rfl | rfl | rfl⟩)
    · exact Or.inr ⟨3, by rw [hshift], Or.inl rfl⟩
    · exact Or.inr ⟨1, by rw [hreduce], Or.inr (Or.inl rfl)⟩
    · exact Or.inr ⟨2, by rw [hone], Or.inr (Or.inr rfl)⟩
    · exact Or.inr ⟨1, by rw [htwo], Or.inr (Or.inl rfl)⟩

theorem circling_live : circling.Live := by
  have hb : From circling "S" (.node 2 [.leaf "b" "b"]) :=
    .node (p := ⟨"S", ["b"], none⟩) rfl (.cons (.leaf (by decide +kernel)) .nil)
  have hstart : From circling "S'" (.node 0 [.node 2 [.leaf "b" "b"]]) :=
    .node (p := ⟨"S'", ["S"], none⟩) rfl (.cons hb .nil)
  have hc : From circling "c" (.leaf "c" "c") := .leaf (by decide +kernel)
  refine Grammar.live_of_heads ?_
  intro p hp
  obtain rfl | rfl | rfl | rfl : p = ⟨"S'", ["S"], none⟩ ∨ p = ⟨"S", ["S'"], none⟩ ∨
      p = ⟨"S", ["b"], none⟩ ∨ p = ⟨"X", ["S'", "c"], none⟩ := by simpa [circling] using hp
  · exact ⟨_, hstart⟩
  · exact ⟨_, hb⟩
  · exact ⟨_, hb⟩
  · exact ⟨_, .node (i := 3) (p := ⟨"X", ["S'", "c"], none⟩) rfl
      (.cons hstart (.cons hc .nil))⟩

/-- Without a conflict a parser may still go on for ever: where a non-terminal derives nothing,
although the start symbol is in no body; and where the start symbol is in a body, although every
non-terminal derives something. -/
theorem endless_without_conflict :
    (stalling.Augmented ∧ ∃ t, build .reject stalling = .ok t ∧
      (∀ n, (t.afterMoves n (.start ["d"])).isDone = false) ∧
        ∀ limit, t.parse limit ["d"] = none) ∧
    ((∀ p ∈ circling.productions, p.head ≠ endMarker ∧ endMarker ∉ p.body) ∧ circling.Live ∧
      ∃ t, build .reject circling = .ok t ∧
        (∀ n, (t.afterMoves n (.start ["b", "c"])).isDone = false) ∧
          ∀ limit, t.parse limit ["b", "c"] = none) :=
  ⟨⟨⟨by decide +kernel, by decide +kernel⟩, stalling_endless⟩,
    by decide +kernel, circling_live, circling_endless⟩

end Table

end FrontEnd
