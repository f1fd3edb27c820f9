/-
# `Slr.ViablePrefix` — an error is found at the first wrong symbol

FOLLOW says what can come behind a symbol somewhere, not what can come next; so a parser may
make some reductions before it finds that its lookahead is wrong.  It never shifts a wrong
symbol all the same.

What has been read can be completed.  The stack of the parser is a path, and a valid item of
a path says how a sentence can go on: first the rest of its body, then what the item that
predicted it has behind the head (`Valid.exists_tree`).  That needs trees for symbols that
have not been read, so the non-terminals that can be predicted must derive something.

The lookahead is wrong.  A sentence that begins with what has been read and the lookahead would
be accepted, by a run that starts with the same moves; but there is no way on behind these.
-/
import FrontEnd.Proofs.Slr.Completeness
import FrontEnd.Proofs.Slr.Soundness

namespace FrontEnd

open FrontEnd.Derivation

variable {g : Grammar}

/-! ## Sentences -/

namespace Grammar

/-- The words that the grammar derives. -/
def Sentence (g : Grammar) (w : List Symbol) : Prop := ∃ d, From g g.root d ∧ d.yield = w

/-- Every non-terminal derives some word of terminals. -/
def Productive (g : Grammar) : Prop := ∀ x, g.isTerminal x ≠ true → ∃ d, From g x d

/-- The symbols that the start symbol leads to, over the bodies of productions. -/
inductive Reachable (g : Grammar) : Symbol → Prop
  | start : Reachable g g.start
  | body {p : Production} {x : Symbol} : p ∈ g.productions → Reachable g p.head → x ∈ p.body →
      Reachable g x

/-- Every non-terminal that the start symbol leads to derives some word of terminals. -/
def Live (g : Grammar) : Prop :=
  ∀ x, g.Reachable x → g.isTerminal x ≠ true → ∃ d, From g x d

theorem Productive.live (h : g.Productive) : g.Live := fun x _ => h x

/-- `FirstWrong g input n x`: the first `n` symbols of the input are the beginning of a sentence
with its end marker, and with `x` behind them they are not. -/
structure FirstWrong (g : Grammar) (input : List Symbol) (n : Nat) (x : Symbol) : Prop where
  within : n ≤ input.length
  viable : ∃ w, g.Sentence w ∧ input.take n <+: w ++ [endMarker]
  wrong : ∀ w, g.Sentence w → ¬ input.take n ++ [x] <+: w ++ [endMarker]

theorem Live.exists_trees (hg : g.Live) : ∀ xs, (∀ x ∈ xs, g.Reachable x) →
    ∃ ts, FromAll g xs ts := by
  intro xs
  induction xs with
  | nil =>
      intro _
      exact ⟨[], .nil⟩
  | cons x xs ih =>
      intro hxs
      obtain ⟨hx, hxs⟩ := List.forall_mem_cons.mp hxs
      obtain ⟨ts, hts⟩ := ih hxs
      by_cases hterm : g.isTerminal x = true
      · exact ⟨.leaf x x :: ts, .cons (.leaf hterm) hts⟩
      · obtain ⟨d, hd⟩ := hg x hx hterm
        exact ⟨d :: ts, .cons hd hts⟩

theorem Sentence.endMarker_notMem (hg : g.Augmented) {w : List Symbol} (h : g.Sentence w) :
    endMarker ∉ w := by
  obtain ⟨d, hd, rfl⟩ := h
  exact hd.endMarker_notMem hg hg.root_ne_endMarker

/-- The trees for the body of the augmenting production are one tree for the root. -/
theorem exists_tree_of_fromAll {p : Production} (hp : g.production? g.augmenting = some p)
    {ts : List Derivation} (hts : FromAll g p.body ts) :
    ∃ tree, From g g.root tree ∧ ts = [tree] := by
  obtain ⟨p', hp', -, hbody⟩ := g.production?_augmenting
  obtain rfl : p = p' := Option.some.inj (hp.symm.trans hp')
  rw [hbody] at hts
  obtain ⟨tree, rfl, htree⟩ := hts.single
  exact ⟨tree, htree, rfl⟩

end Grammar

/-! ## Completing a path -/

theorem Item.drop_of_next {i : Item} {x : Symbol} (h : i.next g = some x) :
    ∃ p, g.production? i.production = some p ∧
      p.body.drop i.dot = x :: p.body.drop (i.dot + 1) := by
  obtain ⟨p, hp, hx⟩ := Option.bind_eq_some_iff.mp h
  obtain ⟨hlt, rfl⟩ := List.getElem?_eq_some_iff.mp hx
  exact ⟨p, hp, List.drop_eq_getElem_cons hlt⟩

namespace Lr

variable {xs : List Symbol}

theorem Path.exists_valid {stack : List Nat} (h : Path g xs stack) :
    ∃ i p, Valid g xs i ∧ g.production? i.production = some p := by
  cases h with
  | start =>
      obtain ⟨p, hp, -, -⟩ := g.production?_augmenting
      exact ⟨_, p, .start, hp⟩
  | step hpath htrans =>
      obtain ⟨i, hi, hnext⟩ := exists_holds_of_transition htrans
      obtain ⟨p, hp, -⟩ := Option.bind_eq_some_iff.mp hnext
      exact ⟨i.advance, p, (hpath.valid hi).advance hnext, hp⟩

/-- A valid item has been predicted from the start symbol on. -/
theorem Valid.reachable {i : Item} (h : Valid g xs i) :
    ∀ {p : Production}, g.production? i.production = some p → g.Reachable p.head := by
  induction h with
  | start =>
      intro p hp
      obtain ⟨p', hp', hhead, -⟩ := g.production?_augmenting
      obtain rfl : p = p' := Option.some.inj (hp.symm.trans hp')
      exact hhead ▸ .start
  | @predict xs i j _ hj ih =>
      intro p hp
      obtain ⟨-, p', hp', hnext⟩ := Item.mem_predicted.mp hj
      obtain rfl : p = p' := Option.some.inj (hp.symm.trans hp')
      obtain ⟨q, hq, hmem⟩ := Option.bind_eq_some_iff.mp hnext
      exact .body (Grammar.mem_of_production? hq) (ih hq) (List.mem_of_getElem? hmem)
  | advance _ _ ih => exact ih

theorem Valid.exists_trees_rest (hg : g.Live) {i : Item} (h : Valid g xs i) {p : Production}
    (hp : g.production? i.production = some p) (n : Nat) : ∃ ts, FromAll g (p.body.drop n) ts := by
  refine hg.exists_trees _ ?_
  intro x hx
  exact .body (Grammar.mem_of_production? hp) (h.reachable hp) (List.mem_of_mem_drop hx)

/-- Trees for what has been read and for the rest of the body of a valid item are the first
trees, from the left, of a tree for the root. -/
theorem Valid.exists_tree (hg : g.Live) {i : Item} (h : Valid g xs i) :
    ∀ {p : Production} {ts us : List Derivation}, g.production? i.production = some p →
      FromAll g xs.reverse ts → FromAll g (p.body.drop i.dot) us →
      ∃ tree later rest, From g g.root tree ∧
        tree.yield = yieldAll ts ++ yieldAll us ++ later ∧
        tree.moves = movesAll ts ++ movesAll us ++ rest := by
  induction h with
  | start =>
      intro p ts us hp hts hus
      cases hts
      obtain ⟨tree, htree, rfl⟩ := Grammar.exists_tree_of_fromAll hp hus
      exact ⟨tree, [], [], htree, by simp, by simp [movesAll]⟩
  | @predict xs i j hi hj ih =>
      intro p ts us hp hts hus
      obtain ⟨hdot, p', hp', hnext⟩ := Item.mem_predicted.mp hj
      obtain rfl : p = p' := Option.some.inj (hp.symm.trans hp')
      rw [hdot, List.drop_zero] at hus
      -- the predicting item reads the head, and what it has behind the head derives something
      obtain ⟨q, hq, hbody⟩ := Item.drop_of_next hnext
      obtain ⟨vs, hvs⟩ := hi.exists_trees_rest hg hq (i.dot + 1)
      have hrest : FromAll g (q.body.drop i.dot) (.node j.production us :: vs) := by
        rw [hbody]
        exact .cons (.node hp hus) hvs
      obtain ⟨tree, later, rest, htree, hyield, hmoves⟩ := ih hq hts hrest
      exact ⟨tree, yieldAll vs ++ later, .reduce j.production :: movesAll vs ++ rest, htree,
        by simpa using hyield, by simpa [movesAll, moves] using hmoves⟩
  | @advance xs i x _ hnext ih =>
      intro p ts us hp hts hus
      rw [List.reverse_cons] at hts
      obtain ⟨lefts, rights, rfl, hlefts, hrights⟩ := hts.split
      obtain ⟨d, rfl, hd⟩ := hrights.single
      obtain ⟨q, hq, hbody⟩ := Item.drop_of_next hnext
      obtain rfl : p = q := Option.some.inj (hp.symm.trans hq)
      have hrest : FromAll g (p.body.drop i.dot) (d :: us) := by
        rw [hbody]
        exact .cons hd hus
      obtain ⟨tree, later, rest, htree, hyield, hmoves⟩ := ih hq hlefts hrest
      exact ⟨tree, later, rest, htree, by simpa using hyield,
        by simpa [movesAll, movesAll_append] using hmoves⟩

/-- The trees along a path are the first trees, from the left, of a tree for the root. -/
theorem Path.exists_tree (hg : g.Live) {stack : List Nat} (h : Path g xs stack)
    {ts : List Derivation} (hts : FromAll g xs.reverse ts) :
    ∃ tree rest, From g g.root tree ∧ yieldAll ts <+: tree.yield ∧
      tree.moves = movesAll ts ++ rest := by
  obtain ⟨i, p, hvalid, hp⟩ := h.exists_valid
  obtain ⟨us, hus⟩ := hvalid.exists_trees_rest hg hp i.dot
  obtain ⟨tree, later, rest, htree, hyield, hmoves⟩ := hvalid.exists_tree hg hp hts hus
  rw [List.append_assoc] at hyield hmoves
  exact ⟨tree, _, htree, ⟨_, hyield.symm⟩, hmoves⟩

end Lr

namespace Table

variable {t : Table} {c d : Configuration} {tokens : List (Symbol × String)} {past : Trace}
  {xs : List Symbol} {ts : List Derivation}

/-! ## A lookahead with no way on -/

/-- An input and a word that begins with its first symbols and the next one have the same
lookaheads so far. -/
theorem lookahead_of_prefix {input w : List Symbol} {n : Nat} (hn : n ≤ input.length)
    (h : input.take n ++ [input[n]?.getD endMarker] <+: w) :
    ∀ k ≤ n, w[k]?.getD endMarker = input[k]?.getD endMarker := by
  obtain ⟨later, rfl⟩ := h
  intro k hk
  have hlen : (input.take n).length = n := by rw [List.length_take, Nat.min_eq_left hn]
  rw [List.append_assoc]
  rcases Nat.lt_or_eq_of_le hk with hlt | rfl
  · rw [List.getElem?_append_left (by rwa [hlen]), List.getElem?_take_of_lt hlt]
  · rw [List.getElem?_append_right (by rw [hlen]), hlen, Nat.sub_self]
    rfl

/-- Where there is no way on, no sentence goes on with the lookahead. -/
theorem not_prefix_of_error (hg : g.Augmented) (ht : build .reject g = .ok t)
    {input : List Symbol} (hruns : Runs t (.start input) past c) (hstep : t.step c = (.error, d))
    (hacc : ¬ AcceptsHere t c) (hle : c.position ≤ c.input.length) {w : List Symbol}
    (hw : g.Sentence w) :
    ¬ c.input.take c.position ++ [c.lookahead] <+: w ++ [endMarker] := by
  intro hprefix
  obtain ⟨tree, htree, rfl⟩ := hw
  obtain ⟨hstatus, hinput⟩ := hruns.running
  have hsame := lookahead_of_prefix hle hprefix
  -- the same moves lead over the sentence to the same place
  have hruns' := hruns.over rfl (hinput ▸ hsame)
  obtain ⟨rest, hrest⟩ := Accepts.behind hruns' rfl (accepts_of_tree hg ht htree (Or.inr rfl))
  refine hrest.step_ne_error hstatus ?_
  rw [step_over (hsame c.position le_rfl) hacc, hstep]

theorem Explains.firstWrong (hg : g.Augmented) (hproductive : g.Productive)
    (ht : build .reject g = .ok t) {input : List Symbol} (h : Explains g tokens c past xs ts)
    (hruns : Runs t (.start input) past c) (hstep : t.step c = (.error, d))
    (hacc : ¬ AcceptsHere t c) : g.FirstWrong c.input c.position c.lookahead := by
  obtain ⟨tree, rest, htree, hprefix, -⟩ := h.path.exists_tree hproductive.live h.trees
  rw [h.yield_eq] at hprefix
  refine ⟨h.position_le, ⟨tree.yield, ⟨tree, htree, rfl⟩, hprefix.trans (List.prefix_append _ _)⟩,
    ?_⟩
  intro w hw
  exact not_prefix_of_error hg ht hruns hstep hacc h.position_le hw

/-! ## Input behind an end marker -/

/-- Behind an end marker any symbol is wrong. -/
theorem not_prefix_behind_endMarker (hg : g.Augmented) {v w : List Symbol} {x : Symbol}
    (hw : g.Sentence w) : ¬ v ++ [endMarker] ++ [x] <+: w ++ [endMarker] := by
  intro hprefix
  refine hw.endMarker_notMem hg ?_
  have hmem : endMarker ∈ v ++ [endMarker] := List.mem_append_right _ List.mem_cons_self
  rcases List.prefix_concat_iff.mp hprefix with heq | hprefix
  · obtain ⟨rfl, -⟩ := List.append_inj' heq rfl
    exact hmem
  · exact hprefix.subset (List.mem_append_left _ hmem)

theorem Explains.firstWrong_behind (hg : g.Augmented) (ht : build .reject g = .ok t)
    (h : Explains g tokens c past xs ts) (hacc : AcceptsHere t c)
    (hmore : c.position < c.input.length) (x : Symbol) :
    g.FirstWrong c.input (c.position + 1) x := by
  obtain ⟨hlook, tree, htree, rfl, rfl⟩ := h.exists_root hg ht hacc
  have hfront : c.input.take (c.position + 1) = tree.yield ++ [endMarker] := by
    rw [Configuration.lookahead, List.getElem?_eq_getElem hmore] at hlook
    rw [List.take_add_one, ← h.yield_eq, List.getElem?_eq_getElem hmore, ← hlook]
    simp
  refine ⟨hmore, ?_, ?_⟩
  · rw [hfront]
    exact ⟨tree.yield, ⟨tree, htree, rfl⟩, List.prefix_refl _⟩
  · intro w hw
    rw [hfront]
    exact not_prefix_behind_endMarker hg hw

/-! ## Parse errors -/

/-- **Correct prefixes**, where conflicts are refused and every non-terminal derives something.
The lookahead of a parse error is the first symbol that makes the input wrong: what stands
before its position is the beginning of a sentence with its end marker, and with the lookahead
it is not. -/
theorem error_at_first_wrong_symbol (hg : g.Augmented) (hproductive : g.Productive)
    (ht : build .reject g = .ok t) {limit : Nat} {input : List Symbol} {e : ParseError}
    (h : t.parse limit input = some (.error e)) :
    g.FirstWrong input e.position e.lookahead := by
  obtain ⟨past, c, last, hruns, hstep, rfl⟩ := exists_runs_of_run rfl h
  obtain ⟨hstatus, hinput⟩ := hruns.running
  obtain ⟨tokens, rfl⟩ : ∃ tokens : List (Symbol × String), input = tokens.map Prod.fst :=
    ⟨input.map fun x => (x, x), by simp [Function.comp_def]⟩
  obtain ⟨xs, ts, hc⟩ := (explains_start g tokens).runs hg ht hruns
  have hinput : tokens.map Prod.fst = c.input := hinput.symm
  rw [hinput]
  rcases step_error_cases hstatus hstep with ⟨hacc, stack, rfl⟩ | ⟨hacc, hmore, rfl⟩
  · exact hc.firstWrong hg hproductive ht hruns hstep hacc
  · exact hc.firstWrong_behind hg ht hacc (Nat.lt_of_succ_lt hmore) _

/-- An `a` in any number of parentheses. -/
def groups : Grammar :=
  ⟨"S'", 0, [⟨"S'", ["S"], none⟩, ⟨"S", ["(", "S", ")"], none⟩, ⟨"S", ["a"], none⟩],
    ⟨⟨⟨"S'", ["S"], none⟩, by decide +kernel, by decide +kernel⟩, by decide +kernel⟩⟩

/-- Here the parser reduces at the parenthesis, which can stand behind other groups, before it
finds that it is wrong. -/
theorem error_at_first_wrong_symbol_groups : ∃ t e, build .reject groups = .ok t ∧
    t.parse 3 ["a", ")"] = some (.error e) ∧ e.trace = [.shift, .reduce 2, .error] ∧
      groups.FirstWrong ["a", ")"] 1 ")" := by
  have hg : groups.Augmented := ⟨by decide +kernel, by decide +kernel⟩
  have hbase : From groups "S" (.node 2 [.leaf "a" "a"]) :=
    .node (p := ⟨"S", ["a"], none⟩) rfl (.cons (.leaf (by decide +kernel)) .nil)
  have hproductive : groups.Productive := by
    intro x hx
    rw [Ne, Grammar.isTerminal_iff] at hx
    obtain rfl | rfl : x = "S'" ∨ x = "S" := by
      by_contra hne
      rw [not_or] at hne
      refine hx ?_
      simpa [groups, eq_comm] using hne
    · exact ⟨_, .node (i := 0) (p := ⟨"S'", ["S"], none⟩) rfl (.cons hbase .nil)⟩
    · exact ⟨_, hbase⟩
  obtain ⟨t, ht, e, he, htrace, hposition, hlook⟩ : ∃ t, build .reject groups = .ok t ∧
      ∃ e, t.parse 3 ["a", ")"] = some (.error e) ∧ e.trace = [.shift, .reduce 2, .error] ∧
        e.position = 1 ∧ e.lookahead = ")" := ⟨_, rfl, _, rfl, rfl, rfl, rfl⟩
  have hwrong := error_at_first_wrong_symbol hg hproductive ht he
  rw [hposition, hlook] at hwrong
  exact ⟨t, e, ht, he, htrace, hwrong⟩

end Table

end FrontEnd
