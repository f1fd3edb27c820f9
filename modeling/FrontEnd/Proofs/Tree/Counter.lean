/-
# `Tree.Counter` — counting tells how a replay ends

Whether a trace makes a tree, and what is wrong with it if it does not, can be told without any
tree and without any text: it is enough to count the trees on the stack and the texts that have
been used (`Tally`).  What a definition makes of the trees of a body does not matter either,
only that it reads none of them a second time; that it reads inside of the body has been
seen to when the grammar was built.

A reduction changes the height of the stack as the counter says, or fails with the same report
(`Node.length_reduce`), and so a replay ends as the counter ends (`Node.ending_replay`).
-/
import FrontEnd.Proofs.Tree.Value
import Mathlib.Data.List.Nodup

namespace FrontEnd

/-! ## Repeated indices -/

/-- The first of the indices that stands among those before it, or among those read already. -/
def repeated? (read : List Nat) : List Nat → Option Nat
  | [] => none
  | index :: rest => if index ∈ read then some index else repeated? (index :: read) rest

/-- All that is read before the first repeated index is read once. -/
theorem exists_of_repeated?_eq_some {indices : List Nat} {i : Nat} : ∀ {read : List Nat},
    read.Nodup → repeated? read indices = some i →
      ∃ before after, indices = before ++ i :: after ∧
        (before.reverse ++ read).Nodup ∧ i ∈ before.reverse ++ read := by
  induction indices with
  | nil =>
      intro read _ h
      exact nomatch h
  | cons index rest ih =>
      intro read hread h
      rw [repeated?] at h
      split at h
      · rename_i hmem
        obtain rfl := Option.some.inj h
        exact ⟨[], rest, rfl, hread, hmem⟩
      · rename_i hnew
        obtain ⟨before, after, rfl, hnodup, hmem⟩ := ih (List.nodup_cons.mpr ⟨hnew, hread⟩) h
        have heq : (index :: before).reverse ++ read = before.reverse ++ index :: read := by
          rw [List.reverse_cons, List.append_assoc, List.singleton_append]
        exact ⟨index :: before, after, rfl, heq ▸ hnodup, heq ▸ hmem⟩

/-! ## The counter -/

/-- What is counted during a replay. -/
structure Tally where
  /-- The trees on the stack. -/
  trees : Nat
  /-- The texts that have been used. -/
  used : Nat

namespace Tally

/-- How many trees there are after a reduction by the production with number `p`. -/
def reduce (g : Grammar) (p trees : Nat) : Except TreeError Nat :=
  match g.production? p with
  | none => .error (.unknownProduction p)
  | some production =>
    let needed := production.body.length
    if trees < needed then .error (.stackUnderflow p needed trees)
    else
      match repeated? [] production.effective.indices with
      | some index => .error (.invalidDefinition p index)
      | none => .ok (trees - needed + 1)

/-- How a replay over so many texts ends, from the move at `index` on. -/
def run (g : Grammar) (texts index : Nat) (tally : Tally) : Trace → Except TreeError Unit
  | [] => .error .incompleteTrace
  | .shift :: trace =>
    if tally.used < texts then run g texts (index + 1) ⟨tally.trees + 1, tally.used + 1⟩ trace
    else .error (.tokenUnderflow index)
  | .reduce p :: trace =>
    match reduce g p tally.trees with
    | .error e => .error e
    | .ok trees => run g texts (index + 1) ⟨trees, tally.used⟩ trace
  | .accept :: _ =>
    if tally.trees = 1 then .ok () else .error (.unfinishedStack tally.trees)
  | .error :: _ => .error (.parseFailed index)

/-- A production whose definition cannot be applied is there, and reads something inside of its
body a second time. -/
theorem reduce_eq_invalidDefinition {g : Grammar} {p q trees i : Nat}
    (h : reduce g p trees = .error (.invalidDefinition q i)) :
    ∃ production before after, g.production? q = some production ∧ i < production.body.length ∧
      production.effective.indices = before ++ i :: after ∧ before.Nodup ∧ i ∈ before := by
  rw [reduce] at h
  cases hp : g.production? p with
  | none =>
      rw [hp] at h
      exact nomatch h
  | some production =>
      simp only [hp] at h
      split at h
      · exact nomatch h
      · split at h
        · rename_i index hrepeated
          obtain ⟨rfl, rfl⟩ := TreeError.invalidDefinition.inj (Except.error.inj h)
          obtain ⟨before, after, hindices, hnodup, hmem⟩ :=
            exists_of_repeated?_eq_some List.nodup_nil hrepeated
          rw [List.append_nil] at hnodup hmem
          refine ⟨production, before, after, hp, ?_, hindices, List.nodup_reverse.mp hnodup,
            List.mem_reverse.mp hmem⟩
          refine Production.effective_inside
            (g.wellFormed.inside production (Grammar.mem_of_production? hp)) index ?_
          rw [hindices]
          exact List.mem_append_right _ List.mem_cons_self
        · exact nomatch h

theorem run_eq_invalidDefinition {g : Grammar} {texts q i : Nat} {trace : Trace} :
    ∀ {index : Nat} {tally : Tally},
      run g texts index tally trace = .error (.invalidDefinition q i) →
      ∃ production before after, g.production? q = some production ∧ i < production.body.length ∧
        production.effective.indices = before ++ i :: after ∧ before.Nodup ∧ i ∈ before := by
  induction trace with
  | nil =>
      intro index tally h
      exact nomatch h
  | cons move trace ih =>
      intro index tally h
      cases move with
      | shift =>
          rw [run] at h
          split at h
          · exact ih h
          · exact nomatch h
      | reduce p =>
          rw [run] at h
          cases hreduce : reduce g p tally.trees with
          | error e =>
              rw [hreduce] at h
              obtain rfl := Except.error.inj h
              exact reduce_eq_invalidDefinition hreduce
          | ok trees =>
              rw [hreduce] at h
              exact ih h
      | accept =>
          rw [run] at h
          split at h
          · exact nomatch h
          · exact nomatch h
      | error => exact nomatch h

end Tally

namespace Node

/-- How something ends, without what it gives. -/
def ending {α : Type} (r : Except TreeError α) : Except TreeError Unit := r.map fun _ => ()

/-! ## One reduction -/

theorem ending_select {production : Nat} {body : List Node} {indices : List Nat} :
    ∀ {used : List Nat}, (∀ i ∈ indices, i < body.length) →
      ending (select production body used indices) =
        match repeated? used indices with
        | some index => .error (.invalidDefinition production index)
        | none => .ok () := by
  induction indices with
  | nil =>
      intro used _
      rfl
  | cons index rest ih =>
      intro used hinside
      obtain ⟨hlt, hrest⟩ := List.forall_mem_cons.mp hinside
      rw [select, repeated?, List.getElem?_eq_getElem hlt]
      by_cases hused : index ∈ used
      · simp only [hused, if_true]
        rfl
      · simp only [hused, if_false, ← ih hrest]
        cases select production body (index :: used) rest <;> rfl

/-- A definition that reads inside of the body fails only at a tree that it has read before. -/
theorem ending_define (production : Nat) {body : List Node} {d : Definition}
    (hinside : ∀ i ∈ d.indices, i < body.length) :
    ending (define production body d) =
      match repeated? [] d.indices with
      | some index => .error (.invalidDefinition production index)
      | none => .ok () := by
  cases d with
  | copy index =>
      rw [define, List.getElem?_eq_getElem (hinside index List.mem_cons_self)]
      rfl
  | tree label children =>
      have hinside : ∀ i ∈ children, i < body.length := hinside
      show ending ((select production body [] children).map (node label)) =
        match repeated? [] children with
        | some index => .error (.invalidDefinition production index)
        | none => .ok ()
      rw [← ending_select hinside]
      cases select production body [] children <;> rfl

/-- A reduction changes the height of the stack as the counter says. -/
theorem length_reduce (g : Grammar) (p : Nat) (stack : List Node) :
    (reduce g p stack).map List.length = Tally.reduce g p stack.length := by
  rw [reduce, Tally.reduce]
  cases hp : g.production? p with
  | none => rfl
  | some production =>
      dsimp only
      split
      · rfl
      · rename_i henough
        have hlen : (stack.take production.body.length).reverse.length =
            production.body.length := by
          rw [List.length_reverse, List.length_take]
          exact Nat.min_eq_left (Nat.le_of_not_lt henough)
        have hinside := Production.effective_inside
          (g.wellFormed.inside production (Grammar.mem_of_production? hp))
        have hending := ending_define p (hlen ▸ hinside)
        calc ((define p (stack.take production.body.length).reverse production.effective).map
              (· :: stack.drop production.body.length)).map List.length
            = (ending (define p (stack.take production.body.length).reverse
                production.effective)).map
                fun _ => stack.length - production.body.length + 1 := by
              rw [← List.length_drop]
              cases define p (stack.take production.body.length).reverse
                production.effective <;> rfl
          _ = _ := by
              rw [hending]
              cases repeated? [] production.effective.indices <;> rfl

/-! ## A replay -/

/-- A replay that has used some of the texts ends as the counter does. -/
theorem ending_replay (g : Grammar) (lexemes : List String) {trace : Trace} :
    ∀ {index used : Nat} {stack : List Node},
      ending (replay g index (lexemes.drop used) stack trace) =
        Tally.run g lexemes.length index ⟨stack.length, used⟩ trace := by
  induction trace with
  | nil =>
      intro index used stack
      rfl
  | cons move trace ih =>
      intro index used stack
      cases move with
      | shift =>
          rw [Tally.run]
          split
          · rename_i hused
            rw [List.drop_eq_getElem_cons hused, replay]
            exact ih
          · rename_i hused
            rw [List.drop_eq_nil_of_le (Nat.le_of_not_lt hused)]
            rfl
      | reduce p =>
          rw [replay, Tally.run, ← length_reduce]
          cases reduce g p stack with
          | error e => rfl
          | ok stack => exact ih
      | accept =>
          rcases stack with _ | ⟨root, _ | ⟨below, stack⟩⟩
          · rfl
          · rfl
          · rfl
      | error => rfl

/-- What stands behind a move at which the replay stops is not looked at. -/
theorem replay_append (g : Grammar) {stop : Move} (hstop : stop = .accept ∨ stop = .error)
    {before : Trace} (after : Trace) : ∀ {index : Nat} {lexemes : List String}
    {stack : List Node}, replay g index lexemes stack (before ++ stop :: after) =
      replay g index lexemes stack (before ++ [stop]) := by
  induction before with
  | nil =>
      intro index lexemes stack
      rcases hstop with rfl | rfl
      · rfl
      · rfl
  | cons move before ih =>
      intro index lexemes stack
      cases move with
      | shift =>
          cases lexemes with
          | nil => rfl
          | cons lexeme rest => exact ih
      | reduce p =>
          rw [List.cons_append, List.cons_append, replay, replay]
          cases reduce g p stack with
          | error e => rfl
          | ok stack => exact ih
      | accept => rfl
      | error => rfl

/-- **How a replay ends is told by counting** the trees on the stack and the texts that have been
used; a failure has the same report.  So the ending depends on how many texts there are and not on
what they say, a definition fails only at an index inside of the body that it has read before,
and moves behind the first acceptance or error do not matter. -/
theorem ending_ofTrace (g : Grammar) (lexemes : List String) :
    (∀ trace, ending (ofTrace g lexemes trace) = Tally.run g lexemes.length 0 ⟨0, 0⟩ trace) ∧
    (∀ lexemes' trace, lexemes'.length = lexemes.length →
      ending (ofTrace g lexemes' trace) = ending (ofTrace g lexemes trace)) ∧
    (∀ trace p i, ofTrace g lexemes trace = .error (.invalidDefinition p i) →
      ∃ production before after, g.production? p = some production ∧
        i < production.body.length ∧
        production.effective.indices = before ++ i :: after ∧ before.Nodup ∧ i ∈ before) ∧
    ∀ before after, ∀ stop ∈ [Move.accept, Move.error],
      ofTrace g lexemes (before ++ stop :: after) = ofTrace g lexemes (before ++ [stop]) := by
  have hending (lexemes : List String) (trace : Trace) :
      ending (ofTrace g lexemes trace) = Tally.run g lexemes.length 0 ⟨0, 0⟩ trace :=
    @ending_replay g lexemes trace 0 0 []
  refine ⟨hending lexemes, ?_, ?_, ?_⟩
  · intro lexemes' trace hlen
    rw [hending, hending, hlen]
  · intro trace p i h
    have hrun := hending lexemes trace
    rw [h] at hrun
    exact Tally.run_eq_invalidDefinition hrun.symm
  · intro before after stop hstop
    exact replay_append g (by simpa using hstop) after

/-- A definition that reads the second symbol twice. -/
def echo : Grammar :=
  ⟨"S'", 0, [⟨"S'", ["S"], none⟩, ⟨"S", ["a", "b"], some (.tree "echo" [1, 0, 1])⟩],
    ⟨⟨⟨"S'", ["S"], none⟩, by decide +kernel, by decide +kernel⟩, by decide +kernel⟩⟩

theorem ending_ofTrace_echo :
    ofTrace echo ["x", "y"] [.shift, .shift, .reduce 1, .accept] =
      .error (.invalidDefinition 1 1) ∧
    ∃ production before after, echo.production? 1 = some production ∧
      1 < production.body.length ∧
      production.effective.indices = before ++ 1 :: after ∧ before.Nodup ∧ 1 ∈ before := by
  have hfails : ofTrace echo ["x", "y"] [.shift, .shift, .reduce 1, .accept] =
      .error (.invalidDefinition 1 1) := rfl
  obtain ⟨-, -, hrepeats, -⟩ := ending_ofTrace echo ["x", "y"]
  exact ⟨hfails, hrepeats _ 1 1 hfails⟩

end Node

end FrontEnd
