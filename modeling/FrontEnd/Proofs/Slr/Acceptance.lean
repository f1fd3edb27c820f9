/-
# `Slr.Acceptance` — a parser accepts with one symbol on its stack

A cell for the end marker says to accept when the state has the augmenting item with all of its
body read.  Nothing else looks at what lies below on the stack.  Where the start symbol is
in no body there is nothing below (`OnPath.root`), and so a replay of the moves, whose
stack of trees has one tree for every state but the first, ends with one tree.

Where a body has the start symbol in it, such an item can be predicted in the middle of a
sentence, and the parser accepts too early.
-/
import FrontEnd.Proofs.Slr.Stack
import FrontEnd.Tree.Replay

namespace FrontEnd

/-! ## Reductions of a replay -/

namespace Node

theorem select_error {production : Nat} {body : List Node} {e : TreeError} :
    ∀ {indices used : List Nat}, select production body used indices = .error e →
      ∃ index, e = .invalidDefinition production index := by
  intro indices
  induction indices with
  | nil =>
      intro used h
      exact nomatch h
  | cons index indices ih =>
      intro used h
      rw [select] at h
      split at h
      · exact ⟨index, (Except.error.inj h).symm⟩
      · split at h
        · exact ⟨index, (Except.error.inj h).symm⟩
        · cases hrest : select production body (index :: used) indices with
          | ok trees =>
              rw [hrest] at h
              exact nomatch h
          | error e' =>
              rw [hrest] at h
              obtain rfl := Except.error.inj h
              exact ih hrest

theorem define_error {production : Nat} {body : List Node} {d : Definition} {e : TreeError}
    (h : define production body d = .error e) :
    ∃ index, e = .invalidDefinition production index := by
  cases d with
  | copy index =>
      rw [define] at h
      split at h
      · exact ⟨index, (Except.error.inj h).symm⟩
      · exact nomatch h
  | tree label children =>
      rw [define] at h
      cases hselect : select production body [] children with
      | ok trees =>
          rw [hselect] at h
          exact nomatch h
      | error e' =>
          rw [hselect] at h
          obtain rfl := Except.error.inj h
          exact select_error hselect

/-- A reduction puts one tree in the place of those of a body, or fails for a reason of
its own. -/
theorem reduce_cases {g : Grammar} {i : Nat} {p : Production} (hp : g.production? i = some p)
    (stack : List Node) :
    (∃ stack', reduce g i stack = .ok stack' ∧
      stack'.length + p.body.length = stack.length + 1) ∨
      ∃ e, reduce g i stack = .error e ∧ ∀ k, e ≠ .unfinishedStack k := by
  rw [reduce, hp]
  dsimp only
  split
  · exact Or.inr ⟨_, rfl, nofun⟩
  · rename_i henough
    cases hdefine : define i (stack.take p.body.length).reverse p.effective with
    | ok tree =>
        refine Or.inl ⟨_, rfl, ?_⟩
        rw [List.length_cons, List.length_drop]
        omega
    | error e =>
        obtain ⟨index, rfl⟩ := define_error hdefine
        exact Or.inr ⟨_, rfl, nofun⟩

end Node

namespace Table

variable {g : Grammar} {t : Table} {c d : Configuration}

/-! ## The path below a state that accepts -/

/-- Until a parser is stuck its stack is a path, and when it has accepted the path is over the
symbol of the augmenting production. -/
structure OnPath (g : Grammar) (c : Configuration) : Prop where
  path : c.status ≠ .stuck → ∃ xs, Lr.Path g xs c.stack
  root : c.status = .accepted → Lr.Path g [g.root] c.stack

theorem onPath_start (g : Grammar) (input : List Symbol) : OnPath g (.start input) :=
  ⟨fun _ => ⟨[], .start⟩, nofun⟩

theorem OnPath.step (hstart : ∀ p ∈ g.productions, g.start ∉ p.body)
    (ht : build .reject g = .ok t) (h : OnPath g c) : OnPath g (t.step c).2 := by
  cases hc : c.status with
  | accepted =>
      have hstep : t.step c = (.accept, c) := by simp only [Table.step, hc]
      rw [hstep]
      exact h
  | stuck =>
      have hstep : t.step c = (.error, c) := by simp only [Table.step, hc]
      rw [hstep]
      exact h
  | running =>
      obtain ⟨xs, hpath⟩ := h.path (by rw [hc]; decide)
      rcases step_cases t hc with ⟨d, hstep, hstuck⟩ | ⟨m, d, hstep, hmakes⟩
      · rw [hstep]
        refine ⟨?_, ?_⟩
        · intro hd
          exact absurd hstuck hd
        · intro hd
          cases hstuck.symm.trans hd
      · rw [hstep]
        by_cases hm : m = .accept
        · subst hm
          obtain ⟨hacc, rfl⟩ := hmakes.acceptsHere
          obtain ⟨-, rfl⟩ := hacc.path hstart ht hpath
          exact ⟨fun _ => ⟨_, hpath⟩, fun _ => hpath⟩
        · have hd : d.status = .running := (hmakes.running hm).1.trans hc
          refine ⟨?_, ?_⟩
          · intro _
            exact hmakes.path ht hm hpath
          · intro hd'
            cases hd.symm.trans hd'

/-- A path over the symbol of the augmenting production has two states. -/
theorem stack_of_root_path (ht : build .reject g = .ok t) {stack : List Nat}
    (h : Lr.Path g [g.root] stack) : ∃ q, t.goto 0 g.root = some q ∧ stack = [q, 0] := by
  cases h with
  | step hpath htrans =>
      cases hpath with
      | start => exact ⟨_, build_goto_of_transition ht htrans, rfl⟩

/-! ## The trees of a replay -/

/-- A replay that has a tree for every symbol of the path does not end with another number
of trees than one. -/
theorem replay_moves_ne (hstart : ∀ p ∈ g.productions, g.start ∉ p.body)
    (ht : build .reject g = .ok t) {n k : Nat} :
    ∀ {c : Configuration} {xs : List Symbol} {index : Nat} {lexemes : List String}
      {nodes : List Node}, c.status = .running → Lr.Path g xs c.stack →
      nodes.length = xs.length →
      Node.replay g index lexemes nodes ((t.moves n c).map Prod.fst) ≠
        .error (.unfinishedStack k) := by
  induction n with
  | zero =>
      intro c xs index lexemes nodes _ _ _
      simp [Table.moves, Node.replay]
  | succ n ih =>
      intro c xs index lexemes nodes hc hpath hlen
      rw [Table.moves, List.map_cons]
      rcases step_cases t hc with ⟨d, hstep, -⟩ | ⟨m, d, hstep, hmakes⟩
      · rw [hstep]
        simp [Node.replay]
      · rw [hstep]
        cases m with
        | shift =>
            have hd : d.status = .running := (hmakes.running (by simp)).1.trans hc
            cases lexemes with
            | nil => simp [Node.replay]
            | cons lexeme lexemes =>
                refine ih hd (hmakes.path_shift ht hpath) ?_
                rw [List.length_cons, List.length_cons, hlen]
        | reduce i =>
            have hd : d.status = .running := (hmakes.running (by simp)).1.trans hc
            obtain ⟨p, hp, htake, hpath⟩ := hmakes.path_reduce ht hpath
            rw [Node.replay]
            rcases Node.reduce_cases hp nodes with ⟨nodes', hreduce, hlen'⟩ | ⟨e, hreduce, he⟩
            · rw [hreduce]
              refine ih hd hpath ?_
              have hbody := congrArg List.length htake
              rw [List.length_take, List.length_reverse] at hbody
              rw [List.length_cons, List.length_drop]
              omega
            · rw [hreduce]
              intro herror
              exact he k (Except.error.inj herror)
        | accept =>
            obtain ⟨hacc, -⟩ := hmakes.acceptsHere
            obtain ⟨-, rfl⟩ := hacc.path hstart ht hpath
            obtain ⟨root, rfl⟩ := List.length_eq_one_iff.mp hlen
            simp [Node.replay]
        | error => exact absurd rfl hmakes.ne_error

/-- **Acceptance**, where conflicts are refused and the start symbol is in no body.  Whenever a
parser has accepted, its stack holds the start state and the state behind the symbol of the
augmenting production, and nothing else; so a replay of its moves never ends with another
number of trees than one. -/
theorem accepted_stack (hstart : ∀ p ∈ g.productions, g.start ∉ p.body)
    (ht : build .reject g = .ok t) (input : List Symbol) (n : Nat) :
    (∀ s ∈ t.moves n (.start input), s.2.status = .accepted →
      ∃ q, t.goto 0 g.root = some q ∧ s.2.stack = [q, 0]) ∧
    ∀ (lexemes : List String) (k : Nat),
      Node.ofTrace g lexemes ((t.moves n (.start input)).map Prod.fst) ≠
        .error (.unfinishedStack k) := by
  refine ⟨?_, ?_⟩
  · intro s hs haccepted
    have honPath := moves_of_step (fun _ hc => hc.step hstart ht) (onPath_start g input) s hs
    exact stack_of_root_path ht (honPath.root haccepted)
  · intro lexemes k
    exact replay_moves_ne hstart ht rfl .start rfl

/-- Lists of `a` with commas between them. -/
def lists : Grammar :=
  ⟨"S'", 0, [⟨"S'", ["S"], none⟩, ⟨"S", ["S", ",", "a"], none⟩, ⟨"S", ["a"], none⟩],
    ⟨⟨⟨"S'", ["S"], none⟩, by decide +kernel, by decide +kernel⟩, by decide +kernel⟩⟩

theorem accepted_stack_lists : ∃ t, build .reject lists = .ok t ∧
    (∃ s ∈ t.moves 6 (.start ["a", ",", "a"]), s.2.status = .accepted ∧
      ∃ q, t.goto 0 "S" = some q ∧ s.2.stack = [q, 0]) ∧
    ∀ (lexemes : List String) (k : Nat), Node.ofTrace lists lexemes
      ((t.moves 6 (.start ["a", ",", "a"])).map Prod.fst) ≠ .error (.unfinishedStack k) := by
  have hstart : ∀ p ∈ lists.productions, lists.start ∉ p.body := by decide +kernel
  obtain ⟨t, ht, s, hs, haccepted⟩ : ∃ t, build .reject lists = .ok t ∧
      ∃ s, (t.moves 6 (.start ["a", ",", "a"]))[5]? = some s ∧ s.2.status = .accepted :=
    ⟨_, rfl, _, rfl, rfl⟩
  obtain ⟨hstack, htrees⟩ := accepted_stack hstart ht ["a", ",", "a"] 6
  have hs := List.mem_of_getElem? hs
  exact ⟨t, ht, ⟨s, hs, haccepted, hstack s hs haccepted⟩, htrees⟩

/-- A `b` in any number of parentheses, where what is inside counts as a whole sentence. -/
def nested : Grammar :=
  ⟨"S'", 0, [⟨"S'", ["S"], none⟩, ⟨"S", ["(", "S'", ")"], none⟩, ⟨"S", ["b"], none⟩],
    ⟨⟨⟨"S'", ["S"], none⟩, by decide +kernel, by decide +kernel⟩, by decide +kernel⟩⟩

/-- There the parser accepts inside of a parenthesis, with two symbols on its stack. -/
theorem accepts_inside_nested : ∃ t, build .reject nested = .ok t ∧
    (∃ s ∈ t.moves 4 (.start ["(", "b"]), s.2.status = .accepted ∧ s.2.stack = [1, 2, 0]) ∧
    t.parse 4 ["(", "b"] = some (.ok [.shift, .shift, .reduce 2, .accept]) ∧
    Node.ofTrace nested ["(", "b"] [.shift, .shift, .reduce 2, .accept] =
      .error (.unfinishedStack 2) :=
  ⟨_, rfl, ⟨_, List.mem_of_getElem? (i := 3) rfl, rfl, rfl⟩, rfl, rfl⟩

end Table

end FrontEnd
