/-
# `Tree.Frontier` — without definitions no text is lost, repeated or moved

The frontier of a tree is the row of its leaves, and the frontier of a stack is that of its trees,
one behind the other, the lowest first.  A shift puts a text behind it.  Where no production has a
definition of its own or an empty body, a reduction passes on the only tree of its body or puts
a node over all of them, and either way the frontier of the stack stays as it is
(`Node.frontier_reduce`).

This is about the stack and not about the tree on top of it, and it asks nothing of the trace: the
moves need not be those of a parser.  So when a replay ends well, with one tree, that
tree has for its leaves the texts that have been shifted.
-/
import FrontEnd.Proofs.Tree.Value

namespace FrontEnd

namespace Node

/-! ## Frontiers -/

mutual

/-- The labels of the leaves, from left to right. -/
def leaves : Node → List String
  | node label [] => [label]
  | node _ (child :: rest) => leavesAll (child :: rest)

/-- The labels of the leaves of several trees, one behind the other. -/
def leavesAll : List Node → List String
  | [] => []
  | child :: rest => child.leaves ++ leavesAll rest

end

theorem leaves_node {label : String} {children : List Node} (h : children ≠ []) :
    (node label children).leaves = leavesAll children := by
  cases children with
  | nil => exact absurd rfl h
  | cons child rest => rfl

@[simp] theorem leavesAll_singleton (n : Node) : leavesAll [n] = n.leaves := by
  rw [leavesAll, leavesAll, List.append_nil]

theorem leavesAll_append (ms ns : List Node) :
    leavesAll (ms ++ ns) = leavesAll ms ++ leavesAll ns := by
  induction ms with
  | nil => rfl
  | cons m ms ih => rw [List.cons_append, leavesAll, leavesAll, ih, List.append_assoc]

/-- The labels of the leaves of a stack; the top is first on the stack and last in the row. -/
def frontier (stack : List Node) : List String := leavesAll stack.reverse

theorem frontier_cons (n : Node) (stack : List Node) :
    frontier (n :: stack) = frontier stack ++ n.leaves := by
  rw [frontier, List.reverse_cons, leavesAll_append, leavesAll_singleton, frontier]

theorem frontier_append (body stack : List Node) :
    frontier (body.reverse ++ stack) = frontier stack ++ leavesAll body := by
  rw [frontier, List.reverse_append, List.reverse_reverse, leavesAll_append, frontier]

end Node

/-! ## Productions without a definition -/

/-- The production has no definition of its own, and something to make a tree of. -/
def Production.Unshaped (p : Production) : Prop := p.definition = none ∧ p.body ≠ []

namespace Production.Unshaped

variable {p : Production}

theorem readsOnce (h : p.Unshaped) : p.ReadsOnce := by
  intro d hd
  exact nomatch h.1.symm.trans hd

/-- The tree for the head has the leaves of the trees for the body, in the same order. -/
theorem leaves_apply (h : p.Unshaped) {body : List Node} (hlen : body.length = p.body.length) :
    (p.effective.apply body).leaves = Node.leavesAll body := by
  rw [effective, h.1]
  dsimp only
  split
  · rename_i hone
    obtain ⟨n, rfl⟩ := List.length_eq_one_iff.mp (hlen.trans hone)
    exact (Node.leavesAll_singleton n).symm
  · have hall : (List.range p.body.length).map (body.getD · default) = body := by
      rw [← hlen]
      refine List.ext_getElem (by simp) ?_
      intro i _ hi
      simp [hi]
    have hbody : body ≠ [] := by
      rintro rfl
      exact h.2 (List.eq_nil_of_length_eq_zero hlen.symm)
    rw [Definition.apply, hall, Node.leaves_node hbody]

end Production.Unshaped

namespace Node

variable {g : Grammar}

/-! ## A replay keeps the frontier -/

/-- A reduction that succeeds takes as many trees off the stack as the body has symbols. -/
theorem exists_of_reduce_eq_ok {i : Nat} {stack stack' : List Node}
    (h : reduce g i stack = .ok stack') :
    ∃ (p : Production) (body rest : List Node), g.production? i = some p ∧
      body.length = p.body.length ∧ stack = body.reverse ++ rest := by
  rw [reduce] at h
  cases hp : g.production? i with
  | none =>
      rw [hp] at h
      cases h
  | some p =>
      rw [hp] at h
      dsimp only at h
      split at h
      · cases h
      · rename_i henough
        refine ⟨p, (stack.take p.body.length).reverse, stack.drop p.body.length, rfl, ?_, ?_⟩
        · rw [List.length_reverse, List.length_take]
          exact Nat.min_eq_left (Nat.le_of_not_lt henough)
        · rw [List.reverse_reverse, List.take_append_drop]

theorem frontier_reduce (hg : ∀ p ∈ g.productions, p.Unshaped) {i : Nat}
    {stack stack' : List Node} (h : reduce g i stack = .ok stack') :
    frontier stack' = frontier stack := by
  obtain ⟨p, body, rest, hp, hlen, rfl⟩ := exists_of_reduce_eq_ok h
  have hunshaped := hg p (Grammar.mem_of_production? hp)
  rw [reduce_eq hp hunshaped.readsOnce hlen] at h
  obtain rfl := Except.ok.inj h
  rw [frontier_cons, hunshaped.leaves_apply hlen, frontier_append]

/-- How many texts a trace uses until it accepts. -/
def shifts (trace : Trace) : Nat := (trace.takeWhile (· ≠ .accept)).count .shift

/-- A replay that ends well puts the texts that it shifts behind the frontier of the stack. -/
theorem frontier_replay (hg : ∀ p ∈ g.productions, p.Unshaped) {trace : Trace} :
    ∀ {index : Nat} {lexemes : List String} {stack : List Node} {root : Node},
      replay g index lexemes stack trace = .ok root →
      shifts trace ≤ lexemes.length ∧
        root.leaves = frontier stack ++ lexemes.take (shifts trace) := by
  induction trace with
  | nil =>
      intro index lexemes stack root h
      exact nomatch h
  | cons move trace ih =>
      intro index lexemes stack root h
      cases move with
      | shift =>
          cases lexemes with
          | nil => exact nomatch h
          | cons lexeme rest =>
              obtain ⟨hle, hleaves⟩ := ih h
              have hshifts : shifts (.shift :: trace) = shifts trace + 1 := by simp [shifts]
              rw [hshifts]
              refine ⟨Nat.succ_le_succ hle, ?_⟩
              rw [hleaves, frontier_cons, List.append_assoc]
              rfl
      | reduce p =>
          rw [replay] at h
          have hshifts : shifts (.reduce p :: trace) = shifts trace := by simp [shifts]
          rw [hshifts]
          cases hreduce : reduce g p stack with
          | error e =>
              rw [hreduce] at h
              exact nomatch h
          | ok stack' =>
              rw [hreduce] at h
              rw [← frontier_reduce hg hreduce]
              exact ih h
      | accept =>
          have hshifts : shifts (.accept :: trace) = 0 := by simp [shifts]
          rw [hshifts, List.take_zero, List.append_nil]
          refine ⟨Nat.zero_le _, ?_⟩
          rcases stack with _ | ⟨n, _ | ⟨below, stack⟩⟩
          · exact nomatch h
          · obtain rfl := Except.ok.inj h
            exact (leavesAll_singleton n).symm
          · exact nomatch h
      | error => exact nomatch h

/-- **Without definitions a tree has all texts for its leaves, in order.**  Where no production has
a definition or an empty body, the tree of any trace has for its leaves, from left to right, the
first texts, as many as are shifted before the trace accepts. -/
theorem leaves_ofTrace (hg : ∀ p ∈ g.productions, p.definition = none ∧ p.body ≠ [])
    {lexemes : List String} {trace : Trace} {root : Node}
    (h : ofTrace g lexemes trace = .ok root) :
    let k := (trace.takeWhile (· ≠ .accept)).count .shift
    k ≤ lexemes.length ∧ root.leaves = lexemes.take k := by
  obtain ⟨hle, hleaves⟩ := frontier_replay hg h
  exact ⟨hle, hleaves⟩

/-- Numbers with a sign between them. -/
def differences : Grammar :=
  ⟨"S'", 0, [⟨"S'", ["S"], none⟩, ⟨"S", ["S", "-", "n"], none⟩, ⟨"S", ["n"], none⟩],
    ⟨⟨⟨"S'", ["S"], none⟩, by decide +kernel, by decide +kernel⟩, by decide +kernel⟩⟩

/-- The moves are not those of a parser: they group to the right, and go on behind acceptance. -/
theorem leaves_ofTrace_differences :
    ofTrace differences ["7", "-", "8", "-", "9", "-"] [.shift, .shift, .shift, .shift, .shift,
        .reduce 1, .reduce 2, .reduce 1, .accept, .shift] =
      .ok (node "S" [leaf "7", leaf "-", node "S" [leaf "8", leaf "-", leaf "9"]]) ∧
    (node "S" [leaf "7", leaf "-", node "S" [leaf "8", leaf "-", leaf "9"]]).leaves =
      ["7", "-", "8", "-", "9"] := by
  have htree : ofTrace differences ["7", "-", "8", "-", "9", "-"] [.shift, .shift, .shift,
      .shift, .shift, .reduce 1, .reduce 2, .reduce 1, .accept, .shift] =
      .ok (node "S" [leaf "7", leaf "-", node "S" [leaf "8", leaf "-", leaf "9"]]) := rfl
  have hg : ∀ p ∈ differences.productions, p.definition = none ∧ p.body ≠ [] := by
    simp [differences]
  exact ⟨htree, (leaves_ofTrace hg htree).2⟩

end Node

end FrontEnd
