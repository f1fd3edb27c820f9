/-
# `Tree.Value` — replaying the moves of a derivation tree computes its value

The value of a derivation tree is a syntax tree, computed bottom-up: a leaf is its text, and at
an inner node the definition of the production is applied to the values of the children.
A replay does the same on a stack: the moves of a tree, over the texts of its leaves, push
the value of the tree and change nothing else (`From.replay`).

A definition can be applied when it reads inside of the body, which a grammar makes sure of,
and reads nothing twice.
-/
import FrontEnd.Proofs.Grammar.Rightmost
import FrontEnd.Tree.Replay

namespace FrontEnd

/-! ## Definitions and values -/

/-- What a definition makes of the trees for a body. -/
def Definition.apply (body : List Node) : Definition → Node
  | .copy index => body.getD index default
  | .tree label children => .node label (children.map (body.getD · default))

/-- The definition of a production, if it has one, reads no body symbol twice. -/
def Production.ReadsOnce (p : Production) : Prop :=
  ∀ d, p.definition = some d → d.indices.Nodup

/-- The definition in force reads inside of the body if a given one does. -/
theorem Production.effective_inside {p : Production} (hinside : p.beyond = none) :
    ∀ i ∈ p.effective.indices, i < p.body.length := by
  intro i hi
  rw [effective] at hi
  split at hi
  · rename_i d hd
    rw [beyond, hd] at hinside
    have hnot := List.find?_eq_none.mp hinside i hi
    simpa using hnot
  · split at hi
    · rename_i hone
      obtain rfl := List.mem_singleton.mp hi
      rw [hone]
      exact Nat.one_pos
    · exact List.mem_range.mp hi

theorem Production.effective_indices {p : Production} (hinside : p.beyond = none)
    (honce : p.ReadsOnce) :
    p.effective.indices.Nodup ∧ ∀ i ∈ p.effective.indices, i < p.body.length := by
  refine ⟨?_, effective_inside hinside⟩
  rw [effective]
  split
  · rename_i d hd
    exact honce d hd
  · split
    · exact List.nodup_cons.mpr ⟨List.not_mem_nil, List.nodup_nil⟩
    · exact List.nodup_range

namespace Node

theorem select_eq {production : Nat} {body : List Node} : ∀ {indices used : List Nat},
    indices.Nodup → (∀ i ∈ indices, i ∉ used) → (∀ i ∈ indices, i < body.length) →
      select production body used indices = .ok (indices.map (body.getD · default)) := by
  intro indices
  induction indices with
  | nil =>
      intro used _ _ _
      rfl
  | cons i indices ih =>
      intro used hnodup hfresh hinside
      obtain ⟨hi, hnodup⟩ := List.nodup_cons.mp hnodup
      obtain ⟨hused, hfresh⟩ := List.forall_mem_cons.mp hfresh
      obtain ⟨hlt, hinside⟩ := List.forall_mem_cons.mp hinside
      have hfresh' : ∀ j ∈ indices, j ∉ i :: used := by
        intro j hj hmem
        rcases List.mem_cons.mp hmem with rfl | hmem
        · exact hi hj
        · exact hfresh j hj hmem
      rw [select, List.getElem?_eq_getElem hlt]
      simp only [hused, if_false, ih hnodup hfresh' hinside]
      simp [Except.map, hlt]

theorem define_eq {production : Nat} {body : List Node} {d : Definition}
    (hnodup : d.indices.Nodup) (hinside : ∀ i ∈ d.indices, i < body.length) :
    define production body d = .ok (d.apply body) := by
  cases d with
  | copy index =>
      have hlt : index < body.length := hinside index List.mem_cons_self
      simp [define, Definition.apply, hlt]
  | tree label children =>
      have hnodup : children.Nodup := hnodup
      rw [define, select_eq hnodup (fun _ _ => List.not_mem_nil) hinside]
      rfl

/-- A reduction replaces the trees of a body, which lie on the stack the last one first, by what
the definition makes of them. -/
theorem reduce_eq {g : Grammar} {i : Nat} {p : Production} (hp : g.production? i = some p)
    (honce : p.ReadsOnce) {body stack : List Node} (hlen : body.length = p.body.length) :
    reduce g i (body.reverse ++ stack) = .ok (p.effective.apply body :: stack) := by
  obtain ⟨hnodup, hinside⟩ := Production.effective_indices
    (g.wellFormed.inside p (Grammar.mem_of_production? hp)) honce
  have hrev : p.body.length = body.reverse.length := by rw [List.length_reverse, hlen]
  have henough : ¬ (body.reverse ++ stack).length < p.body.length := by
    rw [List.length_append, ← hrev]
    omega
  have htake : ((body.reverse ++ stack).take p.body.length).reverse = body := by
    rw [hrev, List.take_left, List.reverse_reverse]
  have hdrop : (body.reverse ++ stack).drop p.body.length = stack := by
    rw [hrev, List.drop_left]
  rw [reduce]
  simp only [hp, henough, if_false, htake, hdrop, define_eq hnodup (hlen ▸ hinside)]
  rfl

end Node

namespace Derivation

mutual

/-- The value of a derivation tree. -/
def value (g : Grammar) : Derivation → Node
  | leaf _ text => .leaf text
  | node i children =>
      match g.production? i with
      | some p => p.effective.apply (valueAll g children)
      | none => default

/-- The values of several derivation trees. -/
def valueAll (g : Grammar) : List Derivation → List Node
  | [] => []
  | t :: ts => t.value g :: valueAll g ts

end

theorem value_node {g : Grammar} {i : Nat} {p : Production} (hp : g.production? i = some p)
    (children : List Derivation) :
    (node i children).value g = p.effective.apply (valueAll g children) := by
  rw [value, hp]

theorem length_valueAll (g : Grammar) (ts : List Derivation) :
    (valueAll g ts).length = ts.length := by
  induction ts with
  | nil => rfl
  | cons t ts ih => rw [valueAll, List.length_cons, ih, List.length_cons]

/-- All productions by which moves reduce read nothing twice. -/
def Sparing (g : Grammar) (moves : Trace) : Prop :=
  ∀ i ∈ reductions moves, ∀ p, g.production? i = some p → p.ReadsOnce

theorem sparing_append {g : Grammar} {moves moves' : Trace} :
    Sparing g (moves ++ moves') ↔ Sparing g moves ∧ Sparing g moves' := by
  simp only [Sparing, reductions, List.filterMap_append, List.mem_append, or_imp, forall_and]

variable {g : Grammar}

mutual

/-- The moves of a tree push its value. -/
theorem From.replay {x : Symbol} {t : Derivation} (h : From g x t) (honce : Sparing g t.moves)
    (index : Nat) (more : List String) (stack : List Node) (rest : Trace) :
    Node.replay g index (t.tokens.map Prod.snd ++ more) stack (t.moves ++ rest) =
      Node.replay g (index + t.moves.length) more (t.value g :: stack) rest := by
  cases h with
  | leaf _ => rfl
  | @node i p children hp hchildren =>
      rw [moves, sparing_append] at honce
      have hreads : p.ReadsOnce := honce.2 i List.mem_cons_self p hp
      have hlen : (valueAll g children).length = p.body.length := by
        rw [length_valueAll, hchildren.length_eq]
      rw [moves, tokens, List.append_assoc, hchildren.replay honce.1, value_node hp,
        List.singleton_append, Node.replay, Node.reduce_eq hp hreads hlen, List.length_append,
        List.length_singleton, ← Nat.add_assoc]

/-- The moves of several trees push their values, the last one on top. -/
theorem FromAll.replay {xs : List Symbol} {ts : List Derivation} (h : FromAll g xs ts)
    (honce : Sparing g (movesAll ts)) (index : Nat) (more : List String) (stack : List Node)
    (rest : Trace) :
    Node.replay g index ((tokensAll ts).map Prod.snd ++ more) stack (movesAll ts ++ rest) =
      Node.replay g (index + (movesAll ts).length) more ((valueAll g ts).reverse ++ stack)
        rest := by
  cases h with
  | nil => rfl
  | cons ht hts =>
      rw [movesAll, sparing_append] at honce
      rw [movesAll, tokensAll, List.map_append, List.append_assoc, List.append_assoc,
        ht.replay honce.1, hts.replay honce.2, valueAll, List.reverse_cons, List.append_assoc,
        List.singleton_append, List.length_append, Nat.add_assoc]

end

/-- Replaying the moves of a tree to acceptance gives its value; texts behind those of its
leaves are not read. -/
theorem From.ofTrace {x : Symbol} {t : Derivation} (h : From g x t) (honce : Sparing g t.moves)
    (more : List String) :
    Node.ofTrace g (t.tokens.map Prod.snd ++ more) (t.moves ++ [.accept]) = .ok (t.value g) := by
  rw [Node.ofTrace, h.replay honce]
  rfl

end Derivation

end FrontEnd
