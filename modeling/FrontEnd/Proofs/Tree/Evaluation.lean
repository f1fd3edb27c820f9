/-
# `Tree.Evaluation` — a trace of a derivation tree evaluates to the value of the tree

`Evaluates g t n` says what the syntax tree of a derivation tree is, rule by rule: a leaf is its
text, and at an inner node the definition in force makes the tree out of those of the children.
A definition makes something of the trees for a body only where all that it reads is there
(`Definition.Makes`), so this says nothing about what happens elsewhere.

A tree has at most one value (`Evaluates.unique`), and one as soon as its definitions read nothing
twice (`From.evaluates`); replaying its moves finds that value and nothing else.
-/
import FrontEnd.Proofs.Tree.Value
import Mathlib.Data.List.Forall2

namespace FrontEnd

/-! ## What definitions make -/

/-- `d.Makes body n`: the definition `d` makes `n` of the trees for a body. -/
inductive Definition.Makes (body : List Node) : Definition → Node → Prop
  | copy {index : Nat} {n : Node} : body[index]? = some n → Makes body (.copy index) n
  | tree {label : String} {indices : List Nat} {ns : List Node} :
      List.Forall₂ (fun index n => body[index]? = some n) indices ns →
      Makes body (.tree label indices) (.node label ns)

namespace Definition

variable {body : List Node} {d : Definition}

theorem Makes.unique {m n : Node} (hm : Makes body d m) (hn : Makes body d n) : m = n := by
  cases hm with
  | copy hm =>
      cases hn with
      | copy hn => exact Option.some.inj (hm.symm.trans hn)
  | tree hms =>
      cases hn with
      | tree hns =>
          rw [List.right_unique_forall₂' (fun _ _ _ hm hn => ?_) hms hns]
          exact Option.some.inj (hm.symm.trans hn)

/-- A definition that reads inside of the body makes something of it. -/
theorem makes_apply (h : ∀ i ∈ d.indices, i < body.length) : Makes body d (d.apply body) := by
  have hread {i : Nat} (hi : i ∈ d.indices) : body[i]? = some (body.getD i default) := by
    rw [List.getD_eq_getElem?_getD, List.getElem?_eq_getElem (h i hi)]
    rfl
  cases d with
  | copy index => exact .copy (hread List.mem_cons_self)
  | tree label indices =>
      refine .tree (List.forall₂_map_right_iff.mpr ?_)
      exact List.forall₂_same.mpr fun i hi => hread hi

end Definition

/-! ## The value of a tree -/

namespace Derivation

/-- `t.Uses i`: the production with number `i` is at some inner node. -/
inductive Uses : Derivation → Nat → Prop
  | here {i : Nat} {children : List Derivation} : Uses (.node i children) i
  | inside {i j : Nat} {t : Derivation} {children : List Derivation} :
      t ∈ children → Uses t j → Uses (.node i children) j

mutual

/-- `Evaluates g t n`: the value of the derivation tree `t` is `n`. -/
inductive Evaluates (g : Grammar) : Derivation → Node → Prop
  | leaf {x : Symbol} {text : String} : Evaluates g (.leaf x text) (.leaf text)
  | node {i : Nat} {p : Production} {children : List Derivation} {ns : List Node} {n : Node} :
      g.production? i = some p → EvaluatesAll g children ns → p.effective.Makes ns n →
      Evaluates g (.node i children) n

/-- The values of several derivation trees, in the same order. -/
inductive EvaluatesAll (g : Grammar) : List Derivation → List Node → Prop
  | nil : EvaluatesAll g [] []
  | cons {t : Derivation} {ts : List Derivation} {n : Node} {ns : List Node} :
      Evaluates g t n → EvaluatesAll g ts ns → EvaluatesAll g (t :: ts) (n :: ns)

end

variable {g : Grammar}

mutual

theorem Evaluates.unique {t : Derivation} {m n : Node} (hm : Evaluates g t m)
    (hn : Evaluates g t n) : m = n := by
  cases hm with
  | leaf =>
      cases hn with
      | leaf => rfl
  | node hp hms hm =>
      cases hn with
      | node hp' hns hn =>
          obtain rfl := Option.some.inj (hp.symm.trans hp')
          rw [hms.unique hns] at hm
          exact hm.unique hn

theorem EvaluatesAll.unique {ts : List Derivation} {ms ns : List Node}
    (hms : EvaluatesAll g ts ms) (hns : EvaluatesAll g ts ns) : ms = ns := by
  cases hms with
  | nil =>
      cases hns with
      | nil => rfl
  | cons hm hms =>
      cases hns with
      | cons hn hns => rw [hm.unique hn, hms.unique hns]

end

mutual

/-- What the moves of a tree reduce by is at its inner nodes. -/
theorem uses_of_mem_reductions {i : Nat} : ∀ t : Derivation, i ∈ reductions t.moves → t.Uses i
  | .leaf _ _, h => absurd h List.not_mem_nil
  | .node j children, h => by
      rw [moves, reductions, List.filterMap_append] at h
      rcases List.mem_append.mp h with h | h
      · obtain ⟨t, ht, huses⟩ := uses_of_mem_reductionsAll children h
        exact .inside ht huses
      · obtain rfl := List.mem_singleton.mp h
        exact .here

theorem uses_of_mem_reductionsAll {i : Nat} : ∀ ts : List Derivation,
    i ∈ reductions (movesAll ts) → ∃ t ∈ ts, t.Uses i
  | [], h => absurd h List.not_mem_nil
  | t :: ts, h => by
      rw [movesAll, reductions, List.filterMap_append] at h
      rcases List.mem_append.mp h with h | h
      · exact ⟨t, List.mem_cons_self, uses_of_mem_reductions t h⟩
      · obtain ⟨u, hu, huses⟩ := uses_of_mem_reductionsAll ts h
        exact ⟨u, List.mem_cons_of_mem _ hu, huses⟩

end

mutual

/-- A tree whose definitions read nothing twice has a value. -/
theorem From.evaluates {x : Symbol} {t : Derivation} (h : From g x t)
    (honce : Sparing g t.moves) : Evaluates g t (t.value g) := by
  cases h with
  | leaf => exact .leaf
  | @node i p children hp hchildren =>
      rw [moves, sparing_append] at honce
      obtain ⟨-, hinside⟩ := Production.effective_indices
        (g.wellFormed.inside p (Grammar.mem_of_production? hp)) (honce.2 i List.mem_cons_self p hp)
      rw [value_node hp]
      refine .node hp (hchildren.evaluates honce.1) (Definition.makes_apply ?_)
      rwa [length_valueAll, hchildren.length_eq]

theorem FromAll.evaluates {xs : List Symbol} {ts : List Derivation} (h : FromAll g xs ts)
    (honce : Sparing g (movesAll ts)) : EvaluatesAll g ts (valueAll g ts) := by
  cases h with
  | nil => exact .nil
  | cons ht hts =>
      rw [movesAll, sparing_append] at honce
      exact .cons (ht.evaluates honce.1) (hts.evaluates honce.2)

end

/-- **Replaying a derivation tree evaluates it.**  A derivation tree in which no definition reads
anything twice has a value, and that is what its moves in postorder, ending in acceptance, make of
the texts of its leaves. -/
theorem replay_evaluates {x : Symbol} {t : Derivation} (h : From g x t)
    (honce : ∀ i, t.Uses i → ∀ p, g.production? i = some p → p.ReadsOnce) :
    (∃ n, Evaluates g t n) ∧
      ∀ n, Node.ofTrace g (t.tokens.map Prod.snd) (t.moves ++ [.accept]) = .ok n ↔
        Evaluates g t n := by
  have hsparing : Sparing g t.moves := fun i hi => honce i (uses_of_mem_reductions t hi)
  have hvalue := h.evaluates hsparing
  have htrace := h.ofTrace hsparing []
  rw [List.append_nil] at htrace
  refine ⟨⟨_, hvalue⟩, fun n => ⟨?_, ?_⟩⟩
  · intro hn
    rwa [← Except.ok.inj (htrace.symm.trans hn)]
  · intro hn
    rw [htrace, hn.unique hvalue]

/-- Lists of numbers, each with a comma in front of it; the tree of a list has the last number
first, and no comma. -/
def backwards : Grammar :=
  ⟨"S'", 0, [⟨"S'", ["S"], none⟩, ⟨"S", ["S", ",", "n"], some (.tree "list" [2, 0])⟩,
    ⟨"S", [], none⟩],
    ⟨⟨⟨"S'", ["S"], none⟩, by decide +kernel, by decide +kernel⟩, by decide +kernel⟩⟩

theorem replay_evaluates_backwards :
    From backwards "S" (.node 1 [.node 1 [.node 2 [], .leaf "," ",", .leaf "n" "7"],
      .leaf "," ",", .leaf "n" "8"]) ∧
    Node.ofTrace backwards [",", "7", ",", "8"]
        [.reduce 2, .shift, .shift, .reduce 1, .shift, .shift, .reduce 1, .accept] =
      .ok (.node "list" [.leaf "8", .node "list" [.leaf "7", .node "S" []]]) := by
  have hcomma : From backwards "," (.leaf "," ",") := .leaf (by decide +kernel)
  have hnumber (text : String) : From backwards "n" (.leaf "n" text) := .leaf (by decide +kernel)
  have hlist {t : Derivation} (ht : From backwards "S" t) (text : String) :
      From backwards "S" (.node 1 [t, .leaf "," ",", .leaf "n" text]) :=
    .node (p := ⟨"S", ["S", ",", "n"], some (.tree "list" [2, 0])⟩) rfl
      (.cons ht (.cons hcomma (.cons (hnumber text) .nil)))
  have hempty : From backwards "S" (.node 2 []) := .node (p := ⟨"S", [], none⟩) rfl .nil
  have htree := hlist (hlist hempty "7") "8"
  have honce : ∀ p ∈ backwards.productions, p.ReadsOnce := by
    intro p hp d hd
    simp only [backwards, List.mem_cons, List.not_mem_nil, or_false] at hp
    rcases hp with rfl | rfl | rfl
    · exact nomatch hd
    · cases hd
      decide
    · exact nomatch hd
  have hstep {t : Derivation} {n : Node} (hn : Evaluates backwards t n) (text : String) :
      Evaluates backwards (.node 1 [t, .leaf "," ",", .leaf "n" text])
        (.node "list" [.leaf text, n]) :=
    .node rfl (.cons hn (.cons .leaf (.cons .leaf .nil))) (.tree (.cons rfl (.cons rfl .nil)))
  have hvalue := hstep (hstep (.node (i := 2) rfl .nil (.tree .nil)) "7") "8"
  refine ⟨htree, ((replay_evaluates htree ?_).2 _).mpr hvalue⟩
  intro i _ p hp
  exact honce p (Grammar.mem_of_production? hp)

end Derivation

end FrontEnd
