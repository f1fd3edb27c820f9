/-
# `Automaton.Grouping` — how concatenations are grouped leaves no trace

A concatenation adds no state.  It puts the states of the second automaton behind those of the
first, and one edge from the final state of the first.  So three automata come to stand
one behind the other however they are grouped, and the edges that join them are the
same (`concat_assoc`): what is moved twice is moved by the sum (`moved_moved`), an edge that was
added before the move is moved as well (`map_moved_link`), and adding an edge inside of a block is
adding it to the block (`link_append_left`, `link_append_right`).

Automata are built tree by tree, so trees that differ in grouping alone, at any depth, have the
same automaton (`ofRegex_eq_of_regrouped`), and with it the same deterministic one.
-/
import FrontEnd.Proofs.Regex.Matcher
import FrontEnd.Proofs.Regex.Spelling

namespace FrontEnd

/-- `Regrouped e f`: the two trees are the same but for the grouping of concatenations. -/
inductive Regex.Regrouped : Regex → Regex → Prop
  | assoc (e f g : Regex) : Regrouped (.concat (.concat e f) g) (.concat e (.concat f g))
  | refl (e : Regex) : Regrouped e e
  | symm {e f : Regex} : Regrouped e f → Regrouped f e
  | trans {e f g : Regex} : Regrouped e f → Regrouped f g → Regrouped e g
  | union {l l' r r' : Regex} : Regrouped l l' → Regrouped r r' →
      Regrouped (.union l r) (.union l' r')
  | concat {e e' f f' : Regex} : Regrouped e e' → Regrouped f f' →
      Regrouped (.concat e f) (.concat e' f')
  | star {e e' : Regex} : Regrouped e e' → Regrouped (.star e) (.star e')

namespace Nfa

/-! ## Moving edges -/

/-- Edges whose targets are moved behind `k` other states. -/
def moved (k : Nat) (edges : Edges) : Edges := edges.map fun (label, target) => (label, target + k)

theorem moved_zero (edges : Edges) : moved 0 edges = edges := List.map_id _

/-- What is moved twice is moved by the sum. -/
theorem moved_moved (j k : Nat) (edges : Edges) :
    moved k (moved j edges) = moved (j + k) edges := by
  simp only [moved, List.map_map]
  refine List.map_congr_left fun e _ => ?_
  exact congrArg (Prod.mk e.1) (Nat.add_assoc e.2 j k)

theorem moved_append (k : Nat) (edges edges' : Edges) :
    moved k (edges ++ edges') = moved k edges ++ moved k edges' := List.map_append

theorem moved_epsilons (k : Nat) (targets : List Nat) :
    moved k (epsilons targets) = epsilons (targets.map (· + k)) := by
  simp only [moved, epsilons, List.map_map]
  rfl

theorem shifted_eq (n : Nfa) (k : Nat) : n.shifted k = n.states.toList.map (moved k) := rfl

theorem shifted_zero (n : Nfa) : n.shifted 0 = n.states.toList := by
  rw [shifted_eq, funext moved_zero]
  exact List.map_id' _

/-- The states of a moved block, moved once more. -/
theorem map_moved_shifted (n : Nfa) (j k : Nat) :
    (n.shifted j).map (moved k) = n.shifted (j + k) := by
  simp only [shifted_eq, List.map_map]
  exact List.map_congr_left fun edges _ => moved_moved j k edges

/-! ## Adding edges -/

section Link

variable {states states' : List Edges} {source : Nat} {targets : List Nat}

/-- Edges that have been added are moved with the others. -/
theorem map_moved_link (k : Nat) : (link states source targets).map (moved k) =
    link (states.map (moved k)) source (targets.map (· + k)) := by
  induction states generalizing source with
  | nil => cases source <;> rfl
  | cons edges states ih =>
      cases source with
      | zero =>
          have hedges : moved k (edges ++ epsilons targets) =
              moved k edges ++ epsilons (targets.map (· + k)) := by
            rw [moved_append, moved_epsilons]
          exact congrArg (· :: states.map (moved k)) hedges
      | succ source => exact congrArg (moved k edges :: ·) ih

/-- Edges from a state of the first block. -/
theorem link_append_left (h : source < states.length) :
    link (states ++ states') source targets = link states source targets ++ states' := by
  induction states generalizing source with
  | nil => exact absurd h (Nat.not_lt_zero _)
  | cons edges states ih =>
      cases source with
      | zero => rfl
      | succ source => exact congrArg (edges :: ·) (ih (Nat.lt_of_succ_lt_succ h))

/-- Edges from a state of the second block. -/
theorem link_append_right {place : Nat} (h : place = source + states.length) :
    link (states ++ states') place targets = states ++ link states' source targets := by
  subst h
  induction states with
  | nil => rfl
  | cons edges states ih => exact congrArg (edges :: ·) ih

end Link

/-! ## Concatenations -/

section Concat

variable {a b c : Nfa}

/-- The two blocks of a concatenation. -/
theorem toList_concat (ha : a.Proper) : (a.concat b).states.toList =
    link a.states.toList a.final [b.start + a.size] ++ b.shifted a.size := by
  show link (a.shifted 0 ++ b.shifted a.size) a.final [b.start + a.size] = _
  rw [shifted_zero, link_append_left ha.final_lt]

/-- The two blocks of a concatenation that has been moved. -/
theorem shifted_concat (ha : a.Proper) (k : Nat) : (a.concat b).shifted k =
    link (a.shifted k) a.final [b.start + (a.size + k)] ++ b.shifted (a.size + k) := by
  rw [shifted_eq, toList_concat ha, List.map_append, map_moved_link, map_moved_shifted,
    ← shifted_eq, List.map_singleton, Nat.add_assoc]

/-- The three blocks of two concatenations, in either grouping. -/
theorem toList_concat_concat (ha : a.Proper) (hb : b.Proper) :
    ((a.concat b).concat c).states.toList = (a.concat (b.concat c)).states.toList := by
  have hsize : (a.concat b).size = b.size + a.size := by rw [size_concat, Nat.add_comm]
  have hplace : b.final + a.size =
      b.final + (link a.states.toList a.final [b.start + a.size]).length := by
    rw [length_link]
    rfl
  calc ((a.concat b).concat c).states.toList
      = link (link a.states.toList a.final [b.start + a.size] ++ b.shifted a.size)
          (b.final + a.size) [c.start + (b.size + a.size)] ++ c.shifted (b.size + a.size) := by
        rw [toList_concat (ha.concat hb), toList_concat ha, hsize]
        rfl
    _ = link a.states.toList a.final [b.start + a.size] ++
          (link (b.shifted a.size) b.final [c.start + (b.size + a.size)] ++
            c.shifted (b.size + a.size)) := by
        rw [link_append_right hplace, List.append_assoc]
    _ = (a.concat (b.concat c)).states.toList := by
        rw [toList_concat ha, shifted_concat hb]
        rfl

/-- Concatenation is associative, state for state and edge for edge. -/
theorem concat_assoc (ha : a.Proper) (hb : b.Proper) :
    (a.concat b).concat c = a.concat (b.concat c) := by
  have hfinal : c.final + (a.concat b).size = c.final + b.size + a.size := by
    rw [size_concat]
    omega
  have hstates := congrArg List.toArray (toList_concat_concat ha hb (c := c))
  exact congrArg₂ (Nfa.mk a.start) hfinal hstates

end Concat

/-- Trees that differ in the grouping of concatenations have the same automaton. -/
theorem ofRegex_eq_of_regrouped {e f : Regex} (h : e.Regrouped f) : ofRegex e = ofRegex f := by
  induction h with
  | assoc e f g => exact concat_assoc (proper_ofRegex e) (proper_ofRegex f)
  | refl _ => rfl
  | symm _ ih => exact ih.symm
  | trans _ _ ihe ihf => exact ihe.trans ihf
  | union _ _ ihl ihr => exact congrArg₂ Nfa.union ihl ihr
  | concat _ _ ihe ihf => exact congrArg₂ Nfa.concat ihe ihf
  | star _ ih => exact congrArg Nfa.star ih

/-- **Concatenations have no grouping.**  Of three automata made by any constructions, one behind
the other, both groupings are the same automaton.  So sources whose trees differ in the grouping
of concatenations alone compile, and to the same two automata. -/
theorem grouping_leaves_no_trace :
    (∀ a b c : Regex,
      ((ofRegex a).concat (ofRegex b)).concat (ofRegex c) =
        (ofRegex a).concat ((ofRegex b).concat (ofRegex c))) ∧
    ∀ {source source' : String} {e e' : Regex}, Regex.parse source = .ok e →
      Regex.parse source' = .ok e' → e.Regrouped e' →
      ∃ m m', Matcher.compile source = .ok m ∧ Matcher.compile source' = .ok m' ∧
        m.nfa = m'.nfa ∧ m.dfa = m'.dfa := by
  refine ⟨fun a b c => concat_assoc (proper_ofRegex a) (proper_ofRegex b), ?_⟩
  intro source source' e e' he he' hregrouped
  have hsame := ofRegex_eq_of_regrouped hregrouped
  exact ⟨_, _, Matcher.compile_eq he, Matcher.compile_eq he', hsame, congrArg toDfa hsame⟩

/-- A group at the front of a repeated concatenation. -/
theorem grouping_leaves_no_trace_repeated :
    let abc : Regex := .concat (.symbol 'a') (.concat (.symbol 'b') (.symbol 'c'))
    let ab_c : Regex := .concat (.concat (.symbol 'a') (.symbol 'b')) (.symbol 'c')
    Regex.parse "((ab)c)*" = .ok (.star ab_c) ∧ Regex.parse "(abc)*" = .ok (.star abc) ∧
      Regex.Regrouped (.star ab_c) (.star abc) ∧
      ∃ m m', Matcher.compile "((ab)c)*" = .ok m ∧ Matcher.compile "(abc)*" = .ok m' ∧
        m.nfa = m'.nfa ∧ m.dfa = m'.dfa := by
  intro abc ab_c
  have hsymbol {c : Char} (hc : c ∉ Regex.operators) : Regex.Spells .item [c] (.symbol c) :=
    .operand (.symbol hc)
  have ha := hsymbol (c := 'a') (by decide)
  have hb := hsymbol (c := 'b') (by decide)
  have hc := hsymbol (c := 'c') (by decide)
  have hab := Regex.Spells.group (.single (.concat ha (.item hb)))
  have hleft := Regex.Spells.group (.single (.concat (.operand hab) (.item hc)))
  have hright := Regex.Spells.group (.single (.concat ha (.concat hb (.item hc))))
  have hparse : Regex.parse "((ab)c)*" = .ok (.star ab_c) :=
    Regex.parse_of_spells (by decide) (.single (.item (.star (.operand hleft))))
  have hparse' : Regex.parse "(abc)*" = .ok (.star abc) :=
    Regex.parse_of_spells (by decide) (.single (.item (.star (.operand hright))))
  have hregrouped := Regex.Regrouped.star (.assoc (.symbol 'a') (.symbol 'b') (.symbol 'c'))
  exact ⟨hparse, hparse', hregrouped, grouping_leaves_no_trace.2 hparse hparse' hregrouped⟩

end Nfa

end FrontEnd
