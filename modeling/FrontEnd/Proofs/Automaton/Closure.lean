/-
# `Automaton.Closure` — the closure of states is what edges that read nothing lead to

From the given states one comes to those of their closure over any number of edges that read
nothing, and to no others (`mem_closure_iff_steps`); given states that the automaton does not have
stay by themselves.  The search for them comes to an end although such edges can go round, as they
do in every repetition: each state is taken off the queue once.

Where a path of edges leads does not depend on what else is in the set.  The laws of closures
follow from that, and so does what a move along a character makes of a set.
-/
import FrontEnd.Proofs.Automaton.Subset
import Mathlib.Logic.Relation

namespace FrontEnd.Nfa

open Discovery

variable {n : Nfa}

/-- One edge that reads nothing. -/
def Steps (n : Nfa) (s t : Nat) : Prop := n.Edge s .epsilon t

theorem path_nil_iff {s t : Nat} : n.Path s [] t ↔ Relation.ReflTransGen n.Steps s t := by
  refine ⟨?_, ?_⟩
  · intro h
    generalize hword : [] = word at h
    induction h with
    | nil _ => exact .refl
    | @step _ _ _ l _ hedge _ ih =>
        cases l with
        | epsilon => exact .head hedge (ih hword)
        | char c => exact nomatch hword
  · intro h
    induction h using Relation.ReflTransGen.head_induction_on with
    | refl => exact .nil t
    | head hedge _ ih => exact .epsilon hedge ih

theorem mem_closure_iff_steps (hn : n.Proper) {states : List Nat} {t : Nat} :
    t ∈ n.closure states ↔ ∃ s ∈ states, Relation.ReflTransGen n.Steps s t := by
  simp only [mem_closure hn, path_nil_iff]

/-- The search for a closure takes one state after the other off its queue, as many as the closure
has, and then the queue is empty. -/
theorem drains_closure (hn : n.Proper) (states : List Nat) :
    Drains (n.targets · .epsilon) (fresh [] states) (fresh [] states)
      (n.closure states).size := by
  rw [closure, SortedSet.size_ofList (nodup_discover _ _)]
  have hsearching : Searching (states ++ List.range n.size) (states.length + n.size)
      (fresh [] states) (fresh [] states) := by
    refine searching_roots ?_ (by simp)
    intro s hs
    exact List.mem_append_left _ hs
  exact hsearching.drains (targets_within hn states .epsilon)

/-! ## Laws -/

theorem closure_mono (hn : n.Proper) {states states' : List Nat} (h : states ⊆ states') {t : Nat}
    (ht : t ∈ n.closure states) : t ∈ n.closure states' := by
  obtain ⟨s, hs, hsteps⟩ := (mem_closure_iff_steps hn).mp ht
  exact (mem_closure_iff_steps hn).mpr ⟨s, h hs, hsteps⟩

/-- Closing a closure adds nothing. -/
theorem closure_closure (hn : n.Proper) (states : List Nat) :
    n.closure (n.closure states).toList = n.closure states := by
  ext t
  rw [mem_closure_iff_steps hn, mem_closure_iff_steps hn]
  refine ⟨?_, ?_⟩
  · rintro ⟨s, hs, hsteps⟩
    obtain ⟨r, hr, hsteps'⟩ := (mem_closure_iff_steps hn).mp hs
    exact ⟨r, hr, hsteps'.trans hsteps⟩
  · rintro ⟨s, hs, hsteps⟩
    exact ⟨s, (mem_closure_iff_steps hn).mpr ⟨s, hs, .refl⟩, hsteps⟩

theorem closure_append (hn : n.Proper) (states states' : List Nat) :
    n.closure (states ++ states') = n.closure states ∪ n.closure states' := by
  ext t
  simp only [SortedSet.mem_union, mem_closure_iff_steps hn, List.mem_append, or_and_right,
    exists_or]

theorem closure_union (hn : n.Proper) (s t : StateSet) :
    n.closure (s ∪ t).toList = n.closure s.toList ∪ n.closure t.toList := by
  ext u
  simp only [SortedSet.mem_union, mem_closure_iff_steps hn, ← SortedSet.mem_def, or_and_right,
    exists_or]

/-- A move leads to the closures of the single states behind the character. -/
theorem mem_move_iff (hn : n.Proper) {s : StateSet} {c : Char} {t : Nat} :
    t ∈ n.move s c ↔ ∃ p ∈ s, ∃ q, n.Edge p (.char c) q ∧ t ∈ n.closure [q] := by
  rw [move, mem_closure_iff_steps hn]
  simp only [mem_sources, mem_closure_iff_steps hn, List.mem_singleton, exists_eq_left]
  refine ⟨?_, ?_⟩
  · rintro ⟨q, ⟨p, hp, hedge⟩, hsteps⟩
    exact ⟨p, hp, q, hedge, hsteps⟩
  · rintro ⟨p, hp, q, hedge, hsteps⟩
    exact ⟨q, ⟨p, hp, hedge⟩, hsteps⟩

/-- **The closure of states is exact.**  Whichever constructions have made an automaton, and
whichever states are given, its own or not, the search for their closure comes to an end, and it
finds what any number of edges that read nothing lead to.  So closing a closure adds nothing, more
states have a larger closure, a union is closed by closing its sides, and a move along a
character leads to the closures of the states right behind the character. -/
theorem closure_exact (e : Regex) :
    let n := ofRegex e
    (∀ states, Drains (n.targets · .epsilon) (fresh [] states) (fresh [] states)
        (n.closure states).size ∧
      ∀ t, t ∈ n.closure states ↔
        ∃ s ∈ states, Relation.ReflTransGen (fun p q => n.Edge p .epsilon q) s t) ∧
    (∀ states, n.closure (n.closure states).toList = n.closure states) ∧
    (∀ states states' : List Nat, states ⊆ states' →
      ∀ t ∈ n.closure states, t ∈ n.closure states') ∧
    (∀ states states', n.closure (states ++ states') = n.closure states ∪ n.closure states') ∧
    (∀ s t : StateSet, n.closure (s ∪ t).toList = n.closure s.toList ∪ n.closure t.toList) ∧
    ∀ s c t, t ∈ n.move s c ↔ ∃ p ∈ s, ∃ q, n.Edge p (.char c) q ∧ t ∈ n.closure [q] := by
  intro n
  have hn : n.Proper := proper_ofRegex e
  refine ⟨?_, closure_closure hn, ?_, closure_append hn, closure_union hn, ?_⟩
  · intro states
    exact ⟨drains_closure hn states, fun t => mem_closure_iff_steps hn⟩
  · intro states states' h t ht
    exact closure_mono hn h ht
  · intro s c t
    exact mem_move_iff hn

end FrontEnd.Nfa
