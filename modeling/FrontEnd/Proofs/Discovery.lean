/-
# `Discovery` — the search ends by itself and lists no node twice

A search has fuel, but it does not end for lack of it: where the fuel allows for all nodes that
can be met, the queue runs empty, after as many rounds as nodes are listed (`Searching.drains`).
And each node is listed once (`nodup_discover`), so that its place is a number of its own.
That number has nothing to do with what the node is, only with the order in which edges are
given: where the nodes are renamed the same search is made (`discover_map`).
-/
import FrontEnd.Discovery
import Mathlib.Data.List.Basic

namespace FrontEnd.Discovery

variable {α : Type} [DecidableEq α] {next : α → List α}

/-- `Drains next seen pending rounds`: a search that has met `seen` and has `pending` in its
queue takes a node off the queue `rounds` times, putting each time what is new behind the
others, and then the queue is empty. -/
inductive Drains (next : α → List α) : List α → List α → Nat → Prop
  | done {seen : List α} : Drains next seen [] 0
  | round {seen pending : List α} {a : α} {rounds : Nat} :
      Drains next (fresh seen (next a) ++ seen) (pending ++ fresh seen (next a)) rounds →
      Drains next seen (a :: pending) (rounds + 1)

/-- A search with enough fuel takes off its queue what it lists, and then the queue is empty. -/
theorem Searching.drains {nodes : List α} (hnext : ∀ a ∈ nodes, ∀ b ∈ next a, b ∈ nodes) :
    ∀ {fuel : Nat} {seen pending : List α}, Searching nodes fuel seen pending →
      Drains next seen pending (explore next fuel seen pending).length := by
  intro fuel
  induction fuel with
  | zero =>
      intro seen pending h
      obtain rfl := h.pending_eq_nil
      exact .done
  | succ fuel ih =>
      intro seen pending h
      cases pending with
      | nil => exact .done
      | cons a pending => exact .round (ih (h.step hnext))

/-- What is listed was in the queue or had not been met. -/
theorem explore_cases {x : α} : ∀ {fuel : Nat} {seen pending : List α},
    x ∈ explore next fuel seen pending → x ∈ pending ∨ x ∉ seen := by
  intro fuel
  induction fuel with
  | zero =>
      intro seen pending h
      exact Or.inl h
  | succ fuel ih =>
      intro seen pending h
      cases pending with
      | nil => exact absurd h List.not_mem_nil
      | cons a pending =>
          rcases List.mem_cons.mp h with rfl | h
          · exact Or.inl List.mem_cons_self
          · rcases ih h with hqueue | hnew
            · rcases List.mem_append.mp hqueue with hpending | hfresh
              · exact Or.inl (List.mem_cons_of_mem _ hpending)
              · exact Or.inr (mem_fresh.mp hfresh).2
            · exact Or.inr fun hseen => hnew (List.mem_append_right _ hseen)

theorem nodup_explore : ∀ {fuel : Nat} {seen pending : List α}, pending.Nodup →
    (∀ a ∈ pending, a ∈ seen) → (explore next fuel seen pending).Nodup := by
  intro fuel
  induction fuel with
  | zero =>
      intro seen pending hnodup _
      exact hnodup
  | succ fuel ih =>
      intro seen pending hnodup hmet
      cases pending with
      | nil => exact List.nodup_nil
      | cons a pending =>
          obtain ⟨ha, hnodup⟩ := List.nodup_cons.mp hnodup
          obtain ⟨haseen, hmet⟩ := List.forall_mem_cons.mp hmet
          have hnew {x : α} (hx : x ∈ fresh seen (next a)) : x ∉ seen := (mem_fresh.mp hx).2
          refine List.nodup_cons.mpr ⟨?_, ih ?_ ?_⟩
          · intro hlater
            rcases explore_cases hlater with hqueue | hnot
            · rcases List.mem_append.mp hqueue with hpending | hfresh
              · exact ha hpending
              · exact hnew hfresh haseen
            · exact hnot (List.mem_append_right _ haseen)
          · exact List.nodup_append.mpr ⟨hnodup, nodup_fresh _ _, fun x hx y hy hxy =>
              hnew hy (hxy ▸ hmet x hx)⟩
          · intro x hx
            rcases List.mem_append.mp hx with hpending | hfresh
            · exact List.mem_append_right _ (hmet x hpending)
            · exact List.mem_append_left _ hfresh

theorem nodup_discover (fuel : Nat) (roots : List α) : (discover next fuel roots).Nodup :=
  nodup_explore (nodup_fresh [] roots) fun _ ha => ha

/-! ## Renamed nodes -/

section Renamed

variable {β : Type} [DecidableEq β] {next' : β → List β} {f : α → β}

theorem fresh_map (hf : Function.Injective f) : ∀ (l seen : List α),
    fresh (seen.map f) (l.map f) = (fresh seen l).map f := by
  intro l
  induction l with
  | nil =>
      intro seen
      rfl
  | cons a l ih =>
      intro seen
      have hmet : isIn (f a) (seen.map f) = isIn a seen := by
        rw [Bool.eq_iff_iff, isIn_iff, isIn_iff, List.mem_map_of_injective hf]
      simp only [List.map_cons, fresh, hmet]
      split
      · exact ih seen
      · exact congrArg (f a :: ·) (ih (a :: seen))

theorem explore_map (hf : Function.Injective f) (hnext : ∀ a, next' (f a) = (next a).map f) :
    ∀ (fuel : Nat) (seen pending : List α),
      explore next' fuel (seen.map f) (pending.map f) = (explore next fuel seen pending).map f := by
  intro fuel
  induction fuel with
  | zero =>
      intro seen pending
      rfl
  | succ fuel ih =>
      intro seen pending
      cases pending with
      | nil => rfl
      | cons a pending =>
          simp only [List.map_cons, explore, hnext, fresh_map hf, ← List.map_append]
          exact congrArg (f a :: ·) (ih _ _)

/-- The search of a renamed graph lists the renamed nodes, in the same order. -/
theorem discover_map (hf : Function.Injective f) (hnext : ∀ a, next' (f a) = (next a).map f)
    (fuel : Nat) (roots : List α) :
    discover next' fuel (roots.map f) = (discover next fuel roots).map f := by
  have hroots : fresh [] (roots.map f) = (fresh [] roots).map f := fresh_map hf roots []
  rw [discover, hroots]
  exact explore_map hf hnext fuel _ _

end Renamed

end FrontEnd.Discovery
