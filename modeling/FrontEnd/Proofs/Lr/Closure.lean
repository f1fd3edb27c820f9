/-
# `Lr.Closure` — the closure is the least closed set

A set of items is closed when, wherever one of its items reads a non-terminal, the productions of
that non-terminal are in it with nothing read (`ItemSet.Closed`).  This is said of any set of items:
items of productions that the grammar does not have read nothing, and neither do those with the
dot beyond the body, so they ask for nothing.

The search for the closure of some items comes to an end, and what it has found is the least closed
set with these items in it (`ItemSet.isLeast_closure`).  There is only one least set.  So a set that
can be seen to be least is the closure, and this is how the laws are proved that make
it safe to compare states by their items: the order and the repetition of the items do not
matter, and closing and going over a symbol both respect unions.
-/
import FrontEnd.Proofs.Lr.Automaton
import Mathlib.Data.Set.Lattice
import Mathlib.Order.Bounds.Basic

namespace FrontEnd.ItemSet

open Discovery

variable {g : Grammar} {kernel : List Item}

/-! ## Closed sets -/

/-- Where an item of the set reads a non-terminal, the productions of that non-terminal are in the
set with the dot in front. -/
def Closed (g : Grammar) (t : Set Item) : Prop :=
  ∀ i ∈ t, ∀ x, i.next g = some x →
    ∀ k p, g.production? k = some p → p.head = x → (⟨k, 0⟩ : Item) ∈ t

theorem closed_iff {t : Set Item} : Closed g t ↔ ∀ i ∈ t, ∀ j ∈ i.predicted g, j ∈ t := by
  refine ⟨?_, ?_⟩
  · intro ht i hi j hj
    obtain ⟨hdot, p, hp, hnext⟩ := Item.mem_predicted.mp hj
    have hfront := ht i hi p.head hnext j.production p hp rfl
    rwa [← hdot] at hfront
  · rintro ht i hi _ hnext k p hp rfl
    exact ht i hi ⟨k, 0⟩ (Item.mem_predicted.mpr ⟨rfl, p, hp, hnext⟩)

theorem Closed.union {s t : Set Item} (hs : Closed g s) (ht : Closed g t) : Closed g (s ∪ t) := by
  rintro i (hi | hi) x hnext k p hp hhead
  · exact Or.inl (hs i hi x hnext k p hp hhead)
  · exact Or.inr (ht i hi x hnext k p hp hhead)

/-- A closed set has everything that can be reached from items in it. -/
theorem Closed.mem_of_reachable {t : Set Item} (ht : Closed g t) (hkernel : ∀ i ∈ kernel, i ∈ t)
    {i : Item} (h : Reachable (Item.predicted g) kernel i) : i ∈ t := by
  induction h with
  | root hi => exact hkernel _ hi
  | step _ hj ih => exact closed_iff.mp ht _ ih _ hj

/-! ## The closure -/

/-- The search for a closure takes one item after the other off its queue, as many as the closure
has, and then the queue is empty. -/
theorem drains_closure (g : Grammar) (kernel : List Item) :
    Drains (Item.predicted g) (fresh [] kernel) (fresh [] kernel) (closure g kernel).size := by
  rw [closure, SortedSet.size_ofList (nodup_discover _ _)]
  have hsearching : Searching (kernel ++ fronts g) (kernel.length + g.productions.length)
      (fresh [] kernel) (fresh [] kernel) := by
    refine searching_roots ?_ ?_
    · intro i hi
      exact List.mem_append_left _ hi
    · simp [fronts]
  refine hsearching.drains ?_
  intro i _ j hj
  exact List.mem_append_right _ (mem_fronts_of_predicted hj)

theorem isLeast_closure (g : Grammar) (kernel : List Item) :
    IsLeast {t : Set Item | (∀ i ∈ kernel, i ∈ t) ∧ Closed g t} {i | i ∈ closure g kernel} := by
  refine ⟨⟨?_, closed_iff.mpr ?_⟩, ?_⟩
  · intro i hi
    exact mem_closure.mpr (.root hi)
  · intro i hi j hj
    exact mem_closure.mpr (.step (mem_closure.mp hi) hj)
  · rintro t ⟨hkernel, ht⟩ i hi
    exact ht.mem_of_reachable hkernel (mem_closure.mp hi)

theorem mem_closure_of_mem {i : Item} (hi : i ∈ kernel) : i ∈ closure g kernel :=
  (isLeast_closure g kernel).1.1 i hi

theorem closed_closure (g : Grammar) (kernel : List Item) : Closed g {i | i ∈ closure g kernel} :=
  (isLeast_closure g kernel).1.2

/-- A least closed set with the given items is their closure. -/
theorem closure_eq_of_isLeast {s : ItemSet}
    (h : IsLeast {t : Set Item | (∀ i ∈ kernel, i ∈ t) ∧ Closed g t} {i | i ∈ s}) :
    closure g kernel = s :=
  SortedSet.ext (Set.ext_iff.mp ((isLeast_closure g kernel).unique h))

/-! ## Laws -/

theorem closure_congr {kernel' : List Item} (h : ∀ i, i ∈ kernel ↔ i ∈ kernel') :
    closure g kernel = closure g kernel' := by
  refine closure_eq_of_isLeast ?_
  simp only [h]
  exact isLeast_closure g kernel'

/-- A closed set is its own closure. -/
theorem close_eq_of_closed {s : ItemSet} (hs : Closed g {i | i ∈ s}) : s.close g = s :=
  closure_eq_of_isLeast ⟨⟨fun _ hi => hi, hs⟩, fun _ ht => ht.1⟩

/-- Closing a closure adds nothing. -/
theorem close_closure (g : Grammar) (kernel : List Item) :
    (closure g kernel).close g = closure g kernel :=
  close_eq_of_closed (closed_closure g kernel)

theorem closure_append (kernel kernel' : List Item) :
    closure g (kernel ++ kernel') = closure g kernel ∪ closure g kernel' := by
  -- what an item asks for depends on no other item, so a union of closed sets is closed
  refine closure_eq_of_isLeast ⟨⟨?_, ?_⟩, ?_⟩
  · intro i hi
    refine SortedSet.mem_union.mpr ?_
    exact (List.mem_append.mp hi).imp mem_closure_of_mem mem_closure_of_mem
  · simp only [SortedSet.mem_union]
    exact (closed_closure g kernel).union (closed_closure g kernel')
  · rintro t ⟨hmem, ht⟩ i hi
    obtain ⟨hkernel, hkernel'⟩ := List.forall_mem_append.mp hmem
    rcases SortedSet.mem_union.mp hi with hi | hi
    · exact (isLeast_closure g kernel).2 ⟨hkernel, ht⟩ hi
    · exact (isLeast_closure g kernel').2 ⟨hkernel', ht⟩ hi

theorem close_union (s t : ItemSet) : (s ∪ t).close g = s.close g ∪ t.close g := by
  have hmem : ∀ i, i ∈ (s ∪ t).toList ↔ i ∈ s.toList ++ t.toList := by
    intro i
    rw [List.mem_append]
    exact SortedSet.mem_union
  exact (closure_congr hmem).trans (closure_append s.toList t.toList)

theorem goto_union (s t : ItemSet) (x : Symbol) :
    (s ∪ t).goto g x = s.goto g x ∪ t.goto g x := by
  rw [goto, goto, goto, ← closure_append]
  refine closure_congr ?_
  intro i
  simp only [List.mem_append, Lr.mem_kernel, SortedSet.mem_union, or_and_right, exists_or]

/-- **The closure of items is the least closed set with these items in it**, and the search for it
comes to an end.  So it depends only on which items they are, closing it again adds nothing, and
what is done to a union of sets, closing it or going over a symbol, can be done to each of
them. -/
theorem closure_least (g : Grammar) :
    (∀ kernel, Drains (Item.predicted g) (fresh [] kernel) (fresh [] kernel)
        (closure g kernel).size ∧
      IsLeast {t : Set Item | (∀ i ∈ kernel, i ∈ t) ∧ Closed g t} {i | i ∈ closure g kernel}) ∧
    (∀ kernel kernel', (∀ i, i ∈ kernel ↔ i ∈ kernel') →
      closure g kernel = closure g kernel') ∧
    (∀ kernel, (closure g kernel).close g = closure g kernel) ∧
    (∀ kernel kernel', closure g (kernel ++ kernel') = closure g kernel ∪ closure g kernel') ∧
    ∀ s t : ItemSet, (s ∪ t).close g = s.close g ∪ t.close g ∧
      ∀ x, (s ∪ t).goto g x = s.goto g x ∪ t.goto g x := by
  refine ⟨?_, ?_, close_closure g, closure_append, ?_⟩
  · intro kernel
    exact ⟨drains_closure g kernel, isLeast_closure g kernel⟩
  · intro kernel kernel' h
    exact closure_congr h
  · intro s t
    exact ⟨close_union s t, goto_union s t⟩

/-- An `a` in any number of brackets. -/
def brackets : Grammar :=
  ⟨"S'", 0, [⟨"S'", ["S"], none⟩, ⟨"S", ["[", "S", "]"], none⟩, ⟨"S", ["a"], none⟩],
    ⟨⟨⟨"S'", ["S"], none⟩, by decide +kernel, by decide +kernel⟩, by decide +kernel⟩⟩

/-- An item of no production and one with the dot beyond the body are kept as they are, and the
order and the repetition of the items do not matter. -/
theorem closure_least_brackets :
    (∀ i : Item, i ∈ [⟨7, 0⟩, ⟨1, 9⟩, ⟨1, 1⟩] ↔
      i ∈ ([⟨1, 1⟩, ⟨1, 9⟩, ⟨1, 1⟩, ⟨7, 0⟩] : List Item)) ∧
    closure brackets [⟨7, 0⟩, ⟨1, 9⟩, ⟨1, 1⟩] =
      closure brackets [⟨1, 1⟩, ⟨1, 9⟩, ⟨1, 1⟩, ⟨7, 0⟩] ∧
    (closure brackets [⟨1, 1⟩, ⟨1, 9⟩, ⟨1, 1⟩, ⟨7, 0⟩]).toList =
      [⟨1, 0⟩, ⟨1, 1⟩, ⟨1, 9⟩, ⟨2, 0⟩, ⟨7, 0⟩] := by
  have hsame : ∀ i : Item, i ∈ [⟨7, 0⟩, ⟨1, 9⟩, ⟨1, 1⟩] ↔
      i ∈ ([⟨1, 1⟩, ⟨1, 9⟩, ⟨1, 1⟩, ⟨7, 0⟩] : List Item) := by
    intro i
    simp only [List.mem_cons, List.not_mem_nil]
    tauto
  obtain ⟨-, hcongr, -⟩ := closure_least brackets
  exact ⟨hsame, hcongr _ _ hsame, rfl⟩

end FrontEnd.ItemSet
