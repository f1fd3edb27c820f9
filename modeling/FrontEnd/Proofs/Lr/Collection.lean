/-
# `Lr.Collection` — the automaton of a grammar is its canonical collection

`Canonical g a` says what it is to be the canonical collection of the item sets of `g`, with no
word on how it is found: the start, the closed sets, the gotos between them, and nothing
that is not reached.  A state keeps the place at which it was found as its number, so the numbers
are right when no set of items has two places: then looking for the items of a state finds that
state.

The search for the sets is a breadth-first one, and all that has to be known of it is that it lists
each reachable set once (`mem_collection`, `nodup_collection`) and then has nothing left to
look at (`drains_collection`).
-/
import FrontEnd.Proofs.Lr.Closure

namespace FrontEnd

open Discovery

namespace Lr

variable {g : Grammar}

/-! ## The sets -/

theorem nodup_collection (g : Grammar) : (collection g).Nodup :=
  nodup_discover _ _

/-- The search takes one set after the other off its queue, and then the queue is empty. -/
theorem drains_collection (g : Grammar) :
    Drains (successors g) [initial g] [initial g] (collection g).length := by
  rw [collection, ← length_allItems]
  refine drains_discover_sets (fun i hi => initial_mem_allItems hi) ?_
  intro s _ t ht i hi
  obtain ⟨x, -, rfl⟩ := List.mem_map.mp ht
  exact goto_mem_allItems hi

theorem collection_nonempty {s : ItemSet} (hs : s ∈ collection g) : ∃ i, i ∈ s := by
  cases mem_collection.mp hs with
  | root hs =>
      obtain rfl := List.mem_singleton.mp hs
      exact ⟨⟨g.augmenting, 0⟩, ItemSet.mem_closure.mpr (.root List.mem_cons_self)⟩
  | step _ hs =>
      obtain ⟨x, hx, rfl⟩ := List.mem_map.mp hs
      obtain ⟨i, hi, hnext⟩ := ItemSet.mem_nextSymbols.mp hx
      exact ⟨i.advance, ItemSet.mem_closure.mpr (.root (mem_kernel.mpr ⟨i, hi, hnext, rfl⟩))⟩

/-! ## The states -/

/-- The items of a state are the set with its number. -/
theorem items_state? (g : Grammar) (q : Nat) :
    ((Automaton.ofGrammar g).state? q).map State.items = (collection g)[q]? := by
  rw [state?_ofGrammar, Option.map_map]
  exact Option.map_id'

theorem collection_of_state? {q : Nat} {s : State}
    (h : (Automaton.ofGrammar g).state? q = some s) : (collection g)[q]? = some s.items := by
  rw [← items_state?, h]
  rfl

theorem size_ofGrammar (g : Grammar) : (Automaton.ofGrammar g).size = (collection g).length := by
  simp [Automaton.size, Automaton.ofGrammar]

/-- A set of items has one place in the collection. -/
theorem collection_inj {q r : Nat} {s : ItemSet} (hq : (collection g)[q]? = some s)
    (hr : (collection g)[r]? = some s) : q = r := by
  have hlt : q < (collection g).length := (List.getElem?_eq_some_iff.mp hq).1
  exact (List.getElem?_inj hlt (nodup_collection g)).mp (hq.trans hr.symm)

theorem state?_inj {q r : Nat} {s t : State} (hq : (Automaton.ofGrammar g).state? q = some s)
    (hr : (Automaton.ofGrammar g).state? r = some t) (hsame : s.items = t.items) : q = r := by
  have hr := collection_of_state? hr
  rw [← hsame] at hr
  exact collection_inj (collection_of_state? hq) hr

theorem find_eq_some {q : Nat} {s : State} (h : (Automaton.ofGrammar g).state? q = some s) :
    (Automaton.ofGrammar g).find s.items = some q := by
  have hs : s ∈ (Automaton.ofGrammar g).states := List.mem_of_getElem? h
  cases hfind : (Automaton.ofGrammar g).states.find? fun t => t.items = s.items with
  | none => exact absurd (decide_eq_true rfl) (List.find?_eq_none.mp hfind s hs)
  | some t =>
      obtain ⟨r, ht⟩ := List.mem_iff_getElem?.mp (List.mem_of_find?_eq_some hfind)
      have hsame := List.find?_some hfind
      obtain rfl : r = q := state?_inj ht h (of_decide_eq_true hsame)
      rw [Automaton.find, hfind, Option.map_some, id_of_state? ht]

/-- The last symbol of a word is read in the state to which the others lead. -/
theorem leads_append_singleton {word : List Symbol} {x : Symbol} {r : Nat} :
    (word ++ [x]).foldlM (Automaton.ofGrammar g).transition 0 = some r ↔
      ∃ q, word.foldlM (Automaton.ofGrammar g).transition 0 = some q ∧
        (Automaton.ofGrammar g).transition q x = some r := by
  rw [List.foldlM_append]
  simp [Option.bind_eq_some_iff]

/-- Every reachable set is that of a state to which some word leads from the start state. -/
theorem exists_word {s : ItemSet} (h : Reachable (successors g) [initial g] s) :
    ∃ (word : List Symbol) (q : Nat),
      word.foldlM (Automaton.ofGrammar g).transition 0 = some q ∧ (collection g)[q]? = some s := by
  induction h with
  | root hs =>
      obtain rfl := List.mem_singleton.mp hs
      exact ⟨[], 0, rfl, getElem?_collection_zero⟩
  | step _ ht ih =>
      obtain ⟨word, q, hword, hq⟩ := ih
      obtain ⟨x, hx, rfl⟩ := List.mem_map.mp ht
      have htrans := transition_eq_some_iff.mpr ⟨_, hq, ItemSet.mem_nextSymbols.mp hx, rfl⟩
      exact ⟨word ++ [x], _, leads_append_singleton.mpr ⟨q, hword, htrans⟩,
        collection_target hq htrans⟩

/-! ## The canonical collection -/

/-- What makes an automaton the canonical collection of the item sets of a grammar. -/
structure Canonical (g : Grammar) (a : Automaton) : Prop where
  /-- The search for the item sets takes one round for each state and leaves nothing over. -/
  ends : Drains (successors g) [initial g] [initial g] a.size
  /-- The first state has the closure of the augmenting production with nothing read. -/
  start : (a.state? 0).map State.items = some (ItemSet.closure g [⟨g.augmenting, 0⟩])
  nonempty : ∀ s ∈ a.states, ∃ i, i ∈ s.items
  /-- Where an item reads a head, the productions of that head are there with nothing read. -/
  predicts : ∀ s ∈ a.states, ∀ i ∈ s.items, ∀ {j : Nat} {p : Production},
    g.production? j = some p → i.next g = some p.head → ⟨j, 0⟩ ∈ s.items
  /-- Closing the items of a state adds nothing. -/
  closed : ∀ s ∈ a.states, s.items.close g = s.items
  /-- Items are productions of the grammar with the dot inside of the body or at its end. -/
  within : ∀ s ∈ a.states, ∀ i ∈ s.items,
    ∃ p, g.production? i.production = some p ∧ i.dot ≤ p.body.length
  /-- The number that a state keeps is its place. -/
  ids : ∀ {q : Nat} {s : State}, a.state? q = some s → s.id = q
  /-- No two states have the same items. -/
  distinct : ∀ {q r : Nat} {s t : State}, a.state? q = some s → a.state? r = some t →
    s.items = t.items → q = r
  /-- Each state is found by its items. -/
  found : ∀ {q : Nat} {s : State}, a.state? q = some s → a.find s.items = some q
  /-- There is a transition over what some item reads, and over nothing else. -/
  reads : ∀ {q : Nat} {s : State}, a.state? q = some s → ∀ x,
    (∃ r, a.transition q x = some r) ↔ ∃ i ∈ s.items, i.next g = some x
  /-- A transition leads to the goto. -/
  target : ∀ {q r : Nat} {s : State} {x : Symbol}, a.state? q = some s →
    a.transition q x = some r → (a.state? r).map State.items = some (s.items.goto g x)
  /-- Some word leads from the first state to each of them. -/
  reached : ∀ q < a.size, ∃ word : List Symbol, word.foldlM a.transition 0 = some q

/-- **The automaton of a grammar is the canonical collection of its item sets.** -/
theorem canonical_ofGrammar (g : Grammar) : Canonical g (Automaton.ofGrammar g) := by
  have hmem {s : State} (hs : s ∈ (Automaton.ofGrammar g).states) :
      ∃ q : Nat, (collection g)[q]? = some s.items := by
    obtain ⟨q, hq⟩ := List.mem_iff_getElem?.mp hs
    exact ⟨q, collection_of_state? hq⟩
  constructor
  case ends =>
    rw [size_ofGrammar]
    exact drains_collection g
  case start => exact (items_state? g 0).trans getElem?_collection_zero
  case nonempty =>
    intro s hs
    obtain ⟨q, hq⟩ := hmem hs
    exact collection_nonempty (List.mem_of_getElem? hq)
  case predicts =>
    intro s hs i hi j p hp hnext
    obtain ⟨q, hq⟩ := hmem hs
    obtain ⟨items, hitems, hj⟩ := Holds.predict ⟨s.items, hq, hi⟩ hp hnext
    rwa [Option.some.inj (hq.symm.trans hitems)]
  case closed =>
    intro s hs
    obtain ⟨q, hq⟩ := hmem hs
    obtain ⟨kernel, hkernel⟩ := collection_closed (List.mem_of_getElem? hq)
    rw [hkernel, ItemSet.close_closure]
  case within =>
    intro s hs i hi
    obtain ⟨q, hq⟩ := hmem hs
    exact Holds.within ⟨s.items, hq, hi⟩
  case ids =>
    intro q s hq
    exact id_of_state? hq
  case distinct =>
    intro q r s t hq hr hsame
    exact state?_inj hq hr hsame
  case found =>
    intro q s hq
    exact find_eq_some hq
  case reads =>
    intro q s hq x
    have hq := collection_of_state? hq
    simp only [transition_eq_some_iff, hq, Option.some.injEq, exists_eq_left', exists_and_left,
      exists_eq', and_true]
  case target =>
    intro q r s x hq htrans
    rw [items_state?]
    exact collection_target (collection_of_state? hq) htrans
  case reached =>
    intro q hq
    rw [size_ofGrammar] at hq
    have hs := List.getElem?_eq_getElem hq
    obtain ⟨word, r, hword, hr⟩ := exists_word (mem_collection.mp (List.mem_of_getElem? hs))
    exact ⟨word, collection_inj hr hs ▸ hword⟩

end Lr

end FrontEnd
