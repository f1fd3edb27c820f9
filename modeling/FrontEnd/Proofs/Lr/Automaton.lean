/-
# `Lr.Automaton` — items, transitions, and what a path remembers

`Holds g q i` says that the state with number `q` has the item `i`.  All that the
rest needs to know about closures, gotos and the canonical collection is said in terms of it:
a state is closed under prediction (`Holds.predict`), a transition moves the dot
(`Holds.advance`), and nothing else is in a state (`Path.valid`).

A path from the start state is held as a parser holds it, the top first: the states on the
stack and the symbols between them.  The items of its last state are those that prediction
and reading the symbols of the path lead to (`Valid`).  Such an item remembers the end of the
path: the symbols before its dot are the last ones of the path (`Valid.take_eq`).
-/
import FrontEnd.Lr.Automaton
import FrontEnd.Proofs.Grammar.Derivation
import FrontEnd.Proofs.Subsets

namespace FrontEnd

open Discovery

/-! ## Closures and gotos -/

theorem Item.mem_predicted {g : Grammar} {i j : Item} :
    j ∈ i.predicted g ↔
      j.dot = 0 ∧ ∃ p, g.production? j.production = some p ∧ i.next g = some p.head := by
  unfold Item.predicted
  split
  · rename_i hnext
    simp [hnext]
  · rename_i x hnext
    simp only [List.mem_map, Grammar.mem_productionsOf, hnext, Option.some.injEq]
    refine ⟨?_, ?_⟩
    · rintro ⟨k, ⟨p, hp, rfl⟩, rfl⟩
      exact ⟨rfl, p, hp, rfl⟩
    · rintro ⟨hdot, p, hp, rfl⟩
      refine ⟨j.production, ⟨p, hp, rfl⟩, ?_⟩
      rw [← hdot]

/-- What an item has read once it has read the symbol behind its dot. -/
theorem Item.take_of_next {g : Grammar} {i : Item} {p : Production} {x : Symbol}
    (hp : g.production? i.production = some p) (hnext : i.next g = some x) :
    p.body.take (i.dot + 1) = p.body.take i.dot ++ [x] := by
  rw [next, hp] at hnext
  rw [List.take_add_one, show p.body[i.dot]? = some x from hnext]
  rfl

namespace ItemSet

variable {g : Grammar}

/-- The items with the dot in front: what a closure can add. -/
def fronts (g : Grammar) : List Item := (List.range g.productions.length).map fun i => ⟨i, 0⟩

theorem mem_fronts_of_predicted {i j : Item} (h : j ∈ i.predicted g) : j ∈ fronts g := by
  obtain ⟨hdot, p, hp, -⟩ := Item.mem_predicted.mp h
  have hlt : j.production < g.productions.length := (List.getElem?_eq_some_iff.mp hp).1
  refine List.mem_map.mpr ⟨j.production, List.mem_range.mpr hlt, ?_⟩
  rw [← hdot]

theorem mem_closure {kernel : List Item} {i : Item} :
    i ∈ closure g kernel ↔ Reachable (Item.predicted g) kernel i := by
  rw [closure, SortedSet.mem_ofList]
  have hroots : ∀ j ∈ kernel, j ∈ kernel ++ fronts g := by
    intro j hj
    exact List.mem_append_left _ hj
  refine mem_discover_iff hroots ?_ ?_
  · intro j _ k hk
    exact List.mem_append_right _ (mem_fronts_of_predicted hk)
  · simp [fronts]

theorem closure_cases {kernel : List Item} {i : Item} (h : i ∈ closure g kernel) :
    i ∈ kernel ∨ ∃ j ∈ closure g kernel, i ∈ j.predicted g := by
  cases mem_closure.mp h with
  | root hi => exact Or.inl hi
  | step hj hi => exact Or.inr ⟨_, mem_closure.mpr hj, hi⟩

theorem mem_nextSymbols {s : ItemSet} {x : Symbol} :
    x ∈ s.nextSymbols g ↔ ∃ i ∈ s, i.next g = some x := by
  simp [nextSymbols, mem_fresh, SortedSet.mem_def]

end ItemSet

namespace Lr

variable {g : Grammar}

/-! ## The collection -/

/-- The items of a grammar: every production with every place of the dot. -/
def allItems (g : Grammar) : List Item :=
  g.productions.zipIdx.flatMap fun (p, i) => (List.range (p.body.length + 1)).map fun d => ⟨i, d⟩

theorem mem_allItems {i : Item} :
    i ∈ allItems g ↔ ∃ p, g.production? i.production = some p ∧ i.dot ≤ p.body.length := by
  simp only [allItems, List.mem_flatMap, List.mem_map, List.mem_range, Prod.exists,
    List.mem_zipIdx_iff_getElem?]
  refine ⟨?_, ?_⟩
  · rintro ⟨p, k, hp, d, hd, rfl⟩
    exact ⟨p, hp, Nat.lt_succ_iff.mp hd⟩
  · rintro ⟨p, hp, hd⟩
    exact ⟨p, i.production, hp, i.dot, Nat.lt_succ_iff.mpr hd, rfl⟩

theorem length_allItems (g : Grammar) : (allItems g).length = itemCount g := by
  have hsum (ps : Productions) (k : Nat) :
      ((ps.zipIdx k).flatMap fun (p, i) =>
        (List.range (p.body.length + 1)).map fun d => (⟨i, d⟩ : Item)).length =
      ps.length + (ps.flatMap (·.body)).length := by
    induction ps generalizing k with
    | nil => rfl
    | cons p ps ih =>
        rw [List.zipIdx_cons, List.flatMap_cons, List.flatMap_cons, List.length_append, ih]
        simp
        omega
  exact hsum g.productions 0

theorem predicted_mem_allItems {i j : Item} (h : j ∈ i.predicted g) : j ∈ allItems g := by
  obtain ⟨hdot, p, hp, -⟩ := Item.mem_predicted.mp h
  exact mem_allItems.mpr ⟨p, hp, hdot ▸ Nat.zero_le _⟩

theorem closure_mem_allItems {kernel : List Item} (hkernel : ∀ i ∈ kernel, i ∈ allItems g)
    {i : Item} (h : i ∈ ItemSet.closure g kernel) : i ∈ allItems g := by
  rcases ItemSet.closure_cases h with hi | ⟨j, -, hi⟩
  · exact hkernel i hi
  · exact predicted_mem_allItems hi

theorem initial_mem_allItems {i : Item} (h : i ∈ initial g) : i ∈ allItems g := by
  refine closure_mem_allItems (fun j hj => ?_) h
  obtain rfl := List.mem_singleton.mp hj
  obtain ⟨p, hp, -, -⟩ := g.production?_augmenting
  exact mem_allItems.mpr ⟨p, hp, Nat.zero_le _⟩

/-- The items that `goto` moves on: those that read `x`, with the dot behind it. -/
theorem mem_kernel {s : ItemSet} {x : Symbol} {i : Item} :
    i ∈ (s.toList.filter fun j => j.next g = some x).map Item.advance ↔
      ∃ j ∈ s, j.next g = some x ∧ j.advance = i := by
  simp only [List.mem_map, List.mem_filter, decide_eq_true_eq, SortedSet.mem_def, and_assoc]

theorem advance_mem_allItems {i : Item} {x : Symbol} (h : i.next g = some x) :
    i.advance ∈ allItems g := by
  obtain ⟨p, hp, hx⟩ := Option.bind_eq_some_iff.mp h
  exact mem_allItems.mpr ⟨p, hp, (List.getElem?_eq_some_iff.mp hx).1⟩

theorem goto_mem_allItems {s : ItemSet} {x : Symbol} {i : Item} (h : i ∈ s.goto g x) :
    i ∈ allItems g := by
  refine closure_mem_allItems (fun k hk => ?_) h
  obtain ⟨j, -, hnext, rfl⟩ := mem_kernel.mp hk
  exact advance_mem_allItems hnext

theorem mem_collection {s : ItemSet} :
    s ∈ collection g ↔ Reachable (successors g) [initial g] s := by
  rw [collection]
  rw [← length_allItems]
  refine mem_discover_sets_iff (fun i hi => initial_mem_allItems hi) ?_
  intro t _ u hu i hi
  obtain ⟨x, -, rfl⟩ := List.mem_map.mp hu
  exact goto_mem_allItems hi

theorem getElem?_collection_zero : (collection g)[0]? = some (initial g) :=
  getElem?_discover_zero

/-! ## States and transitions -/

theorem state?_ofGrammar (g : Grammar) (q : Nat) :
    (Automaton.ofGrammar g).state? q = (collection g)[q]?.map (.ofItems g (collection g) q) := by
  simp [Automaton.state?, Automaton.ofGrammar, List.getElem?_zipIdx, Function.comp_def]

theorem mem_states_iff {s : State} :
    s ∈ (Automaton.ofGrammar g).states ↔
      ∃ q items, (collection g)[q]? = some items ∧ .ofItems g (collection g) q items = s := by
  rw [List.mem_iff_getElem?]
  refine exists_congr fun q => ?_
  show (Automaton.ofGrammar g).state? q = some s ↔ _
  rw [state?_ofGrammar, Option.map_eq_some_iff]

/-- The number of a state is its place. -/
theorem id_of_state? {q : Nat} {s : State} (h : (Automaton.ofGrammar g).state? q = some s) :
    s.id = q := by
  rw [state?_ofGrammar] at h
  obtain ⟨items, -, rfl⟩ := Option.map_eq_some_iff.mp h
  rfl

theorem ids_ascending (g : Grammar) :
    (Automaton.ofGrammar g).states.Pairwise fun s t => s.id < t.id := by
  refine List.pairwise_iff_getElem.mpr ?_
  intro q r hq hr hlt
  rwa [id_of_state? (List.getElem?_eq_getElem hq), id_of_state? (List.getElem?_eq_getElem hr)]

theorem transition_eq_some_iff {q r : Nat} {x : Symbol} :
    (Automaton.ofGrammar g).transition q x = some r ↔
      ∃ s, (collection g)[q]? = some s ∧ (∃ i ∈ s, i.next g = some x) ∧
        (collection g).idxOf (s.goto g x) = r := by
  rw [Automaton.transition, state?_ofGrammar]
  cases (collection g)[q]? with
  | none => simp
  | some s =>
      simp only [Option.map_some, Option.bind_some, Option.some.injEq, exists_eq_left',
        State.ofItems]
      rw [← ItemSet.mem_nextSymbols]
      by_cases hx : x ∈ s.nextSymbols g
      · rw [List.lookup_graph _ (SortedSet.mem_ofList.mpr hx)]
        simp [hx]
      · have hnone : ((SortedSet.ofList (s.nextSymbols g)).toList.map fun y =>
            (y, (collection g).idxOf (s.goto g y))).lookup x = none := by
          rw [List.lookup_eq_none_iff]
          intro e he
          obtain ⟨y, hy, rfl⟩ := List.mem_map.mp he
          have hne : x ≠ y := fun hxy => hx (hxy ▸ SortedSet.mem_ofList.mp hy)
          simpa using hne
        rw [hnone]
        simp [hx]

/-- A transition leads to the state whose items are the goto. -/
theorem collection_target {q r : Nat} {x : Symbol} {s : ItemSet} (hq : (collection g)[q]? = some s)
    (h : (Automaton.ofGrammar g).transition q x = some r) :
    (collection g)[r]? = some (s.goto g x) := by
  obtain ⟨s', hs', hx, rfl⟩ := transition_eq_some_iff.mp h
  obtain rfl : s' = s := Option.some.inj (hs'.symm.trans hq)
  refine List.getElem?_idxOf (mem_collection.mpr ?_)
  refine .step (mem_collection.mp (List.mem_of_getElem? hq)) ?_
  exact List.mem_map_of_mem (ItemSet.mem_nextSymbols.mpr hx)

/-! ## The items of a state -/

/-- State `q` has the item `i`. -/
def Holds (g : Grammar) (q : Nat) (i : Item) : Prop := ∃ s, (collection g)[q]? = some s ∧ i ∈ s

theorem holds_zero : Holds g 0 ⟨g.augmenting, 0⟩ :=
  ⟨initial g, getElem?_collection_zero, ItemSet.mem_closure.mpr (.root List.mem_cons_self)⟩

/-- The sets of the collection are closed. -/
theorem collection_closed {s : ItemSet} (hs : s ∈ collection g) :
    ∃ kernel, s = ItemSet.closure g kernel := by
  cases mem_collection.mp hs with
  | root hs =>
      obtain rfl := List.mem_singleton.mp hs
      exact ⟨_, rfl⟩
  | step _ hs =>
      obtain ⟨x, -, rfl⟩ := List.mem_map.mp hs
      exact ⟨_, rfl⟩

/-- A state that reads a non-terminal next has all its productions, with nothing read. -/
theorem Holds.predict {q j : Nat} {i : Item} {p : Production} (h : Holds g q i)
    (hp : g.production? j = some p) (hnext : i.next g = some p.head) : Holds g q ⟨j, 0⟩ := by
  obtain ⟨s, hq, hi⟩ := h
  obtain ⟨kernel, rfl⟩ := collection_closed (List.mem_of_getElem? hq)
  refine ⟨_, hq, ItemSet.mem_closure.mpr (.step (ItemSet.mem_closure.mp hi) ?_)⟩
  exact Item.mem_predicted.mpr ⟨rfl, p, hp, hnext⟩

/-- A state that reads a symbol next has a transition over it, to a state with the dot moved on. -/
theorem Holds.advance {q : Nat} {i : Item} {x : Symbol} (h : Holds g q i)
    (hnext : i.next g = some x) :
    ∃ r, (Automaton.ofGrammar g).transition q x = some r ∧ Holds g r i.advance := by
  obtain ⟨s, hq, hi⟩ := h
  have htrans := transition_eq_some_iff.mpr ⟨s, hq, ⟨i, hi, hnext⟩, rfl⟩
  refine ⟨_, htrans, s.goto g x, collection_target hq htrans, ItemSet.mem_closure.mpr (.root ?_)⟩
  exact mem_kernel.mpr ⟨i, hi, hnext, rfl⟩

/-- A transition is over a symbol that some item of its source reads next. -/
theorem exists_holds_of_transition {q r : Nat} {x : Symbol}
    (h : (Automaton.ofGrammar g).transition q x = some r) :
    ∃ i, Holds g q i ∧ i.next g = some x := by
  obtain ⟨s, hq, ⟨i, hi, hnext⟩, -⟩ := transition_eq_some_iff.mp h
  exact ⟨i, ⟨s, hq, hi⟩, hnext⟩

/-- So that symbol is in a body. -/
theorem exists_body_of_transition {q r : Nat} {x : Symbol}
    (h : (Automaton.ofGrammar g).transition q x = some r) : ∃ p ∈ g.productions, x ∈ p.body := by
  obtain ⟨i, -, hnext⟩ := exists_holds_of_transition h
  obtain ⟨p, hp, hx⟩ := Option.bind_eq_some_iff.mp hnext
  exact ⟨p, Grammar.mem_of_production? hp, List.mem_of_getElem? hx⟩

/-- The dot of an item in a state is inside the body. -/
theorem Holds.within {q : Nat} {i : Item} (h : Holds g q i) :
    ∃ p, g.production? i.production = some p ∧ i.dot ≤ p.body.length := by
  obtain ⟨s, hq, hi⟩ := h
  refine mem_allItems.mp ?_
  cases mem_collection.mp (List.mem_of_getElem? hq) with
  | root hs =>
      obtain rfl := List.mem_singleton.mp hs
      exact initial_mem_allItems hi
  | step _ hs =>
      obtain ⟨x, -, rfl⟩ := List.mem_map.mp hs
      exact goto_mem_allItems hi

/-! ## Valid items -/

/-- `Valid g xs i`: reading the symbols `xs`, the last of which is first, can lead to the item
`i`.  Items with the dot in front are predicted, and reading a symbol moves the dot over it. -/
inductive Valid (g : Grammar) : List Symbol → Item → Prop
  | start : Valid g [] ⟨g.augmenting, 0⟩
  | predict {xs : List Symbol} {i j : Item} :
      Valid g xs i → j ∈ i.predicted g → Valid g xs j
  | advance {xs : List Symbol} {i : Item} {x : Symbol} :
      Valid g xs i → i.next g = some x → Valid g (x :: xs) i.advance

namespace Valid

variable {xs : List Symbol}

theorem of_closure {kernel : List Item} (hkernel : ∀ j ∈ kernel, Valid g xs j) {i : Item}
    (h : i ∈ ItemSet.closure g kernel) : Valid g xs i := by
  have hreach := ItemSet.mem_closure.mp h
  clear h
  induction hreach with
  | root hi => exact hkernel _ hi
  | step _ hj ih => exact .predict ih hj

/-- The symbols before the dot are the last ones that have been read. -/
theorem take_eq {i : Item} {p : Production} (h : Valid g xs i)
    (hp : g.production? i.production = some p) :
    i.dot ≤ xs.length ∧ xs.take i.dot = (p.body.take i.dot).reverse := by
  induction h with
  | start => exact ⟨Nat.le_refl _, rfl⟩
  | predict _ hj => simp [(Item.mem_predicted.mp hj).1]
  | @advance xs i x _ hnext ih =>
      obtain ⟨hle, htake⟩ := ih hp
      refine ⟨Nat.succ_le_succ hle, ?_⟩
      show x :: xs.take i.dot = (p.body.take (i.dot + 1)).reverse
      rw [htake, Item.take_of_next (i := i) hp hnext]
      simp

/-- Before the symbols in front of its dot were read, an item had its dot in front. -/
theorem front {i : Item} (h : Valid g xs i) : Valid g (xs.drop i.dot) ⟨i.production, 0⟩ := by
  induction h with
  | start => exact .start
  | @predict xs i j hi hj _ =>
      obtain ⟨production, dot⟩ := j
      obtain rfl : dot = 0 := (Item.mem_predicted.mp hj).1
      exact .predict hi hj
  | advance _ _ ih => exact ih

/-- An item with the dot in front is the first of all, or its head comes next in another one. -/
theorem front_cases {i : Nat} (h : Valid g xs ⟨i, 0⟩) :
    i = g.augmenting ∨ ∃ j p, Valid g xs j ∧ g.production? i = some p ∧ j.next g = some p.head := by
  generalize hi : (⟨i, 0⟩ : Item) = k at h
  cases h with
  | start => exact Or.inl (congrArg Item.production hi)
  | @predict _ j _ hj hpred =>
      subst hi
      obtain ⟨-, p, hp, hnext⟩ := Item.mem_predicted.mp hpred
      exact Or.inr ⟨j, p, hj, hp, hnext⟩
  | advance => exact nomatch congrArg Item.dot hi

/-- Where the start symbol is in no body, its production is not predicted. -/
theorem eq_nil (hstart : ∀ p ∈ g.productions, g.start ∉ p.body)
    (h : Valid g xs ⟨g.augmenting, 0⟩) : xs = [] := by
  generalize hi : (⟨g.augmenting, 0⟩ : Item) = i at h
  cases h with
  | start => rfl
  | @predict _ j _ _ hpred =>
      subst hi
      obtain ⟨-, p, hp, hnext⟩ := Item.mem_predicted.mp hpred
      obtain ⟨p', hp', hhead, -⟩ := g.production?_augmenting
      obtain rfl : p = p' := Option.some.inj (hp.symm.trans hp')
      obtain ⟨q, hq, hx⟩ := Option.bind_eq_some_iff.mp hnext
      exact absurd (hhead ▸ List.mem_of_getElem? hx) (hstart q (Grammar.mem_of_production? hq))
  | advance => exact nomatch congrArg Item.dot hi

/-- There the augmenting production has been read only where nothing else has been. -/
theorem eq_root (hstart : ∀ p ∈ g.productions, g.start ∉ p.body)
    (h : Valid g xs ⟨g.augmenting, 1⟩) : xs = [g.root] := by
  generalize hi : (⟨g.augmenting, 1⟩ : Item) = i at h
  cases h with
  | start => exact nomatch congrArg Item.dot hi
  | predict _ hpred => exact nomatch (congrArg Item.dot hi).trans (Item.mem_predicted.mp hpred).1
  | @advance xs j x hj hnext =>
      obtain rfl : j = ⟨g.augmenting, 0⟩ := by
        cases j
        simpa [Item.advance, eq_comm] using hi
      obtain ⟨p, hp, -, hbody⟩ := g.production?_augmenting
      obtain rfl : g.root = x := by simpa [Item.next, hp, hbody] using hnext
      rw [hj.eq_nil hstart]

end Valid

/-! ## Paths -/

/-- `Path g xs stack`: the automaton goes from the start state through the states of the stack
over the symbols `xs`, both with the last one first. -/
inductive Path (g : Grammar) : List Symbol → List Nat → Prop
  | start : Path g [] [0]
  | step {x : Symbol} {xs : List Symbol} {q r : Nat} {stack : List Nat} :
      Path g xs (q :: stack) → (Automaton.ofGrammar g).transition q x = some r →
      Path g (x :: xs) (r :: q :: stack)

namespace Path

variable {xs : List Symbol} {stack : List Nat}

theorem drop (h : Path g xs stack) : ∀ {n : Nat}, n ≤ xs.length →
    Path g (xs.drop n) (stack.drop n) := by
  induction h with
  | start =>
      intro n hn
      obtain rfl : n = 0 := Nat.le_zero.mp hn
      exact .start
  | step hpath htrans ih =>
      intro n hn
      cases n with
      | zero => exact .step hpath htrans
      | succ n => exact ih (Nat.le_of_succ_le_succ hn)

theorem exists_top (h : Path g xs stack) : ∃ q rest, stack = q :: rest := by
  cases h with
  | start => exact ⟨0, [], rfl⟩
  | step => exact ⟨_, _, rfl⟩

/-- The items of the last state are valid for the symbols of the path. -/
theorem valid {q : Nat} {i : Item} (h : Path g xs (q :: stack)) (hi : Holds g q i) :
    Valid g xs i := by
  generalize hstates : q :: stack = states at h
  induction h generalizing q stack i with
  | start =>
      obtain ⟨rfl, -⟩ := List.cons.inj hstates
      obtain ⟨s, hq, hi⟩ := hi
      obtain rfl : initial g = s := Option.some.inj (getElem?_collection_zero.symm.trans hq)
      refine .of_closure (fun j hj => ?_) hi
      obtain rfl := List.mem_singleton.mp hj
      exact .start
  | @step x xs q' r stack' _ htrans ih =>
      obtain ⟨rfl, -⟩ := List.cons.inj hstates
      obtain ⟨s, hq, -, -⟩ := transition_eq_some_iff.mp htrans
      obtain ⟨t, hr, hi⟩ := hi
      obtain rfl : s.goto g x = t := Option.some.inj ((collection_target hq htrans).symm.trans hr)
      refine .of_closure (fun j hj => ?_) hi
      obtain ⟨k, hk, hnext, rfl⟩ := mem_kernel.mp hj
      exact .advance (ih ⟨s, hq, hk⟩ rfl) hnext

/-- The last state has all items that are valid for the symbols of the path. -/
theorem holds {i : Item} (hi : Valid g xs i) : ∀ {q : Nat} {stack : List Nat},
    Path g xs (q :: stack) → Holds g q i := by
  induction hi with
  | start =>
      intro q stack h
      cases h
      exact holds_zero
  | predict _ hj ih =>
      intro q stack h
      obtain ⟨hdot, p, hp, hnext⟩ := Item.mem_predicted.mp hj
      have hpredicted := (ih h).predict hp hnext
      rwa [← hdot] at hpredicted
  | advance _ hnext ih =>
      intro q stack h
      cases h with
      | step hpath htrans =>
          obtain ⟨r, htrans', hr⟩ := (ih hpath).advance hnext
          obtain rfl : q = r := Option.some.inj (htrans.symm.trans htrans')
          exact hr

end Path

end Lr

end FrontEnd
