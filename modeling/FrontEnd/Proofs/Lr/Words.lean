/-
# `Lr.Words` — what the items of a state say about the words that lead there

Many words lead to one state, because item sets that are equal are one state, and the automaton can
have cycles.  An item of the state says what all of these words have in common: they end with the
part of the body that has been read (`Holds.remembers`), and where that part begins they have come
by a state that has the item with nothing read.

A transition leads to a state in which some item has just read its symbol.  So no two transitions
over different symbols lead to the same state (`symbol_unique`), and none leads to the start state,
to which the empty word leads.
-/
import FrontEnd.Proofs.Lr.Collection

namespace FrontEnd.Lr

variable {g : Grammar} {word : List Symbol} {q r : Nat} {x y : Symbol} {i : Item}

/-! ## Words and paths -/

/-- A path from the start state is held with the last symbol first. -/
theorem exists_path_of_word (h : word.foldlM (Automaton.ofGrammar g).transition 0 = some q) :
    ∃ stack, Path g word.reverse (q :: stack) := by
  induction word using List.reverseRecOn generalizing q with
  | nil =>
      obtain rfl := Option.some.inj h
      exact ⟨[], .start⟩
  | append_singleton word x ih =>
      obtain ⟨q', hword, hlast⟩ := leads_append_singleton.mp h
      obtain ⟨stack, hpath⟩ := ih hword
      rw [List.reverse_append]
      exact ⟨q' :: stack, .step hpath hlast⟩

theorem Path.leads {xs : List Symbol} {stack : List Nat} (h : Path g xs (q :: stack)) :
    xs.reverse.foldlM (Automaton.ofGrammar g).transition 0 = some q := by
  generalize hstates : q :: stack = states at h
  induction h generalizing q stack with
  | start =>
      obtain ⟨rfl, -⟩ := List.cons.inj hstates
      rfl
  | step _ htrans ih =>
      obtain ⟨rfl, -⟩ := List.cons.inj hstates
      rw [List.reverse_cons]
      exact leads_append_singleton.mpr ⟨_, ih rfl, htrans⟩

theorem holds_iff :
    Holds g q i ↔ ∃ s, (Automaton.ofGrammar g).state? q = some s ∧ i ∈ s.items := by
  simp only [Holds, ← items_state?, Option.map_eq_some_iff]
  refine ⟨?_, ?_⟩
  · rintro ⟨_, ⟨s, hs, rfl⟩, hi⟩
    exact ⟨s, hs, hi⟩
  · rintro ⟨s, hs, hi⟩
    exact ⟨s.items, ⟨s, hs, rfl⟩, hi⟩

/-! ## What an item remembers -/

/-- A word that leads to a state with an item ends with what the item has read, and in front of
that it leads to a state with the same production and nothing read. -/
theorem Holds.remembers (hi : Holds g q i)
    (hword : word.foldlM (Automaton.ofGrammar g).transition 0 = some q) :
    ∃ p before r, g.production? i.production = some p ∧ i.dot ≤ p.body.length ∧
      word = before ++ p.body.take i.dot ∧
      before.foldlM (Automaton.ofGrammar g).transition 0 = some r ∧
      Holds g r ⟨i.production, 0⟩ := by
  obtain ⟨stack, hpath⟩ := exists_path_of_word hword
  obtain ⟨p, hp, hdot⟩ := hi.within
  have hvalid := hpath.valid hi
  obtain ⟨hle, htake⟩ := hvalid.take_eq hp
  -- the path without what the item has read ends in the state that has predicted it
  have hbefore := hpath.drop hle
  obtain ⟨r, rest, hstack⟩ := hbefore.exists_top
  rw [hstack] at hbefore
  refine ⟨p, (word.reverse.drop i.dot).reverse, r, hp, hdot, ?_, hbefore.leads,
    Path.holds hvalid.front hbefore⟩
  calc word = (word.reverse.take i.dot ++ word.reverse.drop i.dot).reverse := by
        rw [List.take_append_drop, List.reverse_reverse]
    _ = (word.reverse.drop i.dot).reverse ++ p.body.take i.dot := by
        rw [htake, List.reverse_append, List.reverse_reverse]

/-- Behind a transition some item has just read its symbol. -/
theorem exists_holds_advance (h : (Automaton.ofGrammar g).transition q x = some r) :
    ∃ i : Item, i.next g = some x ∧ Holds g r i.advance := by
  obtain ⟨i, hi, hnext⟩ := exists_holds_of_transition h
  obtain ⟨r', hr', hadvance⟩ := hi.advance hnext
  obtain rfl : r = r' := Option.some.inj (h.symm.trans hr')
  exact ⟨i, hnext, hadvance⟩

/-- Some word leads to every state that a transition leaves. -/
theorem exists_word_of_transition (h : (Automaton.ofGrammar g).transition q x = some r) :
    ∃ word : List Symbol, word.foldlM (Automaton.ofGrammar g).transition 0 = some q := by
  obtain ⟨s, hs, -, -⟩ := transition_eq_some_iff.mp h
  obtain ⟨word, q', hword, hq'⟩ := exists_word (mem_collection.mp (List.mem_of_getElem? hs))
  exact ⟨word, collection_inj hq' hs ▸ hword⟩

/-- An item that has just read a symbol is only behind transitions over that symbol. -/
theorem eq_of_holds_advance (h : (Automaton.ofGrammar g).transition q y = some r)
    (hi : Holds g r i.advance) (hnext : i.next g = some x) : x = y := by
  obtain ⟨word, hword⟩ := exists_word_of_transition h
  obtain ⟨p, before, -, hp, -, hbefore, -, -⟩ :=
    hi.remembers (leads_append_singleton.mpr ⟨q, hword, h⟩)
  have hread : p.body.take i.advance.dot = p.body.take i.dot ++ [x] := Item.take_of_next hp hnext
  rw [hread, ← List.append_assoc] at hbefore
  exact (List.cons.inj (List.append_inj' hbefore rfl).2).1.symm

/-- Transitions to the same state are over the same symbol. -/
theorem symbol_unique {q' : Nat} (hx : (Automaton.ofGrammar g).transition q x = some r)
    (hy : (Automaton.ofGrammar g).transition q' y = some r) : x = y := by
  obtain ⟨i, hnext, hi⟩ := exists_holds_advance hx
  exact eq_of_holds_advance hy hi hnext

/-- No transition leads to the start state, whose items have read nothing. -/
theorem transition_ne_zero : (Automaton.ofGrammar g).transition q x ≠ some 0 := by
  intro h
  obtain ⟨i, -, hi⟩ := exists_holds_advance h
  have hempty : ([] : List Symbol).foldlM (Automaton.ofGrammar g).transition 0 = some 0 := rfl
  obtain ⟨p, before, -, -, hdot, hbefore, -, -⟩ := hi.remembers hempty
  have hlen := congrArg List.length hbefore
  rw [List.length_append, List.length_take, Nat.min_eq_left hdot, Item.advance] at hlen
  exact Nat.succ_ne_zero _ hlen.symm

/-- **Items remember the path.**  Each word that leads to a state ends with what an item of the
state has read of its body; where that begins, the word has come by a state that has the same
production with nothing read.  So all transitions to a state are over the same symbol, and
none leads to the start state. -/
theorem items_remember (g : Grammar) :
    let a := Automaton.ofGrammar g
    (∀ (word : List Symbol) (q : Nat) (s : State), word.foldlM a.transition 0 = some q →
      a.state? q = some s → ∀ i ∈ s.items, ∃ p before r t,
        g.production? i.production = some p ∧ i.dot ≤ p.body.length ∧
        before.length + i.dot = word.length ∧ word = before ++ p.body.take i.dot ∧
        before.foldlM a.transition 0 = some r ∧ a.state? r = some t ∧
        ⟨i.production, 0⟩ ∈ t.items) ∧
    (∀ q q' r x y, a.transition q x = some r → a.transition q' y = some r → x = y) ∧
    ∀ q x, a.transition q x ≠ some 0 := by
  refine ⟨?_, fun _ _ _ _ _ => symbol_unique, fun _ _ => transition_ne_zero⟩
  intro word q s hword hs i hi
  obtain ⟨p, before, r, hp, hdot, hend, hbefore, hfront⟩ :=
    (holds_iff.mpr ⟨s, hs, hi⟩).remembers hword
  obtain ⟨t, ht, hfront⟩ := holds_iff.mp hfront
  refine ⟨p, before, r, t, hp, hdot, ?_, hend, hbefore, ht, hfront⟩
  rw [hend, List.length_append, List.length_take, Nat.min_eq_left hdot]

/-- Behind one bracket the automaton goes round in a circle for each further one. -/
theorem items_remember_brackets :
    let a := Automaton.ofGrammar ItemSet.brackets
    ∃ s, ["[", "[", "[", "S"].foldlM a.transition 0 = some 4 ∧ a.state? 4 = some s ∧
      (⟨1, 2⟩ : Item) ∈ s.items ∧
      ∃ before r t, ["[", "[", "[", "S"] = before ++ ["[", "S"] ∧
        before.foldlM a.transition 0 = some r ∧ a.state? r = some t ∧
          (⟨1, 0⟩ : Item) ∈ t.items := by
  obtain ⟨hremember, -, -⟩ := items_remember ItemSet.brackets
  obtain ⟨s, hs, hi⟩ : ∃ s, (Automaton.ofGrammar ItemSet.brackets).state? 4 = some s ∧
      (⟨1, 2⟩ : Item) ∈ s.items := ⟨_, rfl, by decide +kernel⟩
  obtain ⟨p, before, r, t, hp, -, -, hword, hbefore, ht, hfront⟩ :=
    hremember ["[", "[", "[", "S"] 4 s rfl hs ⟨1, 2⟩ hi
  obtain rfl : (⟨"S", ["[", "S", "]"], none⟩ : Production) = p := Option.some.inj hp
  exact ⟨s, rfl, hs, hi, before, r, t, hword, hbefore, ht, hfront⟩

end FrontEnd.Lr
