/-
# `Slr.Table` — the cells of a parse table are its claims

`Claimed g q x a` says, from the automaton and the FOLLOW sets alone, that state `q` wants the
action `a` at `x`.  Under either policy a table holds nothing but claims
(`build_claimed`); under the policy that refuses conflicts it holds all of them
(`build_action`), so each cell has at most one.

One write changes one cell (`write_ok`), and all else is read off the list of writes.
-/
import FrontEnd.Slr.Table
import FrontEnd.Proofs.Lr.Automaton

namespace FrontEnd

/-! ## Rows and single writes -/

theorem Row.lookup_cell (x y : Symbol) (a : Action) (row : Row) :
    List.lookup y ((x, a) :: row) = if y = x then some a else row.lookup y := by
  by_cases h : y = x
  · simp [h]
  · rw [List.lookup_cons, beq_eq_false_iff_ne.mpr h, if_neg h]

theorem Row.lookup_put (x y : Symbol) (a : Action) (row : Row) :
    (Row.put x a row).lookup y = if y = x then some a else row.lookup y := by
  induction row with
  | nil => exact Row.lookup_cell x y a []
  | cons cell row ih =>
      obtain ⟨z, b⟩ := cell
      unfold Row.put
      split
      · exact Row.lookup_cell x y a _
      · rename_i hcmp
        obtain rfl : x = z := Std.LawfulEqOrd.eq_of_compare hcmp
        rw [Row.lookup_cell, Row.lookup_cell]
        by_cases h : y = x <;> simp [h]
      · rename_i hcmp
        have hne : x ≠ z := by
          rintro rfl
          simp at hcmp
        rw [Row.lookup_cell, Row.lookup_cell, ih]
        by_cases hyz : y = z
        · subst hyz
          simp [hne.symm]
        · simp [hyz]

namespace Table

variable {g : Grammar} {policy : Policy}

theorem action_put {t : Table} {c : Claim} (hc : c.state < t.size) (q : Nat) (x : Symbol) :
    (t.put c).action q x = if q = c.state ∧ x = c.symbol then some c.action else t.action q x := by
  simp only [action, put, List.getElem?_modify]
  by_cases hq : q = c.state
  · subst hq
    have hrow : t.rows[c.state]? = some t.rows[c.state] := List.getElem?_eq_getElem hc
    simp [hrow, Row.lookup_put]
  · simp [hq, Ne.symm hq]

theorem size_put (t : Table) (c : Claim) : (t.put c).size = t.size := by
  simp [size, put]

/-- A write that succeeds puts the action into its cell and changes no other cell. -/
theorem write_ok {t u : Table} {c : Claim} (hc : c.state < t.size)
    (h : write policy t c = .ok u) :
    u.grammar = t.grammar ∧ u.size = t.size ∧
      ∀ q x, u.action q x = if q = c.state ∧ x = c.symbol then some c.action else t.action q x := by
  rw [write] at h
  split at h
  · cases h
    exact ⟨rfl, size_put t c, action_put hc⟩
  · rename_i existing hexisting
    split at h
    · rename_i heq
      cases h
      refine ⟨rfl, rfl, fun q x => ?_⟩
      split
      · rename_i hcell
        rw [hcell.1, hcell.2, hexisting, heq]
      · rfl
    · cases policy with
      | reject => exact nomatch h
      | lastWins =>
          cases h
          exact ⟨rfl, size_put t c, action_put hc⟩

/-- Where conflicts are refused, a write into a taken cell repeats what is there. -/
theorem write_reject {t u : Table} {c : Claim} {a : Action} (h : write .reject t c = .ok u)
    (ha : t.action c.state c.symbol = some a) : a = c.action := by
  rw [write] at h
  rw [ha] at h
  by_cases heq : a = c.action
  · exact heq
  · simp [heq] at h

/-! ## Writing a list of claims -/

/-- The first write of a list, and the state of the table before the others. -/
theorem foldlM_write_cons {c : Claim} {cs : List Claim} {t u : Table}
    (hcs : ∀ d ∈ c :: cs, d.state < t.size) (h : (c :: cs).foldlM (write policy) t = .ok u) :
    ∃ v, write policy t c = .ok v ∧ v.grammar = t.grammar ∧
      (∀ q x, v.action q x = if q = c.state ∧ x = c.symbol then some c.action else t.action q x) ∧
      (∀ d ∈ cs, d.state < v.size) ∧ cs.foldlM (write policy) v = .ok u := by
  obtain ⟨hc, hcs⟩ := List.forall_mem_cons.mp hcs
  rw [List.foldlM_cons] at h
  cases hv : write policy t c with
  | error e =>
      rw [hv] at h
      exact nomatch h
  | ok v =>
      rw [hv] at h
      obtain ⟨hgrammar, hsize, haction⟩ := write_ok hc hv
      rw [← hsize] at hcs
      exact ⟨v, rfl, hgrammar, haction, hcs, h⟩

theorem foldlM_write_grammar {u : Table} : ∀ {cs : List Claim} {t : Table},
    (∀ c ∈ cs, c.state < t.size) → cs.foldlM (write policy) t = .ok u → u.grammar = t.grammar := by
  intro cs
  induction cs with
  | nil =>
      intro t _ h
      cases h
      rfl
  | cons c cs ih =>
      intro t hcs h
      obtain ⟨v, -, hgrammar, -, hcs, hu⟩ := foldlM_write_cons hcs h
      rw [ih hcs hu, hgrammar]

/-- What stands in a cell was there before or is one of the claims. -/
theorem foldlM_write_action {u : Table} {q : Nat} {x : Symbol} {a : Action}
    (ha : u.action q x = some a) : ∀ {cs : List Claim} {t : Table},
    (∀ c ∈ cs, c.state < t.size) → cs.foldlM (write policy) t = .ok u →
      t.action q x = some a ∨ ⟨q, x, a⟩ ∈ cs := by
  intro cs
  induction cs with
  | nil =>
      intro t _ h
      cases h
      exact Or.inl ha
  | cons c cs ih =>
      intro t hcs h
      obtain ⟨v, -, -, haction, hcs, hu⟩ := foldlM_write_cons hcs h
      rcases ih hcs hu with hcell | hmem
      · rw [haction] at hcell
        split at hcell
        · rename_i hqx
          obtain ⟨rfl, rfl⟩ := hqx
          cases hcell
          exact Or.inr List.mem_cons_self
        · exact Or.inl hcell
      · exact Or.inr (List.mem_cons_of_mem _ hmem)

/-- A cell that was taken before or has a claim is taken. -/
theorem foldlM_write_taken {u : Table} {q : Nat} {x : Symbol} : ∀ {cs : List Claim} {t : Table},
    (∀ c ∈ cs, c.state < t.size) → cs.foldlM (write policy) t = .ok u →
      (∃ a, t.action q x = some a ∨ ⟨q, x, a⟩ ∈ cs) → ∃ a, u.action q x = some a := by
  intro cs
  induction cs with
  | nil =>
      rintro t _ h ⟨a, ha | ha⟩
      · cases h
        exact ⟨a, ha⟩
      · exact absurd ha List.not_mem_nil
  | cons c cs ih =>
      rintro t hcs h ⟨a, ha⟩
      obtain ⟨v, -, -, haction, hcs, hu⟩ := foldlM_write_cons hcs h
      refine ih hcs hu ?_
      by_cases hqx : q = c.state ∧ x = c.symbol
      · exact ⟨c.action, Or.inl (by rw [haction, if_pos hqx])⟩
      · rcases ha with ha | ha
        · exact ⟨a, Or.inl (by rw [haction, if_neg hqx, ha])⟩
        · rcases List.mem_cons.mp ha with rfl | ha
          · exact absurd ⟨rfl, rfl⟩ hqx
          · exact ⟨a, Or.inr ha⟩

/-- Where conflicts are refused, an action stays in its cell. -/
theorem foldlM_write_keeps {u : Table} {q : Nat} {x : Symbol} {a : Action} :
    ∀ {cs : List Claim} {t : Table}, (∀ c ∈ cs, c.state < t.size) →
      cs.foldlM (write .reject) t = .ok u → t.action q x = some a → u.action q x = some a := by
  intro cs
  induction cs with
  | nil =>
      intro t _ h ha
      cases h
      exact ha
  | cons c cs ih =>
      intro t hcs h ha
      obtain ⟨v, hv, -, haction, hcs, hu⟩ := foldlM_write_cons hcs h
      refine ih hcs hu ?_
      rw [haction]
      split
      · rename_i hqx
        obtain ⟨rfl, rfl⟩ := hqx
        rw [write_reject hv ha]
      · exact ha

/-- Where conflicts are refused, every claim gets its cell. -/
theorem foldlM_write_mem {u : Table} {c : Claim} : ∀ {cs : List Claim} {t : Table},
    (∀ d ∈ cs, d.state < t.size) → cs.foldlM (write .reject) t = .ok u → c ∈ cs →
      u.action c.state c.symbol = some c.action := by
  intro cs
  induction cs with
  | nil =>
      intro t _ _ hc
      exact absurd hc List.not_mem_nil
  | cons d cs ih =>
      intro t hcs h hc
      obtain ⟨v, -, -, haction, hrest, hu⟩ := foldlM_write_cons hcs h
      rcases List.mem_cons.mp hc with rfl | hc
      · refine foldlM_write_keeps hrest hu ?_
        rw [haction, if_pos ⟨rfl, rfl⟩]
      · exact ih hrest hu hc

/-! ## The claims of a grammar -/

/-- The claims in the order in which they are written. -/
def claims (g : Grammar) : List Claim :=
  shiftClaims (Lr.Automaton.ofGrammar g) ++ reduceClaims g (Lr.Automaton.ofGrammar g)

/-- `Claimed g q x a`: state `q` wants the action `a` at `x`. -/
inductive Claimed (g : Grammar) : Nat → Symbol → Action → Prop
  | shift {q r : Nat} {x : Symbol} : (Lr.Automaton.ofGrammar g).transition q x = some r →
      Claimed g q x (.shift r)
  | reduce {q i : Nat} {x : Symbol} {p : Production} : g.production? i = some p →
      Lr.Holds g q ⟨i, p.body.length⟩ → x ∈ g.follow p.head →
      ¬ (p.head = g.start ∧ x = endMarker) → Claimed g q x (.reduce i)
  | accept {q i : Nat} {p : Production} : g.production? i = some p →
      Lr.Holds g q ⟨i, p.body.length⟩ → endMarker ∈ g.follow p.head → p.head = g.start →
      Claimed g q endMarker .accept

theorem Claimed.of_shift {q r : Nat} {x : Symbol} (h : Claimed g q x (.shift r)) :
    (Lr.Automaton.ofGrammar g).transition q x = some r := by
  cases h with
  | shift htrans => exact htrans

theorem Claimed.of_reduce {q i : Nat} {x : Symbol} (h : Claimed g q x (.reduce i)) :
    ∃ p, g.production? i = some p ∧ Lr.Holds g q ⟨i, p.body.length⟩ ∧ x ∈ g.follow p.head ∧
      (p.head = g.start → x ≠ endMarker) := by
  cases h with
  | reduce hp hholds hfollow hend => exact ⟨_, hp, hholds, hfollow, fun hs hx => hend ⟨hs, hx⟩⟩

/-- Only the item of the augmenting production, read to its end, accepts. -/
theorem Claimed.of_accept {q : Nat} {x : Symbol} (h : Claimed g q x .accept) :
    x = endMarker ∧ Lr.Holds g q ⟨g.augmenting, 1⟩ := by
  cases h with
  | accept hp hholds _ hstart =>
      obtain ⟨p, hp', -, hbody⟩ := g.production?_augmenting
      obtain rfl := Grammar.eq_augmenting hp hstart
      obtain rfl := Option.some.inj (hp.symm.trans hp')
      rw [hbody] at hholds
      exact ⟨rfl, hholds⟩

theorem mem_shiftClaims {c : Claim} :
    c ∈ shiftClaims (Lr.Automaton.ofGrammar g) ↔
      ∃ r, c.action = .shift r ∧
        (Lr.Automaton.ofGrammar g).transition c.state c.symbol = some r := by
  simp only [shiftClaims, List.mem_flatMap, List.mem_map, Prod.exists, Lr.mem_states_iff,
    Lr.transition_eq_some_iff]
  refine ⟨?_, ?_⟩
  · rintro ⟨s, ⟨q, items, hitems, rfl⟩, x, r, hmem, rfl⟩
    obtain ⟨y, hy, heq⟩ := List.mem_map.mp hmem
    cases heq
    have hnext := ItemSet.mem_nextSymbols.mp (SortedSet.mem_ofList.mp hy)
    exact ⟨_, rfl, items, hitems, hnext, rfl⟩
  · rintro ⟨r, hact, items, hitems, hnext, rfl⟩
    refine ⟨_, ⟨c.state, items, hitems, rfl⟩, c.symbol, _, List.mem_map.mpr
      ⟨c.symbol, SortedSet.mem_ofList.mpr (ItemSet.mem_nextSymbols.mpr hnext), rfl⟩, ?_⟩
    rw [← hact]
    rfl

theorem mem_completionClaims {q : Nat} {i : Item} {c : Claim} :
    c ∈ completionClaims g q i ↔
      c.state = q ∧ ∃ p, g.production? i.production = some p ∧ c.symbol ∈ g.follow p.head ∧
        c.action = completion g i.production p.head c.symbol := by
  rw [completionClaims]
  split
  · rename_i hp
    simp [hp]
  · rename_i p hp
    simp only [hp, List.mem_map, Option.some.injEq, exists_eq_left']
    refine ⟨?_, ?_⟩
    · rintro ⟨x, hx, rfl⟩
      exact ⟨rfl, hx, rfl⟩
    · rintro ⟨rfl, hx, hact⟩
      exact ⟨c.symbol, hx, by rw [← hact]⟩

/-- The items that are reducible in a state are those with the dot at the end. -/
theorem mem_reducible {q : Nat} {items : ItemSet} (hq : (Lr.collection g)[q]? = some items)
    {i : Item} :
    i ∈ items.reducible g ↔
      ∃ p, g.production? i.production = some p ∧ i.dot = p.body.length ∧ Lr.Holds g q i := by
  simp only [ItemSet.reducible, List.mem_filter, Item.isReducible, Option.any_eq_true,
    decide_eq_true_eq]
  refine ⟨?_, ?_⟩
  · rintro ⟨hi, p, hp, hle⟩
    have hholds : Lr.Holds g q i := ⟨items, hq, hi⟩
    obtain ⟨p', hp', hle'⟩ := hholds.within
    obtain rfl : p = p' := Option.some.inj (hp.symm.trans hp')
    exact ⟨p, hp, Nat.le_antisymm hle' hle, hholds⟩
  · rintro ⟨p, hp, hdot, items', hq', hi⟩
    obtain rfl : items = items' := Option.some.inj (hq.symm.trans hq')
    exact ⟨hi, p, hp, Nat.le_of_eq hdot.symm⟩

theorem mem_reduceClaims {c : Claim} :
    c ∈ reduceClaims g (Lr.Automaton.ofGrammar g) ↔
      ∃ i p, g.production? i = some p ∧ Lr.Holds g c.state ⟨i, p.body.length⟩ ∧
        c.symbol ∈ g.follow p.head ∧ c.action = completion g i p.head c.symbol := by
  simp only [reduceClaims, List.mem_flatMap, Lr.mem_states_iff]
  refine ⟨?_, ?_⟩
  · rintro ⟨s, ⟨q, items, hitems, rfl⟩, ⟨j, d⟩, hj, hc⟩
    obtain ⟨p, hp, rfl, hholds⟩ := (mem_reducible hitems).mp hj
    obtain ⟨rfl, p', hp', hx, hact⟩ := mem_completionClaims.mp hc
    obtain rfl : p = p' := Option.some.inj (hp.symm.trans hp')
    exact ⟨j, p, hp, hholds, hx, hact⟩
  · rintro ⟨i, p, hp, hholds, hx, hact⟩
    obtain ⟨items, hitems, hi⟩ := id hholds
    exact ⟨_, ⟨c.state, items, hitems, rfl⟩, ⟨i, p.body.length⟩,
      (mem_reducible hitems).mpr ⟨p, hp, rfl, hholds⟩,
      mem_completionClaims.mpr ⟨rfl, p, hp, hx, hact⟩⟩

theorem mem_claims_iff {q : Nat} {x : Symbol} {a : Action} :
    ⟨q, x, a⟩ ∈ claims g ↔ Claimed g q x a := by
  rw [claims, List.mem_append, mem_shiftClaims, mem_reduceClaims]
  refine ⟨?_, ?_⟩
  · rintro (⟨r, hact, htrans⟩ | ⟨i, p, hp, hholds, hx, hact⟩)
    · obtain rfl : a = .shift r := hact
      exact .shift htrans
    · obtain rfl : a = completion g i p.head x := hact
      rw [completion]
      split
      · rename_i hend
        obtain ⟨hstart, rfl⟩ := hend
        exact .accept hp hholds hx hstart
      · rename_i hend
        exact .reduce hp hholds hx hend
  · intro h
    cases h with
    | shift htrans => exact Or.inl ⟨_, rfl, htrans⟩
    | reduce hp hholds hx hend =>
        exact Or.inr ⟨_, _, hp, hholds, hx, (if_neg hend).symm⟩
    | accept hp hholds hx hstart =>
        exact Or.inr ⟨_, _, hp, hholds, hx, (if_pos ⟨hstart, rfl⟩).symm⟩

/-! ## The table of a grammar -/

theorem claims_state_lt {c : Claim} (hc : c ∈ claims g) :
    c.state < (blank g (Lr.Automaton.ofGrammar g)).size := by
  obtain ⟨q, x, a⟩ := c
  have hlt {q : Nat} {items : ItemSet} (hq : (Lr.collection g)[q]? = some items) :
      q < (blank g (Lr.Automaton.ofGrammar g)).size := by
    simpa [blank, size, Lr.Automaton.size, Lr.Automaton.ofGrammar] using
      (List.getElem?_eq_some_iff.mp hq).1
  rcases mem_claims_iff.mp hc with htrans | ⟨-, hholds, -, -⟩ | ⟨-, hholds, -, -⟩
  · obtain ⟨s, hs, -, -⟩ := Lr.transition_eq_some_iff.mp htrans
    exact hlt hs
  · obtain ⟨s, hs, -⟩ := hholds
    exact hlt hs
  · obtain ⟨s, hs, -⟩ := hholds
    exact hlt hs

theorem action_blank (a : Lr.Automaton) (q : Nat) (x : Symbol) :
    (blank g a).action q x = none := by
  simp only [action, blank, List.getElem?_replicate]
  split <;> rfl

theorem build_grammar {t : Table} (h : build policy g = .ok t) : t.grammar = g :=
  foldlM_write_grammar (fun _ hc => claims_state_lt hc) h

/-- Under either policy, a table holds only what is claimed. -/
theorem build_claimed {t : Table} (h : build policy g = .ok t) {q : Nat} {x : Symbol}
    {a : Action} (ha : t.action q x = some a) : Claimed g q x a := by
  rcases foldlM_write_action ha (fun _ hc => claims_state_lt hc) h with hblank | hmem
  · rw [action_blank] at hblank
    exact nomatch hblank
  · exact mem_claims_iff.mp hmem

/-- Under either policy, a cell that is claimed is taken. -/
theorem build_taken {t : Table} (h : build policy g = .ok t) {q : Nat} {x : Symbol}
    {a : Action} (ha : Claimed g q x a) : ∃ b, t.action q x = some b :=
  foldlM_write_taken (fun _ hc => claims_state_lt hc) h ⟨a, Or.inr (mem_claims_iff.mpr ha)⟩

/-- Where conflicts are refused, a table holds all that is claimed. -/
theorem build_action {t : Table} (h : build .reject g = .ok t) {q : Nat} {x : Symbol}
    {a : Action} (ha : Claimed g q x a) : t.action q x = some a :=
  foldlM_write_mem (fun _ hc => claims_state_lt hc) h (mem_claims_iff.mpr ha)

/-- Under either policy, a goto is a transition of the automaton. -/
theorem build_goto {t : Table} (h : build policy g = .ok t) {q r : Nat} {x : Symbol}
    (hr : t.goto q x = some r) : (Lr.Automaton.ofGrammar g).transition q x = some r := by
  rw [goto] at hr
  split at hr
  · rename_i hact
    cases hr
    exact (build_claimed h hact).of_shift
  · exact nomatch hr

/-- Where conflicts are refused, every transition is a goto. -/
theorem build_goto_of_transition {t : Table} (h : build .reject g = .ok t) {q r : Nat}
    {x : Symbol} (htrans : (Lr.Automaton.ofGrammar g).transition q x = some r) :
    t.goto q x = some r := by
  rw [goto, build_action h (.shift htrans)]

end Table

end FrontEnd
