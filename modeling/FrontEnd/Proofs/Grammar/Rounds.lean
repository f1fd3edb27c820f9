/-
# `Grammar.Rounds` — FIRST and FOLLOW in rounds over the productions

The textbook way to FIRST and FOLLOW is to go over the productions again and again and to add to
the sets whatever the sets so far allow for, until a round adds nothing.  The rounds end
(`exists_settles_first`, `exists_settles_follow`), and the sets that they end with are those of the
search (`mem_firstsOf_iff`, `mem_settled_follow_iff`): both are what derivations show.

Nullable symbols and FIRST are found in the same rounds.  That a string derives the empty string is
written as `none` among the terminals that can come first in it.
-/
import FrontEnd.Proofs.Grammar.Sentential
import FrontEnd.Proofs.Rounds
import Mathlib.Data.Finset.Option
import Mathlib.Data.Finset.Prod

namespace FrontEnd.Grammar

open Discovery Rounds

variable {g : Grammar}

/-- What is known of a symbol. -/
def knownOf {α : Type} [DecidableEq α] (known : Finset (Symbol × α)) (s : Symbol) : Finset α :=
  (known.filter fun fact => fact.1 = s).image Prod.snd

theorem mem_knownOf {α : Type} [DecidableEq α] {known : Finset (Symbol × α)} {s : Symbol} {a : α} :
    a ∈ knownOf known s ↔ (s, a) ∈ known := by
  simp [knownOf]

/-! ## FIRST -/

/-- What can come first in a string, from what is known of the non-terminals. -/
def firstsOf (g : Grammar) (known : Finset (Symbol × Option Symbol)) :
    List Symbol → Finset (Option Symbol)
  | [] => {none}
  | s :: rest =>
    if g.isTerminal s then {some s}
    else if none ∈ knownOf known s then (knownOf known s).erase none ∪ g.firstsOf known rest
    else knownOf known s

/-- What can come first in the body of a production can come first in its head. -/
def visitFirst (g : Grammar) (known : Finset (Symbol × Option Symbol)) (p : Production) :
    Finset (Symbol × Option Symbol) :=
  known ∪ (g.firstsOf known p.body).image (Prod.mk p.head)

/-- What derivations from a string show about its front. -/
def Shows (g : Grammar) (xs : List Symbol) : Option Symbol → Prop
  | none => g.Derives xs []
  | some t => g.isTerminal t = true ∧ ∃ rest, g.Derives xs (t :: rest)

section First

variable {known : Finset (Symbol × Option Symbol)}

theorem mem_firstsOf_append {o : Option Symbol} {u v : List Symbol} :
    o ∈ g.firstsOf known (u ++ v) ↔
      o ≠ none ∧ o ∈ g.firstsOf known u ∨
        none ∈ g.firstsOf known u ∧ o ∈ g.firstsOf known v := by
  induction u with
  | nil => simp [firstsOf]
  | cons s u ih =>
      rw [List.cons_append, firstsOf, firstsOf]
      split
      · simp only [Finset.mem_singleton, reduceCtorEq, false_and, or_false]
        exact ⟨fun h => ⟨by simp [h], h⟩, fun h => h.2⟩
      split
      · simp only [Finset.mem_union, Finset.mem_erase, ih, ne_eq, not_true_eq_false, false_and,
          false_or]
        tauto
      · rename_i hnone
        simp only [hnone, false_and, or_false]
        exact ⟨fun h => ⟨fun ho => hnone (ho ▸ h), h⟩, fun h => h.2⟩

theorem mem_firstsOf_singleton {s : Symbol} (hs : g.isTerminal s ≠ true) {o : Option Symbol} :
    o ∈ g.firstsOf known [s] ↔ (s, o) ∈ known := by
  rw [firstsOf, if_neg hs, ← mem_knownOf]
  split
  · rename_i hnone
    by_cases ho : o = none
    · simp [ho, hnone, firstsOf]
    · simp [ho, firstsOf]
  · rfl

theorem Shows.append_left {u : List Symbol} {o : Option Symbol} (h : g.Shows u o) (ho : o ≠ none)
    (v : List Symbol) : g.Shows (u ++ v) o := by
  cases o with
  | none => exact absurd rfl ho
  | some t =>
      obtain ⟨ht, rest, hrest⟩ := h
      exact ⟨ht, rest ++ v, hrest.within [] v⟩

theorem Shows.append_right {u v : List Symbol} {o : Option Symbol} (hu : g.Derives u [])
    (h : g.Shows v o) : g.Shows (u ++ v) o := by
  cases o with
  | none => exact hu.append h
  | some t =>
      obtain ⟨ht, rest, hrest⟩ := h
      exact ⟨ht, rest, hu.append hrest⟩

theorem Shows.of_body {p : Production} (hp : p ∈ g.productions) {o : Option Symbol}
    (h : g.Shows p.body o) : g.Shows [p.head] o := by
  cases o with
  | none => exact (derives_body hp).trans h
  | some t =>
      obtain ⟨ht, rest, hrest⟩ := h
      exact ⟨ht, rest, (derives_body hp).trans hrest⟩

/-- Where all that is known is shown by derivations, so is all that is concluded from it. -/
theorem shows_of_mem_firstsOf (hknown : ∀ fact ∈ known, g.Shows [fact.1] fact.2)
    {o : Option Symbol} : ∀ {xs : List Symbol}, o ∈ g.firstsOf known xs → g.Shows xs o := by
  have hof {s : Symbol} {o : Option Symbol} (h : o ∈ knownOf known s) : g.Shows [s] o :=
    hknown _ (mem_knownOf.mp h)
  intro xs
  induction xs with
  | nil =>
      intro h
      rw [firstsOf, Finset.mem_singleton] at h
      rw [h]
      exact Relation.ReflTransGen.refl
  | cons s rest ih =>
      intro h
      rw [firstsOf] at h
      split at h
      · rename_i hs
        rw [Finset.mem_singleton] at h
        rw [h]
        exact ⟨hs, rest, .refl⟩
      split at h
      · rename_i hnone
        rcases Finset.mem_union.mp h with h | h
        · obtain ⟨ho, h⟩ := Finset.mem_erase.mp h
          exact (hof h).append_left ho rest
        · exact Shows.append_right (hof hnone) (ih h)
      · rename_i hnone
        exact (hof h).append_left (fun ho => hnone (ho ▸ h)) rest

theorem subset_visitFirst (known : Finset (Symbol × Option Symbol)) (p : Production) :
    known ⊆ g.visitFirst known p := Finset.subset_union_left

section Settled

variable (hclosed : ∀ p ∈ g.productions, g.visitFirst known p = known)

include hclosed in
theorem mem_known_of_body {p : Production} (hp : p ∈ g.productions) {o : Option Symbol}
    (h : o ∈ g.firstsOf known p.body) : (p.head, o) ∈ known := by
  rw [← hclosed p hp]
  exact Finset.mem_union_right _ (Finset.mem_image_of_mem _ h)

include hclosed in
/-- When a round adds nothing, a form has in front what the forms derived from it have. -/
theorem firstsOf_subset_of_produces {xs ys : List Symbol} (h : g.Produces xs ys) :
    g.firstsOf known ys ⊆ g.firstsOf known xs := by
  cases h with
  | @apply p before after hp =>
      have hhead : g.isTerminal p.head ≠ true := by
        obtain ⟨i, hi⟩ := List.mem_iff_getElem?.mp hp
        exact not_isTerminal_head hi
      have hbody {o : Option Symbol} (ho : o ∈ g.firstsOf known p.body) :
          o ∈ g.firstsOf known [p.head] :=
        (mem_firstsOf_singleton hhead).mpr (mem_known_of_body hclosed hp ho)
      intro o ho
      rw [← List.singleton_append, mem_firstsOf_append, mem_firstsOf_append]
      rw [mem_firstsOf_append, mem_firstsOf_append] at ho
      exact ho.imp_right fun ⟨hbefore, ho⟩ => ⟨hbefore,
        ho.imp (fun ho => ⟨ho.1, hbody ho.2⟩) fun ho => ⟨hbody ho.1, ho.2⟩⟩

include hclosed in
theorem mem_firstsOf_of_shows {xs : List Symbol} {o : Option Symbol} (h : g.Shows xs o) :
    o ∈ g.firstsOf known xs := by
  have hsubset {ys : List Symbol} (h : g.Derives xs ys) :
      g.firstsOf known ys ⊆ g.firstsOf known xs := by
    induction h with
    | refl => exact Finset.Subset.refl _
    | tail _ hstep ih => exact (firstsOf_subset_of_produces hclosed hstep).trans ih
  cases o with
  | none => exact hsubset h (Finset.mem_singleton_self _)
  | some t =>
      obtain ⟨ht, rest, hrest⟩ := h
      refine hsubset hrest ?_
      rw [firstsOf, if_pos ht]
      exact Finset.mem_singleton_self _

end Settled

/-- The rounds end with all that derivations show, and with nothing else. -/
theorem mem_firstsOf_iff (h : Settles g.visitFirst g.productions ∅ known) {xs : List Symbol}
    {o : Option Symbol} : o ∈ g.firstsOf known xs ↔ g.Shows xs o := by
  refine ⟨?_, mem_firstsOf_of_shows (h.visit_eq subset_visitFirst)⟩
  refine shows_of_mem_firstsOf (h.invariant (P := fun known =>
    ∀ fact ∈ known, g.Shows [fact.1] fact.2) ?_ (by simp))
  intro known hknown p hp fact hfact
  rcases Finset.mem_union.mp hfact with hold | hnew
  · exact hknown fact hold
  · obtain ⟨o, ho, rfl⟩ := Finset.mem_image.mp hnew
    exact (shows_of_mem_firstsOf hknown ho).of_body hp

end First

/-- The symbols of the bodies. -/
def bodySymbols (g : Grammar) : Finset Symbol := (g.productions.flatMap (·.body)).toFinset

theorem mem_bodySymbols {p : Production} (hp : p ∈ g.productions) {x : Symbol} (hx : x ∈ p.body) :
    x ∈ g.bodySymbols :=
  List.mem_toFinset.mpr (List.mem_flatMap.mpr ⟨p, hp, hx⟩)

/-- What there is to find out about the heads. -/
def firstStock (g : Grammar) : Finset (Symbol × Option Symbol) :=
  (g.productions.map (·.head)).toFinset ×ˢ Finset.insertNone g.bodySymbols

theorem firstsOf_subset_stock {known : Finset (Symbol × Option Symbol)}
    (hknown : known ⊆ g.firstStock) : ∀ {xs : List Symbol}, (∀ x ∈ xs, x ∈ g.bodySymbols) →
      g.firstsOf known xs ⊆ Finset.insertNone g.bodySymbols := by
  have hof (s : Symbol) : knownOf known s ⊆ Finset.insertNone g.bodySymbols := fun o ho =>
    (Finset.mem_product.mp (hknown (mem_knownOf.mp ho))).2
  intro xs
  induction xs with
  | nil =>
      intro _
      simp [firstsOf]
  | cons s rest ih =>
      intro hxs
      obtain ⟨hs, hrest⟩ := List.forall_mem_cons.mp hxs
      rw [firstsOf]
      split
      · exact Finset.singleton_subset_iff.mpr (Finset.some_mem_insertNone.mpr hs)
      split
      · exact Finset.union_subset ((Finset.erase_subset _ _).trans (hof s)) (ih hrest)
      · exact hof s

theorem exists_settles_first (g : Grammar) :
    ∃ known, Settles g.visitFirst g.productions ∅ known := by
  refine exists_settles subset_visitFirst g.firstStock ?_ (Finset.empty_subset _)
  intro known hknown p hp
  refine Finset.union_subset hknown fun fact hfact => ?_
  obtain ⟨o, ho, rfl⟩ := Finset.mem_image.mp hfact
  refine Finset.mem_product.mpr ⟨List.mem_toFinset.mpr (List.mem_map.mpr ⟨p, hp, rfl⟩), ?_⟩
  exact firstsOf_subset_stock hknown (fun x hx => mem_bodySymbols hp hx) ho

/-! ## FOLLOW -/

/-- A place in the body of a production: the symbol there, and what stands behind it. -/
structure Place where
  head : Symbol
  symbol : Symbol
  rest : List Symbol

/-- The places of a body, from left to right. -/
def placesIn (head : Symbol) : List Symbol → List Place
  | [] => []
  | symbol :: rest => ⟨head, symbol, rest⟩ :: placesIn head rest

/-- The places of all bodies. -/
def places (g : Grammar) : List Place := g.productions.flatMap fun p => placesIn p.head p.body

/-- What can come first behind a non-terminal follows it, and what follows the head does so too
when all that is behind it can be empty. -/
def visitFollow (g : Grammar) (first : Finset (Symbol × Option Symbol))
    (known : Finset (Symbol × Symbol)) (place : Place) : Finset (Symbol × Symbol) :=
  if g.isTerminal place.symbol then known
  else
    let firsts := g.firstsOf first place.rest
    let follow := if none ∈ firsts then knownOf known place.head else ∅
    known ∪ (Finset.eraseNone firsts ∪ follow).image (Prod.mk place.symbol)

theorem mem_placesIn {head : Symbol} {place : Place} {xs : List Symbol} :
    place ∈ placesIn head xs ↔
      place.head = head ∧ ∃ before, xs = before ++ place.symbol :: place.rest := by
  induction xs with
  | nil => simp [placesIn]
  | cons x xs ih =>
      rw [placesIn, List.mem_cons, ih]
      refine ⟨?_, ?_⟩
      · rintro (rfl | ⟨hhead, before, rfl⟩)
        · exact ⟨rfl, [], rfl⟩
        · exact ⟨hhead, x :: before, rfl⟩
      · rintro ⟨rfl, before, heq⟩
        cases before with
        | nil =>
            obtain ⟨rfl, rfl⟩ := List.cons.inj heq
            exact Or.inl rfl
        | cons y before => exact Or.inr ⟨rfl, before, (List.cons.inj heq).2⟩

theorem mem_places {place : Place} :
    place ∈ g.places ↔ ∃ i p before, g.production? i = some p ∧ p.head = place.head ∧
      p.body = before ++ place.symbol :: place.rest := by
  simp only [places, List.mem_flatMap, mem_placesIn]
  refine ⟨?_, ?_⟩
  · rintro ⟨p, hp, hhead, before, hbody⟩
    obtain ⟨i, hi⟩ := List.mem_iff_getElem?.mp hp
    exact ⟨i, p, before, hi, hhead.symm, hbody⟩
  · rintro ⟨i, p, before, hp, hhead, hbody⟩
    exact ⟨p, mem_of_production? hp, hhead.symm, before, hbody⟩

section Follow

variable {first : Finset (Symbol × Option Symbol)} {known : Finset (Symbol × Symbol)}

theorem mem_visitFollow {place : Place} {fact : Symbol × Symbol} :
    fact ∈ g.visitFollow first known place ↔ fact ∈ known ∨
      g.isTerminal place.symbol ≠ true ∧ fact.1 = place.symbol ∧
        (some fact.2 ∈ g.firstsOf first place.rest ∨
          none ∈ g.firstsOf first place.rest ∧ (place.head, fact.2) ∈ known) := by
  obtain ⟨s, t⟩ := fact
  rw [visitFollow]
  split
  · rename_i hs
    simp [hs]
  · rename_i hs
    simp only [hs, Finset.mem_union, Finset.mem_image, Prod.mk.injEq, Finset.mem_eraseNone]
    split
    · rename_i hnone
      simp [hnone, mem_knownOf, and_comm, eq_comm]
    · rename_i hnone
      simp [hnone, and_comm, eq_comm]

theorem subset_visitFollow (known : Finset (Symbol × Symbol)) (place : Place) :
    known ⊆ g.visitFollow first known place := fun _ h => mem_visitFollow.mpr (Or.inl h)

theorem exists_settles_follow (g : Grammar) (first : Finset (Symbol × Option Symbol)) :
    ∃ known, Settles (g.visitFollow first) g.places {(g.start, endMarker)} known := by
  -- the symbols of the places, and what can come first behind one of them
  let symbols := insert g.start (g.places.map (·.symbol)).toFinset
  let firsts := insert endMarker
    (g.places.flatMap fun place => (g.firstsOf first place.rest).eraseNone.toList).toFinset
  have hfirsts {place : Place} (hplace : place ∈ g.places) {t : Symbol}
      (ht : some t ∈ g.firstsOf first place.rest) : t ∈ firsts := by
    refine Finset.mem_insert_of_mem (List.mem_toFinset.mpr ?_)
    exact List.mem_flatMap.mpr ⟨place, hplace, Finset.mem_toList.mpr (Finset.mem_eraseNone.mpr ht)⟩
  refine exists_settles subset_visitFollow (symbols ×ˢ firsts) ?_ ?_
  · intro known hknown place hplace fact hfact
    rcases mem_visitFollow.mp hfact with hold | ⟨-, hsymbol, hnew⟩
    · exact hknown hold
    · refine Finset.mem_product.mpr ⟨?_, ?_⟩
      · refine Finset.mem_insert_of_mem (List.mem_toFinset.mpr ?_)
        exact List.mem_map.mpr ⟨place, hplace, hsymbol.symm⟩
      · rcases hnew with hfirst | ⟨-, hhead⟩
        · exact hfirsts hplace hfirst
        · exact (Finset.mem_product.mp (hknown hhead)).2
  · refine Finset.singleton_subset_iff.mpr (Finset.mem_product.mpr ⟨?_, ?_⟩)
    · exact Finset.mem_insert_self _ _
    · exact Finset.mem_insert_self _ _

section Settled

variable (hfirst : Settles g.visitFirst g.productions ∅ first)
  (hfollow : Settles (g.visitFollow first) g.places {(g.start, endMarker)} known)

include hfirst hfollow in
/-- What the rounds find is in the FOLLOW sets of the search: a visit keeps that. -/
theorem mem_follow_of_mem_settled : ∀ fact ∈ known, fact.2 ∈ g.follow fact.1 := by
  refine hfollow.invariant (P := fun known => ∀ fact ∈ known, fact.2 ∈ g.follow fact.1) ?_ ?_
  · intro known hknown place hplace fact hfact
    obtain ⟨i, p, before, hp, hhead, hbody⟩ := mem_places.mp hplace
    rcases mem_visitFollow.mp hfact with hold | ⟨hs, hsymbol, hnew⟩
    · exact hknown fact hold
    rw [hsymbol]
    rcases hnew with hnew | ⟨hnone, hnew⟩
    · exact mem_follow_of_first hp hbody hs
        (mem_firstWith_iff.mpr ((mem_firstsOf_iff hfirst).mp hnew))
    · refine mem_follow_of_head hp hbody hs ?_ (hhead ▸ hknown _ hnew)
      exact all_nullable_iff.mpr ((mem_firstsOf_iff hfirst).mp hnone)
  · intro fact hfact
    obtain rfl := Finset.mem_singleton.mp hfact
    exact endMarker_mem_follow_start g

include hfollow in
/-- When a round adds nothing, every place has been heeded. -/
theorem mem_settled_of_body {p : Production} (hp : p ∈ g.productions) {before after : List Symbol}
    {s t : Symbol} (hbody : p.body = before ++ s :: after) (hs : g.isTerminal s ≠ true)
    (hnew : some t ∈ g.firstsOf first after ∨
      none ∈ g.firstsOf first after ∧ (p.head, t) ∈ known) : (s, t) ∈ known := by
  obtain ⟨i, hi⟩ := List.mem_iff_getElem?.mp hp
  have hplace : ⟨p.head, s, after⟩ ∈ g.places := mem_places.mpr ⟨i, p, before, hi, rfl, hbody⟩
  rw [← hfollow.visit_eq subset_visitFollow _ hplace]
  exact mem_visitFollow.mpr (Or.inr ⟨hs, rfl, hnew⟩)

include hfirst hfollow in
/-- What follows the end of a path of the search follows its start. -/
theorem mem_settled_of_reachable {s y : Symbol} (hs : g.isTerminal s ≠ true)
    (h : Reachable (g.followSteps g.nullable) [s] y) :
    g.isTerminal y ≠ true ∧ ∀ t, (y, t) ∈ known → (s, t) ∈ known := by
  induction h with
  | root hy =>
      obtain rfl := List.mem_singleton.mp hy
      exact ⟨hs, fun t ht => ht⟩
  | @step y z _ hz ih =>
      obtain ⟨hy, hpath⟩ := ih
      obtain ⟨p, hp, rfl, before, after, hbody, hafter⟩ := mem_followSteps.mp hz
      have hnone : none ∈ g.firstsOf first after :=
        (mem_firstsOf_iff hfirst).mpr (all_nullable_iff.mp hafter)
      refine ⟨?_, ?_⟩
      · obtain ⟨i, hi⟩ := List.mem_iff_getElem?.mp hp
        exact not_isTerminal_head hi
      · intro t ht
        exact hpath t (mem_settled_of_body hfollow hp hbody hy (Or.inr ⟨hnone, ht⟩))

include hfirst hfollow in
/-- The rounds end with the FOLLOW sets of the search. -/
theorem mem_settled_follow_iff {s t : Symbol} : (s, t) ∈ known ↔ t ∈ g.follow s := by
  refine ⟨mem_follow_of_mem_settled hfirst hfollow (s, t), ?_⟩
  intro h
  obtain ⟨hs, y, hreach, hhere⟩ := mem_follow.mp h
  obtain ⟨hy, hpath⟩ := mem_settled_of_reachable hfirst hfollow hs hreach
  refine hpath t ?_
  rcases mem_followHere.mp hhere with ⟨p, hp, before, after, hbody, hafter⟩ | ⟨rfl, rfl⟩
  · have hshown : some t ∈ g.firstsOf first after :=
      (mem_firstsOf_iff hfirst).mpr (mem_firstWith_iff.mp hafter)
    exact mem_settled_of_body hfollow hp hbody hy (Or.inl hshown)
  · exact hfollow.invariant (P := ((g.start, endMarker) ∈ ·))
      (fun known h place _ => subset_visitFollow known place h) (Finset.mem_singleton_self _)

end Settled

end Follow

/-! ## Exactness -/

/-- **FIRST is exact.**  The rounds over the productions end, with the sets of the search.  In FIRST
of a string there are the terminals with which a form derived from it can begin, and the flag says
whether it derives the empty string.  For a single symbol that is FIRST of the symbol, and whether
it is nullable. -/
theorem firstOf_exact (g : Grammar) :
    (∃ known, Settles g.visitFirst g.productions ∅ known ∧ ∀ xs,
      (∀ t, some t ∈ g.firstsOf known xs ↔ t ∈ (g.firstOf xs).1) ∧
      (none ∈ g.firstsOf known xs ↔ (g.firstOf xs).2 = true)) ∧
    (∀ xs,
      (∀ t, t ∈ (g.firstOf xs).1 ↔ g.isTerminal t = true ∧ ∃ rest, g.Derives xs (t :: rest)) ∧
      ((g.firstOf xs).2 = true ↔ g.Derives xs [])) ∧
    ∀ x, g.first x = (g.firstOf [x]).1 ∧ g.isNullable x = (g.firstOf [x]).2 := by
  have hflag (xs : List Symbol) : (g.firstOf xs).2 = true ↔ g.Derives xs [] := by
    rw [← all_nullable_iff]
    simp [firstOf]
  obtain ⟨known, hknown⟩ := g.exists_settles_first
  refine ⟨⟨known, hknown, ?_⟩, ?_, ?_⟩
  · intro xs
    refine ⟨?_, (mem_firstsOf_iff hknown).trans (hflag xs).symm⟩
    intro t
    exact (mem_firstsOf_iff hknown).trans mem_firstWith_iff.symm
  · intro xs
    exact ⟨fun t => mem_firstWith_iff, hflag xs⟩
  · intro x
    exact ⟨g.first_eq x, by simp [isNullable, firstOf]⟩

/-- **FOLLOW is exact.**  The rounds over the places of the bodies end, with the sets of the search.
A terminal follows a non-terminal exactly when it stands right behind it in some form that is
derived from a non-terminal, of use or not; and the end marker does so exactly, apart from that,
when a form derived from the start symbol can end in the non-terminal. -/
theorem follow_exact (g : Grammar) :
    (∃ first known, Settles g.visitFirst g.productions ∅ first ∧
      Settles (g.visitFollow first) g.places {(g.start, endMarker)} known ∧
      ∀ s t, (s, t) ∈ known ↔ t ∈ g.follow s) ∧
    ∀ s, g.isTerminal s = false → ∀ t, t ∈ g.follow s ↔
      (g.isTerminal t = true ∧ ∃ b front back, g.isTerminal b = false ∧
        g.Derives [b] (front ++ s :: t :: back)) ∨
      t = endMarker ∧ ∃ front, g.Derives [g.start] (front ++ [s]) := by
  obtain ⟨first, hfirst⟩ := g.exists_settles_first
  obtain ⟨known, hknown⟩ := g.exists_settles_follow first
  refine ⟨⟨first, known, hfirst, hknown, ?_⟩, ?_⟩
  · intro s t
    exact mem_settled_follow_iff hfirst hknown
  · intro s hs t
    exact mem_follow_iff hs

/-- `X` is not reached from the start symbol, and `Y` derives no word. -/
def detached : Grammar :=
  ⟨"S'", 0, [⟨"S'", ["A"], none⟩, ⟨"A", ["a", "A"], none⟩, ⟨"A", [], none⟩,
      ⟨"X", ["A", "A", "Y"], none⟩, ⟨"Y", ["y", "Y"], none⟩],
    ⟨⟨⟨"S'", ["A"], none⟩, by decide +kernel, by decide +kernel⟩, by decide +kernel⟩⟩

theorem follow_exact_detached :
    detached.isTerminal "A" = false ∧ detached.Derives ["X"] (["A"] ++ "A" :: "y" :: ["Y"]) ∧
      "y" ∈ detached.follow "A" ∧ "$" ∈ detached.follow "A" := by
  have hA : detached.isTerminal "A" = false := by decide +kernel
  have hexact := (follow_exact detached).2 "A" hA
  have hderives : detached.Derives ["X"] (["A"] ++ "A" :: "y" :: ["Y"]) := by
    have hX : detached.Produces ["X"] ["A", "A", "Y"] :=
      .apply (p := ⟨"X", ["A", "A", "Y"], none⟩) [] [] (by decide +kernel)
    have hY : detached.Produces ["A", "A", "Y"] ["A", "A", "y", "Y"] :=
      .apply (p := ⟨"Y", ["y", "Y"], none⟩) ["A", "A"] [] (by decide +kernel)
    exact .head hX (.single hY)
  refine ⟨hA, hderives, (hexact "y").mpr (Or.inl ⟨?_, "X", ["A"], ["Y"], ?_, hderives⟩),
    (hexact "$").mpr (Or.inr ⟨rfl, [], ?_⟩)⟩
  · decide +kernel
  · decide +kernel
  · exact .single (.apply (p := ⟨"S'", ["A"], none⟩) [] [] (by decide +kernel))

end FrontEnd.Grammar
