/-
# `Grammar.Sentential` — nullable symbols, FIRST and FOLLOW say what derivations show

A form is any string of symbols, and a production may be applied anywhere in it.  What is derived
from `u ++ v` comes apart into what is derived from `u` and what is derived from `v`
(`Derives.split`), and that is all that the statements below need:

* a string is nullable when it derives the empty string (`all_nullable_iff`);
* a terminal is in FIRST of a string that derives a form beginning with it (`mem_firstWith_iff`),
  and FIRST of a symbol, put together from its bodies, is that of the symbol alone (`first_eq`);
* a symbol is in FOLLOW of a non-terminal when it can stand right behind it
  (`mem_follow_iff`).  The pair comes about in one of two ways: it stood there before, with other
  symbols for the two, or a single body has brought it in (`Derives.behind_cases`).

The sets are found by a search, and they have to be related to derivations of any length, also
from symbols that are of no use: unreachable ones, and ones that derive no word.
-/
import FrontEnd.Proofs.Grammar.Analysis
import Mathlib.Logic.Relation

namespace FrontEnd.Grammar

open Discovery

variable {g : Grammar}

/-- One production is applied somewhere in a form. -/
inductive Produces (g : Grammar) : List Symbol → List Symbol → Prop
  | apply {p : Production} (before after : List Symbol) : p ∈ g.productions →
      Produces g (before ++ p.head :: after) (before ++ (p.body ++ after))

/-- Productions, any number of them, lead from one form to another. -/
abbrev Derives (g : Grammar) : List Symbol → List Symbol → Prop := Relation.ReflTransGen g.Produces

/-! ## Forms and their parts -/

/-- A symbol of `u ++ v` is one of `u` or one of `v`. -/
theorem append_eq_append_cons {u v front back : List Symbol} {y : Symbol}
    (h : u ++ v = front ++ y :: back) :
    (∃ rest, u = front ++ y :: rest ∧ back = rest ++ v) ∨
      ∃ rest, v = rest ++ y :: back ∧ front = u ++ rest := by
  rcases List.append_eq_append_iff.mp h with ⟨rest, hfront, hv⟩ | ⟨rest, hu, hback⟩
  · exact Or.inr ⟨rest, hv, hfront⟩
  · cases rest with
    | nil => exact Or.inr ⟨[], hback.symm, by simpa using hu.symm⟩
    | cons z rest =>
        obtain ⟨rfl, htail⟩ := List.cons.inj hback
        exact Or.inl ⟨rest, hu, htail⟩

theorem Produces.within {u v : List Symbol} (h : g.Produces u v) (xs ys : List Symbol) :
    g.Produces (xs ++ (u ++ ys)) (xs ++ (v ++ ys)) := by
  cases h with
  | apply before after hp =>
      have := Produces.apply (xs ++ before) (after ++ ys) hp
      simpa using this

theorem Produces.split {u v w : List Symbol} (h : g.Produces (u ++ v) w) :
    (∃ u', g.Produces u u' ∧ w = u' ++ v) ∨ ∃ v', g.Produces v v' ∧ w = u ++ v' := by
  generalize hform : u ++ v = form at h
  cases h with
  | apply before after hp =>
      rcases append_eq_append_cons hform with ⟨rest, rfl, rfl⟩ | ⟨rest, rfl, rfl⟩
      · exact Or.inl ⟨_, .apply before rest hp, by simp⟩
      · exact Or.inr ⟨_, .apply rest after hp, by simp⟩

theorem Derives.within {u v : List Symbol} (h : g.Derives u v) (xs ys : List Symbol) :
    g.Derives (xs ++ (u ++ ys)) (xs ++ (v ++ ys)) :=
  h.lift (fun form => xs ++ (form ++ ys)) fun _ _ hstep => hstep.within xs ys

theorem Derives.append {u u' v v' : List Symbol} (h : g.Derives u u') (h' : g.Derives v v') :
    g.Derives (u ++ v) (u' ++ v') := by
  have hfront : g.Derives (u ++ v) (u' ++ v) := h.within [] v
  have hback : g.Derives (u' ++ v) (u' ++ v') := by simpa using h'.within u' []
  exact hfront.trans hback

/-- The parts of a form are rewritten apart from each other. -/
theorem Derives.split {u v w : List Symbol} (h : g.Derives (u ++ v) w) :
    ∃ u' v', w = u' ++ v' ∧ g.Derives u u' ∧ g.Derives v v' := by
  induction h with
  | refl => exact ⟨u, v, rfl, .refl, .refl⟩
  | tail _ hstep ih =>
      obtain ⟨u', v', rfl, hu, hv⟩ := ih
      rcases hstep.split with ⟨u'', hu', rfl⟩ | ⟨v'', hv', rfl⟩
      · exact ⟨u'', v', rfl, hu.tail hu', hv⟩
      · exact ⟨u', v'', rfl, hu, hv.tail hv'⟩

theorem derives_body {p : Production} (hp : p ∈ g.productions) : g.Derives [p.head] p.body := by
  have := Produces.apply [] [] hp
  exact .single (by simpa using this)

/-- Nothing is derived from nothing. -/
theorem Derives.eq_nil {w : List Symbol} (h : g.Derives [] w) : w = [] := by
  rcases h.cases_head with h | ⟨v, hstep, -⟩
  · exact h.symm
  · generalize hform : ([] : List Symbol) = form at hstep
    cases hstep with
    | apply before after _ => exact absurd hform.symm (by simp)

/-- What is derived from a single symbol is the symbol or derived from one of its bodies. -/
theorem Derives.singleton_cases {s : Symbol} {w : List Symbol} (h : g.Derives [s] w) :
    w = [s] ∨ ∃ p ∈ g.productions, p.head = s ∧ g.Derives p.body w := by
  rcases h.cases_head with h | ⟨v, hstep, hrest⟩
  · exact Or.inl h.symm
  · generalize hform : [s] = form at hstep
    cases hstep with
    | @apply p before after hp =>
        rcases List.singleton_eq_append_iff.mp hform with ⟨rfl, hs⟩ | ⟨-, hs⟩
        · obtain ⟨hhead, rfl⟩ := List.cons.inj hs
          rw [List.nil_append, List.append_nil] at hrest
          exact Or.inr ⟨p, hp, hhead, hrest⟩
        · exact absurd hs (List.cons_ne_nil _ _)

/-! ## Nullable symbols -/

theorem derives_nil : ∀ {xs : List Symbol}, (∀ x ∈ xs, g.Derives [x] []) → g.Derives xs [] := by
  intro xs
  induction xs with
  | nil =>
      intro _
      exact .refl
  | cons x xs ih =>
      intro h
      obtain ⟨hx, hxs⟩ := List.forall_mem_cons.mp h
      exact Derives.append hx (ih hxs)

theorem derives_nil_of_mem_nullableAfter : ∀ (k : Nat) {x : Symbol},
    x ∈ nullableAfter g.productions k → g.Derives [x] [] := by
  intro k
  induction k with
  | zero =>
      intro x h
      exact absurd h List.not_mem_nil
  | succ k ih =>
      intro x h
      obtain ⟨p, hp, rfl⟩ := mem_nullableAfter_succ.mp h
      obtain ⟨hmem, hbody⟩ := mem_firing.mp hp
      exact (derives_body hmem).trans (derives_nil fun y hy => ih (hbody y hy))

/-- The symbols of a string are nullable exactly when the string derives the empty one. -/
theorem all_nullable_iff {xs : List Symbol} :
    (∀ x ∈ xs, x ∈ g.nullable) ↔ g.Derives xs [] := by
  refine ⟨?_, ?_⟩
  · intro h
    exact derives_nil fun x hx => derives_nil_of_mem_nullableAfter _ (h x hx)
  · intro h
    induction h using Relation.ReflTransGen.head_induction_on with
    | refl => exact fun x hx => absurd hx List.not_mem_nil
    | head hstep _ ih =>
        cases hstep with
        | @apply p before after hp =>
            simp only [List.forall_mem_append, List.forall_mem_cons] at ih ⊢
            obtain ⟨hbefore, hbody, hafter⟩ := ih
            exact ⟨hbefore, g.closed_nullable p hp hbody, hafter⟩

/-! ## FIRST -/

theorem mem_leading_append {nullable : List Symbol} {x : Symbol} {u v : List Symbol} :
    x ∈ leading nullable (u ++ v) ↔
      x ∈ leading nullable u ∨ (∀ y ∈ u, y ∈ nullable) ∧ x ∈ leading nullable v := by
  induction u with
  | nil => simp [leading]
  | cons s u ih =>
      rw [List.cons_append, leading, leading]
      split
      · rename_i hs
        simp [ih, hs, or_assoc]
      · rename_i hs
        simp [hs]

theorem mem_leading_cons {nullable : List Symbol} {x s : Symbol} {xs : List Symbol} :
    x ∈ leading nullable (s :: xs) ↔ x = s ∨ s ∈ nullable ∧ x ∈ leading nullable xs := by
  rw [leading]
  split
  · rename_i hs
    simp [hs]
  · rename_i hs
    simp [hs]

/-- What leads a body is reached from what leads the form in which the body replaces its head. -/
theorem reachable_of_leading_produces {xs ys : List Symbol} (h : g.Produces xs ys) {y : Symbol}
    (hy : y ∈ leading g.nullable ys) :
    Reachable (g.firstSteps g.nullable) (leading g.nullable xs) y := by
  cases h with
  | @apply p before after hp =>
      rcases mem_leading_append.mp hy with hy | ⟨hbefore, hy⟩
      · exact .root (mem_leading_append.mpr (Or.inl hy))
      rcases mem_leading_append.mp hy with hy | ⟨hbody, hy⟩
      · have hhead : p.head ∈ leading g.nullable (before ++ p.head :: after) :=
          mem_leading_append.mpr (Or.inr ⟨hbefore, mem_leading_cons.mpr (Or.inl rfl)⟩)
        exact .step (.root hhead) (mem_firstSteps.mpr ⟨p, hp, rfl, hy⟩)
      · have hnullable := g.closed_nullable p hp hbody
        exact .root (mem_leading_append.mpr
          (Or.inr ⟨hbefore, mem_leading_cons.mpr (Or.inr ⟨hnullable, hy⟩)⟩))

/-- The symbols that are reached from the front of a string are those that can come first in
what it derives. -/
theorem reachable_first_iff {xs : List Symbol} {y : Symbol} :
    Reachable (g.firstSteps g.nullable) (leading g.nullable xs) y ↔
      ∃ rest, g.Derives xs (y :: rest) := by
  have hleading {xs : List Symbol} {y : Symbol} (hy : y ∈ leading g.nullable xs) :
      ∃ rest, g.Derives xs (y :: rest) := by
    obtain ⟨before, after, rfl, hbefore⟩ := mem_leading.mp hy
    exact ⟨after, (all_nullable_iff.mp hbefore).within [] (y :: after)⟩
  refine ⟨?_, ?_⟩
  · intro h
    induction h with
    | root hy => exact hleading hy
    | step _ hz ih =>
        obtain ⟨rest, hrest⟩ := ih
        obtain ⟨p, hp, rfl, hlead⟩ := mem_firstSteps.mp hz
        obtain ⟨more, hmore⟩ := hleading hlead
        have hbody : g.Derives [p.head] (_ :: more) := (derives_body hp).trans hmore
        exact ⟨more ++ rest, hrest.trans (hbody.within [] rest)⟩
  · rintro ⟨rest, h⟩
    induction h using Relation.ReflTransGen.head_induction_on with
    | refl => exact .root (mem_leading_cons.mpr (Or.inl rfl))
    | head hstep _ ih => exact ih.mono fun y hy => reachable_of_leading_produces hstep hy

theorem mem_firstWith_iff {xs : List Symbol} {t : Symbol} :
    t ∈ g.firstWith g.nullable xs ↔
      g.isTerminal t = true ∧ ∃ rest, g.Derives xs (t :: rest) := by
  rw [mem_firstWith, reachable_first_iff]

theorem mem_first_of_head {s t : Symbol} (hs : g.isTerminal s ≠ true) :
    t ∈ g.first s ↔ ∃ p ∈ g.productions, p.head = s ∧ t ∈ g.firstWith g.nullable p.body := by
  rw [first, if_neg hs, SortedSet.mem_ofList, List.mem_flatMap]
  refine exists_congr fun p => and_congr_right fun _ => ?_
  split
  · rename_i h
    simp [h, SortedSet.mem_def]
  · rename_i h
    simp [h]

/-- FIRST of a symbol is FIRST of the string that is only this symbol. -/
theorem first_eq (g : Grammar) (s : Symbol) : g.first s = g.firstWith g.nullable [s] := by
  refine SortedSet.ext fun t => ?_
  rw [mem_firstWith_iff]
  by_cases hs : g.isTerminal s = true
  · rw [first, if_pos hs, SortedSet.mem_ofList, List.mem_singleton]
    refine ⟨?_, ?_⟩
    · rintro rfl
      exact ⟨hs, [], .refl⟩
    · rintro ⟨-, rest, hrest⟩
      rcases hrest.singleton_cases with h | ⟨p, hp, rfl, -⟩
      · exact (List.cons.inj h).1
      · obtain ⟨i, hi⟩ := List.mem_iff_getElem?.mp hp
        exact absurd hs (not_isTerminal_head hi)
  · rw [mem_first_of_head hs]
    refine ⟨?_, ?_⟩
    · rintro ⟨p, hp, rfl, ht⟩
      obtain ⟨ht, rest, hrest⟩ := mem_firstWith_iff.mp ht
      exact ⟨ht, rest, (derives_body hp).trans hrest⟩
    · rintro ⟨ht, rest, hrest⟩
      rcases hrest.singleton_cases with h | ⟨p, hp, hhead, hbody⟩
      · exact absurd ((List.cons.inj h).1 ▸ ht) hs
      · exact ⟨p, hp, hhead, mem_firstWith_iff.mpr ⟨ht, rest, hbody⟩⟩

/-! ## FOLLOW -/

/-- A symbol that is reached from `s` can end in `s`. -/
theorem exists_derives_of_reachable_follow {s y : Symbol}
    (h : Reachable (g.followSteps g.nullable) [s] y) : ∃ front, g.Derives [y] (front ++ [s]) := by
  induction h with
  | root hy =>
      obtain rfl := List.mem_singleton.mp hy
      exact ⟨[], .refl⟩
  | step _ hz ih =>
      obtain ⟨front, hfront⟩ := ih
      obtain ⟨p, hp, rfl, before, after, hbody, hafter⟩ := mem_followSteps.mp hz
      refine ⟨before ++ front, (derives_body hp).trans ?_⟩
      rw [hbody, List.append_assoc]
      refine Derives.append .refl ?_
      simpa using hfront.append (all_nullable_iff.mp hafter)

/-- Where what stands behind a symbol comes from.  If `s` stands before `w` in a derived form,
then either `s` is the end of what some symbol has become, and `w` is what has become of all
behind that symbol; or the first symbol of `w` came in behind `s` with a body. -/
theorem Derives.behind_cases {xs front w : List Symbol} {s : Symbol}
    (h : g.Derives xs (front ++ s :: w)) :
    (∃ before y after, xs = before ++ y :: after ∧
      Reachable (g.followSteps g.nullable) [s] y ∧ g.Derives after w) ∨
    ∃ t rest, w = t :: rest ∧ ∃ y, Reachable (g.followSteps g.nullable) [s] y ∧
      ∃ p ∈ g.productions, ∃ before after more, p.body = before ++ y :: after ∧
        g.Derives after (t :: more) := by
  induction h using Relation.ReflTransGen.head_induction_on with
  | refl => exact Or.inl ⟨front, s, w, rfl, .root List.mem_cons_self, .refl⟩
  | head hstep _ ih =>
      rcases ih with ⟨before, y, after, heq, hreach, hafter⟩ | hbody
      · cases hstep with
        | @apply p left right hp =>
            rcases append_eq_append_cons heq with ⟨rest, rfl, rfl⟩ | ⟨rest, hmid, rfl⟩
            -- left of the body, and the body is behind it
            · refine Or.inl ⟨before, y, rest ++ p.head :: right, by simp, hreach, ?_⟩
              exact .head (.apply rest right hp) hafter
            rcases append_eq_append_cons hmid with ⟨more, hbody, rfl⟩ | ⟨more, rfl, -⟩
            -- in the body: what is behind it there is either gone or comes first
            · obtain ⟨v, v', rfl, hmore, hright⟩ := hafter.split
              cases v with
              | nil =>
                  have hhead : p.head ∈ g.followSteps g.nullable y :=
                    mem_followSteps.mpr ⟨p, hp, rfl, rest, more, hbody, all_nullable_iff.mpr hmore⟩
                  exact Or.inl ⟨left, p.head, right, rfl, .step hreach hhead, hright⟩
              | cons t v =>
                  exact Or.inr ⟨t, v ++ v', rfl, y, hreach, p, hp, rest, more, v, hbody, hmore⟩
            · exact Or.inl ⟨left ++ p.head :: more, y, after, by simp, hreach, hafter⟩
      · exact Or.inr hbody

theorem mem_followHere_of_body {p : Production} (hp : p ∈ g.productions)
    {before after more : List Symbol} {y t : Symbol} (hbody : p.body = before ++ y :: after)
    (ht : g.isTerminal t = true) (hafter : g.Derives after (t :: more)) :
    t ∈ g.followHere g.nullable y := by
  have hfirst := mem_firstWith_iff.mpr ⟨ht, more, hafter⟩
  exact mem_followHere.mpr (Or.inl ⟨p, hp, before, after, hbody, hfirst⟩)

theorem mem_follow_iff {s t : Symbol} (hs : g.isTerminal s = false) :
    t ∈ g.follow s ↔
      (g.isTerminal t = true ∧ ∃ b front back, g.isTerminal b = false ∧
        g.Derives [b] (front ++ s :: t :: back)) ∨
      t = endMarker ∧ ∃ front, g.Derives [g.start] (front ++ [s]) := by
  have hsingle {b y : Symbol} {before after : List Symbol} (h : [b] = before ++ y :: after) :
      y = b ∧ after = [] := by
    cases before with
    | nil => exact ⟨(List.cons.inj h).1.symm, (List.cons.inj h).2.symm⟩
    | cons z before => exact absurd (List.cons.inj h).2 (by simp)
  rw [mem_follow]
  refine ⟨?_, ?_⟩
  · rintro ⟨-, y, hreach, hhere⟩
    obtain ⟨front, hfront⟩ := exists_derives_of_reachable_follow hreach
    rcases mem_followHere.mp hhere with ⟨p, hp, before, after, hbody, hfirst⟩ | ⟨rfl, rfl⟩
    · obtain ⟨ht, back, hback⟩ := mem_firstWith_iff.mp hfirst
      have hhead : g.isTerminal p.head = false := by
        obtain ⟨i, hi⟩ := List.mem_iff_getElem?.mp hp
        simpa using not_isTerminal_head hi
      refine Or.inl ⟨ht, p.head, before ++ front, back, hhead, (derives_body hp).trans ?_⟩
      rw [hbody, List.append_assoc]
      exact Derives.append .refl (by simpa using hfront.append hback)
    · exact Or.inr ⟨rfl, front, hfront⟩
  · have hnot : g.isTerminal s ≠ true := by simp [hs]
    rintro (⟨ht, b, front, back, -, hderives⟩ | ⟨rfl, front, hderives⟩)
    · rcases hderives.behind_cases with ⟨before, y, after, heq, -, hafter⟩ |
        ⟨t', rest, heq, y, hreach, p, hp, before, after, more, hbody, hafter⟩
      · rw [(hsingle heq).2] at hafter
        exact nomatch hafter.eq_nil
      · obtain ⟨rfl, rfl⟩ := List.cons.inj heq
        exact ⟨hnot, y, hreach, mem_followHere_of_body hp hbody ht hafter⟩
    · rcases hderives.behind_cases with ⟨before, y, after, heq, hreach, -⟩ | ⟨t', rest, heq, -⟩
      · rw [(hsingle heq).1] at hreach
        exact ⟨hnot, g.start, hreach, mem_followHere.mpr (Or.inr ⟨rfl, rfl⟩)⟩
      · exact nomatch heq

end FrontEnd.Grammar
