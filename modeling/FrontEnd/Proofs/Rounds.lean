/-
# `Rounds` — going round until nothing changes

A set of facts grows by visits, one for each entry of a list in turn.  A visit reads the facts as
it finds them, with those that the visits just before it have added.  Rounds are repeated up to
one that changes nothing.

Where visits only add facts, and only facts from a finite stock, the rounds come to an end
(`exists_settles`).  What is left then satisfies every entry (`Settles.visit_eq`), and it has
every property that visits keep (`Settles.invariant`): so it is the least set of its kind.
-/
import Mathlib.Data.Finset.Card

namespace FrontEnd.Rounds

variable {α β : Type} {visit : Finset α → β → Finset α} {entries : List β}

/-- `Settles visit entries facts last`: rounds through the entries, from `facts` on, end at `last`,
where a round changes nothing. -/
inductive Settles (visit : Finset α → β → Finset α) (entries : List β) :
    Finset α → Finset α → Prop
  | stop {facts : Finset α} : entries.foldl visit facts = facts → Settles visit entries facts facts
  | again {facts last : Finset α} : entries.foldl visit facts ≠ facts →
      Settles visit entries (entries.foldl visit facts) last → Settles visit entries facts last

/-! ## What a round keeps -/

theorem Settles.invariant {P : Finset α → Prop} {facts last : Finset α}
    (h : Settles visit entries facts last)
    (hvisit : ∀ facts, P facts → ∀ b ∈ entries, P (visit facts b)) (hfacts : P facts) :
    P last := by
  induction h with
  | stop => exact hfacts
  | again _ _ ih => exact ih (List.foldlRecOn entries visit hfacts hvisit)

/-! ## Visits that only add -/

section Growing

variable (hgrow : ∀ facts b, facts ⊆ visit facts b)

include hgrow in
theorem subset_foldl : ∀ (entries : List β) (facts : Finset α),
    facts ⊆ entries.foldl visit facts := by
  intro entries facts
  exact List.foldlRecOn (motive := (facts ⊆ ·)) entries visit (Finset.Subset.refl facts)
    fun more h b _ => h.trans (hgrow more b)

include hgrow in
/-- A round that changes nothing is made of visits that change nothing. -/
theorem visit_eq_of_foldl_eq : ∀ {entries : List β} {facts : Finset α},
    entries.foldl visit facts = facts → ∀ b ∈ entries, visit facts b = facts := by
  intro entries
  induction entries with
  | nil =>
      intro facts _ b hb
      exact absurd hb List.not_mem_nil
  | cons c entries ih =>
      intro facts h
      have hc : visit facts c = facts := by
        refine Finset.Subset.antisymm ?_ (hgrow facts c)
        have hlater := subset_foldl hgrow entries (visit facts c)
        rwa [← List.foldl_cons, h] at hlater
      rw [List.foldl_cons, hc] at h
      exact List.forall_mem_cons.mpr ⟨hc, ih h⟩

include hgrow in
theorem Settles.visit_eq {facts last : Finset α} (h : Settles visit entries facts last) :
    ∀ b ∈ entries, visit last b = last := by
  induction h with
  | stop hround => exact visit_eq_of_foldl_eq hgrow hround
  | again _ _ ih => exact ih

include hgrow in
/-- Rounds that stay within a finite stock of facts come to an end. -/
theorem exists_settles (stock : Finset α)
    (hstock : ∀ facts, facts ⊆ stock → ∀ b ∈ entries, visit facts b ⊆ stock)
    {facts : Finset α} (hfacts : facts ⊆ stock) : ∃ last, Settles visit entries facts last := by
  -- every round but the last takes a fact out of what is left of the stock
  generalize hleft : stock.card - facts.card = left
  induction left using Nat.strongRecOn generalizing facts with
  | _ left ih =>
      by_cases hround : entries.foldl visit facts = facts
      · exact ⟨facts, .stop hround⟩
      · have hsub : entries.foldl visit facts ⊆ stock :=
          List.foldlRecOn (motive := (· ⊆ stock)) entries visit hfacts hstock
        have hlt : facts.card < (entries.foldl visit facts).card :=
          Finset.card_lt_card ((subset_foldl hgrow entries facts).ssubset_of_ne (Ne.symm hround))
        have hle := Finset.card_le_card hsub
        obtain ⟨last, hlast⟩ := ih _ (by omega) hsub rfl
        exact ⟨last, .again hround hlast⟩

end Growing

end FrontEnd.Rounds
