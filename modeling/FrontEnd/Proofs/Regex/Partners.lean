/-
# `Regex.Partners` — the first parenthesis without a partner

Two parentheses are partners when those between them are in pairs.  A scan that keeps the places of
the open parentheses has read, up to any point, pairs with one open parenthesis between each two
runs of them (`Opened`).  From there on it can only stop in two ways: at a closing parenthesis with
pairs and nothing else in front of it, or at the end with some left open.  In both cases what is in
front of the place that it reports are pairs, whose members have partners
(`Paired.exists_partner`), and the parenthesis at that place has none.
-/
import FrontEnd.Proofs.Regex.Spelling
import Mathlib.Order.Bounds.Defs

namespace FrontEnd.Regex

/-- `Partners cs p q`: a parenthesis opens at `p` and one closes at `q`, and between them the
parentheses are in pairs. -/
def Partners (cs : List Char) (p q : Nat) : Prop :=
  ∃ front inner back, cs = front ++ '(' :: (inner ++ ')' :: back) ∧ Paired true inner ∧
    p = front.length ∧ q = front.length + inner.length + 1

/-- There is a parenthesis at `p`, and it has no partner. -/
def Alone (cs : List Char) (p : Nat) : Prop :=
  (cs[p]? = some '(' ∨ cs[p]? = some ')') ∧ ∀ q, ¬ Partners cs p q ∧ ¬ Partners cs q p

/-! ## Members of pairs -/

theorem getElem?_middle (front : List Char) (c : Char) (back : List Char) :
    (front ++ c :: back)[front.length]? = some c := by
  simp

namespace Partners

variable {cs : List Char} {p q : Nat}

theorem open_at (h : Partners cs p q) : cs[p]? = some '(' := by
  obtain ⟨front, inner, back, rfl, -, rfl, -⟩ := h
  exact getElem?_middle front '(' _

theorem close_at (h : Partners cs p q) : cs[q]? = some ')' := by
  obtain ⟨front, inner, back, rfl, -, -, rfl⟩ := h
  have hclose := getElem?_middle (front ++ '(' :: inner) ')' back
  rwa [List.append_assoc, List.length_append, List.length_cons, ← Nat.add_assoc] at hclose

/-- Partners stay partners in a longer text. -/
theorem within (h : Partners cs p q) (before after : List Char) :
    Partners (before ++ (cs ++ after)) (before.length + p) (before.length + q) := by
  obtain ⟨front, inner, back, rfl, hinner, rfl, rfl⟩ := h
  refine ⟨before ++ front, inner, back ++ after, by simp, hinner, by simp, ?_⟩
  rw [List.length_append]
  omega

end Partners

/-- Whatever is at `p` is one of two partners. -/
def Partnered (cs : List Char) (p : Nat) : Prop := ∃ q, Partners cs p q ∨ Partners cs q p

theorem Partnered.within {cs : List Char} {p : Nat} (h : Partnered cs p)
    (before after : List Char) : Partnered (before ++ (cs ++ after)) (before.length + p) := by
  obtain ⟨q, hq⟩ := h
  exact ⟨before.length + q, hq.imp (·.within before after) (·.within before after)⟩

theorem not_alone_of_partnered {cs : List Char} {p : Nat} (h : Partnered cs p) : ¬ Alone cs p := by
  rintro ⟨-, halone⟩
  obtain ⟨q, hq | hq⟩ := h
  · exact (halone q).1 hq
  · exact (halone q).2 hq

/-- Where parentheses are in pairs, each of them has a partner. -/
theorem Paired.exists_partner {bars : Bool} {cs : List Char} (h : Paired bars cs) :
    ∀ {p : Nat}, cs[p]? = some '(' ∨ cs[p]? = some ')' → Partnered cs p := by
  induction h with
  | nil =>
      intro p hp
      simp at hp
  | @char _ c cs hopen hclose _ _ ih =>
      intro p hp
      cases p with
      | zero => simp [hopen, hclose] at hp
      | succ p =>
          rw [List.getElem?_cons_succ] at hp
          have hin := (ih hp).within [c] []
          rwa [List.append_nil, List.length_singleton, Nat.add_comm] at hin
  | @group _ inner ds hinner _ ihinner ihds =>
      intro p hp
      have hgroup : Partners ('(' :: (inner ++ ')' :: ds)) 0 (inner.length + 1) :=
        ⟨[], inner, ds, rfl, hinner, rfl, by simp⟩
      -- the parenthesis in front, one of the group, its closing one, or one behind it
      rcases Nat.lt_trichotomy p (inner.length + 1) with hlt | rfl | hlt
      · cases p with
        | zero => exact ⟨_, Or.inl hgroup⟩
        | succ p =>
            have hlt : p < inner.length := Nat.lt_of_succ_lt_succ hlt
            rw [List.getElem?_cons_succ, List.getElem?_append_left hlt] at hp
            have hin := (ihinner hp).within ['('] (')' :: ds)
            rwa [List.length_singleton, Nat.add_comm] at hin
      · exact ⟨_, Or.inr hgroup⟩
      · obtain ⟨k, rfl⟩ : ∃ k, p = ('(' :: (inner ++ [')'])).length + k :=
          ⟨p - (inner.length + 2), by simp; omega⟩
        have hsplit : '(' :: (inner ++ ')' :: ds) = '(' :: (inner ++ [')']) ++ ds := by simp
        rw [hsplit, List.getElem?_append_right (Nat.le_add_right _ _),
          Nat.add_sub_cancel_left] at hp
        rw [hsplit]
        have hin := (ihds hp).within ('(' :: (inner ++ [')'])) []
        rwa [List.append_nil] at hin

theorem Paired.not_alone {cs : List Char} (h : Paired true cs) (p : Nat) : ¬ Alone cs p := by
  intro hp
  exact not_alone_of_partnered (h.exists_partner hp.1) hp

theorem not_alone_of_paired {cs rest : List Char} {p : Nat} (h : Paired true cs)
    (hp : p < cs.length) : ¬ Alone (cs ++ rest) p := by
  intro halone
  have hparen := halone.1
  rw [List.getElem?_append_left hp] at hparen
  have hpartner := (h.exists_partner hparen).within [] rest
  rw [List.nil_append, List.length_nil, Nat.zero_add] at hpartner
  exact not_alone_of_partnered hpartner halone

/-! ## What a scan has read -/

/-- `Opened cs opened`: in `cs` there are pairs, and the parentheses at the places `opened`, the
last one first, which are not closed. -/
inductive Opened : List Char → List Nat → Prop
  | paired {cs : List Char} : Paired true cs → Opened cs []
  | opening {cs ds : List Char} {opened : List Nat} : Opened cs opened → Paired true ds →
      Opened (cs ++ '(' :: ds) (cs.length :: opened)

namespace Opened

variable {cs : List Char} {opened : List Nat}

theorem append {ds : List Char} (h : Opened cs opened) (hds : Paired true ds) :
    Opened (cs ++ ds) opened := by
  cases h with
  | paired hcs => exact .paired (hcs.append hds)
  | opening hcs hes =>
      rw [List.append_assoc, List.cons_append]
      exact .opening hcs (hes.append hds)

theorem unpaired_append (h : Opened cs opened) : ∀ rest,
    unpaired 0 [] (cs ++ rest) = unpaired cs.length opened rest := by
  induction h with
  | paired hcs =>
      intro rest
      rw [hcs.unpaired_append, Nat.zero_add]
  | @opening cs ds opened _ hds ih =>
      intro rest
      rw [List.append_assoc, ih]
      show unpaired (cs.length + 1) (cs.length :: opened) (ds ++ rest) = _
      rw [hds.unpaired_append, List.length_append, List.length_cons]
      congr 1
      omega

/-- The search for the end of a group goes deeper with each open parenthesis. -/
theorem closing_append (h : Opened cs opened) : ∀ depth rest,
    closing (depth + 1) (cs ++ rest) =
      (closing (depth + opened.length + 1) rest).map (· + cs.length) := by
  induction h with
  | paired hcs =>
      intro depth rest
      exact hcs.closing_append rest depth
  | @opening cs ds opened _ hds ih =>
      intro depth rest
      rw [List.append_assoc, ih, List.cons_append, closing, if_pos rfl, hds.closing_append,
        Option.map_map, Option.map_map, List.length_cons, List.length_append, List.length_cons,
        ← Nat.add_assoc depth]
      congr 1
      funext n
      simp only [Function.comp]
      omega

theorem closing_eq_none (h : Opened cs opened) (depth : Nat) : closing (depth + 1) cs = none := by
  have hnone := h.closing_append depth []
  rwa [List.append_nil] at hnone

/-- In front of the first open parenthesis there are pairs, and behind it there is none to
close it. -/
theorem exists_first {p : Nat} (h : Opened cs opened) (hp : opened.getLast? = some p) :
    ∃ front back inside, cs = front ++ '(' :: back ∧ p = front.length ∧ Paired true front ∧
      Opened back inside := by
  induction h with
  | paired => exact nomatch hp
  | @opening cs ds opened hcs hds ih =>
      cases hcs with
      | paired hcs =>
          obtain rfl : cs.length = p := Option.some.inj hp
          exact ⟨cs, ds, [], rfl, rfl, hcs, .paired hds⟩
      | opening =>
          rw [List.getLast?_cons_cons] at hp
          obtain ⟨front, back, inside, hcs, rfl, hfront, hback⟩ := ih hp
          rw [hcs, List.append_assoc, List.cons_append]
          exact ⟨front, _, _, rfl, rfl, hfront, .opening hback hds⟩

end Opened

/-- A scan reads on, or it meets a closing parenthesis behind nothing but pairs. -/
theorem opened_or_stops (rest : List Char) : ∀ {cs : List Char} {opened : List Nat},
    Opened cs opened → (∃ more, Opened (cs ++ rest) more) ∨
      ∃ front back, cs ++ rest = front ++ ')' :: back ∧ Paired true front := by
  induction rest with
  | nil =>
      intro cs opened h
      rw [List.append_nil]
      exact Or.inl ⟨opened, h⟩
  | cons c rest ih =>
      intro cs opened h
      have hsplit : cs ++ c :: rest = cs ++ [c] ++ rest := by simp
      by_cases hopen : c = '('
      · subst hopen
        rw [hsplit]
        exact ih (.opening h .nil)
      by_cases hclose : c = ')'
      · subst hclose
        cases h with
        | paired h => exact Or.inr ⟨cs, rest, rfl, h⟩
        | @opening cs ds opened h hds =>
            rw [hsplit, List.append_assoc cs]
            exact ih (h.append (.group hds .nil))
      · rw [hsplit]
        exact ih (h.append (.char hopen hclose (fun _ => rfl) .nil))

/-! ## The first one without a partner -/

theorem alone_close {front : List Char} (h : Paired true front) (back : List Char) :
    Alone (front ++ ')' :: back) front.length := by
  have hhere := getElem?_middle front ')' back
  refine ⟨Or.inr hhere, fun q => ⟨?_, ?_⟩⟩
  · intro hpartners
    exact absurd (hhere.symm.trans hpartners.open_at) (by decide)
  · rintro ⟨before, inner, after, hsplit, hinner, -, hlen⟩
    -- an open parenthesis in front would be left over at the end of the pairs
    have hsplit : front ++ ')' :: back = (before ++ '(' :: inner) ++ ')' :: after := by
      rw [hsplit, List.append_assoc, List.cons_append]
    obtain ⟨rfl, -⟩ := List.append_inj hsplit (by simp [hlen]; omega)
    have hnone := h.unpaired_append [] 0 []
    rw [List.append_nil] at hnone
    rcases opened_or_stops before (.paired .nil) with ⟨opened, hopened⟩ | hstops
    · have hlast := (Opened.opening hopened hinner).unpaired_append []
      rw [List.nil_append, List.append_nil, hnone] at hlast
      exact absurd hlast.symm (by simp [unpaired])
    · obtain ⟨first, later, hbefore, hfirst⟩ := hstops
      rw [List.nil_append] at hbefore
      rw [hbefore, List.append_assoc, hfirst.unpaired_append] at hnone
      exact nomatch hnone

theorem alone_open {back : List Char} {opened : List Nat} (h : Opened back opened)
    (front : List Char) : Alone (front ++ '(' :: back) front.length := by
  have hhere := getElem?_middle front '(' back
  refine ⟨Or.inl hhere, fun q => ⟨?_, ?_⟩⟩
  · rintro ⟨before, inner, after, hsplit, hinner, hlen, -⟩
    obtain ⟨-, hback⟩ := List.append_inj hsplit hlen
    have hnone := h.closing_eq_none 0
    rw [(List.cons.inj hback).2, hinner.closing_append] at hnone
    exact nomatch hnone
  · intro hpartners
    exact absurd (hhere.symm.trans hpartners.close_at) (by decide)

/-- A scan finds that all parentheses are in pairs, or it finds the first one without a partner. -/
theorem unpaired_cases (cs : List Char) :
    unpaired 0 [] cs = none ∧ Paired true cs ∨
      ∃ p, unpaired 0 [] cs = some p ∧ IsLeast {p | Alone cs p} p := by
  have hleast {front rest : List Char} (hfront : Paired true front)
      (halone : Alone (front ++ rest) front.length) :
      IsLeast {p | Alone (front ++ rest) p} front.length := by
    refine ⟨halone, fun p hp => Nat.le_of_not_lt fun hlt => ?_⟩
    exact not_alone_of_paired hfront hlt hp
  rcases opened_or_stops cs (.paired .nil) with ⟨opened, hopened⟩ | hstops
  · rw [List.nil_append] at hopened
    have hlast : unpaired 0 [] cs = opened.getLast? := by
      have hscan := hopened.unpaired_append []
      rwa [List.append_nil] at hscan
    cases hfirst : opened.getLast? with
    | none =>
        obtain rfl := List.getLast?_eq_none_iff.mp hfirst
        cases hopened with
        | paired hcs => exact Or.inl ⟨hlast, hcs⟩
    | some p =>
        obtain ⟨front, back, inside, rfl, rfl, hfront, hback⟩ := hopened.exists_first hfirst
        exact Or.inr ⟨_, hlast.trans hfirst, hleast hfront (alone_open hback front)⟩
  · obtain ⟨front, back, hcs, hfront⟩ := hstops
    rw [List.nil_append] at hcs
    subst hcs
    refine Or.inr ⟨front.length, ?_, hleast hfront (alone_close hfront back)⟩
    rw [hfront.unpaired_append, Nat.zero_add]
    rfl

end FrontEnd.Regex
