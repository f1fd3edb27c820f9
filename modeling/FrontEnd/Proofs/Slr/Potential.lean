/-
# `Slr.Potential` — a bound for the moves where every reduction gets on

A shift uses up a symbol of the input, and a reduction by two symbols or more makes the stack
lower.  A reduction by one symbol changes neither; it puts the head of its production in the
place of the symbol, on top of the stack.  So it matters how often that can go on from a symbol:
its height is the number of symbols that it can be turned into by reductions of that kind
(`Grammar.height`), and such a reduction makes it smaller when none of them leads back.

The three are the digits of one number, the potential of a configuration, and every move
makes it smaller (`Makes.potential_lt`).  That the stack is a path is all that is needed, and it
is one whichever claims have won; so conflicts do not matter, nor whether the input is a
sentence.  The bound is linear in the length of the input.
-/
import FrontEnd.Proofs.Slr.Stack
import Mathlib.Data.Finset.Card
import Mathlib.Logic.Relation

namespace FrontEnd

variable {g : Grammar}

/-! ## Bodies of one symbol -/

namespace Grammar

/-- `g.Renames a b`: a production of `a` has the single non-terminal `b` as its body. -/
def Renames (g : Grammar) (a b : Symbol) : Prop :=
  ∃ p ∈ g.productions, p.head = a ∧ p.body = [b] ∧ g.isTerminal b ≠ true

/-- `g.Covers a x`: a production of `a` has the one symbol `x` as its body, so that a reduction
turns `x` into `a`. -/
def Covers (g : Grammar) (a x : Symbol) : Prop := ∃ p ∈ g.productions, p.head = a ∧ p.body = [x]

/-- Only non-terminals are covered on the way from one non-terminal to another. -/
theorem renames_of_covers {a b : Symbol} (h : Relation.TransGen g.Covers a b) :
    g.isTerminal b ≠ true → Relation.TransGen g.Renames a b := by
  induction h with
  | single h =>
      intro hb
      obtain ⟨p, hp, hhead, hbody⟩ := h
      exact .single ⟨p, hp, hhead, hbody, hb⟩
  | tail _ h ih =>
      intro hb
      obtain ⟨p, hp, hhead, hbody⟩ := h
      refine .tail (ih fun hterm => ?_) ⟨p, hp, hhead, hbody, hb⟩
      exact isTerminal_iff.mp hterm p hp hhead

theorem covers_acyclic (hunit : ∀ a, ¬ Relation.TransGen g.Renames a a) (a : Symbol) :
    ¬ Relation.TransGen g.Covers a a := by
  intro h
  refine hunit a (renames_of_covers h fun hterm => ?_)
  obtain ⟨b, ⟨p, hp, hhead, -⟩, -⟩ := Relation.TransGen.head'_iff.mp h
  exact isTerminal_iff.mp hterm p hp hhead

open scoped Classical in
/-- The heads that a symbol can be turned into by reductions of one symbol. -/
noncomputable def above (g : Grammar) (x : Symbol) : Finset Symbol :=
  (g.productions.map (·.head)).toFinset.filter fun a => Relation.TransGen g.Covers a x

theorem mem_above {a x : Symbol} : a ∈ g.above x ↔ Relation.TransGen g.Covers a x := by
  simp only [above, Finset.mem_filter, and_iff_right_iff_imp, List.mem_toFinset, List.mem_map]
  intro h
  obtain ⟨b, ⟨p, hp, hhead, -⟩, -⟩ := Relation.TransGen.head'_iff.mp h
  exact ⟨p, hp, hhead⟩

/-- How many symbols a symbol can be turned into by reductions of one symbol. -/
noncomputable def height (g : Grammar) (x : Symbol) : Nat := (g.above x).card

theorem height_lt_base (g : Grammar) (x : Symbol) : g.height x < g.productions.length + 1 := by
  have hsubset : g.above x ⊆ (g.productions.map (·.head)).toFinset := by
    classical exact Finset.filter_subset _ _
  have hle := (Finset.card_le_card hsubset).trans (List.toFinset_card_le _)
  rw [List.length_map] at hle
  exact Nat.lt_succ_of_le hle

/-- A reduction of one symbol makes the height smaller. -/
theorem height_lt (hunit : ∀ a, ¬ Relation.TransGen g.Renames a a) {a x : Symbol}
    (h : g.Covers a x) : g.height a < g.height x := by
  refine Finset.card_lt_card ((Finset.ssubset_iff_of_subset ?_).mpr ⟨a, ?_, ?_⟩)
  · intro b hb
    exact mem_above.mpr ((mem_above.mp hb).tail h)
  · exact mem_above.mpr (.single h)
  · intro ha
    exact covers_acyclic hunit a (mem_above.mp ha)

end Grammar

namespace Table

variable {policy : Policy} {t : Table} {c d : Configuration} {m : Move} {xs : List Symbol}

/-! ## The potential of a configuration -/

/-- What is left of the input counts twice, since a shift puts a symbol on the stack. -/
def extent (c : Configuration) (xs : List Symbol) : Nat :=
  2 * (c.input.length - c.position) + xs.length

/-- The height of the symbol on top. -/
noncomputable def topHeight (g : Grammar) : List Symbol → Nat
  | [] => 0
  | x :: _ => g.height x

/-- What all moves make smaller: the extent, and where that stays the same the height of the symbol
on top. -/
noncomputable def potential (g : Grammar) (c : Configuration) (xs : List Symbol) : Nat :=
  extent c xs * (g.productions.length + 1) + topHeight g xs

theorem topHeight_lt_base (g : Grammar) (xs : List Symbol) :
    topHeight g xs < g.productions.length + 1 := by
  cases xs with
  | nil => exact Nat.succ_pos _
  | cons x xs => exact g.height_lt_base x

theorem potential_lt_of_extent {ys : List Symbol} (h : extent d ys < extent c xs) :
    potential g d ys < potential g c xs := by
  have hdigit := topHeight_lt_base g ys
  have hcarry : (extent d ys + 1) * (g.productions.length + 1) ≤
      extent c xs * (g.productions.length + 1) := Nat.mul_le_mul_right _ h
  rw [Nat.succ_mul] at hcarry
  unfold potential
  omega

/-! ## Moves -/

theorem Makes.potential_shift (hend : ∀ p ∈ g.productions, endMarker ∉ p.body)
    (ht : build policy g = .ok t) (hm : Makes t c .shift d) :
    potential g d (c.lookahead :: xs) < potential g c xs := by
  cases hm with
  | @shift q r rest hstack hterm hact =>
      -- what is shifted is a symbol of a body, and so not the end marker behind the input
      obtain ⟨p, hp, hmem⟩ := Lr.exists_body_of_transition (build_claimed ht hact).of_shift
      have hlt : c.position < c.input.length := by
        refine Nat.lt_of_not_le fun hge => hend p hp ?_
        rwa [Configuration.lookahead, List.getElem?_eq_none hge] at hmem
      refine potential_lt_of_extent ?_
      simp only [extent, List.length_cons]
      omega

theorem Makes.potential_reduce (hempty : ∀ p ∈ g.productions, p.body ≠ [])
    (hunit : ∀ a, ¬ Relation.TransGen g.Renames a a) {i : Nat} {p : Production}
    (hm : Makes t c (.reduce i) d) (hp : g.production? i = some p)
    (htake : xs.take p.body.length = p.body.reverse) :
    potential g d (p.head :: xs.drop p.body.length) < potential g c xs := by
  have hsame : d.input = c.input ∧ d.position = c.position := by
    cases hm
    exact ⟨rfl, rfl⟩
  have hmem := Grammar.mem_of_production? hp
  have hlen : p.body.length ≤ xs.length := by
    have hlen := congrArg List.length htake
    rw [List.length_take, List.length_reverse] at hlen
    omega
  match hbody : p.body with
  | [] => exact absurd hbody (hempty p hmem)
  | [x] =>
      -- the symbol on top is turned into the head
      rw [hbody] at htake
      obtain ⟨rest, rfl⟩ : ∃ rest, xs = x :: rest := by
        cases xs with
        | nil => exact nomatch htake
        | cons y rest => exact ⟨rest, by rw [(List.cons.inj htake).1]⟩
      have hlower := Grammar.height_lt hunit ⟨p, hmem, rfl, hbody⟩
      show extent d (p.head :: rest) * _ + g.height p.head < _ * _ + g.height x
      simp only [extent, hsame, List.length_cons]
      omega
  | x :: y :: ys =>
      refine potential_lt_of_extent ?_
      rw [hbody] at hlen
      simp only [extent, hsame, List.length_cons, List.length_drop] at hlen ⊢
      omega

/-- Every move leads along a path to a smaller potential. -/
theorem Makes.potential_lt (hempty : ∀ p ∈ g.productions, p.body ≠ [])
    (hunit : ∀ a, ¬ Relation.TransGen g.Renames a a)
    (hend : ∀ p ∈ g.productions, endMarker ∉ p.body) (ht : build policy g = .ok t)
    (hm : Makes t c m d) (hacc : m ≠ .accept) (h : Lr.Path g xs c.stack) :
    ∃ ys, Lr.Path g ys d.stack ∧ potential g d ys < potential g c xs := by
  cases m with
  | shift => exact ⟨_, hm.path_shift ht h, hm.potential_shift hend ht⟩
  | reduce i =>
      obtain ⟨p, hp, htake, hpath⟩ := hm.path_reduce ht h
      exact ⟨_, hpath, hm.potential_reduce hempty hunit hp htake⟩
  | accept => exact absurd rfl hacc
  | error => exact absurd rfl hm.ne_error

/-- So a parser is done after no more moves than its potential and one more. -/
theorem isDone_afterMoves_of_potential (hempty : ∀ p ∈ g.productions, p.body ≠ [])
    (hunit : ∀ a, ¬ Relation.TransGen g.Renames a a)
    (hend : ∀ p ∈ g.productions, endMarker ∉ p.body) (ht : build policy g = .ok t) {n : Nat} :
    ∀ {c : Configuration} {xs : List Symbol}, c.status = .running → Lr.Path g xs c.stack →
      potential g c xs < n → (t.afterMoves n c).isDone = true := by
  induction n with
  | zero =>
      intro c xs _ _ hlt
      exact absurd hlt (Nat.not_lt_zero _)
  | succ n ih =>
      intro c xs hc hpath hlt
      rw [afterMoves]
      rcases step_makes_or_done t hc with ⟨m, d, hstep, hmakes, hacc⟩ | ⟨-, hdone⟩
      · obtain ⟨ys, hpath', hlower⟩ := hmakes.potential_lt hempty hunit hend ht hacc hpath
        rw [hstep]
        exact ih ((hmakes.running hacc).1.trans hc) hpath'
          (Nat.lt_of_lt_of_le hlower (Nat.le_of_lt_succ hlt))
      · rw [afterMoves_of_isDone hdone]
        exact hdone

/-! ## The bound -/

/-- A number of moves that is enough for an input, in a grammar without empty bodies and circles
of single non-terminals. -/
def movesEnough (g : Grammar) (input : List Symbol) : Nat :=
  2 * (g.productions.length + 1) * input.length + 1

/-- **Termination under either policy**, where no body is empty, no non-terminal comes back to
itself over bodies of a single non-terminal, and the end marker is in no body.  Whatever the
input, the parser is done after `movesEnough` moves, and a parse that may take so many has an
outcome. -/
theorem done_within_movesEnough (hempty : ∀ p ∈ g.productions, p.body ≠ [])
    (hunit : ∀ a, ¬ Relation.TransGen g.Renames a a)
    (hend : ∀ p ∈ g.productions, endMarker ∉ p.body) (ht : build policy g = .ok t)
    (input : List Symbol) :
    (t.afterMoves (movesEnough g input) (.start input)).isDone = true ∧
      t.parse (movesEnough g input) input ≠ none := by
  have hdone : (t.afterMoves (movesEnough g input) (.start input)).isDone = true := by
    refine isDone_afterMoves_of_potential hempty hunit hend ht rfl .start ?_
    have hpotential : potential g (.start input) [] =
        2 * input.length * (g.productions.length + 1) := rfl
    rw [hpotential, movesEnough, Nat.mul_right_comm]
    exact Nat.lt_succ_self _
  refine ⟨hdone, ?_⟩
  intro hnone
  have hrunning := (run_eq_none_iff rfl).mp hnone
  rw [hdone] at hrunning
  exact Bool.false_ne_true hrunning.symm

/-- Sums that can be grouped either way, of terms that are numbers. -/
def termSums : Grammar :=
  ⟨"E'", 0, [⟨"E'", ["E"], none⟩, ⟨"E", ["E", "+", "E"], none⟩, ⟨"E", ["T"], none⟩,
      ⟨"T", ["n"], none⟩],
    ⟨⟨⟨"E'", ["E"], none⟩, by decide +kernel, by decide +kernel⟩, by decide +kernel⟩⟩

/-- Here the table has a conflict, and the input is not a sentence. -/
theorem done_within_movesEnough_termSums : (∃ e, build .reject termSums = .error e) ∧
    ∃ t, build .lastWins termSums = .ok t ∧ movesEnough termSums ["n", "+", "+"] = 31 ∧
      (t.afterMoves 31 (.start ["n", "+", "+"])).isDone = true ∧
      t.parse 31 ["n", "+", "+"] ≠ none := by
  have hunit : ∀ a, ¬ Relation.TransGen termSums.Renames a a := by
    -- renaming goes from `E'` to `E` and from there to `T`
    let rank : Symbol → Nat := fun x => if x = "E'" then 2 else if x = "E" then 1 else 0
    have hstep {a b : Symbol} (h : termSums.Renames a b) : rank b < rank a := by
      obtain ⟨p, hp, rfl, hbody, hb⟩ := h
      obtain rfl | rfl | rfl | rfl : p = ⟨"E'", ["E"], none⟩ ∨ p = ⟨"E", ["E", "+", "E"], none⟩ ∨
          p = ⟨"E", ["T"], none⟩ ∨ p = ⟨"T", ["n"], none⟩ := by simpa [termSums] using hp
      · obtain rfl := (List.cons.inj hbody).1
        decide +kernel
      · exact nomatch hbody
      · obtain rfl := (List.cons.inj hbody).1
        decide +kernel
      · obtain rfl := (List.cons.inj hbody).1
        exact absurd (by decide +kernel) hb
    have hrank {a b : Symbol} (h : Relation.TransGen termSums.Renames a b) : rank b < rank a := by
      induction h with
      | single h => exact hstep h
      | tail _ h ih => exact (hstep h).trans ih
    exact fun a h => Nat.lt_irrefl _ (hrank h)
  obtain ⟨t, ht⟩ : ∃ t, build .lastWins termSums = .ok t := ⟨_, rfl⟩
  exact ⟨⟨_, rfl⟩, t, ht, rfl,
    done_within_movesEnough (by decide +kernel) hunit (by decide +kernel) ht ["n", "+", "+"]⟩

end Table

end FrontEnd
