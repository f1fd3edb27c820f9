/-
# `Slr.Stack` — the stack of a parser is a path

Every action in a cell is a claim of the state, whichever claim has won.  So a shift goes on
over the lookahead, and a reduction takes away the symbols of a body, which the path ends with
because an item remembers them, and goes on over the head.

Acceptance needs the augmenting item with all of its body read.  Where the start symbol is
in no body, that body is the whole path (`AcceptsHere.path`).
-/
import FrontEnd.Proofs.Slr.Parser
import FrontEnd.Proofs.Slr.Table

namespace FrontEnd.Table

variable {g : Grammar} {policy : Policy} {t : Table} {c d : Configuration} {xs : List Symbol}

theorem Makes.path_shift (ht : build policy g = .ok t) (hm : Makes t c .shift d)
    (h : Lr.Path g xs c.stack) : Lr.Path g (c.lookahead :: xs) d.stack := by
  cases hm with
  | @shift q r rest hstack hterm hact =>
      show Lr.Path g _ (r :: c.stack)
      rw [hstack] at h ⊢
      exact .step h (build_claimed ht hact).of_shift

theorem Makes.path_reduce (ht : build policy g = .ok t) {i : Nat} (hm : Makes t c (.reduce i) d)
    (h : Lr.Path g xs c.stack) :
    ∃ p, g.production? i = some p ∧ xs.take p.body.length = p.body.reverse ∧
      Lr.Path g (p.head :: xs.drop p.body.length) d.stack := by
  cases hm with
  | @reduce q q' _ r rest rest' p hstack hterm hact hp hdrop hgoto =>
      obtain ⟨p', hp', hholds, -⟩ := (build_claimed ht hact).of_reduce
      rw [build_grammar ht] at hp
      obtain rfl : p = p' := Option.some.inj (hp.symm.trans hp')
      obtain ⟨hle, htake⟩ := (Lr.Path.valid (hstack ▸ h) hholds).take_eq hp
      refine ⟨p, hp, by simpa using htake, ?_⟩
      show Lr.Path g _ (r :: q' :: rest')
      have hbelow := h.drop hle
      rw [hdrop] at hbelow
      exact .step hbelow (build_goto ht hgoto)

theorem Makes.path (ht : build policy g = .ok t) {m : Move} (hm : Makes t c m d)
    (hacc : m ≠ .accept) (h : Lr.Path g xs c.stack) : ∃ xs', Lr.Path g xs' d.stack := by
  cases m with
  | shift => exact ⟨_, hm.path_shift ht h⟩
  | reduce i =>
      obtain ⟨p, -, -, hpath⟩ := hm.path_reduce ht h
      exact ⟨_, hpath⟩
  | accept => exact absurd rfl hacc
  | error => exact absurd rfl hm.ne_error

theorem Runs.path (ht : build policy g = .ok t) {past : Trace} (h : Runs t c past d) :
    ∀ {xs : List Symbol}, Lr.Path g xs c.stack → ∃ xs', Lr.Path g xs' d.stack := by
  induction h with
  | done =>
      intro xs hpath
      exact ⟨xs, hpath⟩
  | move hmakes hacc _ ih =>
      intro xs hpath
      obtain ⟨xs', hpath'⟩ := hmakes.path ht hacc hpath
      exact ih hpath'

theorem AcceptsHere.path (hstart : ∀ p ∈ g.productions, g.start ∉ p.body)
    (ht : build policy g = .ok t) (hc : AcceptsHere t c) (h : Lr.Path g xs c.stack) :
    c.lookahead = endMarker ∧ xs = [g.root] := by
  obtain ⟨q, rest, hstack, -, hact⟩ := hc
  obtain ⟨hlook, hholds⟩ := (build_claimed ht hact).of_accept
  exact ⟨hlook, (Lr.Path.valid (hstack ▸ h) hholds).eq_root hstart⟩

end FrontEnd.Table
