/-
# `Automaton.Renaming` — the deterministic automaton does not see how states are numbered

Two automata are the same but for the numbers of their states when a permutation of the numbers
takes the edges of one to those of the other (`Renames`).  Paths, closures and moves go along
with it, and the characters that leave a set stay what they are.  So the search through the sets
meets renamed sets in the same order (`Renames.met_eq`), and as the deterministic automaton
knows a set by its place alone, it is the same one (`Renames.toDfa_eq`).

A union is where this is of use.  Its two blocks stand one behind the other in the order of the
operands; exchanging the blocks renames the one union to the other (`renames_union`).
-/
import FrontEnd.Proofs.Automaton.Subset
import Mathlib.Logic.Equiv.Basic

namespace FrontEnd

namespace SortedSet

variable {α β : Type} [Ord α] [Ord β] [Std.TransOrd β] [Std.LawfulEqOrd β]

/-- What a function makes of the members of a set. -/
def image (f : α → β) (s : SortedSet α) : SortedSet β := ofList (s.toList.map f)

theorem mem_image {f : α → β} {s : SortedSet α} {b : β} : b ∈ s.image f ↔ ∃ a ∈ s, f a = b := by
  rw [image, mem_ofList, List.mem_map]
  rfl

theorem apply_mem_image {f : α → β} (hf : Function.Injective f) {s : SortedSet α} {a : α} :
    f a ∈ s.image f ↔ a ∈ s := by
  rw [mem_image]
  refine ⟨?_, fun ha => ⟨a, ha, rfl⟩⟩
  rintro ⟨a', ha', heq⟩
  exact hf heq ▸ ha'

theorem image_injective [Std.TransOrd α] [Std.LawfulEqOrd α] {f : α → β}
    (hf : Function.Injective f) : Function.Injective (image f) := by
  intro s t h
  ext a
  rw [← apply_mem_image hf, h, apply_mem_image hf]

theorem isEmpty_image {f : α → β} (s : SortedSet α) : (s.image f).isEmpty = s.isEmpty := by
  rw [Bool.eq_iff_iff, isEmpty_iff, isEmpty_iff]
  refine ⟨?_, ?_⟩
  · intro h a ha
    exact h (f a) (mem_image.mpr ⟨a, ha, rfl⟩)
  · intro h b hb
    obtain ⟨a, ha, -⟩ := mem_image.mp hb
    exact h a ha

end SortedSet

theorem idxOf_map {α β : Type} [DecidableEq α] [DecidableEq β] {f : α → β}
    (hf : Function.Injective f) (a : α) (l : List α) : (l.map f).idxOf (f a) = l.idxOf a := by
  induction l with
  | nil => rfl
  | cons b l ih =>
      by_cases hb : b = a
      · rw [hb, List.map_cons, List.idxOf_cons_self, List.idxOf_cons_self]
      · rw [List.map_cons, List.idxOf_cons_ne _ (hf.ne hb), List.idxOf_cons_ne _ hb, ih]

namespace Nfa

/-- `Renames π n m`: the permutation takes the states and edges of `n` to those of `m`. -/
structure Renames (π : Equiv.Perm Nat) (n m : Nfa) : Prop where
  size_eq : m.size = n.size
  start_eq : m.start = π n.start
  final_eq : m.final = π n.final
  edge_iff : ∀ {s t : Nat} {l : Label}, m.Edge (π s) l (π t) ↔ n.Edge s l t

namespace Renames

variable {π : Equiv.Perm Nat} {n m : Nfa}

theorem symm (h : Renames π n m) : Renames π.symm m n := by
  refine ⟨h.size_eq.symm, ?_, ?_, ?_⟩
  · rw [h.start_eq, π.symm_apply_apply]
  · rw [h.final_eq, π.symm_apply_apply]
  · intro s t l
    rw [← h.edge_iff, π.apply_symm_apply, π.apply_symm_apply]

/-! ## Paths, closures and moves -/

theorem path (h : Renames π n m) {s t : Nat} {w : List Char} (hpath : n.Path s w t) :
    m.Path (π s) w (π t) := by
  induction hpath with
  | nil _ => exact .nil _
  | step hedge _ ih => exact .step (h.edge_iff.mpr hedge) ih

theorem path_iff (h : Renames π n m) {s t : Nat} {w : List Char} :
    m.Path (π s) w (π t) ↔ n.Path s w t := by
  refine ⟨?_, h.path⟩
  intro hpath
  have hback := h.symm.path hpath
  rwa [π.symm_apply_apply, π.symm_apply_apply] at hback

variable (hn : n.Proper) (hm : m.Proper)

include hn hm

theorem closure_eq (h : Renames π n m) {states states' : List Nat}
    (hstates : ∀ s, π s ∈ states' ↔ s ∈ states) :
    m.closure states' = (n.closure states).image π := by
  ext t
  obtain ⟨t, rfl⟩ := π.surjective t
  rw [SortedSet.apply_mem_image π.injective, mem_closure hm, mem_closure hn,
    π.surjective.exists]
  simp only [hstates, h.path_iff]

theorem initial_eq (h : Renames π n m) : m.initial = n.initial.image π := by
  refine h.closure_eq hn hm fun s => ?_
  rw [h.start_eq, List.mem_singleton, List.mem_singleton, π.apply_eq_iff_eq]

theorem move_eq (h : Renames π n m) (s : StateSet) (c : Char) :
    m.move (s.image π) c = (n.move s c).image π := by
  refine h.closure_eq hn hm fun t => ?_
  rw [mem_sources, mem_sources, π.surjective.exists]
  simp only [SortedSet.apply_mem_image π.injective, h.edge_iff]

omit hn hm in
theorem leaving_eq (h : Renames π n m) (s : StateSet) : m.leaving (s.image π) = n.leaving s := by
  ext c
  rw [mem_leaving, mem_leaving, π.surjective.exists]
  refine exists_congr fun p => and_congr (SortedSet.apply_mem_image π.injective) ?_
  rw [π.surjective.exists]
  simp only [h.edge_iff]

/-! ## The sets that are met -/

theorem successors_eq (h : Renames π n m) (s : StateSet) :
    m.successors (s.image π) = (n.successors s).map fun (c, t) => (c, t.image π) := by
  simp only [successors, h.leaving_eq, h.move_eq hn hm, SortedSet.isEmpty_image,
    List.map_filterMap]
  refine List.filterMap_congr fun c _ => ?_
  split <;> rfl

/-- The same search is made, through renamed sets. -/
theorem met_eq (h : Renames π n m) : m.met = n.met.map (SortedSet.image π) := by
  rw [met, met, h.size_eq, h.initial_eq hn hm]
  refine Discovery.discover_map (SortedSet.image_injective π.injective) (fun s => ?_) _ [n.initial]
  rw [h.successors_eq hn hm, List.map_map, List.map_map]
  rfl

/-- Automata that differ in the numbers of their states alone are made deterministic alike, to
the numbers of the new states. -/
theorem toDfa_eq (h : Renames π n m) : m.toDfa = n.toDfa := by
  have hinj : Function.Injective (SortedSet.image π) := SortedSet.image_injective π.injective
  refine congrArg (Dfa.mk 0) (Array.ext_getElem? fun i => ?_)
  show m.toDfa.states[i]? = n.toDfa.states[i]?
  rw [getElem?_toDfa, getElem?_toDfa, h.met_eq hn hm, List.getElem?_map, Option.map_map]
  congr 1
  funext s
  simp only [Function.comp, h.final_eq, SortedSet.apply_mem_image π.injective,
    h.successors_eq hn hm, List.map_map]
  refine congrArg (DfaState.mk _) (List.map_congr_left fun e _ => ?_)
  exact congrArg (Prod.mk e.1) (idxOf_map hinj e.2 n.met)

end Renames

/-! ## The blocks of a union -/

section Union

variable {a b : Nfa}

/-- Behind 0, the next `p` numbers and the `q` numbers behind those change places. -/
def exchange (p q s : Nat) : Nat :=
  if s = 0 then 0 else if s ≤ p then s + q else if s ≤ p + q then s - p else s

theorem exchange_exchange (p q s : Nat) : exchange q p (exchange p q s) = s := by
  grind [exchange]

/-- The exchange of two blocks; it is undone by the exchange the other way round. -/
def exchanging (p q : Nat) : Equiv.Perm Nat where
  toFun := exchange p q
  invFun := exchange q p
  left_inv := exchange_exchange p q
  right_inv := exchange_exchange q p

theorem exchange_left {p q s : Nat} (hs : s < p) : exchange p q (s + 1) = s + (1 + q) := by
  grind [exchange]

theorem exchange_right {p q s : Nat} (hs : s < q) : exchange p q (s + (1 + p)) = s + 1 := by
  grind [exchange]

theorem exchange_last (p q : Nat) : exchange p q (1 + p + q) = 1 + q + p := by
  grind [exchange]

/-- With its blocks exchanged, an edge of a union is one of the union the other way round. -/
theorem edge_union_exchange (ha : a.Proper) (hb : b.Proper) {s t : Nat} {l : Label}
    (h : (a.union b).Edge s l t) :
    (b.union a).Edge (exchange a.size b.size s) l (exchange a.size b.size t) := by
  rw [edge_union hb ha]
  rcases (edge_union ha hb).mp h with ⟨rfl, hl, rfl | rfl⟩ | ⟨p, rfl, u, hu, rfl⟩ |
    ⟨p, rfl, u, hu, rfl⟩ | ⟨rfl, hl, rfl⟩ | ⟨rfl, hl, rfl⟩
  · rw [exchange_left ha.start_lt]
    exact Or.inl ⟨rfl, hl, Or.inr rfl⟩
  · rw [exchange_right hb.start_lt]
    exact Or.inl ⟨rfl, hl, Or.inl rfl⟩
  · rw [exchange_left hu.source_lt, exchange_left (ha.target_lt hu)]
    exact Or.inr (Or.inr (Or.inl ⟨p, rfl, u, hu, rfl⟩))
  · rw [exchange_right hu.source_lt, exchange_right (hb.target_lt hu)]
    exact Or.inr (Or.inl ⟨p, rfl, u, hu, rfl⟩)
  · rw [exchange_left ha.final_lt, exchange_last]
    exact Or.inr (Or.inr (Or.inr (Or.inr ⟨rfl, hl, rfl⟩)))
  · rw [exchange_right hb.final_lt, exchange_last]
    exact Or.inr (Or.inr (Or.inr (Or.inl ⟨rfl, hl, rfl⟩)))

theorem renames_union (ha : a.Proper) (hb : b.Proper) :
    Renames (exchanging a.size b.size) (a.union b) (b.union a) := by
  refine ⟨?_, rfl, (exchange_last a.size b.size).symm, ?_⟩
  · rw [size_union, size_union, Nat.add_comm b.size]
  · intro s t l
    refine ⟨?_, edge_union_exchange ha hb⟩
    intro h
    have hback := edge_union_exchange hb ha h
    rwa [exchanging, Equiv.coe_fn_mk, exchange_exchange, exchange_exchange] at hback

end Union

/-- **A union has no first side once it is deterministic.**  Whichever way round two automata, made
by any constructions, are put together, the deterministic automaton is the same, to the numbers
of its states; the two unions themselves are not. -/
theorem toDfa_union_comm :
    (∀ a b : Regex, ((ofRegex a).union (ofRegex b)).toDfa = ((ofRegex b).union (ofRegex a)).toDfa) ∧
      ∃ a b : Regex, (ofRegex a).union (ofRegex b) ≠ (ofRegex b).union (ofRegex a) := by
  refine ⟨fun a b => ?_, .symbol 'a', .symbol 'b', by decide⟩
  have ha := proper_ofRegex a
  have hb := proper_ofRegex b
  exact (renames_union hb ha).toDfa_eq (.union hb ha) (.union ha hb)

end Nfa

end FrontEnd
