/-
# `Automaton.Layout` — an automaton starts in its first state and ends in its last

The constructions put automata one behind the other.  They need not look for the ends of an
automaton among its states: it starts in the first one and ends in the last one, no edge comes back
to the start, and none leaves the end (`Laid`).  Each construction brings this about again, and
adds two states, but for concatenation, which adds none (`size_ofRegex`).

An edge that is added to a state which is not there is lost without a word, and nothing would keep
one from leading to such a state.  `checked` makes the same constructions and refuses both, and it
never has to (`checked_eq`): all edges that a construction adds are there.
-/
import FrontEnd.Proofs.Automaton.Thompson

namespace FrontEnd

/-- How many operations there are in an expression, concatenations left out. -/
def Regex.operations : Regex → Nat
  | .symbol _ => 1
  | .union l r => l.operations + r.operations + 1
  | .concat e f => e.operations + f.operations
  | .star e => e.operations + 1

namespace Nfa

/-! ## The layout -/

/-- The automaton starts in its first state, to which no edge leads, and ends in its last one, which
no edge leaves. -/
structure Laid (n : Nfa) : Prop extends n.Proper where
  start_eq : n.start = 0
  final_eq : n.final + 1 = n.size
  no_entry : ∀ {s : Nat} {l : Label}, ¬ n.Edge s l n.start
  no_exit : ∀ {l : Label} {t : Nat}, ¬ n.Edge n.final l t

section Constructions

variable {a b : Nfa}

theorem Laid.symbol (c : Char) : (symbol c).Laid where
  toProper := .symbol c
  start_eq := rfl
  final_eq := rfl
  no_entry h := Nat.zero_ne_one (edge_symbol.mp h).2.2
  no_exit h := Nat.one_ne_zero (edge_symbol.mp h).1

theorem Laid.union (ha : a.Laid) (hb : b.Laid) : (a.union b).Laid where
  toProper := ha.toProper.union hb.toProper
  start_eq := rfl
  final_eq := by
    rw [size_union]
    show 1 + a.size + b.size + 1 = _
    omega
  no_entry {s l} h := by
    have h : (a.union b).Edge s l 0 := h
    rcases (edge_union ha.toProper hb.toProper).mp h with ⟨-, -, h | h⟩ | ⟨-, -, u, -, h⟩ |
      ⟨-, -, u, -, h⟩ | ⟨-, -, h⟩ | ⟨-, -, h⟩
    all_goals omega
  no_exit h := union_sink ha.toProper hb.toProper _ _ h

theorem Laid.concat (ha : a.Laid) (hb : b.Laid) : (a.concat b).Laid where
  toProper := ha.toProper.concat hb.toProper
  start_eq := ha.start_eq
  final_eq := by
    have hfinal := hb.final_eq
    rw [size_concat]
    show b.final + a.size + 1 = _
    omega
  no_entry {s l} h := by
    have hpos := ha.start_lt
    have hstart := ha.start_eq
    have h : (a.concat b).Edge s l a.start := h
    rcases (edge_concat ha.toProper).mp h with h | ⟨-, -, u, -, h⟩ | ⟨-, -, h⟩
    · exact ha.no_entry h
    · omega
    · omega
  no_exit {l t} h := by
    have hlt := ha.final_lt
    have h : (a.concat b).Edge (b.final + a.size) l t := h
    rcases (edge_concat ha.toProper).mp h with h | ⟨p, hp, u, h, -⟩ | ⟨h, -⟩
    · have := h.source_lt
      omega
    · obtain rfl : b.final = p := Nat.add_right_cancel hp
      exact hb.no_exit h
    · omega

theorem Laid.star (ha : a.Laid) : a.star.Laid where
  toProper := ha.toProper.star
  start_eq := rfl
  final_eq := by
    rw [size_star]
    show 1 + a.size + 1 = _
    omega
  no_entry {s l} h := by
    have h : a.star.Edge s l 0 := h
    rcases (edge_star ha.toProper).mp h with ⟨-, -, h | h⟩ | ⟨-, -, u, -, h⟩ | ⟨-, -, h | h⟩
    all_goals omega
  no_exit h := star_sink ha.toProper _ _ h

end Constructions

theorem laid_ofRegex (e : Regex) : (ofRegex e).Laid := by
  induction e with
  | symbol c => exact .symbol c
  | union l r ihl ihr => exact .union ihl ihr
  | concat e f ihe ihf => exact .concat ihe ihf
  | star e ih => exact .star ih

/-- Two states for each operation but concatenation, which adds none. -/
theorem size_ofRegex (e : Regex) : (ofRegex e).size = 2 * e.operations := by
  induction e with
  | symbol c => rfl
  | union l r ihl ihr =>
      rw [ofRegex, size_union, ihl, ihr, Regex.operations]
      omega
  | concat e f ihe ihf =>
      rw [ofRegex, size_concat, ihe, ihf, Regex.operations]
      omega
  | star e ih =>
      rw [ofRegex, size_star, ih, Regex.operations]
      omega

/-! ## No edge is lost -/

/-- The states with further edges from `source`; nothing when it or a target is not there. -/
def join? (states : List Edges) (source : Nat) (edges : Edges) : Option (List Edges) :=
  if source < states.length ∧ ∀ e ∈ edges, e.2 < states.length then
    some (states.modify source (· ++ edges))
  else none

/-- The automaton between these two states; nothing when one of them is not there. -/
def between? (start final : Nat) (states : List Edges) : Option Nfa :=
  if start < states.length ∧ final < states.length then some ⟨start, final, states.toArray⟩
  else none

/-- `symbol`, with every edge and both ends checked. -/
def symbol? (c : Char) : Option Nfa := do
  let states ← join? [[], []] 0 [(.char c, 1)]
  between? 0 1 states

/-- `union`, with every edge and both ends checked. -/
def union? (a b : Nfa) : Option Nfa := do
  let last := 1 + a.size + b.size
  let states := [[]] ++ a.shifted 1 ++ b.shifted (1 + a.size) ++ [[]]
  let states ← join? states 0 (epsilons [a.start + 1, b.start + (1 + a.size)])
  let states ← join? states (a.final + 1) (epsilons [last])
  let states ← join? states (b.final + (1 + a.size)) (epsilons [last])
  between? 0 last states

/-- `concat`, with every edge and both ends checked. -/
def concat? (a b : Nfa) : Option Nfa := do
  let states := a.shifted 0 ++ b.shifted a.size
  let states ← join? states a.final (epsilons [b.start + a.size])
  between? a.start (b.final + a.size) states

/-- `star`, with every edge and both ends checked. -/
def star? (a : Nfa) : Option Nfa := do
  let last := 1 + a.size
  let states := [[]] ++ a.shifted 1 ++ [[]]
  let states ← join? states 0 (epsilons [a.start + 1, last])
  let states ← join? states (a.final + 1) (epsilons [a.start + 1, last])
  between? 0 last states

/-- The automaton of an expression, with every edge and all ends checked. -/
def checked : Regex → Option Nfa
  | .symbol c => symbol? c
  | .union l r => do
    let a ← checked l
    let b ← checked r
    union? a b
  | .concat e f => do
    let a ← checked e
    let b ← checked f
    concat? a b
  | .star e => do
    let a ← checked e
    star? a

section Checked

variable {a b : Nfa} {states : List Edges} {size : Nat}

theorem join?_eq {source : Nat} {targets : List Nat} (hsize : states.length = size)
    (hsource : source < size) (htargets : ∀ t ∈ targets, t < size) :
    join? states source (epsilons targets) = some (link states source targets) := by
  refine if_pos ⟨hsize ▸ hsource, ?_⟩
  rintro ⟨l, t⟩ h
  exact hsize ▸ htargets t (mem_epsilons.mp h).2

theorem between?_eq {start final : Nat} (hsize : states.length = size) (hstart : start < size)
    (hfinal : final < size) : between? start final states = some ⟨start, final, states.toArray⟩ :=
  if_pos ⟨hsize ▸ hstart, hsize ▸ hfinal⟩

theorem length_linked {source : Nat} (targets : List Nat) (hsize : states.length = size) :
    (link states source targets).length = size := (length_link _ _ _).trans hsize

theorem union?_eq (ha : a.Proper) (hb : b.Proper) : union? a b = some (a.union b) := by
  have hstarta := ha.start_lt
  have hfinala := ha.final_lt
  have hstartb := hb.start_lt
  have hfinalb := hb.final_lt
  have hsize : ([[]] ++ a.shifted 1 ++ b.shifted (1 + a.size) ++ [[]]).length =
      1 + a.size + b.size + 1 := by
    simp only [List.length_append, length_shifted, List.length_singleton]
  have hlast : ∀ t ∈ [1 + a.size + b.size], t < 1 + a.size + b.size + 1 := by
    simp
  have hentry : ∀ t ∈ [a.start + 1, b.start + (1 + a.size)], t < 1 + a.size + b.size + 1 := by
    simp only [List.forall_mem_cons, List.not_mem_nil, false_imp_iff, implies_true, and_true]
    omega
  rw [union?]
  dsimp only [bind]
  rw [join?_eq hsize (by omega) hentry, Option.bind_some,
    join?_eq (length_linked _ hsize) (by omega) hlast, Option.bind_some,
    join?_eq (length_linked _ (length_linked _ hsize)) (by omega) hlast, Option.bind_some,
    between?_eq (length_linked _ (length_linked _ (length_linked _ hsize))) (by omega) (by omega)]
  rfl

theorem concat?_eq (ha : a.Proper) (hb : b.Proper) : concat? a b = some (a.concat b) := by
  have hstarta := ha.start_lt
  have hfinala := ha.final_lt
  have hstartb := hb.start_lt
  have hfinalb := hb.final_lt
  have hsize : (a.shifted 0 ++ b.shifted a.size).length = a.size + b.size := by
    simp only [List.length_append, length_shifted]
  have hentry : ∀ t ∈ [b.start + a.size], t < a.size + b.size := by
    simp only [List.mem_singleton, forall_eq]
    omega
  rw [concat?]
  dsimp only [bind]
  rw [join?_eq hsize (by omega) hentry, Option.bind_some,
    between?_eq (length_linked _ hsize) (by omega) (by omega)]
  rfl

theorem star?_eq (ha : a.Proper) : star? a = some a.star := by
  have hstart := ha.start_lt
  have hfinal := ha.final_lt
  have hsize : ([[]] ++ a.shifted 1 ++ [[]]).length = 1 + a.size + 1 := by
    simp only [List.length_append, length_shifted, List.length_singleton]
  have hexits : ∀ t ∈ [a.start + 1, 1 + a.size], t < 1 + a.size + 1 := by
    simp only [List.forall_mem_cons, List.not_mem_nil, false_imp_iff, implies_true, and_true]
    omega
  rw [star?]
  dsimp only [bind]
  rw [join?_eq hsize (by omega) hexits, Option.bind_some,
    join?_eq (length_linked _ hsize) (by omega) hexits, Option.bind_some,
    between?_eq (length_linked _ (length_linked _ hsize)) (by omega) (by omega)]
  rfl

end Checked

theorem checked_eq (e : Regex) : checked e = some (ofRegex e) := by
  induction e with
  | symbol c => rfl
  | union l r ihl ihr =>
      rw [checked, ihl, ihr]
      exact union?_eq (proper_ofRegex l) (proper_ofRegex r)
  | concat e f ihe ihf =>
      rw [checked, ihe, ihf]
      exact concat?_eq (proper_ofRegex e) (proper_ofRegex f)
  | star e ih =>
      rw [checked, ih]
      exact star?_eq (proper_ofRegex e)

/-- **Layout of automata.**  Whichever constructions have made an automaton, it starts in its first
state and ends in its last one; its edges lead to its states, none of them to the start, and none of
them comes from the end.  There are two states for each symbol, union and repetition.  No edge has
been lost on the way, or has led to a state that was not there. -/
theorem thompson_layout (e : Regex) :
    (ofRegex e).start = 0 ∧ (ofRegex e).final + 1 = (ofRegex e).size ∧
      (∀ s l t, (ofRegex e).Edge s l t →
        t < (ofRegex e).size ∧ t ≠ (ofRegex e).start ∧ s ≠ (ofRegex e).final) ∧
      (ofRegex e).size = 2 * e.operations ∧ checked e = some (ofRegex e) := by
  have hlaid := laid_ofRegex e
  refine ⟨hlaid.start_eq, hlaid.final_eq, ?_, size_ofRegex e, checked_eq e⟩
  intro s l t h
  refine ⟨hlaid.target_lt h, ?_, ?_⟩
  · rintro rfl
    exact hlaid.no_entry h
  · rintro rfl
    exact hlaid.no_exit h

end Nfa

end FrontEnd
