/-
# `Automaton.Simulation` — the two kinds of machine cannot be told apart

A relation between the configurations of two machines is a bisimulation when the starts
are related, a character keeps configurations related, and related configurations accept and
are dead alike.  Then whatever is asked of the two machines, in whatever order, they give the
same answers (`Bisimulation.perform`, `Bisimulation.after`): a run that stops early stops
in both at the same character.

The states of the subset construction are related to their sets (`Nfa.Stands`).  Their
numbers are those of the sets that can be met, each once (`Nfa.numbers_numbered`), and the
construction ends by itself (`Nfa.drains_met`).
-/
import FrontEnd.Proofs.Automaton.Subset

namespace FrontEnd

namespace Machine

variable {σ τ : Type} {m : Machine σ} {m' : Machine τ} {R : σ → τ → Prop}

/-! ## Bisimulations -/

/-- Related configurations of two machines cannot be told apart. -/
structure Bisimulation (m : Machine σ) (m' : Machine τ) (R : σ → τ → Prop) : Prop where
  start : R m.start m'.start
  step : ∀ {s : σ} {t : τ} (c : Char), R s t → R (m.step s c) (m'.step t c)
  accepting : ∀ {s : σ} {t : τ}, R s t → m.accepting s = m'.accepting t
  dead : ∀ {s : σ} {t : τ}, R s t → m.dead s = m'.dead t

/-- The configuration behind some operations, from the start on. -/
def after (m : Machine σ) (ops : List Operation) : σ :=
  ops.foldl (fun s op => (m.perform s op).2) m.start

namespace Bisimulation

theorem advance (h : Bisimulation m m' R) : ∀ (text : List Char) {s : σ} {t : τ}, R s t →
    R (m.advance s text) (m'.advance t text) := by
  intro text
  induction text with
  | nil =>
      intro s t hst
      exact hst
  | cons c text ih =>
      intro s t hst
      have hnext := h.step c hst
      simp only [Machine.advance, h.dead hnext]
      split
      · exact hnext
      · exact ih hnext

theorem scan (h : Bisimulation m m' R) : ∀ (text : List Char) {s : σ} {t : τ}, R s t →
    (m.scan s text).2 = (m'.scan t text).2 ∧ R (m.scan s text).1 (m'.scan t text).1 := by
  intro text
  induction text with
  | nil =>
      intro s t hst
      exact ⟨rfl, hst⟩
  | cons c text ih =>
      intro s t hst
      have hnext := h.step c hst
      obtain ⟨hfound, hlast⟩ := ih hnext
      simp only [Machine.scan, h.dead hnext, h.accepting hnext]
      split
      · exact ⟨rfl, hnext⟩
      · exact ⟨by rw [hfound], hlast⟩

/-- An operation returns the same from related configurations and keeps them related. -/
theorem perform (h : Bisimulation m m' R) (op : Operation) {s : σ} {t : τ} (hst : R s t) :
    (m.perform s op).1 = (m'.perform t op).1 ∧ R (m.perform s op).2 (m'.perform t op).2 := by
  cases op with
  | feed c =>
      have hnext := h.step c hst
      exact ⟨congrArg Answer.verdict (h.accepting hnext), hnext⟩
  | reset => exact ⟨rfl, h.start⟩
  | run text =>
      have hlast := h.advance text.toList h.start
      exact ⟨congrArg Answer.verdict (h.accepting hlast), hlast⟩
  | longestPrefix text =>
      obtain ⟨hfound, hlast⟩ := h.scan text.toList h.start
      refine ⟨?_, hlast⟩
      show Answer.length ((m.scan m.start text.toList).2.map _) =
        Answer.length ((m'.scan m'.start text.toList).2.map _)
      rw [hfound]

/-- Operations keep the machines in related configurations. -/
theorem after (h : Bisimulation m m' R) (ops : List Operation) :
    R (m.after ops) (m'.after ops) :=
  List.foldl_rel h.start fun op _ _ _ hst => (h.perform op hst).2

end Bisimulation

end Machine

namespace Nfa

open Discovery

variable {n : Nfa}

/-! ## The numbers of the sets -/

theorem size_toDfa (n : Nfa) : n.toDfa.size = n.met.length := by
  simp [Dfa.size, toDfa, subsets_eq]

theorem nodup_met (n : Nfa) : n.met.Nodup := nodup_discover _ _

/-- The subset construction ends with its queue empty, after one round for each state. -/
theorem drains_met (hn : n.Proper) :
    Drains (fun s => (n.successors s).map Prod.snd) [n.initial] [n.initial] n.toDfa.size := by
  have hsize : n.size = (List.range n.size).length := List.length_range.symm
  rw [size_toDfa, met, hsize]
  exact drains_discover_sets (initial_lt hn) fun s _ => successors_lt hn s

/-- The sets that are met are those that are reached over some word, the empty set left out. -/
theorem mem_met_iff_word (hn : n.Proper) {s : StateSet} :
    s ∈ n.met ↔ s.isEmpty = false ∧ ∃ w : List Char, w.foldl n.move n.initial = s := by
  refine ⟨?_, ?_⟩
  · intro hs
    refine ⟨isEmpty_of_mem_met hn hs, ?_⟩
    have hreach := (mem_met hn).mp hs
    clear hs
    induction hreach with
    | root hs =>
        obtain rfl := List.mem_singleton.mp hs
        exact ⟨[], rfl⟩
    | step _ hs ih =>
        obtain ⟨w, rfl⟩ := ih
        obtain ⟨⟨c, t⟩, hmem, rfl⟩ := List.mem_map.mp hs
        obtain ⟨-, rfl, -⟩ := mem_successors.mp hmem
        exact ⟨w ++ [c], List.foldl_concat _ _ _ _⟩
  · rintro ⟨hne, w, rfl⟩
    -- the deterministic automaton is led over the word as well, and not to its dead state
    have hstands := Stands.foldl hn w (stands_start n)
    cases hstate : w.foldl n.toDfa.machine.step n.toDfa.machine.start with
    | none =>
        rw [hstate] at hstands
        exact absurd (hne.symm.trans hstands) Bool.false_ne_true
    | some i =>
        rw [hstate] at hstands
        exact List.mem_of_getElem? hstands

theorem mem_met_lt (hn : n.Proper) {s : StateSet} (hs : s ∈ n.met) : ∀ q ∈ s, q < n.size := by
  intro q hq
  cases (mem_met hn).mp hs with
  | root hs =>
      obtain rfl := List.mem_singleton.mp hs
      exact List.mem_range.mp (initial_lt hn q hq)
  | step _ hs => exact List.mem_range.mp (successors_lt hn _ _ hs q hq)

/-- The transitions of the deterministic automaton lead to states. -/
theorem target_lt_toDfa (hn : n.Proper) {state : DfaState} (hstate : state ∈ n.toDfa.states)
    {c : Char} {j : Nat} (h : (c, j) ∈ state.transitions) : j < n.toDfa.size := by
  obtain ⟨i, hi⟩ := Array.mem_iff_getElem?.mp hstate
  rw [getElem?_toDfa] at hi
  obtain ⟨s, hs, rfl⟩ := Option.map_eq_some_iff.mp hi
  obtain ⟨⟨d, t⟩, hmem, heq⟩ := List.mem_map.mp h
  obtain ⟨rfl, rfl⟩ := Prod.mk.inj heq
  obtain ⟨-, rfl, hne⟩ := mem_successors.mp hmem
  rw [size_toDfa]
  exact List.idxOf_lt_length_iff.mpr (move_mem_met hn (List.mem_of_getElem? hs) hne)

/-! ## The two machines of an automaton -/

theorem bisimulation_stands (hn : n.Proper) :
    Machine.Bisimulation n.toDfa.machine n.machine n.Stands where
  start := stands_start n
  step c h := h.step hn c
  accepting h := h.accepting
  dead h := h.dead hn

/-- `n.Numbers set`: the numbers of the states of the deterministic automaton stand for sets of
states of `n`, one number for each set that is reached over some word and is not empty. -/
structure Numbers (n : Nfa) (set : Nat → StateSet) : Prop where
  inhabited : ∀ i < n.toDfa.size, (set i).isEmpty = false
  within : ∀ i < n.toDfa.size, ∀ q ∈ set i, q < n.size
  injective : ∀ i < n.toDfa.size, ∀ j < n.toDfa.size, set i = set j → i = j
  onto : ∀ s : StateSet, (∃ i < n.toDfa.size, set i = s) ↔
    s.isEmpty = false ∧ ∃ w : List Char, w.foldl n.move n.initial = s

/-- The deterministic machine is in a state whose set is `s`, or it is dead and `s` is empty. -/
def InStep (n : Nfa) (set : Nat → StateSet) : Option Nat → StateSet → Prop
  | some i, s => i < n.toDfa.size ∧ set i = s
  | none, s => s.isEmpty = true

/-- The set with a number. -/
def numbered (n : Nfa) (i : Nat) : StateSet := n.met.getD i ∅

theorem numbered_eq_iff {i : Nat} {s : StateSet} :
    i < n.toDfa.size ∧ n.numbered i = s ↔ n.met[i]? = some s := by
  rw [size_toDfa, List.getElem?_eq_some_iff]
  refine ⟨?_, ?_⟩
  · rintro ⟨hi, rfl⟩
    exact ⟨hi, by simp [numbered, hi]⟩
  · rintro ⟨hi, rfl⟩
    exact ⟨hi, by simp [numbered, hi]⟩

theorem inStep_numbered {i : Option Nat} {s : StateSet} :
    n.InStep n.numbered i s ↔ n.Stands i s := by
  cases i with
  | none => exact Iff.rfl
  | some i => exact numbered_eq_iff

theorem numbers_numbered (hn : n.Proper) : n.Numbers n.numbered := by
  have hmem {i : Nat} (hi : i < n.toDfa.size) : n.numbered i ∈ n.met :=
    List.mem_of_getElem? (numbered_eq_iff.mp ⟨hi, rfl⟩)
  refine ⟨?_, ?_, ?_, ?_⟩
  · intro i hi
    exact isEmpty_of_mem_met hn (hmem hi)
  · intro i hi
    exact mem_met_lt hn (hmem hi)
  · intro i hi j hj heq
    have hmet := numbered_eq_iff.mp ⟨hi, heq⟩
    rw [← numbered_eq_iff.mp ⟨hj, rfl⟩] at hmet
    exact (List.getElem?_inj (size_toDfa n ▸ hi) n.nodup_met).mp hmet
  · intro s
    rw [← mem_met_iff_word hn, List.mem_iff_getElem?]
    exact exists_congr fun i => numbered_eq_iff

/-- **The two machines of an automaton agree**, whichever constructions have made it.  The
states of the deterministic one are numbers for the sets in which the other can be; after any
operations the one machine is in the state of the set in which the other is, or dead when that
set is empty, so they accept, are dead and answer alike.  The construction of the deterministic
automaton takes one round for each state, and leads to none but those. -/
theorem simulators_agree (e : Regex) :
    ∃ set : Nat → StateSet, (ofRegex e).Numbers set ∧
      (∀ ops : List Operation,
        let d := (ofRegex e).toDfa.machine
        let m := (ofRegex e).machine
        (ofRegex e).InStep set (d.after ops) (m.after ops) ∧
          d.accepting (d.after ops) = m.accepting (m.after ops) ∧
          d.dead (d.after ops) = m.dead (m.after ops) ∧
          ∀ op, (d.perform (d.after ops) op).1 = (m.perform (m.after ops) op).1) ∧
      (∀ state ∈ (ofRegex e).toDfa.states, ∀ c j, (c, j) ∈ state.transitions →
        j < (ofRegex e).toDfa.size) ∧
      Drains (fun s => ((ofRegex e).successors s).map Prod.snd) [(ofRegex e).initial]
        [(ofRegex e).initial] (ofRegex e).toDfa.size := by
  have hn := proper_ofRegex e
  have hbisim := bisimulation_stands hn
  refine ⟨(ofRegex e).numbered, numbers_numbered hn, ?_, ?_, drains_met hn⟩
  · intro ops
    have hrelated := hbisim.after ops
    refine ⟨inStep_numbered.mpr hrelated, hbisim.accepting hrelated, hbisim.dead hrelated, ?_⟩
    intro op
    exact (hbisim.perform op hrelated).1
  · intro state hstate c j h
    exact target_lt_toDfa hn hstate h

end Nfa

end FrontEnd
