/-
# `Automaton.Subset` — sets of states follow all paths at once

The closure of some states is what paths that read nothing lead to, and a set moved along
the characters of a word is what paths that read the word lead to (`mem_foldl_move`).

The subset construction numbers the sets that can be met.  `Stands` pairs a
state of the deterministic automaton with its set, and the dead state with the empty
set; a step keeps the pairing, so the deterministic automaton accepts the same words.
-/
import FrontEnd.Automaton.Machine
import FrontEnd.Proofs.Automaton.Thompson
import FrontEnd.Proofs.Subsets

namespace FrontEnd.Nfa

open Discovery

variable {n : Nfa}

/-! ## Paths, character by character -/

theorem Path.snoc {s t u : Nat} {w : List Char} {l : Label} (h : n.Path s w t)
    (hedge : n.Edge t l u) : n.Path s (w ++ l.word) u := by
  have hpath := h.trans (.step hedge (.nil u))
  rwa [List.append_nil] at hpath

/-- A path that reads a character reads nothing up to the edge with that character. -/
theorem path_cons_iff {s t : Nat} {c : Char} {w : List Char} :
    n.Path s (c :: w) t ↔
      ∃ p q, n.Path s [] p ∧ n.Edge p (.char c) q ∧ n.Path q w t := by
  refine ⟨?_, ?_⟩
  · intro h
    generalize hword : c :: w = word at h
    induction h with
    | nil _ => exact nomatch hword
    | @step s r t l v hedge hrest ih =>
        cases l with
        | epsilon =>
            obtain ⟨p, q, hp, hpq, hq⟩ := ih hword
            exact ⟨p, q, .epsilon hedge hp, hpq, hq⟩
        | char d =>
            obtain ⟨rfl, rfl⟩ := List.cons.inj hword
            exact ⟨s, r, .nil s, hedge, hrest⟩
  · rintro ⟨p, q, hp, hpq, hq⟩
    exact hp.trans (.step hpq hq)

theorem Path.target_lt (hn : n.Proper) {s t : Nat} {w : List Char} (h : n.Path s w t)
    (hs : s < n.size) : t < n.size := by
  induction h with
  | nil _ => exact hs
  | step hedge _ ih => exact ih (hn.target_lt hedge)

/-! ## Closures and moves -/

theorem mem_targets {s t : Nat} {l : Label} : t ∈ n.targets s l ↔ n.Edge s l t := by
  simp only [targets, List.mem_filterMap, Edge]
  refine ⟨?_, ?_⟩
  · rintro ⟨⟨l', t'⟩, hmem, hif⟩
    split at hif
    · rename_i heq
      obtain rfl : l' = l := heq
      obtain rfl : t' = t := Option.some.inj hif
      exact hmem
    · cases hif
  · intro hmem
    exact ⟨(l, t), hmem, if_pos rfl⟩

theorem reachable_iff {states : List Nat} {t : Nat} :
    Reachable (n.targets · .epsilon) states t ↔ ∃ s ∈ states, n.Path s [] t := by
  refine ⟨?_, ?_⟩
  · intro h
    induction h with
    | root hs => exact ⟨_, hs, .nil _⟩
    | step _ hedge ih =>
        obtain ⟨s, hs, hpath⟩ := ih
        exact ⟨s, hs, hpath.snoc (mem_targets.mp hedge)⟩
  · rintro ⟨s, hs, hpath⟩
    have hreach : Reachable (n.targets · .epsilon) states s := .root hs
    generalize hword : [] = word at hpath
    clear hs
    induction hpath with
    | nil _ => exact hreach
    | @step _ _ _ l _ hedge _ ih =>
        cases l with
        | epsilon => exact ih (.step hreach (mem_targets.mpr hedge)) hword
        | char c => exact nomatch hword

/-- Among the given states and those of the automaton the search for a closure stays. -/
theorem targets_within (hn : n.Proper) (states : List Nat) (l : Label) :
    ∀ s ∈ states ++ List.range n.size, ∀ t ∈ n.targets s l, t ∈ states ++ List.range n.size := by
  intro s _ t ht
  exact List.mem_append_right _ (List.mem_range.mpr (hn.target_lt (mem_targets.mp ht)))

theorem mem_closure (hn : n.Proper) {states : List Nat} {t : Nat} :
    t ∈ n.closure states ↔ ∃ s ∈ states, n.Path s [] t := by
  rw [closure, SortedSet.mem_ofList, ← reachable_iff]
  have hroots : ∀ s ∈ states, s ∈ states ++ List.range n.size := by
    intro s hs
    exact List.mem_append_left _ hs
  exact mem_discover_iff hroots (targets_within hn states .epsilon) (by simp)

theorem closure_lt (hn : n.Proper) {states : List Nat} (hstates : ∀ s ∈ states, s < n.size) :
    ∀ t ∈ n.closure states, t < n.size := by
  intro t ht
  obtain ⟨s, hs, hpath⟩ := (mem_closure hn).mp ht
  exact hpath.target_lt hn (hstates s hs)

theorem mem_sources {s : StateSet} {c : Char} {t : Nat} :
    t ∈ s.toList.flatMap (n.targets · (.char c)) ↔ ∃ p ∈ s, n.Edge p (.char c) t := by
  simp only [List.mem_flatMap, mem_targets, SortedSet.mem_def]

theorem move_lt (hn : n.Proper) (s : StateSet) (c : Char) : ∀ t ∈ n.move s c, t < n.size := by
  refine closure_lt hn fun t ht => ?_
  obtain ⟨p, -, hedge⟩ := mem_sources.mp ht
  exact hn.target_lt hedge

/-- Moved along a word, the closure of some states is what paths from there lead to. -/
theorem mem_foldl_move (hn : n.Proper) {t : Nat} : ∀ {w : List Char} {states : List Nat},
    t ∈ w.foldl n.move (n.closure states) ↔ ∃ s ∈ states, n.Path s w t := by
  intro w
  induction w with
  | nil =>
      intro states
      exact mem_closure hn
  | cons c w ih =>
      intro states
      rw [List.foldl_cons, move, ih]
      refine ⟨?_, ?_⟩
      · rintro ⟨q, hq, hpath⟩
        obtain ⟨p, hp, hedge⟩ := mem_sources.mp hq
        obtain ⟨s, hs, hsp⟩ := (mem_closure hn).mp hp
        exact ⟨s, hs, path_cons_iff.mpr ⟨p, q, hsp, hedge, hpath⟩⟩
      · rintro ⟨s, hs, hpath⟩
        obtain ⟨p, q, hsp, hedge, hq⟩ := path_cons_iff.mp hpath
        exact ⟨q, mem_sources.mpr ⟨p, (mem_closure hn).mpr ⟨s, hs, hsp⟩, hedge⟩, hq⟩

theorem final_mem_foldl_move (hn : n.Proper) {w : List Char} :
    n.final ∈ w.foldl n.move n.initial ↔ w ∈ n.words := by
  rw [initial, mem_foldl_move hn]
  refine ⟨?_, ?_⟩
  · rintro ⟨s, hs, hpath⟩
    obtain rfl := List.mem_singleton.mp hs
    exact hpath
  · intro hpath
    exact ⟨n.start, List.mem_cons_self, hpath⟩

/-- From nowhere one comes nowhere. -/
theorem isEmpty_move (hn : n.Proper) {s : StateSet} {c : Char}
    (h : ∀ p ∈ s, ∀ t, ¬ n.Edge p (.char c) t) : (n.move s c).isEmpty = true := by
  refine SortedSet.isEmpty_iff.mpr fun t ht => ?_
  obtain ⟨q, hq, -⟩ := (mem_closure hn).mp ht
  obtain ⟨p, hp, hedge⟩ := mem_sources.mp hq
  exact h p hp q hedge

/-! ## The sets that are met -/

/-- The sets of the subset construction, in their order. -/
def met (n : Nfa) : List StateSet :=
  discover (fun s => (n.successors s).map Prod.snd) (Nat.pow 2 n.size) [n.initial]

theorem subsets_eq (n : Nfa) : n.subsets = n.met.map fun s => (s, n.successors s) :=
  survey_eq_map _ _ _ _

theorem mem_successors {s t : StateSet} {c : Char} :
    (c, t) ∈ n.successors s ↔
      c ∈ n.leaving s ∧ t = n.move s c ∧ (n.move s c).isEmpty = false := by
  simp only [successors, List.mem_filterMap, SortedSet.mem_def]
  refine ⟨?_, ?_⟩
  · rintro ⟨d, hd, hif⟩
    split at hif
    · cases hif
    · rename_i hne
      cases hif
      exact ⟨hd, rfl, by simpa using hne⟩
  · rintro ⟨hc, rfl, hne⟩
    exact ⟨c, hc, by simp [hne]⟩

theorem mem_leaving {s : StateSet} {c : Char} :
    c ∈ n.leaving s ↔ ∃ p ∈ s, ∃ t, n.Edge p (.char c) t := by
  rw [leaving, SortedSet.mem_ofList, List.mem_flatMap]
  simp only [List.mem_filterMap]
  refine exists_congr fun p => and_congr_right fun _ => ?_
  refine ⟨?_, ?_⟩
  · rintro ⟨⟨l, t⟩, hmem, hif⟩
    cases l with
    | epsilon => exact nomatch hif
    | char d =>
        obtain rfl : d = c := Option.some.inj hif
        exact ⟨t, hmem⟩
  · rintro ⟨t, hmem⟩
    exact ⟨(.char c, t), hmem, rfl⟩

theorem initial_lt (hn : n.Proper) : ∀ t ∈ n.initial, t ∈ List.range n.size := by
  intro t ht
  refine List.mem_range.mpr (closure_lt hn (fun s hs => ?_) t ht)
  obtain rfl := List.mem_singleton.mp hs
  exact hn.start_lt

theorem successors_lt (hn : n.Proper) (s : StateSet) :
    ∀ u ∈ (n.successors s).map Prod.snd, ∀ t ∈ u, t ∈ List.range n.size := by
  intro u hu t ht
  obtain ⟨⟨c, u'⟩, hmem, rfl⟩ := List.mem_map.mp hu
  obtain ⟨-, rfl, -⟩ := mem_successors.mp hmem
  exact List.mem_range.mpr (move_lt hn s c t ht)

theorem mem_met (hn : n.Proper) {s : StateSet} :
    s ∈ n.met ↔ Reachable (fun s => (n.successors s).map Prod.snd) [n.initial] s := by
  have hsize : n.size = (List.range n.size).length := List.length_range.symm
  rw [met, hsize]
  exact mem_discover_sets_iff (initial_lt hn) fun s _ => successors_lt hn s

theorem isEmpty_of_mem_met (hn : n.Proper) {s : StateSet} (h : s ∈ n.met) : s.isEmpty = false := by
  cases (mem_met hn).mp h with
  | root hs =>
      obtain rfl := List.mem_singleton.mp hs
      have hstart : n.start ∈ n.initial :=
        (mem_closure hn).mpr ⟨n.start, List.mem_cons_self, .nil _⟩
      rw [Bool.eq_false_iff, Ne, SortedSet.isEmpty_iff]
      intro hempty
      exact hempty n.start hstart
  | step _ hs =>
      obtain ⟨⟨c, t⟩, hmem, rfl⟩ := List.mem_map.mp hs
      obtain ⟨-, rfl, hne⟩ := mem_successors.mp hmem
      exact hne

theorem leaving_of_move (hn : n.Proper) {s : StateSet} {c : Char}
    (h : (n.move s c).isEmpty = false) : c ∈ n.leaving s := by
  by_contra hc
  rw [mem_leaving] at hc
  rw [isEmpty_move hn fun p hp t hedge => hc ⟨p, hp, t, hedge⟩] at h
  exact nomatch h

theorem move_mem_met (hn : n.Proper) {s : StateSet} {c : Char} (hs : s ∈ n.met)
    (h : (n.move s c).isEmpty = false) : n.move s c ∈ n.met := by
  refine (mem_met hn).mpr (.step ((mem_met hn).mp hs) ?_)
  exact List.mem_map.mpr ⟨(c, n.move s c), mem_successors.mpr ⟨leaving_of_move hn h, rfl, h⟩, rfl⟩

/-! ## The deterministic automaton -/

theorem lookup_successors (hn : n.Proper) (s : StateSet) (c : Char) :
    ((n.successors s).map fun (d, t) => (d, n.met.idxOf t)).lookup c =
      if (n.move s c).isEmpty then none else some (n.met.idxOf (n.move s c)) := by
  have hlookup (cs : List Char) :
      ((cs.filterMap fun d => if (n.move s d).isEmpty then none else some (d, n.move s d)).map
        fun (d, t) => (d, n.met.idxOf t)).lookup c =
      if (n.move s c).isEmpty ∨ c ∉ cs then none else some (n.met.idxOf (n.move s c)) := by
    induction cs with
    | nil => simp
    | cons d cs ih =>
        by_cases hd : (n.move s d).isEmpty = true
        · rw [List.filterMap_cons_none (by rw [if_pos hd]), ih]
          by_cases hc : c = d
          · subst hc
            simp [hd]
          · simp [hc]
        · rw [List.filterMap_cons_some (b := (d, n.move s d)) (by rw [if_neg hd]), List.map_cons,
            List.lookup_cons, ih]
          by_cases hc : c = d
          · subst hc
            simp [hd]
          · simp [hc, beq_eq_false_iff_ne.mpr hc]
  rw [successors, hlookup]
  by_cases hempty : (n.move s c).isEmpty = true
  · simp [hempty]
  · have hleaving : c ∈ (n.leaving s).toList := leaving_of_move hn (by simpa using hempty)
    simp [hleaving]

/-- The state with the number of a set that is met: whether it accepts, and where it leads. -/
theorem getElem?_toDfa (n : Nfa) (i : Nat) :
    n.toDfa.states[i]? = n.met[i]?.map fun s =>
      ⟨decide (n.final ∈ s), (n.successors s).map fun (c, t) => (c, n.met.idxOf t)⟩ := by
  have hfst : n.subsets.map Prod.fst = n.met := by
    rw [subsets_eq, List.map_map]
    exact List.map_id _
  simp only [toDfa, List.getElem?_toArray, List.getElem?_map, hfst]
  rw [subsets_eq, List.getElem?_map, Option.map_map]
  rfl

/-- A state of the deterministic automaton stands for the set with its number; the dead state
stands for the empty set. -/
def Stands (n : Nfa) : Option Nat → StateSet → Prop
  | none, s => s.isEmpty = true
  | some i, s => n.met[i]? = some s

theorem stands_start (n : Nfa) : n.Stands n.toDfa.machine.start n.initial :=
  getElem?_discover_zero

theorem Stands.step (hn : n.Proper) {i : Option Nat} {s : StateSet} (h : n.Stands i s) (c : Char) :
    n.Stands (n.toDfa.machine.step i c) (n.move s c) := by
  cases i with
  | none =>
      refine isEmpty_move hn fun p hp => ?_
      exact absurd hp (SortedSet.isEmpty_iff.mp h p)
  | some i =>
      have hs : n.met[i]? = some s := h
      have hstep : n.toDfa.machine.step (some i) c =
          if (n.move s c).isEmpty then none else some (n.met.idxOf (n.move s c)) := by
        show n.toDfa.states[i]?.bind (·.transitions.lookup c) = _
        rw [getElem?_toDfa, hs]
        exact lookup_successors hn s c
      rw [hstep]
      by_cases hempty : (n.move s c).isEmpty = true
      · rw [if_pos hempty]
        exact hempty
      · rw [if_neg hempty]
        exact List.getElem?_idxOf
          (move_mem_met hn (List.mem_of_getElem? hs) (Bool.eq_false_iff.mpr hempty))

theorem Stands.accepting {i : Option Nat} {s : StateSet} (h : n.Stands i s) :
    n.toDfa.machine.accepting i = decide (n.final ∈ s) := by
  cases i with
  | none =>
      have hempty : n.final ∉ s := SortedSet.isEmpty_iff.mp h n.final
      simp [Dfa.machine, hempty]
  | some i =>
      have hs : n.met[i]? = some s := h
      show n.toDfa.isFinal i = _
      rw [Dfa.isFinal, getElem?_toDfa, hs]
      rfl

theorem Stands.dead (hn : n.Proper) {i : Option Nat} {s : StateSet} (h : n.Stands i s) :
    n.toDfa.machine.dead i = s.isEmpty := by
  cases i with
  | none => exact Eq.symm h
  | some i => exact (isEmpty_of_mem_met hn (List.mem_of_getElem? h)).symm

theorem Stands.foldl (hn : n.Proper) (w : List Char) {i : Option Nat} {s : StateSet}
    (h : n.Stands i s) : n.Stands (w.foldl n.toDfa.machine.step i) (w.foldl n.move s) :=
  List.foldl_rel h fun c _ _ _ hstands => hstands.step hn c

/-- The deterministic automaton comes to an accepting state over the words of the other. -/
theorem accepting_foldl_toDfa (hn : n.Proper) {w : List Char} :
    n.toDfa.machine.accepting (w.foldl n.toDfa.machine.step n.toDfa.machine.start) = true ↔
      w ∈ n.words := by
  rw [(Stands.foldl hn w (stands_start n)).accepting, decide_eq_true_eq, final_mem_foldl_move hn]

end FrontEnd.Nfa
