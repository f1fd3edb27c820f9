/-
# `Automaton.Numbering` — the numbers of the states are in the order of their least words

The subset construction numbers the sets as a breadth-first search meets them, and gives the
edges of each set in the order of their characters.  So the general law of such a search applies:
the numbers ascend with the least words that lead to the sets (`exists_words_toDfa`).
It remains to go from walks through sets to runs of the deterministic automaton; a word that
leads it to a state leads to the set of that state (`behind_toDfa_eq_some_iff`).

The numbers therefore depend on nothing but which words lead to the same state.
-/
import FrontEnd.Proofs.Automaton.Liveness
import FrontEnd.Proofs.Tour
import Mathlib.Data.Char

namespace FrontEnd

/-- `d.LeastWord i w`: the word leads from the start to state `i`, and every other word that does is
longer, or as long and later in the dictionary. -/
structure Dfa.LeastWord (d : Dfa) (i : Nat) (w : List Char) : Prop where
  leads : d.machine.behind w = some i
  first : ∀ v, d.machine.behind v = some i → v = w ∨ List.Shortlex (· < ·) w v

namespace Nfa

open Discovery

variable {n : Nfa}

/-! ## Walks through sets -/

/-- The characters that lead on from a set are tried in ascending order. -/
theorem successors_ascending (n : Nfa) (s : StateSet) :
    (n.successors s).Pairwise fun e f => e.1 < f.1 := by
  have hlabel {c : Char} {e : Char × StateSet}
      (he : (if (n.move s c).isEmpty then none else some (c, n.move s c)) = some e) : c = e.1 := by
    split at he
    · exact nomatch he
    · exact congrArg Prod.fst (Option.some.inj he)
  refine List.Pairwise.filterMap _ ?_ (n.leaving s).ascending
  intro c d hcd e he f hf
  rw [← hlabel he, ← hlabel hf]
  exact compareOfLessAndEq_eq_lt.mp hcd

/-- A word leads through sets to the set that the automaton can be in behind it, unless that is
empty. -/
theorem walk_iff (hn : n.Proper) {w : List Char} {s : StateSet} :
    Walk n.successors n.initial w s ↔ w.foldl n.move n.initial = s ∧ s.isEmpty = false := by
  induction w using List.reverseRecOn generalizing s with
  | nil =>
      have hinitial : n.initial.isEmpty = false :=
        isEmpty_of_mem_met hn ((mem_met hn).mpr (.root List.mem_cons_self))
      rw [walk_nil_iff]
      refine ⟨?_, fun h => h.1.symm⟩
      rintro rfl
      exact ⟨rfl, hinitial⟩
  | append_singleton w c ih =>
      rw [walk_append_iff, List.foldl_concat]
      refine ⟨?_, ?_⟩
      · rintro ⟨t, hwalk, hedge⟩
        obtain ⟨rfl, -⟩ := ih.mp hwalk
        obtain ⟨-, rfl, hne⟩ := mem_successors.mp hedge
        exact ⟨rfl, hne⟩
      · rintro ⟨rfl, hne⟩
        have hbefore : (w.foldl n.move n.initial).isEmpty = false := by
          rw [Bool.eq_false_iff]
          intro hempty
          have hdead := (lasting_machine hn).dead_step c hempty
          exact absurd (hne.symm.trans hdead) Bool.false_ne_true
        exact ⟨_, ih.mpr ⟨rfl, hbefore⟩, mem_successors.mpr ⟨leaving_of_move hn hne, rfl, hne⟩⟩

/-! ## Runs of the deterministic automaton -/

/-- A word leads to the state of the set that the automaton can be in behind it. -/
theorem behind_toDfa_eq_some_iff (hn : n.Proper) {w : List Char} {i : Nat} :
    n.toDfa.machine.behind w = some i ↔ n.met[i]? = some (w.foldl n.move n.initial) := by
  have hstands : n.Stands (n.toDfa.machine.behind w) (w.foldl n.move n.initial) :=
    Stands.foldl hn w (stands_start n)
  refine ⟨?_, ?_⟩
  · intro h
    rwa [h] at hstands
  · intro h
    cases hbehind : n.toDfa.machine.behind w with
    | none =>
        rw [hbehind] at hstands
        have hne := isEmpty_of_mem_met hn (List.mem_of_getElem? h)
        exact absurd (hne.symm.trans hstands) Bool.false_ne_true
    | some j =>
        rw [hbehind] at hstands
        have hj : n.met[j]? = some (w.foldl n.move n.initial) := hstands
        obtain ⟨hlt, -⟩ := List.getElem?_eq_some_iff.mp hj
        exact congrArg some ((List.getElem?_inj hlt n.nodup_met).mp (hj.trans h.symm))

theorem leads_iff_walk (hn : n.Proper) {w : List Char} {i : Nat} {s : StateSet}
    (hs : n.met[i]? = some s) :
    n.toDfa.machine.behind w = some i ↔ Walk n.successors n.initial w s := by
  have hne := isEmpty_of_mem_met hn (List.mem_of_getElem? hs)
  rw [behind_toDfa_eq_some_iff hn, walk_iff hn, hs, Option.some_inj]
  exact ⟨fun h => ⟨h.symm, hne⟩, fun h => h.1.symm⟩

theorem leastWord_iff (hn : n.Proper) {w : List Char} {i : Nat} {s : StateSet}
    (hs : n.met[i]? = some s) :
    n.toDfa.LeastWord i w ↔ Least n.successors n.initial w s := by
  refine ⟨?_, ?_⟩
  · rintro ⟨hleads, hfirst⟩
    refine ⟨(leads_iff_walk hn hs).mp hleads, ?_⟩
    intro v hv
    rcases hfirst v ((leads_iff_walk hn hs).mpr hv) with rfl | hlt
    · exact le_rfl
    · exact (rank_lt_iff.mpr hlt).le
  · rintro ⟨hwalk, hle⟩
    refine ⟨(leads_iff_walk hn hs).mpr hwalk, ?_⟩
    intro v hv
    rcases (hle ((leads_iff_walk hn hs).mp hv)).eq_or_lt with heq | hlt
    · exact Or.inl (rank_injective heq.symm)
    · exact Or.inr (rank_lt_iff.mp hlt)

/-! ## The least words of the states -/

/-- The states have least words, and in the order of the numbers these ascend. -/
theorem exists_words_toDfa (hn : n.Proper) :
    ∃ words : List (List Char), words.length = n.toDfa.size ∧
      words.Pairwise (fun v w => rank v < rank w) ∧
      ∀ i w, words[i]? = some w ↔ n.toDfa.LeastWord i w := by
  have hroot : n.initial ∈ SortedSet.subsets (List.range n.size) :=
    SortedSet.mem_subsets.mpr (initial_lt hn)
  have hfuel : (SortedSet.subsets (List.range n.size)).length ≤ Nat.pow 2 n.size := by
    rw [SortedSet.length_subsets, List.length_range]
  obtain ⟨ranked, hmet, hascending, hleast⟩ := exists_ranked_discover n.successors_ascending hroot
    (subsets_closed fun s _ => successors_lt hn s) hfuel
  have hmet : ranked.map Prod.snd = n.met := hmet
  refine ⟨ranked.map Prod.fst, ?_, List.pairwise_map.mpr hascending, ?_⟩
  · rw [size_toDfa, ← hmet, List.length_map, List.length_map]
  · intro i w
    rw [List.getElem?_map, Option.map_eq_some_iff]
    refine ⟨?_, ?_⟩
    · rintro ⟨⟨w, s⟩, hi, rfl⟩
      have hs : n.met[i]? = some s := by
        rw [← hmet, List.getElem?_map, hi]
        rfl
      exact (leastWord_iff hn hs).mpr (hleast _ (List.mem_of_getElem? hi))
    · intro hw
      have hs := (behind_toDfa_eq_some_iff hn).mp hw.leads
      obtain ⟨⟨u, s⟩, hi, hset⟩ : ∃ p, ranked[i]? = some p ∧ p.2 = w.foldl n.move n.initial := by
        rwa [← hmet, List.getElem?_map, Option.map_eq_some_iff] at hs
      have hlw := (leastWord_iff hn hs).mp hw
      have hlu : Least n.successors n.initial u (w.foldl n.move n.initial) :=
        hset ▸ hleast _ (List.mem_of_getElem? hi)
      exact ⟨_, hi, rank_injective (le_antisymm (hlu.le hlw.walk) (hlw.le hlu.walk))⟩

/-- **The numbers of the states are canonical.**  In the deterministic automaton of an automaton
made by any constructions words lead from state 0 to each state, and one of them is first in the
order by length and then by characters.  A state has a smaller number than another exactly when
its first word comes before that of the other. -/
theorem numbers_canonical (e : Regex) :
    let d := (ofRegex e).toDfa
    d.start = 0 ∧ (∀ i < d.size, ∃ w, d.LeastWord i w) ∧
      ∀ i j v w, d.LeastWord i v → d.LeastWord j w → (i < j ↔ List.Shortlex (· < ·) v w) := by
  obtain ⟨words, hsize, hascending, hwords⟩ := exists_words_toDfa (proper_ofRegex e)
  have hlt {i j : Nat} {v w : List Char} (hv : words[i]? = some v) (hw : words[j]? = some w)
      (hij : i < j) : rank v < rank w := by
    obtain ⟨hi, rfl⟩ := List.getElem?_eq_some_iff.mp hv
    obtain ⟨hj, rfl⟩ := List.getElem?_eq_some_iff.mp hw
    exact List.pairwise_iff_getElem.mp hascending i j hi hj hij
  refine ⟨rfl, ?_, ?_⟩
  · intro i hi
    exact ⟨_, (hwords i _).mp (List.getElem?_eq_getElem (hsize ▸ hi))⟩
  · intro i j v w hv hw
    have hv := (hwords i v).mpr hv
    have hw := (hwords j w).mpr hw
    rw [← rank_lt_iff]
    refine ⟨hlt hv hw, ?_⟩
    intro hrank
    rcases Nat.lt_trichotomy i j with hij | rfl | hji
    · exact hij
    · obtain rfl := Option.some.inj (hv.symm.trans hw)
      exact absurd hrank (lt_irrefl _)
    · exact absurd (hlt hw hv hji) hrank.asymm

end Nfa

end FrontEnd
