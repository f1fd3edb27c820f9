/-
# `Automaton.Machine` — stopping early loses nothing

A run stops at a dead configuration.  Where a dead configuration stays dead and does not
accept (`Lasting`), a run that went on would end without accepting too, and find no longer
prefix.  So the answers of a machine are those about its words (`accepting_advance`,
`scan_eq_some_iff`, `scan_eq_none_iff`).

The machines of the two kinds of automata are of this sort, and have the same words: those of
the automaton, and so what the constructions make of the words of its parts.
-/
import FrontEnd.Proofs.Automaton.Subset
import Mathlib.Order.Bounds.Basic

namespace FrontEnd

/-- The lengths of the non-empty prefixes of a text that are words. -/
def prefixLengths (words : Set (List Char)) (text : List Char) : Set Nat :=
  {k | 0 < k ∧ k ≤ text.length ∧ text.take k ∈ words}

namespace Machine

variable {σ : Type} {m : Machine σ} {s : σ}

/-- The words over which the machine comes from `s` to an accepting configuration. -/
def wordsFrom (m : Machine σ) (s : σ) : Set (List Char) :=
  {w | m.accepting (w.foldl m.step s) = true}

/-- Dead configurations do not accept and stay dead. -/
structure Lasting (m : Machine σ) : Prop where
  dead_step : ∀ {s : σ} (c : Char), m.dead s = true → m.dead (m.step s c) = true
  dead_rejects : ∀ {s : σ}, m.dead s = true → m.accepting s = false

theorem Lasting.notMem_wordsFrom (hm : m.Lasting) :
    ∀ (w : List Char) {s : σ}, m.dead s = true → w ∉ m.wordsFrom s := by
  intro w
  induction w with
  | nil =>
      intro s hs h
      exact Bool.false_ne_true ((hm.dead_rejects hs).symm.trans h)
  | cons c w ih =>
      intro s hs
      exact ih (hm.dead_step c hs)

theorem accepting_advance (hm : m.Lasting) : ∀ {w : List Char} {s : σ},
    m.accepting (m.advance s w) = true ↔ w ∈ m.wordsFrom s := by
  intro w
  induction w with
  | nil =>
      intro s
      exact Iff.rfl
  | cons c w ih =>
      intro s
      rw [advance]
      split
      · rename_i hdead
        refine iff_of_false ?_ (hm.notMem_wordsFrom w hdead)
        rw [hm.dead_rejects hdead]
        exact Bool.false_ne_true
      · exact ih

/-- A prefix of a text is its first character alone or goes on behind it. -/
theorem mem_prefixLengths_cons {c : Char} {text : List Char} {k : Nat} :
    k ∈ prefixLengths (m.wordsFrom s) (c :: text) ↔
      (k = 1 ∧ m.accepting (m.step s c) = true) ∨
        ∃ j, k = j + 1 ∧ j ∈ prefixLengths (m.wordsFrom (m.step s c)) text := by
  refine ⟨?_, ?_⟩
  · rintro ⟨hpos, hle, hword⟩
    cases k with
    | zero => exact absurd hpos (Nat.lt_irrefl 0)
    | succ j =>
        cases j with
        | zero => exact Or.inl ⟨rfl, hword⟩
        | succ j => exact Or.inr ⟨j + 1, rfl, Nat.succ_pos j, Nat.le_of_succ_le_succ hle, hword⟩
  · rintro (⟨rfl, haccept⟩ | ⟨j, rfl, -, hle, hword⟩)
    · exact ⟨Nat.one_pos, Nat.succ_le_succ (Nat.zero_le _), haccept⟩
    · exact ⟨Nat.succ_pos j, Nat.succ_le_succ hle, hword⟩

theorem scan_of_dead (hm : m.Lasting) {text : List Char} (hs : m.dead s = true) :
    (m.scan s text).2 = none := by
  cases text with
  | nil => rfl
  | cons c text =>
      have hdead := hm.dead_step c hs
      simp [scan, hdead, hm.dead_rejects hdead]

/-- A scan answers as one that never stops early: what is found behind the first character
counts before the first character alone. -/
theorem scan_cons (hm : m.Lasting) {c : Char} {text : List Char} :
    (m.scan s (c :: text)).2 = ((m.scan (m.step s c) text).2.map (· + 1)).or
      (if m.accepting (m.step s c) then some 1 else none) := by
  by_cases hdead : m.dead (m.step s c) = true
  · rw [scan_of_dead hm hdead]
    simp [scan, hdead, hm.dead_rejects hdead]
  · simp [scan, hdead]

/-- What a scan finds is the length of the longest prefix that is a word, if there is one. -/
theorem scan_spec (hm : m.Lasting) : ∀ (text : List Char) (s : σ),
    match (m.scan s text).2 with
    | none => ∀ k, k ∉ prefixLengths (m.wordsFrom s) text
    | some k => IsGreatest (prefixLengths (m.wordsFrom s) text) k := by
  intro text
  induction text with
  | nil =>
      intro s k hk
      exact absurd hk.1 (Nat.not_lt.mpr hk.2.1)
  | cons c text ih =>
      intro s
      have hfurther := ih (m.step s c)
      rw [scan_cons hm]
      cases hlater : (m.scan (m.step s c) text).2 with
      | some j =>
          rw [hlater] at hfurther
          refine ⟨mem_prefixLengths_cons.mpr (Or.inr ⟨j, rfl, hfurther.1⟩), ?_⟩
          intro k hk
          rcases mem_prefixLengths_cons.mp hk with ⟨rfl, -⟩ | ⟨i, rfl, hi⟩
          · exact Nat.succ_le_succ (Nat.zero_le j)
          · exact Nat.succ_le_succ (hfurther.2 hi)
      | none =>
          rw [hlater] at hfurther
          cases haccept : m.accepting (m.step s c) with
          | true =>
              refine ⟨mem_prefixLengths_cons.mpr (Or.inl ⟨rfl, haccept⟩), ?_⟩
              intro k hk
              rcases mem_prefixLengths_cons.mp hk with ⟨rfl, -⟩ | ⟨i, -, hi⟩
              · exact Nat.le_refl 1
              · exact absurd hi (hfurther i)
          | false =>
              intro k hk
              rcases mem_prefixLengths_cons.mp hk with ⟨-, htrue⟩ | ⟨i, -, hi⟩
              · exact Bool.false_ne_true (haccept.symm.trans htrue)
              · exact hfurther i hi

theorem scan_eq_some_iff (hm : m.Lasting) {text : List Char} {k : Nat} :
    (m.scan s text).2 = some k ↔ IsGreatest (prefixLengths (m.wordsFrom s) text) k := by
  have hspec := scan_spec hm text s
  cases hscan : (m.scan s text).2 with
  | none =>
      rw [hscan] at hspec
      exact iff_of_false nofun fun hk => hspec k hk.1
  | some j =>
      rw [hscan] at hspec
      refine ⟨?_, ?_⟩
      · intro h
        obtain rfl := Option.some.inj h
        exact hspec
      · intro hk
        exact congrArg some (hspec.unique hk)

theorem scan_eq_none_iff (hm : m.Lasting) {text : List Char} :
    (m.scan s text).2 = none ↔ ∀ k, k ∉ prefixLengths (m.wordsFrom s) text := by
  have hspec := scan_spec hm text s
  cases hscan : (m.scan s text).2 with
  | none =>
      rw [hscan] at hspec
      exact iff_of_true rfl hspec
  | some j =>
      rw [hscan] at hspec
      exact iff_of_false nofun fun hnone => hnone j hspec.1

end Machine

/-! ## The machines of automata -/

theorem Dfa.lasting_machine (d : Dfa) : d.machine.Lasting := by
  refine ⟨?_, ?_⟩
  · intro s c hdead
    obtain rfl : s = none := Option.isNone_iff_eq_none.mp hdead
    rfl
  · intro s hdead
    obtain rfl : s = none := Option.isNone_iff_eq_none.mp hdead
    rfl

namespace Nfa

variable {n : Nfa}

theorem wordsFrom_toDfa (hn : n.Proper) :
    n.toDfa.machine.wordsFrom n.toDfa.machine.start = n.words :=
  Set.ext fun _ => accepting_foldl_toDfa hn

theorem lasting_machine (hn : n.Proper) : n.machine.Lasting := by
  refine ⟨?_, ?_⟩
  · intro s c hdead
    exact isEmpty_move hn fun p hp => absurd hp (SortedSet.isEmpty_iff.mp hdead p)
  · intro s hdead
    exact decide_eq_false (SortedSet.isEmpty_iff.mp hdead n.final)

theorem wordsFrom_machine (hn : n.Proper) : n.machine.wordsFrom n.machine.start = n.words := by
  ext w
  exact decide_eq_true_iff.trans (final_mem_foldl_move hn)

theorem accepts_machine (hn : n.Proper) {w : List Char} :
    n.machine.accepts w = true ↔ w ∈ n.words := by
  rw [← wordsFrom_machine hn]
  exact Machine.accepting_advance (lasting_machine hn)

/-! ## Running what the constructions make -/

section Constructions

variable {a b : Nfa} {w : List Char}

theorem accepts_union (ha : a.Proper) (hb : b.Proper) :
    (a.union b).machine.accepts w = true ↔
      a.machine.accepts w = true ∨ b.machine.accepts w = true := by
  rw [accepts_machine (.union ha hb), accepts_machine ha, accepts_machine hb, words_union ha hb]
  exact Iff.rfl

theorem accepts_concat (ha : a.Proper) (hb : b.Proper) :
    (a.concat b).machine.accepts w = true ↔
      ∃ u v, w = u ++ v ∧ a.machine.accepts u = true ∧ b.machine.accepts v = true := by
  simp only [accepts_machine (.concat ha hb), accepts_machine ha, accepts_machine hb,
    words_concat ha hb]
  refine ⟨?_, ?_⟩
  · rintro ⟨u, hu, v, hv, rfl⟩
    exact ⟨u, v, rfl, hu, hv⟩
  · rintro ⟨u, v, rfl, hu, hv⟩
    exact ⟨u, hu, v, hv, rfl⟩

theorem accepts_star (ha : a.Proper) :
    a.star.machine.accepts w = true ↔
      ∃ us : List (List Char), (∀ u ∈ us, a.machine.accepts u = true) ∧ w = us.flatten := by
  simp only [accepts_machine (.star ha), accepts_machine ha, words_star ha]
  exact Iff.rfl

theorem accepts_symbol (c : Char) : (symbol c).machine.accepts w = true ↔ w = [c] := by
  rw [accepts_machine (.symbol c), words_symbol]
  exact Iff.rfl

end Constructions

/-- **The constructions are operations on languages.**  Run as it is, an automaton made by any
constructions from two others accepts what the operation makes of what those accept. -/
theorem accepts_constructions (a b : Regex) (w : List Char) :
    let A := ofRegex a
    let B := ofRegex b
    ((A.union B).machine.accepts w = true ↔
        A.machine.accepts w = true ∨ B.machine.accepts w = true) ∧
      ((A.concat B).machine.accepts w = true ↔
        ∃ u v, w = u ++ v ∧ A.machine.accepts u = true ∧ B.machine.accepts v = true) ∧
      (A.star.machine.accepts w = true ↔
        ∃ us : List (List Char), (∀ u ∈ us, A.machine.accepts u = true) ∧ w = us.flatten) ∧
      ∀ c, (symbol c).machine.accepts w = true ↔ w = [c] := by
  have ha := proper_ofRegex a
  have hb := proper_ofRegex b
  exact ⟨accepts_union ha hb, accepts_concat ha hb, accepts_star ha, accepts_symbol⟩

end Nfa

end FrontEnd
