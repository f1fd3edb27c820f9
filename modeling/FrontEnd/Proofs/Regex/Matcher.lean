/-
# `Regex.Matcher` — what a compiled expression matches

A matcher runs the deterministic automaton of its expression, so it matches the words
that the expression denotes.  Its answers are in bytes, while the automaton counts
characters; the bytes of a prefix grow with its characters, so the longest prefix is
the same in both.
-/
import FrontEnd.Proofs.Automaton.Machine
import FrontEnd.Regex.Matcher
import Mathlib.Order.Bounds.Image

namespace FrontEnd

/-! ## Bytes and characters -/

namespace Text

theorem byteLength_eq (cs : List Char) : byteLength cs = (String.ofList cs).utf8ByteSize := by
  induction cs with
  | nil => rfl
  | cons c cs ih =>
      rw [String.ofList_cons, String.utf8ByteSize_append, String.utf8ByteSize_singleton,
        byteLength, ih]

theorem monotone_byteLength_take (cs : List Char) : Monotone fun k => byteLength (cs.take k) := by
  intro j k hjk
  obtain ⟨i, rfl⟩ := Nat.exists_eq_add_of_le hjk
  show byteLength (cs.take j) ≤ byteLength (cs.take (j + i))
  rw [List.take_add, byteLength_append]
  exact Nat.le_add_right _ _

theorem byteLength_pos {cs : List Char} (h : cs ≠ []) : 0 < byteLength cs := by
  cases cs with
  | nil => exact absurd rfl h
  | cons c cs => exact Nat.lt_of_lt_of_le c.utf8Size_pos (Nat.le_add_right _ _)

end Text

/-- The lengths in bytes of the non-empty prefixes of a text that are words. -/
def prefixSizes (words : Set (List Char)) (text : String) : Set Nat :=
  {n | 0 < n ∧ ∃ front rest : String, text = front ++ rest ∧ front.utf8ByteSize = n ∧
    front.toList ∈ words}

theorem prefixSizes_eq_image (words : Set (List Char)) (text : String) :
    prefixSizes words text =
      Set.image (fun k => Text.byteLength (text.toList.take k))
        (prefixLengths words text.toList) := by
  ext n
  refine ⟨?_, ?_⟩
  · rintro ⟨hpos, front, rest, rfl, rfl, hword⟩
    have htake : (front ++ rest).toList.take front.toList.length = front.toList := by
      rw [String.toList_append, List.take_left]
    refine ⟨front.toList.length, ⟨?_, ?_, ?_⟩, ?_⟩
    · refine List.length_pos_iff.mpr fun hnil => ?_
      rw [← String.ofList_toList (s := front), ← Text.byteLength_eq, hnil] at hpos
      exact Nat.lt_irrefl 0 hpos
    · rw [String.toList_append, List.length_append]
      exact Nat.le_add_right _ _
    · rw [htake]
      exact hword
    · show Text.byteLength _ = _
      rw [htake, Text.byteLength_eq, String.ofList_toList]
  · rintro ⟨k, ⟨hpos, hle, hword⟩, rfl⟩
    refine ⟨Text.byteLength_pos ?_, String.ofList (text.toList.take k),
      String.ofList (text.toList.drop k), ?_, (Text.byteLength_eq _).symm, ?_⟩
    · refine List.length_pos_iff.mp ?_
      rw [List.length_take, Nat.min_eq_left hle]
      exact hpos
    · rw [← String.ofList_append, List.take_append_drop, String.ofList_toList]
    · rw [String.toList_ofList]
      exact hword

namespace Matcher

/-! ## Compiled expressions -/

theorem compile_eq {source : String} {e : Regex} (h : Regex.parse source = .ok e) :
    compile source = .ok ⟨source, Nfa.ofRegex e, (Nfa.ofRegex e).toDfa⟩ := by
  rw [compile, h]
  rfl

theorem exists_parse_of_compile {source : String} {m : Matcher} (h : compile source = .ok m) :
    ∃ e, Regex.parse source = .ok e ∧ m.dfa = (Nfa.ofRegex e).toDfa := by
  cases he : Regex.parse source with
  | error err =>
      rw [compile, he] at h
      exact nomatch h
  | ok e =>
      rw [compile_eq he] at h
      obtain rfl := Except.ok.inj h
      exact ⟨e, rfl, rfl⟩

section Words

variable {m : Matcher} {e : Regex}

theorem wordsFrom_start (hm : m.dfa = (Nfa.ofRegex e).toDfa) :
    m.dfa.machine.wordsFrom m.dfa.machine.start = e.words := by
  rw [hm, Nfa.wordsFrom_toDfa (Nfa.proper_ofRegex e), Nfa.words_ofRegex]

theorem isMatch_iff (hm : m.dfa = (Nfa.ofRegex e).toDfa) {text : String} :
    m.isMatch text = true ↔ text.toList ∈ e.words := by
  rw [← wordsFrom_start hm]
  exact Machine.accepting_advance m.dfa.lasting_machine

theorem prefixLength_eq_some_iff (hm : m.dfa = (Nfa.ofRegex e).toDfa) {text : List Char} {k : Nat} :
    m.prefixLength text = some k ↔ IsGreatest (prefixLengths e.words text) k := by
  rw [← wordsFrom_start hm]
  exact Machine.scan_eq_some_iff m.dfa.lasting_machine

theorem prefixLength_eq_none_iff (hm : m.dfa = (Nfa.ofRegex e).toDfa) {text : List Char} :
    m.prefixLength text = none ↔ ∀ k, k ∉ prefixLengths e.words text := by
  rw [← wordsFrom_start hm]
  exact Machine.scan_eq_none_iff m.dfa.lasting_machine

theorem longestPrefix_eq_none_iff (hm : m.dfa = (Nfa.ofRegex e).toDfa) {text : String} :
    m.longestPrefix text = none ↔ ∀ n, n ∉ prefixSizes e.words text := by
  rw [longestPrefix, Option.map_eq_none_iff, prefixLength_eq_none_iff hm, prefixSizes_eq_image]
  refine ⟨?_, ?_⟩
  · rintro hnone _ ⟨k, hk, -⟩
    exact hnone k hk
  · intro hnone k hk
    exact hnone _ ⟨k, hk, rfl⟩

theorem longestPrefix_eq_some_iff (hm : m.dfa = (Nfa.ofRegex e).toDfa) {text : String} {n : Nat} :
    m.longestPrefix text = some n ↔ IsGreatest (prefixSizes e.words text) n := by
  have hgreatest {k : Nat} (hk : m.longestPrefix text = some k) :
      IsGreatest (prefixSizes e.words text) k := by
    obtain ⟨j, hj, rfl⟩ := Option.map_eq_some_iff.mp hk
    rw [prefixSizes_eq_image]
    exact (Text.monotone_byteLength_take _).map_isGreatest ((prefixLength_eq_some_iff hm).mp hj)
  refine ⟨?_, ?_⟩
  · exact hgreatest
  · intro hn
    cases hfound : m.longestPrefix text with
    | none => exact absurd hn.1 ((longestPrefix_eq_none_iff hm).mp hfound n)
    | some k => exact congrArg some ((hgreatest hfound).unique hn)

end Words

/-- The matched prefix is a prefix, of the length that is reported. -/
theorem matchPrefix_spec (m : Matcher) (text : String) :
    (∃ rest, text = m.matchPrefix text ++ rest) ∧
      (m.matchPrefix text).utf8ByteSize = (m.longestPrefix text).getD 0 := by
  refine ⟨?_, ?_⟩
  · refine ⟨String.ofList (text.toList.drop ((m.prefixLength text.toList).getD 0)), ?_⟩
    rw [matchPrefix, ← String.ofList_append, List.take_append_drop, String.ofList_toList]
  · rw [matchPrefix, longestPrefix, ← Text.byteLength_eq]
    cases m.prefixLength text.toList with
    | none => rfl
    | some k => rfl

/-- **Correctness of compilation.**  A source that spells an expression compiles, and what
comes out answers every question about the words of the expression. -/
theorem compile_correct {source : String} {e : Regex} (h : Regex.parse source = .ok e) :
    ∃ m, compile source = .ok m ∧ ∀ text : String,
      (m.isMatch text = true ↔ text.toList ∈ e.words) ∧
      (∀ n, m.longestPrefix text = some n ↔ IsGreatest (prefixSizes e.words text) n) ∧
      (m.longestPrefix text = none ↔ ∀ n, n ∉ prefixSizes e.words text) ∧
      (∃ rest, text = m.matchPrefix text ++ rest) ∧
      (m.matchPrefix text).utf8ByteSize = (m.longestPrefix text).getD 0 := by
  refine ⟨_, compile_eq h, fun text => ?_⟩
  exact ⟨isMatch_iff rfl, fun n => longestPrefix_eq_some_iff rfl, longestPrefix_eq_none_iff rfl,
    matchPrefix_spec _ text⟩

theorem compile_correct_star :
    Regex.parse "(ab|é)*" =
      .ok (.star (.union (.concat (.symbol 'a') (.symbol 'b')) (.symbol 'é'))) ∧
    IsGreatest (prefixSizes
      (Regex.star (.union (.concat (.symbol 'a') (.symbol 'b')) (.symbol 'é'))).words
      "éabéa") 6 := by
  have hparse : Regex.parse "(ab|é)*" =
      .ok (.star (.union (.concat (.symbol 'a') (.symbol 'b')) (.symbol 'é'))) := by
    decide +kernel
  obtain ⟨m, hm, h⟩ := compile_correct hparse
  have hlongest : (compile "(ab|é)*").toOption.map (·.longestPrefix "éabéa") = some (some 6) := by
    decide +kernel
  rw [hm] at hlongest
  exact ⟨hparse, ((h "éabéa").2.1 6).mp (Option.some.inj hlongest)⟩

end Matcher

end FrontEnd
