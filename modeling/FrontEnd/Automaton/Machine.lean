/-
# `Machine` — running an automaton over a text

Both kinds of automaton run in the same way: a configuration, a step per
character, and two questions about a configuration.  It may accept, and it may be dead,
which means that no further text can make it accept; a run stops at a dead
configuration.

A machine can be kept and asked again and again.  An operation answers from the configuration
in which the one before left the machine, or from the start, and a run that stops early leaves
it dead.
-/
import FrontEnd.Automaton.Dfa
import FrontEnd.Text.Bytes

namespace FrontEnd

/-- A machine that reads characters, with configurations in `σ`. -/
structure Machine (σ : Type) where
  start : σ
  step : σ → Char → σ
  accepting : σ → Bool
  dead : σ → Bool

namespace Machine

variable {σ : Type}

/-- Reads a text from configuration `s`, up to the end or to a dead configuration. -/
def advance (m : Machine σ) (s : σ) : List Char → σ
  | [] => s
  | c :: cs =>
    let t := m.step s c
    if m.dead t then t else m.advance t cs

/-- Whether the machine accepts a text. -/
def accepts (m : Machine σ) (text : List Char) : Bool := m.accepting (m.advance m.start text)

/-- Reads a text from configuration `s`, up to the end or to a dead configuration.
The result is the configuration there, and how many characters the longest
accepted prefix has; the empty prefix does not count. -/
def scan (m : Machine σ) (s : σ) : List Char → σ × Option Nat
  | [] => (s, none)
  | c :: cs =>
    let t := m.step s c
    let here := if m.accepting t then some 1 else none
    if m.dead t then (t, here)
    else
      let (last, further) := m.scan t cs
      (last, (further.map (· + 1)).or here)

/-- How many characters the longest non-empty accepted prefix of a text has. -/
def longestPrefix (m : Machine σ) (text : List Char) : Option Nat := (m.scan m.start text).2

theorem scan_bounds {m : Machine σ} {s : σ} {text : List Char} {n : Nat}
    (h : (m.scan s text).2 = some n) : 0 < n ∧ n ≤ text.length := by
  induction text generalizing s n with
  | nil => simp [scan] at h
  | cons c cs ih =>
    have here {b : Bool} (h : (if b then some 1 else none) = some n) :
        0 < n ∧ n ≤ (c :: cs).length := by
      cases b <;> simp at h
      simp [← h]
    simp only [scan] at h
    split at h
    · exact here h
    · rcases Option.or_eq_some_iff.1 h with h | ⟨_, h⟩
      · obtain ⟨k, hk, rfl⟩ := Option.map_eq_some_iff.1 h
        have := ih hk
        simp only [List.length_cons]
        omega
      · exact here h

theorem longestPrefix_bounds {m : Machine σ} {text : List Char} {n : Nat}
    (h : m.longestPrefix text = some n) : 0 < n ∧ n ≤ text.length := scan_bounds h

end Machine

/-! ## Operations -/

/-- What can be asked of a machine. -/
inductive Operation where
  /-- Read one character. -/
  | feed (c : Char)
  /-- Go back to the start. -/
  | reset
  /-- Read a text from the start. -/
  | run (text : String)
  /-- Read a text from the start and look for its longest accepted prefix. -/
  | longestPrefix (text : String)
  deriving DecidableEq, Repr

/-- What an operation returns. -/
inductive Answer where
  | nothing
  /-- Whether the machine accepts. -/
  | verdict (accepts : Bool)
  /-- How many bytes the longest non-empty accepted prefix has, if there is one. -/
  | length (bytes : Option Nat)
  deriving DecidableEq, Repr

/-- Performs an operation in configuration `s`: what is returned, and the configuration behind
it. -/
def Machine.perform {σ : Type} (m : Machine σ) (s : σ) : Operation → Answer × σ
  | .feed c => (.verdict (m.accepting (m.step s c)), m.step s c)
  | .reset => (.nothing, m.start)
  | .run text => (.verdict (m.accepts text.toList), m.advance m.start text.toList)
  | .longestPrefix text =>
    let (last, found) := m.scan m.start text.toList
    (.length (found.map fun n => Text.byteLength (text.toList.take n)), last)

/-! ## The machines of automata -/

/-- A nondeterministic automaton, run as the set of states that it can be in. -/
def Nfa.machine (n : Nfa) : Machine Nfa.StateSet where
  start := n.initial
  step := n.move
  accepting s := decide (n.final ∈ s)
  dead s := s.isEmpty

/-- A deterministic automaton, run as the state that it is in; `none` is dead. -/
def Dfa.machine (d : Dfa) : Machine (Option Nat) where
  start := some d.start
  step s c := s.bind (d.step · c)
  accepting s := s.any d.isFinal
  dead s := s.isNone

end FrontEnd
