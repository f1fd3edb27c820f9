/-
# `Grammar.Rightmost` — rightmost derivations and derivation trees

A rightmost derivation rewrites the last non-terminal of a form, again and again, until
only terminals are left.  A rewriting is held with the strings to its left and right;
the one to its right is all terminals.

Undone from its last step back, a rightmost derivation of a word is a run of a shift-reduce
parser: when a rewriting is undone, its right context is what is left to read.
`undo` lists the moves.

Rightmost derivations and derivation trees are the same thing written in two ways, with the
same moves: `FromAll.rightmost` reads a derivation off trees, `Rightmost.forest` grows
trees from a derivation.  The moves determine the derivation (`Rightmost.eq_of_traceOf_eq`).
-/
import FrontEnd.Proofs.Grammar.Derivation

namespace FrontEnd

/-- A production, by its number, applied between two strings. -/
structure Rewriting where
  production : Nat
  left : List Symbol
  right : List Symbol
  deriving DecidableEq, Repr

/-- `Rightmost g form rs word`: the rewritings `rs`, each of the last non-terminal, lead from
`form` to `word`. -/
inductive Rightmost (g : Grammar) : List Symbol → List Rewriting → List Symbol → Prop
  | refl (form : List Symbol) : Rightmost g form [] form
  | step {r : Rewriting} {p : Production} {later : List Rewriting} {word : List Symbol} :
      g.production? r.production = some p → (∀ x ∈ r.right, g.isTerminal x = true) →
      Rightmost g (r.left ++ p.body ++ r.right) later word →
      Rightmost g (r.left ++ p.head :: r.right) (r :: later) word

/-- The moves that undo rewritings over a word of `n` symbols, up to where `rest` symbols of
the word are left to read. -/
def undo (n : Nat) : List Rewriting → Nat → Trace
  | [], rest => List.replicate (n - rest) .shift
  | r :: later, rest =>
      undo n later r.right.length ++
        .reduce r.production :: List.replicate (r.right.length - rest) .shift

/-- The trace of a rightmost derivation of `word`: its rewritings from the last to the
first, each as a reduction, between the shifts of the word; then acceptance. -/
def traceOf (word : List Symbol) (rs : List Rewriting) : Trace :=
  undo word.length rs 0 ++ [.accept]

/-- The production of a reduction. -/
def Move.production? : Move → Option Nat
  | .reduce i => some i
  | _ => none

/-- The productions by which a trace reduces, in order. -/
def reductions (trace : Trace) : List Nat := trace.filterMap Move.production?

/-! ## What `undo` lists -/

theorem reductions_replicate_shift (n : Nat) : reductions (List.replicate n .shift) = [] := by
  induction n with
  | zero => rfl
  | succ n ih => exact ih

theorem reductions_undo (n rest : Nat) (rs : List Rewriting) :
    reductions (undo n rs rest) = (rs.map (·.production)).reverse := by
  induction rs generalizing rest with
  | nil => exact reductions_replicate_shift _
  | cons r later ih =>
      have hshifts := reductions_replicate_shift (r.right.length - rest)
      simp only [reductions] at ih hshifts
      simp [reductions, undo, ih, hshifts, Move.production?]

theorem reductions_traceOf (word : List Symbol) (rs : List Rewriting) :
    reductions (traceOf word rs) = (rs.map (·.production)).reverse := by
  rw [← reductions_undo word.length 0 rs]
  simp [traceOf, reductions, Move.production?]

/-- How far a derivation of a word of `n` symbols can be undone by shifts alone at its end:
what is left to read when its first rewriting is undone. -/
def reach (n : Nat) : List Rewriting → Nat
  | [] => n
  | r :: _ => r.right.length

theorem undo_append_shifts {n rest less : Nat} {rs : List Rewriting} (h : rest ≤ reach n rs)
    (hless : less ≤ rest) :
    undo n rs rest ++ List.replicate (rest - less) .shift = undo n rs less := by
  cases rs with
  | nil =>
      have h : rest ≤ n := h
      rw [undo, undo, List.replicate_append_replicate]
      congr 1
      omega
  | cons r later =>
      have h : rest ≤ r.right.length := h
      rw [undo, undo, List.append_assoc, List.cons_append, List.replicate_append_replicate]
      congr 3
      omega

/-! ## The last non-terminal -/

section Last

variable {g : Grammar}

/-- A form has one last non-terminal. -/
theorem last_nonterminal_unique {a b a' b' : List Symbol} {x x' : Symbol}
    (hx : g.isTerminal x ≠ true) (hx' : g.isTerminal x' ≠ true)
    (hb : ∀ y ∈ b, g.isTerminal y = true) (hb' : ∀ y ∈ b', g.isTerminal y = true)
    (h : a ++ x :: b = a' ++ x' :: b') : a = a' ∧ x = x' ∧ b = b' := by
  rcases List.append_eq_append_iff.mp h with ⟨c, hac, hcb⟩ | ⟨c, hac, hcb⟩
  · cases c with
    | nil =>
        obtain ⟨rfl, rfl⟩ := List.cons.inj hcb
        exact ⟨by simpa using hac.symm, rfl, rfl⟩
    | cons y c =>
        obtain ⟨rfl, rfl⟩ := List.cons.inj hcb
        exact absurd (hb x' (by simp)) hx'
  · cases c with
    | nil =>
        obtain ⟨rfl, rfl⟩ := List.cons.inj hcb
        exact ⟨by simpa using hac, rfl, rfl⟩
    | cons y c =>
        obtain ⟨rfl, rfl⟩ := List.cons.inj hcb
        exact absurd (hb' x (by simp)) hx

/-- Terminals at the end of a form stand behind its last non-terminal. -/
theorem length_le_of_terminals {a b c d : List Symbol} {x : Symbol}
    (hx : g.isTerminal x ≠ true) (hd : ∀ y ∈ d, g.isTerminal y = true)
    (h : a ++ x :: b = c ++ d) : d.length ≤ b.length := by
  rcases List.append_eq_append_iff.mp h with ⟨e, -, he⟩ | ⟨e, -, he⟩
  · cases e with
    | nil =>
        have hmem : x ∈ d := by
          rw [← (show x :: b = d by simpa using he)]
          exact List.mem_cons_self
        exact absurd (hd x hmem) hx
    | cons y e =>
        obtain ⟨-, rfl⟩ := List.cons.inj he
        simp
  · exact absurd (hd x (by simp [he])) hx

end Last

namespace Rightmost

variable {g : Grammar} {form word : List Symbol} {rs : List Rewriting}

/-- Terminals at the end of a form are not touched: they are left to read when the first
rewriting is undone. -/
theorem le_reach {front back : List Symbol} (h : Rightmost g form rs word)
    (hform : form = front ++ back) (hback : ∀ x ∈ back, g.isTerminal x = true) :
    back.length ≤ reach word.length rs := by
  cases h with
  | refl => simp [reach, hform]
  | step hp _ _ => exact length_le_of_terminals (Grammar.not_isTerminal_head hp) hback hform

/-- The productions of a rightmost derivation determine its rewritings. -/
theorem eq_of_productions_eq {word' : List Symbol} {rs' : List Rewriting}
    (h : Rightmost g form rs word) (h' : Rightmost g form rs' word')
    (heq : rs.map (·.production) = rs'.map (·.production)) : rs = rs' := by
  induction h generalizing rs' word' with
  | refl form =>
      cases rs' with
      | nil => rfl
      | cons r' later' => exact nomatch heq
  | @step r p later word hp hright _ ih =>
      generalize hform : r.left ++ p.head :: r.right = form at h'
      cases h' with
      | refl => exact nomatch heq
      | @step r' p' later' _ hp' hright' hlater' =>
          obtain ⟨hnum, hnums⟩ := List.cons.inj heq
          obtain ⟨hl, -, hr⟩ := last_nonterminal_unique (Grammar.not_isTerminal_head hp)
            (Grammar.not_isTerminal_head hp') hright hright' hform
          obtain rfl : r = r' := by
            cases r
            cases r'
            simp_all
          obtain rfl : p = p' := Option.some.inj (hp.symm.trans hp')
          rw [ih hlater' hnums]

/-- Two rightmost derivations from one form that are undone by the same moves are the same. -/
theorem eq_of_traceOf_eq {rs' : List Rewriting} (h : Rightmost g form rs word)
    (h' : Rightmost g form rs' word) (heq : traceOf word rs = traceOf word rs') : rs = rs' := by
  refine h.eq_of_productions_eq h' ?_
  have hred := congrArg reductions heq
  rw [reductions_traceOf, reductions_traceOf] at hred
  exact List.reverse_inj.mp hred

/-! ## From a derivation to trees -/

open FrontEnd.Derivation

/-- A rightmost derivation of a word grows trees over the word that are built by the moves
that undo it. -/
theorem forest (h : Rightmost g form rs word) (hword : ∀ x ∈ word, g.isTerminal x = true) :
    ∃ ts, FromAll g form ts ∧ yieldAll ts = word ∧ movesAll ts = undo word.length rs 0 := by
  induction h with
  | refl form =>
      obtain ⟨ts, hts⟩ := fromAll_leaves hword
      obtain ⟨hyield, hmoves⟩ := hts.terminals hword
      exact ⟨ts, hts, hyield, hmoves⟩
  | @step r p later word hp hright hlater ih =>
      obtain ⟨ts, hts, hyield, hmoves⟩ := ih hword
      obtain ⟨front, back, rfl, hfront, hback⟩ := hts.split
      obtain ⟨lefts, children, rfl, hlefts, hchildren⟩ := hfront.split
      refine ⟨lefts ++ .node r.production children :: back,
        hlefts.append (.cons (.node hp hchildren) hback), ?_, ?_⟩
      · rw [← hyield]
        simp [yieldAll, tokensAll_append, tokensAll, tokens]
      · -- the shifts of the right context come last, and the reduction goes before them
        have hreach := hlater.le_reach rfl hright
        rw [← undo_append_shifts hreach (Nat.zero_le _), movesAll_append,
          (hback.terminals hright).2] at hmoves
        have hfront := List.append_cancel_right hmoves
        rw [undo, ← hfront]
        simp [movesAll_append, movesAll, moves, (hback.terminals hright).2]

end Rightmost

/-! ## From trees to a derivation -/

namespace Rewriting

/-- A rewriting with more to its left. -/
def behind (xs : List Symbol) (r : Rewriting) : Rewriting := { r with left := xs ++ r.left }

/-- A rewriting with more to its right. -/
def before (ys : List Symbol) (r : Rewriting) : Rewriting := { r with right := r.right ++ ys }

end Rewriting

section Context

variable {g : Grammar} {form word : List Symbol} {rs : List Rewriting}

theorem Rightmost.behind (xs : List Symbol) (h : Rightmost g form rs word) :
    Rightmost g (xs ++ form) (rs.map (·.behind xs)) (xs ++ word) := by
  induction h with
  | refl form => exact .refl _
  | @step r p later word hp hright _ ih =>
      have hlater : Rightmost g ((r.behind xs).left ++ p.body ++ (r.behind xs).right)
          (later.map (·.behind xs)) (xs ++ word) := by
        simpa [Rewriting.behind] using ih
      have := Rightmost.step (r := r.behind xs) hp hright hlater
      simpa [Rewriting.behind] using this

theorem Rightmost.before {ys : List Symbol} (hys : ∀ y ∈ ys, g.isTerminal y = true)
    (h : Rightmost g form rs word) :
    Rightmost g (form ++ ys) (rs.map (·.before ys)) (word ++ ys) := by
  induction h with
  | refl form => exact .refl _
  | @step r p later word hp hright _ ih =>
      have hlater : Rightmost g ((r.before ys).left ++ p.body ++ (r.before ys).right)
          (later.map (·.before ys)) (word ++ ys) := by
        simpa [Rewriting.before] using ih
      have hright' : ∀ x ∈ (r.before ys).right, g.isTerminal x = true := by
        intro x hx
        rcases List.mem_append.mp hx with hx | hx
        · exact hright x hx
        · exact hys x hx
      have := Rightmost.step (r := r.before ys) hp hright' hlater
      simpa [Rewriting.before] using this

theorem Rightmost.trans {mid : List Symbol} {rs' : List Rewriting}
    (h : Rightmost g form rs mid) (h' : Rightmost g mid rs' word) :
    Rightmost g form (rs ++ rs') word := by
  induction h with
  | refl _ => exact h'
  | step hp hright _ ih => exact .step hp hright (ih h')

theorem undo_before (n rest : Nat) (ys : List Symbol) (rs : List Rewriting) :
    undo (n + ys.length) (rs.map (·.before ys)) (rest + ys.length) = undo n rs rest := by
  induction rs generalizing rest with
  | nil =>
      rw [List.map_nil, undo, undo]
      congr 1
      omega
  | cons r later ih =>
      have hlen : (r.before ys).right.length = r.right.length + ys.length := by
        simp [Rewriting.before]
      rw [List.map_cons, undo, undo, hlen, ih]
      congr 3
      omega

theorem length_le_reach_before (n : Nat) (ys : List Symbol) (rs : List Rewriting) :
    ys.length ≤ reach (n + ys.length) (rs.map (·.before ys)) := by
  cases rs with
  | nil => simp [reach]
  | cons r later => simp [reach, Rewriting.before]

/-- Undoing a derivation in two parts: its first rewritings lie over the back `ys` of a word,
behind `xs`, and the later ones over the `n` symbols in front. -/
theorem Rightmost.undo_append {xs ys : List Symbol} {front back : List Rewriting} {n rest : Nat}
    (h : Rightmost g form back ys) (hrest : rest ≤ reach ys.length back) :
    undo (n + ys.length) (back.map (·.behind xs) ++ front.map (·.before ys)) rest =
      undo n front 0 ++ undo ys.length back rest := by
  induction h generalizing rest with
  | refl ys =>
      have hfront := undo_before n 0 ys front
      rw [Nat.zero_add] at hfront
      rw [List.map_nil, List.nil_append,
        ← undo_append_shifts (length_le_reach_before n ys front) hrest, hfront, undo]
  | @step r p later ys hp hright hlater ih =>
      have hreach := hlater.le_reach rfl hright
      rw [List.map_cons, List.cons_append, undo, undo]
      show undo _ _ r.right.length ++ _ = _
      rw [ih hreach, List.append_assoc]
      rfl

end Context

namespace Derivation

variable {g : Grammar}

mutual

/-- A derivation tree is a rightmost derivation, undone by the moves that build the tree. -/
theorem From.rightmost {x : Symbol} {t : Derivation} (h : From g x t) :
    ∃ rs, Rightmost g [x] rs t.yield ∧ undo t.yield.length rs 0 = t.moves := by
  cases h with
  | leaf _ => exact ⟨[], .refl _, rfl⟩
  | @node i p children hp hchildren =>
      obtain ⟨rs, hrs, hmoves⟩ := hchildren.rightmost
      refine ⟨⟨i, [], []⟩ :: rs, ?_, ?_⟩
      · refine Rightmost.step (r := ⟨i, [], []⟩) hp (fun _ hx => absurd hx List.not_mem_nil) ?_
        simpa using hrs
      · rw [undo, moves, ← hmoves]
        rfl

/-- Derivation trees make a rightmost derivation that works on the last tree first. -/
theorem FromAll.rightmost {xs : List Symbol} {ts : List Derivation} (h : FromAll g xs ts) :
    ∃ rs, Rightmost g xs rs (yieldAll ts) ∧ undo (yieldAll ts).length rs 0 = movesAll ts := by
  cases h with
  | nil => exact ⟨[], .refl _, rfl⟩
  | @cons x xs t ts ht hts =>
      obtain ⟨front, hfront, hfrontMoves⟩ := ht.rightmost
      obtain ⟨back, hback, hbackMoves⟩ := hts.rightmost
      refine ⟨back.map (·.behind [x]) ++ front.map (·.before (yieldAll ts)), ?_, ?_⟩
      · rw [yieldAll_cons]
        exact (hback.behind [x]).trans (hfront.before hts.yield_terminal)
      · rw [yieldAll_cons, List.length_append, hback.undo_append (Nat.zero_le _), hfrontMoves,
          hbackMoves, movesAll]

end

end Derivation

end FrontEnd
