/-
# `Regex.Faults` — a source that is no expression is refused at its first fault

Where the parentheses are in pairs, a source can only be wrong at a place where an operand has to
start and none does.  Whether one has to start there is said by the character in front, and whether
one does by the character itself: `Faulty` looks no further than that, and `fault` finds the first
such place in one scan from the left.

The parser cuts spans into parts and reports the first part that is wrong (`error?_ofSpan`).  So it
comes down to one cut: the parts of a span with pairs have pairs again (`Cuts.paired`), and the
first fault of the span is the first one of its parts, taken in order (`Cuts.fault`).  `Cuts` lists
the ways in which a span with pairs can be cut.
-/
import FrontEnd.Proofs.Regex.Partners
import Mathlib.Data.List.Basic

namespace FrontEnd.Regex

/-! ## Faulty places -/

/-- An operand has to start at `p`: behind an opening parenthesis or a bar, and at the start of the
text if `before` says so. -/
def Expects (before : Bool) (cs : List Char) : Nat → Prop
  | 0 => before = true
  | p + 1 => cs[p]? = some '(' ∨ cs[p]? = some '|'

/-- No operand starts at `p`. -/
def Bare (cs : List Char) (p : Nat) : Prop :=
  p = cs.length ∨ cs[p]? = some '*' ∨ cs[p]? = some '|' ∨ cs[p]? = some ')'

/-- An operand has to start at `p`, and none does. -/
def Faulty (before : Bool) (cs : List Char) (p : Nat) : Prop := Expects before cs p ∧ Bare cs p

instance (before : Bool) (cs : List Char) : (p : Nat) → Decidable (Expects before cs p)
  | 0 => inferInstanceAs (Decidable (before = true))
  | p + 1 => inferInstanceAs (Decidable (cs[p]? = some '(' ∨ cs[p]? = some '|'))

instance (cs : List Char) (p : Nat) : Decidable (Bare cs p) :=
  inferInstanceAs (Decidable (_ ∨ _ ∨ _ ∨ _))

instance (before : Bool) (cs : List Char) (p : Nat) : Decidable (Faulty before cs p) :=
  inferInstanceAs (Decidable (_ ∧ _))

/-- The report of a fault at `p`, in a text that starts at `start`. -/
def faultAt (start : Nat) (cs : List Char) (p : Nat) : RegexError :=
  if cs[p]? = some '*' then .danglingStar (start + p) else .emptyOperand (start + p)

/-- The first fault of a text. -/
def fault (before : Bool) (start : Nat) : List Char → Option RegexError
  | [] => if before then some (.emptyOperand start) else none
  | c :: cs =>
    if before = true ∧ c = '*' then some (.danglingStar start)
    else if before = true ∧ (c = '|' ∨ c = ')') then some (.emptyOperand start)
    else fault (c = '(' ∨ c = '|') (start + 1) cs

theorem faulty_zero {before : Bool} {c : Char} {cs : List Char} :
    Faulty before (c :: cs) 0 ↔ before = true ∧ (c = '*' ∨ c = '|' ∨ c = ')') := by
  simp [Faulty, Expects, Bare]

theorem faulty_succ {before : Bool} {c : Char} {cs : List Char} {p : Nat} :
    Faulty before (c :: cs) (p + 1) ↔ Faulty (c = '(' ∨ c = '|') cs p := by
  have hbare : Bare (c :: cs) (p + 1) ↔ Bare cs p := by simp [Bare]
  have hexpects : Expects before (c :: cs) (p + 1) ↔ Expects (c = '(' ∨ c = '|') cs p := by
    cases p <;> simp [Expects]
  rw [Faulty, Faulty, hbare, hexpects]

theorem faulty_nil {before : Bool} {p : Nat} : Faulty before [] p ↔ before = true ∧ p = 0 := by
  cases p <;> simp [Faulty, Expects, Bare]

/-- The scan finds the first faulty place, if there is one. -/
theorem fault_cases : ∀ (cs : List Char) (before : Bool) (start : Nat),
    fault before start cs = none ∧ (∀ p, ¬ Faulty before cs p) ∨
      ∃ p, fault before start cs = some (faultAt start cs p) ∧
        IsLeast {p | Faulty before cs p} p := by
  intro cs
  induction cs with
  | nil =>
      intro before start
      cases before with
      | false => exact Or.inl ⟨rfl, fun p hp => absurd (faulty_nil.mp hp).1 Bool.false_ne_true⟩
      | true => exact Or.inr ⟨0, rfl, faulty_nil.mpr ⟨rfl, rfl⟩, fun p _ => Nat.zero_le p⟩
  | cons c cs ih =>
      intro before start
      by_cases hzero : Faulty before (c :: cs) 0
      · refine Or.inr ⟨0, ?_, hzero, fun p _ => Nat.zero_le p⟩
        obtain ⟨rfl, rfl | hc⟩ := faulty_zero.mp hzero
        · rfl
        · have hstar : c ≠ '*' := by
            rcases hc with rfl | rfl <;> decide
          simp [fault, faultAt, hc, hstar]
      · have hscan : fault before start (c :: cs) = fault (c = '(' ∨ c = '|') (start + 1) cs := by
          have hnot := fun h => hzero (faulty_zero.mpr h)
          rw [fault, if_neg fun h => hnot ⟨h.1, Or.inl h.2⟩, if_neg fun h => hnot ⟨h.1, Or.inr h.2⟩]
        rw [hscan]
        rcases ih (c = '(' ∨ c = '|') (start + 1) with ⟨hnone, hfree⟩ | ⟨p, hsome, hp, hleast⟩
        · refine Or.inl ⟨hnone, ?_⟩
          intro p hp
          cases p with
          | zero => exact hzero hp
          | succ p => exact hfree p (faulty_succ.mp hp)
        · refine Or.inr ⟨p + 1, ?_, faulty_succ.mpr hp, ?_⟩
          · rw [hsome, faultAt, faultAt, List.getElem?_cons_succ, Nat.add_assoc, Nat.add_comm 1 p]
          · intro q hq
            cases q with
            | zero => exact absurd hq hzero
            | succ q => exact Nat.succ_le_succ (hleast (faulty_succ.mp hq))

/-! ## Faults of texts side by side -/

/-- Where a bar or a closing parenthesis comes, an operand that has not started yet is missing. -/
theorem fault_append (d : Char) (hd : d = '|' ∨ d = ')') (ds : List Char) :
    ∀ (cs : List Char) (before : Bool) (start : Nat),
      fault before start (cs ++ d :: ds) =
        (fault before start cs).or (fault (d = '|') (start + (cs.length + 1)) ds) := by
  intro cs
  induction cs with
  | nil =>
      intro before start
      rcases hd with rfl | rfl <;> cases before <;> rfl
  | cons c cs ih =>
      intro before start
      rw [List.cons_append, fault, fault]
      split
      · rfl
      · split
        · rfl
        · rw [ih, List.length_cons]
          congr 2
          omega

/-- Behind an operand, repetition signs are never faulty. -/
theorem fault_stars (n start : Nat) (cs : List Char) :
    fault false start (List.replicate n '*' ++ cs) = fault false (start + n) cs := by
  induction n generalizing start with
  | zero => rfl
  | succ n ih =>
      rw [List.replicate_succ, List.cons_append]
      show fault false (start + 1) (List.replicate n '*' ++ cs) = _
      rw [ih, Nat.add_assoc, Nat.add_comm 1 n]

/-- Where an operand starts, none is missing. -/
theorem fault_cons_of_ne {c : Char} (hstar : c ≠ '*') (hbar : c ≠ '|') (hclose : c ≠ ')')
    (before : Bool) (start : Nat) (cs : List Char) :
    fault before start (c :: cs) = fault (c = '(') (start + 1) cs := by
  rw [fault, if_neg (by simp [hstar]), if_neg (by simp [hbar, hclose])]
  simp [hbar]

/-! ## Cutting a span with pairs -/

/-- Where there are no parentheses, nothing has to be paired. -/
theorem Paired.of_plain {bars : Bool} {cs : List Char}
    (h : ∀ c ∈ cs, c ≠ '(' ∧ c ≠ ')' ∧ (c = '|' → bars = true)) : Paired bars cs := by
  induction cs with
  | nil => exact .nil
  | cons c cs ih =>
      obtain ⟨hopen, hclose, hbar⟩ := h c List.mem_cons_self
      exact .char hopen hclose hbar (ih fun d hd => h d (List.mem_cons_of_mem c hd))

theorem paired_stars (n : Nat) : Paired false (List.replicate n '*') := by
  refine .of_plain fun c hc => ?_
  rw [List.eq_of_mem_replicate hc]
  decide

theorem Paired.of_stars {bars : Bool} {n : Nat} {cs : List Char}
    (h : Paired bars (List.replicate n '*' ++ cs)) : Paired bars cs := by
  induction n with
  | zero => exact h
  | succ n ih =>
      rw [List.replicate_succ, List.cons_append] at h
      cases h with
      | char _ _ _ h => exact ih h

/-- On both sides of the first bar outside of groups there are pairs. -/
theorem Paired.exists_sides {bars : Bool} {cs : List Char} (h : Paired bars cs) :
    ∀ {i : Nat}, firstBar 0 cs = some i →
      ∃ ds es, cs = ds ++ '|' :: es ∧ i = ds.length ∧ Paired true ds ∧ Paired true es := by
  induction h with
  | nil =>
      intro i hi
      exact nomatch hi
  | @char _ c cs hopen hclose _ h ih =>
      intro i hi
      rw [firstBar, if_neg hopen, if_neg hclose] at hi
      split at hi
      · rename_i hbar
        obtain rfl := Option.some.inj hi
        exact ⟨[], cs, by rw [hbar.1]; rfl, rfl, .nil, h.weaken⟩
      · obtain ⟨j, hj, rfl⟩ := Option.map_eq_some_iff.mp hi
        obtain ⟨ds, es, rfl, rfl, hds, hes⟩ := ih hj
        exact ⟨c :: ds, es, rfl, rfl, .char hopen hclose (fun _ => rfl) hds, hes⟩
  | @group _ inner cs hinner _ _ ih =>
      intro i hi
      have hgroup : Paired false ('(' :: (inner ++ [')'])) := .group hinner .nil
      have hsplit : ∀ rest, '(' :: (inner ++ ')' :: rest) = '(' :: (inner ++ [')']) ++ rest := by
        simp
      rw [hsplit, hgroup.firstBar_append _ (absurd · Bool.false_ne_true)] at hi
      obtain ⟨j, hj, rfl⟩ := Option.map_eq_some_iff.mp hi
      obtain ⟨ds, es, rfl, rfl, hds, hes⟩ := ih hj
      refine ⟨'(' :: (inner ++ ')' :: ds), es, by simp, ?_, .group hinner hds, hes⟩
      rw [hsplit ds, List.length_append, Nat.add_comm]

/-- The first operand of a span: a character that is no operator, or a group. -/
inductive Operand : List Char → Prop
  | symbol {c : Char} : c ∉ operators → Operand [c]
  | group {cs : List Char} : Paired true cs → Operand ('(' :: (cs ++ [')']))

namespace Operand

variable {os : List Char}

theorem paired (h : Operand os) : Paired false os := by
  cases h with
  | symbol hc =>
      obtain ⟨hopen, hclose, hbar, -⟩ := notMem_operators.mp hc
      exact .char hopen hclose (fun hc => absurd hc hbar) .nil
  | group h => exact .group h .nil

theorem operand_eq (h : Operand os) (start : Nat) (rest : List Char) :
    Span.operand ⟨start, os ++ rest⟩ = .ok os.length := by
  cases h with
  | symbol hc => exact Span.operand_of_spells (.symbol hc) start rest
  | group h =>
      rw [List.cons_append, List.append_assoc]
      refine (Span.operand_of_closing rfl (closing_group h rest)).trans ?_
      simp

/-- The fault of an operand comes first, and behind it no other operand is expected. -/
theorem fault_append (h : Operand os) (start : Nat) (rest : List Char) :
    fault true start (os ++ rest) =
      (fault true start os).or (fault false (start + os.length) rest) := by
  cases h with
  | @symbol c hc =>
      obtain ⟨hopen, hclose, hbar, hstar⟩ := notMem_operators.mp hc
      rw [List.singleton_append, fault_cons_of_ne hstar hbar hclose,
        fault_cons_of_ne hstar hbar hclose, decide_eq_false hopen]
      rfl
  | @group cs h =>
      have hopen := fault_cons_of_ne (c := '(') (by decide) (by decide) (by decide) true start
      rw [List.cons_append, List.append_assoc, hopen, hopen]
      show fault true (start + 1) (cs ++ ')' :: rest) =
        (fault true (start + 1) (cs ++ ')' :: [])).or _
      rw [Regex.fault_append ')' (Or.inr rfl), Regex.fault_append ')' (Or.inr rfl), Option.or_assoc]
      congr 1
      show _ = fault false _ rest
      congr 1
      simp only [List.length_cons, List.length_append, List.length_nil]
      omega

end Operand

/-- `Cuts start cs result`: the ways in which a span with its parentheses in pairs is refused or
cut. -/
inductive Cuts (start : Nat) : List Char → Except RegexError Shape → Prop
  | nothing : Cuts start [] (.error (.emptyOperand start))
  | bar : Cuts start ['|'] (.error (.emptyOperand start))
  | star {cs : List Char} : Cuts start ('*' :: cs) (.error (.danglingStar start))
  | literal {c : Char} : c ∉ operators → Cuts start [c] (.ok (.literal c))
  | group {cs : List Char} : Paired true cs →
      Cuts start ('(' :: (cs ++ [')'])) (.ok (.group ⟨start + 1, cs⟩))
  | union {cs ds : List Char} : Paired true cs → Paired true ds →
      Cuts start (cs ++ '|' :: ds) (.ok (.union ⟨start, cs⟩ ⟨start + (cs.length + 1), ds⟩))
  | factor {os rest : List Char} {n : Nat} : Operand os → Paired true rest →
      (∀ c ∈ rest.head?, c ≠ '*' ∧ c ≠ '|') →
      Cuts start (os ++ (List.replicate n '*' ++ rest)) (.ok (.factor ⟨start, os⟩ n
        (if rest = [] then none else some ⟨start + (os.length + n), rest⟩)))

theorem exists_stars (cs : List Char) : ∃ n rest,
    cs = List.replicate n '*' ++ rest ∧ ∀ c ∈ rest.head?, c ≠ '*' := by
  induction cs with
  | nil => exact ⟨0, [], rfl, nofun⟩
  | cons c cs ih =>
      by_cases hc : c = '*'
      · obtain ⟨n, rest, rfl, hrest⟩ := ih
        exact ⟨n + 1, rest, by rw [hc]; rfl, hrest⟩
      · exact ⟨0, c :: cs, rfl, by simpa using hc⟩

theorem cuts_union {start i : Nat} {cs : List Char} (h : Paired true cs)
    (hbar : firstBar 0 cs = some i) :
    Cuts start cs (.ok (.union (Span.take ⟨start, cs⟩ i) (Span.drop ⟨start, cs⟩ (i + 1)))) := by
  obtain ⟨ds, es, rfl, rfl, hds, hes⟩ := h.exists_sides hbar
  have hright : (ds ++ '|' :: es).drop (ds.length + 1) = es := by
    rw [← List.drop_drop, List.drop_left]
    rfl
  rw [Span.take, Span.drop, List.take_left, hright]
  exact .union hds hes

theorem cuts_factor {start : Nat} {os more : List Char} (hos : Operand os)
    (hmore : Paired true more) (hbar : firstBar 0 (os ++ more) = none) :
    Cuts start (os ++ more) (.ok (Span.factor ⟨start, os ++ more⟩ os.length)) := by
  obtain ⟨n, rest, rfl, hrest⟩ := exists_stars more
  rw [Span.factor_of_stars hrest]
  refine .factor hos hmore.of_stars fun c hc => ⟨hrest c hc, ?_⟩
  rintro rfl
  -- a bar behind the repetition signs would be outside of any group
  obtain ⟨es, rfl⟩ := List.head?_eq_some_iff.mp hc
  have hfront := hos.paired.append (paired_stars n)
  rw [← List.append_assoc, hfront.firstBar_append _ nofun] at hbar
  exact nomatch hbar

theorem cuts_of_operand (start : Nat) {os more : List Char} (hos : Operand os)
    (hmore : Paired true more) (hne : more ≠ []) :
    Cuts start (os ++ more) (Span.shape ⟨start, os ++ more⟩) := by
  have hlt : os.length < Span.length ⟨start, os ++ more⟩ := by
    rw [Span.length, List.length_append]
    exact Nat.lt_add_of_pos_right (List.length_pos_iff.mpr hne)
  rw [Span.shape_of_operand (hos.operand_eq start more) hlt]
  cases hbar : firstBar 0 (os ++ more) with
  | some i => exact cuts_union (hos.paired.weaken.append hmore) hbar
  | none => exact cuts_factor hos hmore hbar

/-- With a bar or a repetition sign in front there is a bar to cut at, or the span is refused. -/
theorem cuts_of_operator (start : Nat) {c : Char} {cs : List Char} (hc : c = '|' ∨ c = '*')
    (hcs : Paired true cs) : Cuts start (c :: cs) (Span.shape ⟨start, c :: cs⟩) := by
  have hopen : c ≠ '(' := by
    rcases hc with rfl | rfl <;> decide
  have hclose : c ≠ ')' := by
    rcases hc with rfl | rfl <;> decide
  cases cs with
  | nil =>
      rcases hc with rfl | rfl
      · exact .bar
      · exact .star
  | cons d cs =>
      rw [Span.shape_of_long (Nat.le_add_left 2 _), if_neg fun h => hopen (Option.some.inj h.1)]
      dsimp only
      cases hbar : firstBar 0 (c :: d :: cs) with
      | some i => exact cuts_union (.char hopen hclose (fun _ => rfl) hcs) hbar
      | none =>
          rcases hc with rfl | rfl
          · exact absurd hbar (Option.some_ne_none 0)
          · exact .star

/-- A span with its parentheses in pairs is cut in one of these ways. -/
theorem cuts_shape {cs : List Char} (h : Paired true cs) (start : Nat) :
    Cuts start cs (Span.shape ⟨start, cs⟩) := by
  cases h with
  | nil => exact .nothing
  | @char _ c cs hopen hclose _ hcs =>
      by_cases hc : c ∉ operators
      · cases cs with
        | nil =>
            rw [Span.shape_symbol rfl (.symbol hc)]
            exact .literal hc
        | cons d cs => exact cuts_of_operand start (.symbol hc) hcs (List.cons_ne_nil d cs)
      · have hmem := Decidable.not_not.mp hc
        refine cuts_of_operator start ?_ hcs
        simpa [operators, hopen, hclose] using hmem
  | @group _ inner rest hinner hrest =>
      cases rest with
      | nil =>
          rw [Span.shape_group rfl]
          · exact .group hinner
          · exact (closing_group hinner []).trans (by simp [Span.length])
      | cons d rest =>
          have hcuts := cuts_of_operand start (.group hinner) hrest (List.cons_ne_nil d rest)
          simpa using hcuts

/-! ## The first fault of the parts -/

/-- The first report of a span that is refused or cut: its own, or that of the first of its parts
which has one. -/
def report (f : Span → Option RegexError) : Except RegexError Shape → Option RegexError
  | .error e => some e
  | .ok shape => shape.parts.foldr (fun t later => (f t).or later) none

theorem report_congr {f g : Span → Option RegexError} {result : Except RegexError Shape}
    (h : ∀ shape, result = .ok shape → ∀ t ∈ shape.parts, f t = g t) :
    report f result = report g result := by
  cases result with
  | error e => rfl
  | ok shape =>
      refine List.foldr_ext _ _ _ fun t ht later => ?_
      rw [h shape rfl t ht]

/-- Why nothing was read. -/
def error? : Except RegexError Regex → Option RegexError
  | .error e => some e
  | .ok _ => none

theorem error?_eq_some {result : Except RegexError Regex} {e : RegexError} :
    error? result = some e ↔ result = .error e := by
  cases result <;> simp [error?]

theorem error?_eq_none {result : Except RegexError Regex} :
    error? result = none ↔ ∃ e, result = .ok e := by
  cases result <;> simp [error?]

/-- The parser reports what is wrong with a span itself, or else with the first of its parts that
is wrong. -/
theorem error?_ofSpan (s : Span) :
    error? (ofSpan s) = report (fun t => error? (ofSpan t)) s.shape := by
  rw [ofSpan]
  split
  · rename_i hshape
    rw [hshape]
    rfl
  · rename_i hshape
    rw [hshape]
    rfl
  · rename_i inner hshape
    rw [hshape]
    exact Option.or_none.symm
  · rename_i left right hshape
    rw [hshape]
    show _ = (error? (ofSpan left)).or ((error? (ofSpan right)).or none)
    cases ofSpan left <;> cases ofSpan right <;> rfl
  · rename_i operand stars hshape
    rw [hshape]
    show _ = (error? (ofSpan operand)).or none
    cases ofSpan operand <;> rfl
  · rename_i operand stars rest hshape
    rw [hshape]
    show _ = (error? (ofSpan operand)).or ((error? (ofSpan rest)).or none)
    cases ofSpan operand <;> cases ofSpan rest <;> rfl

namespace Cuts

variable {start : Nat} {cs : List Char}

/-- The parts of a span with pairs have pairs. -/
theorem paired {shape : Shape} (h : Cuts start cs (.ok shape)) :
    ∀ t ∈ shape.parts, Paired true t.chars := by
  cases h with
  | literal => exact nofun
  | group hinner => simpa [Shape.parts] using hinner
  | union hleft hright => simpa [Shape.parts] using ⟨hleft, hright⟩
  | factor hos hrest => simpa [Shape.parts] using ⟨hos.paired.weaken, fun _ => hrest⟩

/-- The first fault of a span with pairs is the first one of its parts. -/
theorem fault {result : Except RegexError Shape} (h : Cuts start cs result) :
    fault true start cs = report (fun t => Regex.fault true t.start t.chars) result := by
  cases h with
  | nothing => rfl
  | bar => rfl
  | star => rfl
  | literal hc =>
      obtain ⟨hopen, hclose, hbar, hstar⟩ := notMem_operators.mp hc
      rw [fault_cons_of_ne hstar hbar hclose, decide_eq_false hopen]
      rfl
  | @group inner hinner =>
      rw [fault_cons_of_ne (by decide) (by decide) (by decide)]
      exact fault_append ')' (Or.inr rfl) [] inner true (start + 1)
  | union =>
      rw [fault_append '|' (Or.inl rfl)]
      exact congrArg _ Option.or_none.symm
  | @factor os rest n hos hrest hhead =>
      rw [hos.fault_append, fault_stars, Nat.add_assoc]
      refine congrArg _ ?_
      cases rest with
      | nil => rfl
      | cons c rest =>
          -- a rest is only there where a further operand starts
          have hclose : c ≠ ')' := by
            cases hrest with
            | char _ hclose => exact hclose
            | group => decide
          obtain ⟨hstar, hbar⟩ := hhead c rfl
          have hstarts := fault_cons_of_ne hstar hbar hclose
          refine (hstarts false _ rest).trans (hstarts true _ rest).symm |>.trans ?_
          exact Option.or_none.symm

end Cuts

/-- What the parser reports of a span with pairs is its first fault. -/
theorem error?_ofSpan_of_paired : ∀ {s : Span}, Paired true s.chars →
    error? (ofSpan s) = fault true s.start s.chars := by
  intro s
  generalize hsize : s.length = size
  induction size using Nat.strongRecOn generalizing s with
  | _ size ih =>
      intro hs
      subst hsize
      have hcuts : Cuts s.start s.chars s.shape := cuts_shape hs s.start
      rw [error?_ofSpan, hcuts.fault]
      refine report_congr fun shape hshape t ht => ?_
      rw [hshape] at hcuts
      exact ih t.length (Span.length_part hshape ht) rfl (hcuts.paired t ht)

/-- **Errors of expressions.**  A source of two or more characters in which some parenthesis has no
partner is refused at the first such parenthesis.  Otherwise it is read exactly when no place is
faulty, and else it is refused at the first faulty place: for a repetition sign if there is one, and
for a missing operand in all other cases. -/
theorem parse_error_at_first_fault (source : String) (hlen : 2 ≤ source.toList.length) :
    (∀ p, Alone source.toList p → ∃ q, IsLeast {q | Alone source.toList q} q ∧
      parse source = .error (.unbalancedParen q)) ∧
    ((∀ p, ¬ Alone source.toList p) →
      ((∃ e, parse source = .ok e) ↔ ∀ p, ¬ Faulty true source.toList p) ∧
      ∀ p, Faulty true source.toList p → ∃ q, IsLeast {q | Faulty true source.toList q} q ∧
        parse source = .error
          (if source.toList[q]? = some '*' then .danglingStar q else .emptyOperand q)) := by
  have hparse := parse_of_two hlen
  rcases unpaired_cases source.toList with ⟨hnone, hpaired⟩ | ⟨q, hq, hleast⟩
  · rw [hnone] at hparse
    have herror := error?_ofSpan_of_paired (s := ⟨0, source.toList⟩) hpaired
    refine ⟨fun p hp => absurd hp (hpaired.not_alone p), fun _ => ?_⟩
    rw [hparse]
    rcases fault_cases source.toList true 0 with ⟨hfault, hfree⟩ | ⟨q, hfault, hleast⟩
    · have hread := error?_eq_none.mp (herror.trans hfault)
      exact ⟨⟨fun _ => hfree, fun _ => hread⟩, fun p hp => absurd hp (hfree p)⟩
    · have hrefused := error?_eq_some.mp (herror.trans hfault)
      rw [faultAt, Nat.zero_add] at hrefused
      refine ⟨⟨?_, fun hfree => absurd hleast.1 (hfree q)⟩, fun _ _ => ⟨q, hleast, hrefused⟩⟩
      rintro ⟨e, hread⟩
      exact nomatch hrefused.symm.trans hread
  · rw [hq] at hparse
    exact ⟨fun _ _ => ⟨q, hleast, hparse⟩, fun hfree => absurd hleast.1 (hfree q)⟩

/-- A parenthesis without a partner is reported though the repetition sign in front is wrong, too,
and a missing operand in a group before the repetition sign that is wrong outside of it. -/
theorem parse_error_at_first_fault_of_several :
    (2 ≤ "*a)(".toList.length ∧ Alone "*a)(".toList 2 ∧
      parse "*a)(" = .error (.unbalancedParen 2)) ∧
    2 ≤ "(a|)*|*".toList.length ∧ (∀ p, ¬ Alone "(a|)*|*".toList p) ∧
      Faulty true "(a|)*|*".toList 6 ∧ parse "(a|)*|*" = .error (.emptyOperand 3) := by
  have hfront : Paired true "*a".toList := .of_plain (by simp)
  have halone : Alone "*a)(".toList 2 := alone_close hfront ['(']
  have hinner : Paired true "a|".toList := .of_plain (by simp)
  have hbehind : Paired true "*|*".toList := .of_plain (by simp)
  have hpaired : Paired true "(a|)*|*".toList := .group hinner hbehind
  refine ⟨⟨by decide, halone, ?_⟩, by decide, hpaired.not_alone, by decide, ?_⟩
  · obtain ⟨q, hq, hparse⟩ := (parse_error_at_first_fault "*a)(" (by decide)).1 2 halone
    have hbefore : ∀ p < 2, ¬ ("*a)(".toList[p]? = some '(' ∨ "*a)(".toList[p]? = some ')') := by
      decide
    have hge : 2 ≤ q := Nat.le_of_not_lt fun hlt => hbefore q hlt hq.1.1
    rwa [Nat.le_antisymm (hq.2 halone) hge] at hparse
  · obtain ⟨q, hq, hparse⟩ :=
      ((parse_error_at_first_fault "(a|)*|*" (by decide)).2 hpaired.not_alone).2 6 (by decide)
    have hbefore : ∀ p < 3, ¬ Faulty true "(a|)*|*".toList p := by decide
    have hge : 3 ≤ q := Nat.le_of_not_lt fun hlt => hbefore q hlt hq.1
    have hle : q ≤ 3 := hq.2 (by decide : Faulty true "(a|)*|*".toList 3)
    obtain rfl := Nat.le_antisymm hle hge
    exact hparse

end FrontEnd.Regex
