/-
# `Regex.Descent` — reading a regular expression by positions

`ofSpan` takes slices, which can never be wrong about where they end.  A reader that leaves the
source as it is and only hands positions around has more ways to fail: it can look where the source
has no character, close a group that is not open, or go on for ever.  The search for the end of a
group (`partnerAt`) in particular runs to the end of the source, so the operand at the front of a
stretch might well reach beyond the stretch.

`readFrom` is that reader, with each of these failures as a way to halt (`Halt`).  None of them
happens if the parentheses of the source are in pairs.  The invariant is that a stretch which is
read holds a span with pairs (`Reached.exists_span`): on such a stretch one cut does what
`Span.shape` does (`cut_stretch`), its parts hold spans with pairs again (`Cuts.paired`), and they
are shorter (`Span.length_part`).
-/
import FrontEnd.Proofs.Regex.Faults

namespace FrontEnd.Regex

/-! ## The reader -/

/-- The positions from `start` up to `stop`. -/
structure Stretch where
  start : Nat
  stop : Nat
  deriving DecidableEq, Repr

/-- How many positions there are. -/
def Stretch.length (r : Stretch) : Nat := r.stop - r.start

/-- Why reading comes to a halt. -/
inductive Halt where
  /-- What is read is no expression. -/
  | refused (e : RegexError)
  /-- The source has no character at this position. -/
  | outside (pos : Nat)
  /-- The parenthesis at this position closes no group. -/
  | unopened (pos : Nat)
  /-- There are more stretches inside each other than there may be. -/
  | endless
  deriving DecidableEq, Repr

/-- What a stretch falls apart into; the stretches of a `Shape`. -/
inductive Cut where
  | literal (c : Char)
  | group (inner : Stretch)
  | union (left right : Stretch)
  | factor (operand : Stretch) (stars : Nat) (rest : Option Stretch)
  deriving DecidableEq, Repr

/-- The stretches that are read next. -/
def Cut.parts : Cut → List Stretch
  | literal _ => []
  | group inner => [inner]
  | union left right => [left, right]
  | factor operand _ rest => operand :: rest.toList

section Reader

variable (source : List Char)

/-- The character at `p`. -/
def charAt (p : Nat) : Except Halt Char :=
  match source[p]? with
  | some c => .ok c
  | none => .error (.outside p)

/-- Where the group that opens at `p` is closed, anywhere in the source. -/
def partnerAt (p : Nat) : Except Halt Nat :=
  match closing 0 (source.drop p) with
  | some n => .ok (p + (n - 1))
  | none => .error (.refused (.unbalancedParen p))

/-- With `depth` groups open at `p`: where the first bar outside of any group is, among the next
characters, as many as the last argument says. -/
def barAt (depth p : Nat) : Nat → Except Halt (Option Nat)
  | 0 => return none
  | n + 1 => do
    let c ← charAt source p
    if c = '(' then barAt (depth + 1) (p + 1) n
    else if c = ')' then
      if depth = 0 then throw (.unopened p) else barAt (depth - 1) (p + 1) n
    else if c = '|' ∧ depth = 0 then return some p
    else barAt depth (p + 1) n

/-- Where the operand at `p` ends. -/
def operandEnd (p : Nat) : Except Halt Nat := do
  let c ← charAt source p
  if c = '(' then
    let q ← partnerAt source p
    return q + 1
  else if c = ')' then throw (.refused (.unbalancedParen p))
  else if c = '*' then throw (.refused (.danglingStar p))
  else if c = '|' then throw (.refused (.emptyOperand p))
  else return p + 1

/-- Where the repetition signs at `p` end, among the next characters, as many as the last argument
says. -/
def starsEnd (p : Nat) : Nat → Except Halt Nat
  | 0 => return p
  | n + 1 => do
    let c ← charAt source p
    if c = '*' then starsEnd (p + 1) n else return p

/-- The character at `p`, alone in its stretch. -/
def literalAt (p : Nat) : Except Halt Cut := do
  let c ← charAt source p
  if c = '(' ∨ c = ')' then throw (.refused (.unbalancedParen p))
  else if c = '*' then throw (.refused (.danglingStar p))
  else if c = '|' then throw (.refused (.emptyOperand p))
  else return .literal c

/-- Whether the stretch is one group and nothing else. -/
def isGroup (r : Stretch) : Except Halt Bool := do
  let c ← charAt source r.start
  if c = '(' then
    let q ← partnerAt source r.start
    return q + 1 = r.stop
  else return false

/-- Cuts a stretch behind its first operand and the repetition signs of that. -/
def cutOperand (r : Stretch) : Except Halt Cut := do
  let stop ← operandEnd source r.start
  let rest ← starsEnd source stop (r.stop - stop)
  return .factor ⟨r.start, stop⟩ (rest - stop) (if rest = r.stop then none else some ⟨rest, r.stop⟩)

/-- Cuts a stretch of two characters or more. -/
def divide (r : Stretch) : Except Halt Cut := do
  if ← isGroup source r then
    return .group ⟨r.start + 1, r.stop - 1⟩
  else
    match ← barAt source 0 r.start r.length with
    | some bar => return .union ⟨r.start, bar⟩ ⟨bar + 1, r.stop⟩
    | none => cutOperand source r

/-- Cuts a stretch. -/
def cut (r : Stretch) : Except Halt Cut :=
  if r.stop ≤ r.start then .error (.refused (.emptyOperand r.start))
  else if r.stop = r.start + 1 then literalAt source r.start
  else divide source r

/-- Reads a stretch, with at most so many stretches inside each other. -/
def readFrom : Nat → Stretch → Except Halt Regex
  | 0, _ => throw .endless
  | depth + 1, r => do
    match ← cut source r with
    | .literal c => return .symbol c
    | .group inner => readFrom depth inner
    | .union left right =>
      let l ← readFrom depth left
      let r ← readFrom depth right
      return .union l r
    | .factor operand stars none =>
      let first ← readFrom depth operand
      return first.starred stars
    | .factor operand stars (some rest) =>
      let first ← readFrom depth operand
      let second ← readFrom depth rest
      return .concat (first.starred stars) second

/-- The stretches that are read: the whole source, and what these are cut into.  Those behind a
stretch that is refused are among them, though the reader does not get there. -/
inductive Reached : Stretch → Prop
  | whole : Reached ⟨0, source.length⟩
  | part {r t : Stretch} {c : Cut} : Reached r → cut source r = .ok c → t ∈ c.parts → Reached t

end Reader

/-! ## Spans in place -/

/-- Where the span is. -/
def Span.stretch (s : Span) : Stretch := ⟨s.start, s.start + s.length⟩

theorem length_stretch (s : Span) : s.stretch.length = s.length :=
  Nat.add_sub_cancel_left s.start s.length

/-- Where the parts of the shape are. -/
def Shape.cut : Shape → Cut
  | literal c => .literal c
  | group inner => .group inner.stretch
  | union left right => .union left.stretch right.stretch
  | factor operand stars rest => .factor operand.stretch stars (rest.map Span.stretch)

theorem Shape.parts_cut (shape : Shape) : shape.cut.parts = shape.parts.map Span.stretch := by
  cases shape with
  | factor operand stars rest => cases rest <;> rfl
  | _ => rfl

/-- The characters of the span stand in the source, from its start on. -/
def Span.In (s : Span) (source : List Char) : Prop :=
  ∃ front back, source = front ++ (s.chars ++ back) ∧ s.start = front.length

namespace Span.In

variable {s : Span} {source : List Char}

theorem drop_eq (h : s.In source) : ∃ back, source.drop s.start = s.chars ++ back := by
  obtain ⟨front, back, rfl, hstart⟩ := h
  exact ⟨back, by rw [hstart, List.drop_left]⟩

theorem stop_le (h : s.In source) : s.start + s.length ≤ source.length := by
  obtain ⟨front, back, rfl, hstart⟩ := h
  rw [hstart, Span.length, List.length_append, List.length_append]
  omega

theorem within {t : Span} {before after : List Char} (h : s.In source)
    (hchars : s.chars = before ++ (t.chars ++ after)) (hstart : t.start = s.start + before.length) :
    t.In source := by
  obtain ⟨front, back, rfl, hfront⟩ := h
  refine ⟨front ++ before, after ++ back, ?_, ?_⟩
  · rw [hchars]
    simp only [List.append_assoc]
  · rw [hstart, hfront, List.length_append]

end Span.In

/-- The parts of a span are pieces of it. -/
theorem Cuts.within {start : Nat} {cs : List Char} {shape : Shape}
    (h : Cuts start cs (.ok shape)) {t : Span} (ht : t ∈ shape.parts) :
    ∃ before after, cs = before ++ (t.chars ++ after) ∧ t.start = start + before.length := by
  cases h with
  | literal => exact nomatch ht
  | group =>
      obtain rfl := List.mem_singleton.mp ht
      exact ⟨['('], [')'], rfl, rfl⟩
  | @union ds es =>
      rcases List.mem_pair.mp ht with rfl | rfl
      · exact ⟨[], '|' :: es, rfl, rfl⟩
      · exact ⟨ds ++ ['|'], [], by simp, by simp⟩
  | @factor os rest n =>
      rcases List.mem_cons.mp ht with rfl | ht
      · exact ⟨[], _, rfl, rfl⟩
      · obtain ⟨hne, rfl⟩ : rest ≠ [] ∧ t = ⟨start + (os.length + n), rest⟩ := by
          split at ht
          · exact nomatch ht
          · rename_i hne
            exact ⟨hne, List.mem_singleton.mp ht⟩
        exact ⟨os ++ List.replicate n '*', [], by simp, by simp⟩

/-! ## Characters at their positions -/

section Positions

variable {source cs rest : List Char} {c : Char} {p : Nat}

theorem drop_add (h : source.drop p = cs ++ rest) : source.drop (p + cs.length) = rest := by
  rw [← List.drop_drop, h, List.drop_left]

theorem drop_succ (h : source.drop p = c :: rest) : source.drop (p + 1) = rest := by
  rw [← List.drop_drop, h]
  rfl

theorem charAt_eq (h : source.drop p = c :: rest) : charAt source p = .ok c := by
  have hat : source[p]? = some c := by
    rw [← Nat.add_zero p, ← List.getElem?_drop, h]
    rfl
  rw [charAt, hat]

theorem partnerAt_eq (h : source.drop p = '(' :: (cs ++ ')' :: rest)) (hcs : Paired true cs) :
    partnerAt source p = .ok (p + (cs.length + 1)) := by
  rw [partnerAt, h, closing_group hcs]
  rfl

theorem starsEnd_eq (h : source.drop p = cs ++ rest) :
    starsEnd source p cs.length = .ok (p + (cs.takeWhile (· = '*')).length) := by
  induction cs generalizing p with
  | nil => rfl
  | cons c cs ih =>
      rw [List.length_cons, starsEnd, charAt_eq h]
      show (if c = '*' then starsEnd source (p + 1) cs.length else .ok p) = _
      by_cases hc : c = '*'
      · rw [if_pos hc, ih (drop_succ h), List.takeWhile_cons_of_pos (by simpa using hc),
          List.length_cons, Nat.add_assoc, Nat.add_comm 1]
      · rw [if_neg hc, List.takeWhile_cons_of_neg (by simpa using hc)]
        rfl

theorem barAt_open {depth n : Nat} (h : source.drop p = '(' :: rest) :
    barAt source depth p (n + 1) = barAt source (depth + 1) (p + 1) n := by
  rw [barAt, charAt_eq h]
  rfl

theorem barAt_close {depth n : Nat} (h : source.drop p = ')' :: rest) :
    barAt source (depth + 1) p (n + 1) = barAt source depth (p + 1) n := by
  rw [barAt, charAt_eq h]
  rfl

theorem barAt_bar {n : Nat} (h : source.drop p = '|' :: rest) :
    barAt source 0 p (n + 1) = .ok (some p) := by
  rw [barAt, charAt_eq h]
  rfl

theorem barAt_char {depth n : Nat} (h : source.drop p = c :: rest) (hopen : c ≠ '(')
    (hclose : c ≠ ')') (hbar : ¬ (c = '|' ∧ depth = 0)) :
    barAt source depth p (n + 1) = barAt source depth (p + 1) n := by
  rw [barAt, charAt_eq h]
  show (if c = '(' then _ else if c = ')' then _ else _) = _
  rw [if_neg hopen, if_neg hclose, if_neg hbar]

/-- The search for a bar passes over pairs, and its depth is the old one behind them. -/
theorem Paired.barAt_append {bars : Bool} (h : Paired bars cs) :
    ∀ {rest : List Char} {depth p n : Nat}, (bars = true → 0 < depth) →
      source.drop p = cs ++ rest →
        barAt source depth p (cs.length + n) = barAt source depth (p + cs.length) n := by
  induction h with
  | nil =>
      intro rest depth p n _ _
      rw [List.length_nil, Nat.zero_add, Nat.add_zero]
  | @char bars c cs hopen hclose hbar _ ih =>
      intro rest depth p n hdepth hat
      have hnot : ¬ (c = '|' ∧ depth = 0) := by
        rintro ⟨hc, rfl⟩
        exact absurd (hdepth (hbar hc)) (Nat.lt_irrefl 0)
      rw [List.length_cons, Nat.add_right_comm, barAt_char hat hopen hclose hnot,
        ih hdepth (drop_succ hat), Nat.add_assoc, Nat.add_comm 1]
  | @group bars inner ds _ _ ihinner ihds =>
      intro rest depth p n hdepth hat
      have hinner : source.drop (p + 1) = inner ++ ')' :: (ds ++ rest) := by
        rw [drop_succ hat, List.append_eq, List.append_assoc, List.cons_append]
      have hclose := drop_add hinner
      have hlength : ('(' :: (inner ++ ')' :: ds)).length + n =
          inner.length + (ds.length + n + 1) + 1 := by
        simp only [List.length_cons, List.length_append]
        omega
      rw [hlength, barAt_open hat, ihinner (fun _ => Nat.succ_pos depth) hinner,
        barAt_close hclose, ihds hdepth (drop_succ hclose)]
      congr 1
      simp only [List.length_cons, List.length_append]
      omega

/-- The search for a bar in a stretch with pairs finds the first one of the span. -/
theorem Paired.barAt_eq {bars : Bool} (h : Paired bars cs) :
    ∀ {rest : List Char} {p : Nat}, source.drop p = cs ++ rest →
      barAt source 0 p cs.length = .ok ((firstBar 0 cs).map (p + ·)) := by
  induction h with
  | nil =>
      intro rest p _
      rfl
  | @char _ c cs hopen hclose _ _ ih =>
      intro rest p hat
      rw [List.length_cons, firstBar, if_neg hopen, if_neg hclose]
      by_cases hbar : c = '|'
      · subst hbar
        rw [barAt_bar hat, if_pos ⟨rfl, rfl⟩]
        rfl
      · have hnot : ¬ (c = '|' ∧ 0 = 0) := fun h => hbar h.1
        rw [barAt_char hat hopen hclose hnot, ih (drop_succ hat), if_neg hnot, Option.map_map]
        congr 2
        funext i
        simp only [Function.comp]
        omega
  | @group _ inner ds hinner _ _ ih =>
      intro rest p hat
      have hgroup : Paired false ('(' :: (inner ++ [')'])) := .group hinner .nil
      have hsplit : '(' :: (inner ++ ')' :: ds) = '(' :: (inner ++ [')']) ++ ds := by simp
      rw [hsplit, List.append_assoc] at hat
      rw [hsplit, List.length_append, hgroup.barAt_append (absurd · Bool.false_ne_true) hat,
        ih (drop_add hat), hgroup.firstBar_append _ (absurd · Bool.false_ne_true), Option.map_map]
      congr 2
      funext i
      simp only [Function.comp]
      omega

end Positions

/-! ## One cut -/

section Cut

variable {source cs rest : List Char} {p : Nat}

/-- The halts of a reader that is only ever refused. -/
abbrev halted {α : Type} (result : Except RegexError α) : Except Halt α := result.mapError .refused

theorem operandEnd_eq (hcs : Paired true cs) (hne : cs ≠ []) (h : source.drop p = cs ++ rest) :
    operandEnd source p = halted ((Span.operand ⟨p, cs⟩).map (p + ·)) := by
  cases hcs with
  | nil => exact absurd rfl hne
  | @char _ c cs hopen hclose _ _ =>
      rw [operandEnd, charAt_eq h, Span.operand]
      show (if c = '(' then _ else if c = ')' then _ else if c = '*' then _ else _) = _
      rw [if_neg hopen, if_neg hclose]
      simp only [if_neg hopen, if_neg hclose]
      split
      · rfl
      · split <;> rfl
  | @group _ inner ds hinner _ =>
      rw [List.cons_append, List.append_assoc] at h
      rw [operandEnd, charAt_eq h]
      show (partnerAt source p >>= fun q => .ok (q + 1)) = _
      rw [partnerAt_eq h hinner, Span.operand_of_closing rfl (closing_group hinner ds)]
      rfl

theorem literalAt_eq {c : Char} (h : source.drop p = c :: rest) :
    literalAt source p = halted ((Span.shape ⟨p, [c]⟩).map Shape.cut) := by
  rw [literalAt, charAt_eq h, Span.shape, Span.operand]
  show (if c = '(' ∨ c = ')' then _ else if c = '*' then _ else _) = _
  by_cases hopen : c = '('
  · subst hopen
    rfl
  · by_cases hclose : c = ')'
    · subst hclose
      rfl
    · rw [if_neg (not_or.mpr ⟨hopen, hclose⟩)]
      simp only [if_neg hopen, if_neg hclose]
      split
      · rfl
      · split <;> rfl

theorem isGroup_eq (hcs : Paired true cs) (hne : cs ≠ []) (h : source.drop p = cs ++ rest) :
    isGroup source ⟨p, p + cs.length⟩ =
      .ok (cs.head? = some '(' ∧ closing 0 cs = some cs.length) := by
  cases hcs with
  | nil => exact absurd rfl hne
  | @char _ c cs hopen _ _ _ =>
      rw [isGroup, charAt_eq h]
      show (if c = '(' then _ else Except.ok false) = _
      simp [hopen]
  | @group _ inner ds hinner _ =>
      rw [List.cons_append, List.append_assoc] at h
      generalize hstop : p + ('(' :: (inner ++ ')' :: ds)).length = stop
      rw [isGroup, charAt_eq h, closing_group hinner]
      show (partnerAt source p >>= fun q => .ok (decide (q + 1 = stop))) = _
      rw [partnerAt_eq h hinner, ← hstop]
      show Except.ok (decide (p + (inner.length + 2) = _)) = _
      simp

theorem stretch_take {s : Span} {n : Nat} (h : n ≤ s.length) :
    (s.take n).stretch = ⟨s.start, s.start + n⟩ := by
  rw [Span.stretch, Span.length_take, Nat.min_eq_left h]
  rfl

theorem stretch_drop {s : Span} {n : Nat} (h : n ≤ s.length) :
    (s.drop n).stretch = ⟨s.start + n, s.start + s.length⟩ := by
  rw [Span.stretch, Span.length_drop]
  show Stretch.mk (s.start + n) (s.start + n + (s.length - n)) = _
  rw [Nat.add_assoc, Nat.add_sub_cancel' h]

theorem cut_factor {s : Span} {n : Nat} (h : n ≤ s.length) :
    (s.factor n).cut = .factor ⟨s.start, s.start + n⟩ (s.stars n)
      (if s.start + (n + s.stars n) = s.start + s.length then none
        else some ⟨s.start + (n + s.stars n), s.start + s.length⟩) := by
  have hle := Span.stars_le h
  show (if n + s.stars n < s.length then Shape.factor _ _ _ else Shape.factor _ _ _).cut = _
  split
  · rename_i hlt
    rw [if_neg (by omega)]
    show Cut.factor (s.take n).stretch (s.stars n) (some (s.drop (n + s.stars n)).stretch) = _
    rw [stretch_take h, stretch_drop hle]
  · rw [if_pos (by omega)]
    show Cut.factor (s.take n).stretch (s.stars n) none = _
    rw [stretch_take h]

theorem cutOperand_stretch {s : Span} (hne : s.chars ≠ []) (hin : s.In source)
    (hs : Paired true s.chars) :
    cutOperand source s.stretch = halted ((s.operand.map s.factor).map Shape.cut) := by
  obtain ⟨back, hat⟩ := hin.drop_eq
  have hend : operandEnd source s.stretch.start = halted (s.operand.map (s.start + ·)) :=
    operandEnd_eq hs hne hat
  rw [cutOperand, hend]
  cases hoperand : s.operand with
  | error e => rfl
  | ok n =>
      have hle : n ≤ s.length := (Span.operand_bounds hoperand).2.1
      have hrest : source.drop (s.start + n) = s.chars.drop n ++ back := by
        rw [← List.drop_drop, hat, List.drop_append_of_le_length hle]
      have hcount : s.stretch.stop - (s.start + n) = (s.chars.drop n).length := by
        rw [List.length_drop]
        exact Nat.add_sub_add_left s.start s.length n
      have hstars : starsEnd source (s.start + n) (s.stretch.stop - (s.start + n)) =
          .ok (s.start + n + s.stars n) := by
        rw [hcount, starsEnd_eq hrest]
        rfl
      show (starsEnd source (s.start + n) (s.stretch.stop - (s.start + n)) >>= _) =
        Except.ok (s.factor n).cut
      rw [hstars, cut_factor hle, ← Nat.add_assoc]
      show Except.ok (Cut.factor _ (s.start + n + s.stars n - (s.start + n)) _) = _
      rw [Nat.add_sub_cancel_left]
      rfl

theorem divide_stretch {s : Span} (htwo : 2 ≤ s.length) (hin : s.In source)
    (hs : Paired true s.chars) : divide source s.stretch = halted (s.shape.map Shape.cut) := by
  obtain ⟨back, hat⟩ := hin.drop_eq
  have hne : s.chars ≠ [] := List.ne_nil_of_length_pos (Nat.lt_of_lt_of_le Nat.two_pos htwo)
  have hwhole := isGroup_eq hs hne hat
  have hbars := hs.barAt_eq hat
  rw [divide, Span.shape_of_long htwo]
  split
  · rename_i hgroup
    replace hwhole : isGroup source s.stretch = .ok true :=
      hwhole.trans (congrArg _ (decide_eq_true hgroup))
    rw [hwhole]
    show Except.ok (Cut.group ⟨s.start + 1, s.start + s.length - 1⟩) =
      .ok (.group ((s.drop 1).take (s.length - 2)).stretch)
    rw [stretch_take (by rw [Span.length_drop]; omega)]
    congr 3
    show _ = s.start + 1 + (s.length - 2)
    omega
  · rename_i hgroup
    replace hwhole : isGroup source s.stretch = .ok false :=
      hwhole.trans (congrArg _ (decide_eq_false hgroup))
    replace hbars : barAt source 0 s.stretch.start s.stretch.length =
        .ok ((firstBar 0 s.chars).map (s.start + ·)) := by
      rw [← hbars, Stretch.length]
      exact congrArg _ (Nat.add_sub_cancel_left s.start s.length)
    rw [hwhole]
    show (barAt source 0 s.stretch.start s.stretch.length >>= _) = _
    rw [hbars]
    cases hbar : firstBar 0 s.chars with
    | some i =>
        have hlt : i < s.length := firstBar_lt hbar
        show Except.ok (Cut.union ⟨s.start, s.start + i⟩ ⟨s.start + i + 1, s.start + s.length⟩) =
          .ok (.union (s.take i).stretch (s.drop (i + 1)).stretch)
        rw [stretch_take (Nat.le_of_lt hlt), stretch_drop hlt, Nat.add_assoc s.start i 1]
    | none => exact cutOperand_stretch hne hin hs

/-- A stretch with pairs is cut where its span is. -/
theorem cut_stretch {s : Span} (hin : s.In source) (hs : Paired true s.chars) :
    cut source s.stretch = halted (s.shape.map Shape.cut) := by
  obtain ⟨back, hat⟩ := hin.drop_eq
  match s with
  | ⟨start, []⟩ => exact if_pos (Nat.le_refl _)
  | ⟨start, [c]⟩ =>
      refine (if_neg ?_).trans ((if_pos rfl).trans (literalAt_eq hat))
      exact Nat.not_succ_le_self start
  | ⟨start, c :: d :: cs⟩ =>
      have htwo : 2 ≤ Span.length ⟨start, c :: d :: cs⟩ := Nat.le_add_left 2 _
      rw [cut, if_neg, if_neg, divide_stretch htwo hin hs]
      · exact fun hstop => absurd (Nat.add_left_cancel hstop) (Nat.ne_of_gt htwo)
      · show ¬ start + _ ≤ start
        omega

end Cut

/-! ## Every stretch that is read -/

section Descent

variable {source : List Char}

/-- The parts of a span with pairs that lies in the source are such spans again, and shorter. -/
theorem part_of_paired {s t : Span} {shape : Shape} (hin : s.In source)
    (hs : Paired true s.chars) (hshape : s.shape = .ok shape) (ht : t ∈ shape.parts) :
    t.In source ∧ Paired true t.chars ∧ t.length < s.length := by
  have hcuts : Cuts s.start s.chars s.shape := cuts_shape hs s.start
  rw [hshape] at hcuts
  obtain ⟨before, after, hchars, hstart⟩ := hcuts.within ht
  exact ⟨hin.within hchars hstart, hcuts.paired t ht, Span.length_part hshape ht⟩

/-- The parts of a stretch with pairs. -/
theorem part_of_cut {s : Span} {t : Stretch} {c : Cut} (hin : s.In source)
    (hs : Paired true s.chars) (hcut : cut source s.stretch = .ok c) (ht : t ∈ c.parts) :
    ∃ u : Span, t = u.stretch ∧ u.In source ∧ Paired true u.chars ∧ u.length < s.length := by
  rw [cut_stretch hin hs] at hcut
  cases hshape : s.shape with
  | error e =>
      rw [hshape] at hcut
      exact nomatch hcut
  | ok shape =>
      rw [hshape] at hcut
      obtain rfl : shape.cut = c := Except.ok.inj hcut
      rw [Shape.parts_cut] at ht
      obtain ⟨u, hu, rfl⟩ := List.mem_map.mp ht
      exact ⟨u, rfl, part_of_paired hin hs hshape hu⟩

/-- What is read holds a span with pairs. -/
theorem Reached.exists_span {r : Stretch} (h : Reached source r) (hsource : Paired true source) :
    ∃ s : Span, r = s.stretch ∧ s.In source ∧ Paired true s.chars := by
  induction h with
  | whole =>
      refine ⟨⟨0, source⟩, ?_, ⟨[], [], by simp, rfl⟩, hsource⟩
      rw [Span.stretch, Nat.zero_add]
      rfl
  | @part r t c _ hcut ht ih =>
      obtain ⟨s, rfl, hin, hs⟩ := ih
      obtain ⟨u, rfl, huin, hupaired, -⟩ := part_of_cut hin hs hcut ht
      exact ⟨u, rfl, huin, hupaired⟩

theorem bind_halted {α β : Type} {reading : Except Halt α} {result : Except RegexError α}
    {next : α → Except Halt β} {f : α → Except RegexError β} (h : reading = halted result)
    (hnext : ∀ a, next a = halted (f a)) : reading >>= next = halted (result >>= f) := by
  subst h
  cases result with
  | error e => rfl
  | ok a => exact hnext a

/-- Reading a stretch with pairs is reading its span. -/
theorem readFrom_stretch {depth : Nat} : ∀ {s : Span}, s.In source → Paired true s.chars →
    s.length < depth → readFrom source depth s.stretch = halted (ofSpan s) := by
  induction depth with
  | zero => exact fun _ _ hdepth => absurd hdepth (Nat.not_lt_zero _)
  | succ depth ih =>
      intro s hin hs hdepth
      have hpart {shape : Shape} (hshape : s.shape = .ok shape) {t : Span}
          (ht : t ∈ shape.parts) : readFrom source depth t.stretch = halted (ofSpan t) := by
        obtain ⟨htin, htpaired, hlt⟩ := part_of_paired hin hs hshape ht
        exact ih htin htpaired (by omega)
      rw [readFrom, cut_stretch hin hs, ofSpan]
      split
      · rename_i hshape
        rw [hshape]
        rfl
      · rename_i hshape
        rw [hshape]
        rfl
      · rename_i inner hshape
        have hinner := hpart hshape (List.mem_singleton_self inner)
        rw [hshape]
        exact hinner
      · rename_i left right hshape
        have hleft := hpart hshape (t := left) (by simp [Shape.parts])
        have hright := hpart hshape (t := right) (by simp [Shape.parts])
        rw [hshape]
        exact bind_halted hleft fun l => bind_halted hright fun r => rfl
      · rename_i operand stars hshape
        have hoperand := hpart hshape (t := operand) (by simp [Shape.parts])
        rw [hshape]
        exact bind_halted hoperand fun first => rfl
      · rename_i operand stars rest hshape
        have hoperand := hpart hshape (t := operand) (by simp [Shape.parts])
        have hrest := hpart hshape (t := rest) (by simp [Shape.parts])
        rw [hshape]
        exact bind_halted hoperand fun first => bind_halted hrest fun second => rfl

/-- A span with pairs is never refused for a parenthesis. -/
theorem ofSpan_ne_unbalancedParen {s : Span} (hs : Paired true s.chars) (p : Nat) :
    ofSpan s ≠ .error (.unbalancedParen p) := by
  intro hrefused
  have hfault := error?_ofSpan_of_paired hs
  rw [error?_eq_some.mpr hrefused] at hfault
  rcases fault_cases s.chars true s.start with ⟨hnone, -⟩ | ⟨q, hsome, -⟩
  · rw [hnone] at hfault
    exact absurd hfault (Option.some_ne_none _)
  · have hreport := Option.some.inj (hfault.trans hsome)
    rw [faultAt] at hreport
    split at hreport
    · cases hreport
    · cases hreport

/-- A parenthesis inside of a span with pairs has its partner inside of it. -/
theorem Span.In.exists_partner {s : Span} (hin : s.In source) (hs : Paired true s.chars) {p : Nat}
    (hstart : s.start ≤ p) (hstop : p < s.stretch.stop)
    (hp : source[p]? = some '(' ∨ source[p]? = some ')') :
    ∃ q, s.start ≤ q ∧ q < s.stretch.stop ∧ (Partners source p q ∨ Partners source q p) := by
  obtain ⟨front, back, rfl, hfront⟩ := hin
  obtain ⟨i, rfl⟩ := Nat.exists_eq_add_of_le hstart
  have hi : i < s.chars.length := Nat.lt_of_add_lt_add_left hstop
  rw [hfront, List.getElem?_append_right (Nat.le_add_right _ _), Nat.add_sub_cancel_left,
    List.getElem?_append_left hi] at hp
  obtain ⟨j, hj⟩ := hs.exists_partner hp
  have hlt : j < s.chars.length := by
    rcases hj with hj | hj
    · exact (List.getElem?_eq_some_iff.mp hj.close_at).1
    · exact (List.getElem?_eq_some_iff.mp hj.open_at).1
  refine ⟨s.start + j, Nat.le_add_right _ _, Nat.add_lt_add_left hlt _, ?_⟩
  rw [hfront]
  exact hj.imp (·.within front back) (·.within front back)

/-- A group in front of a span with pairs is closed inside of it. -/
theorem Span.In.exists_close {s : Span} (hin : s.In source) (hs : Paired true s.chars)
    (hne : s.chars ≠ []) (hopen : source[s.start]? = some '(') :
    ∃ q, partnerAt source s.start = .ok q ∧ s.start < q ∧ q < s.stretch.stop ∧
      Partners source s.start q := by
  obtain ⟨back, hat⟩ := hin.drop_eq
  obtain ⟨start, chars⟩ := s
  rw [← Nat.add_zero start, ← List.getElem?_drop, hat] at hopen
  cases hs with
  | nil => exact absurd rfl hne
  | char hchar => exact absurd (Option.some.inj hopen) hchar
  | @group _ inner ds hinner _ =>
      have hgroup : source.drop start = '(' :: (inner ++ ')' :: (ds ++ back)) := by
        rw [hat, List.cons_append, List.append_assoc, List.cons_append]
      have hstart : (source.take start).length = start := by
        have hle : start ≤ source.length := Nat.le_trans (Nat.le_add_right _ _) hin.stop_le
        rw [List.length_take, Nat.min_eq_left hle]
      refine ⟨start + (inner.length + 1), partnerAt_eq hgroup hinner, ?_, ?_, ?_⟩
      · exact Nat.lt_add_of_pos_right (Nat.succ_pos _)
      · show _ < start + ('(' :: (inner ++ ')' :: ds)).length
        rw [List.length_cons, List.length_append, List.length_cons]
        omega
      · refine ⟨source.take start, inner, ds ++ back, ?_, hinner, hstart.symm, ?_⟩
        · rw [← hgroup, List.take_append_drop]
        · rw [hstart, Nat.add_assoc]

/-- What there is to say of a stretch that is read. -/
structure Orderly (source : List Char) (r : Stretch) : Prop where
  within : r.start ≤ r.stop ∧ r.stop ≤ source.length
  partnered : ∀ p, r.start ≤ p → p < r.stop → source[p]? = some '(' ∨ source[p]? = some ')' →
    ∃ q, r.start ≤ q ∧ q < r.stop ∧ (Partners source p q ∨ Partners source q p)
  /-- The search for the end of a group in front finds it inside. -/
  closed : r.start < r.stop → source[r.start]? = some '(' →
    ∃ q, partnerAt source r.start = .ok q ∧ r.start < q ∧ q < r.stop ∧ Partners source r.start q
  shrinks : ∀ c, cut source r = .ok c → ∀ t ∈ c.parts, t.length < r.length
  /-- Reading ends with an expression or with a report, which is not about a parenthesis. -/
  reads : ∃ result : Except RegexError Regex, (∀ p, result ≠ .error (.unbalancedParen p)) ∧
    ∀ depth, r.length < depth → readFrom source depth r = result.mapError .refused

theorem orderly_stretch {s : Span} (hin : s.In source) (hs : Paired true s.chars) :
    Orderly source s.stretch := by
  refine ⟨⟨Nat.le_add_right _ _, hin.stop_le⟩, fun p => hin.exists_partner hs, ?_, ?_, ?_⟩
  · intro hlt hopen
    have hpos : 0 < s.length := Nat.lt_add_right_iff_pos.mp hlt
    exact hin.exists_close hs (List.ne_nil_of_length_pos hpos) hopen
  · intro c hcut t ht
    obtain ⟨u, rfl, -, -, hlt⟩ := part_of_cut hin hs hcut ht
    rwa [length_stretch, length_stretch]
  · refine ⟨ofSpan s, ofSpan_ne_unbalancedParen hs, fun depth hdepth => ?_⟩
    rw [length_stretch] at hdepth
    exact readFrom_stretch hin hs hdepth

/-- **The descent.**  If a source of two characters or more has its parentheses in pairs, every
stretch that is read lies in the source, all its parentheses have partners inside of it, and its
parts are shorter; a group in front of it is closed inside of it; and reading it ends, with an
expression or with a report that is not about a parenthesis.  In particular the reader never looks
outside of the source, never closes a group that is not open, and reads of the source what `parse`
does. -/
theorem descent_orderly (source : String) (hlen : 2 ≤ source.toList.length)
    (hpairs : unpaired 0 [] source.toList = none) :
    (∀ r, Reached source.toList r → Orderly source.toList r) ∧
    (∀ p, parse source ≠ .error (.unbalancedParen p)) ∧
    ∀ depth, source.toList.length < depth →
      readFrom source.toList depth ⟨0, source.toList.length⟩ =
        (parse source).mapError .refused := by
  have hsource : Paired true source.toList := by
    rcases unpaired_cases source.toList with ⟨-, hpaired⟩ | ⟨p, hp, -⟩
    · exact hpaired
    · exact nomatch hpairs.symm.trans hp
  have hparse : parse source = ofSpan ⟨0, source.toList⟩ := by
    rw [parse_of_two hlen, hpairs]
  refine ⟨fun r hr => ?_, fun p => ?_, fun depth hdepth => ?_⟩
  · obtain ⟨s, rfl, hin, hs⟩ := hr.exists_span hsource
    exact orderly_stretch hin hs
  · rw [hparse]
    exact ofSpan_ne_unbalancedParen hsource p
  · have hwhole : Span.In ⟨0, source.toList⟩ source.toList := ⟨[], [], by simp, rfl⟩
    have hread := readFrom_stretch hwhole hsource hdepth
    rwa [Span.stretch, Nat.zero_add, ← hparse] at hread

/-- In `(a)|b` inside of the first group, the group in front does not reach the end. -/
theorem descent_orderly_nested :
    2 ≤ "((a)|b)*c".toList.length ∧ unpaired 0 [] "((a)|b)*c".toList = none ∧
      Reached "((a)|b)*c".toList ⟨1, 6⟩ ∧ Orderly "((a)|b)*c".toList ⟨1, 6⟩ ∧
      partnerAt "((a)|b)*c".toList 1 = .ok 3 := by
  have hfactor : Reached "((a)|b)*c".toList ⟨0, 7⟩ := .part .whole rfl List.mem_cons_self
  have hinner : Reached "((a)|b)*c".toList ⟨1, 6⟩ := .part hfactor rfl List.mem_cons_self
  have horderly := descent_orderly "((a)|b)*c" (by decide) (by decide)
  exact ⟨by decide, by decide, hinner, horderly.1 _ hinner, rfl⟩

/-- Where the parentheses are not in pairs, the search for a bar closes a group that is not open. -/
example : readFrom "a)|b".toList 5 ⟨0, 4⟩ = .error (.unopened 1) := rfl

end Descent

end FrontEnd.Regex
