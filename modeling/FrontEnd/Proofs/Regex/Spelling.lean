/-
# `Regex.Spelling` — a source spells what the grammar of expressions says

The grammar, from the weakest operator to the strongest:

    expression     a concatenation, or a concatenation, `|` and an expression
    concatenation  an item, or an item and a concatenation
    item           an operand, or an item and `*`
    operand        a character that is no operator, or `(`, an expression and `)`

`Spells category cs e` has one rule for each line, with the tree that it makes.

The parser does not go by these rules.  It looks for the parenthesis that closes a group and for
the first bar outside of any group, and cuts there.  That these cuts are the ones of the
grammar comes down to one fact: whatever the grammar derives has its parentheses in pairs
(`Spells.paired`), so a search that counts them passes over it (`Paired.closing_append`,
`Paired.firstBar_append`, `Paired.unpaired_append`).
-/
import FrontEnd.Regex.Parse

namespace FrontEnd.Regex

/-! ## The grammar -/

/-- What a part of an expression can be. -/
inductive Category where
  | expression
  | concatenation
  | item
  | operand

/-- The characters that do not stand for themselves. -/
def operators : List Char := ['(', ')', '|', '*']

/-- `Spells category cs e`: the characters are derived from the category, with the tree `e`. -/
inductive Spells : Category → List Char → Regex → Prop
  | single {cs : List Char} {e : Regex} : Spells .concatenation cs e → Spells .expression cs e
  | union {cs ds : List Char} {e f : Regex} : Spells .concatenation cs e →
      Spells .expression ds f → Spells .expression (cs ++ '|' :: ds) (.union e f)
  | item {cs : List Char} {e : Regex} : Spells .item cs e → Spells .concatenation cs e
  | concat {cs ds : List Char} {e f : Regex} : Spells .item cs e →
      Spells .concatenation ds f → Spells .concatenation (cs ++ ds) (.concat e f)
  | operand {cs : List Char} {e : Regex} : Spells .operand cs e → Spells .item cs e
  | star {cs : List Char} {e : Regex} : Spells .item cs e → Spells .item (cs ++ ['*']) (.star e)
  | symbol {c : Char} : c ∉ operators → Spells .operand [c] (.symbol c)
  | group {cs : List Char} {e : Regex} : Spells .expression cs e →
      Spells .operand ('(' :: cs ++ [')']) e

theorem notMem_operators {c : Char} :
    c ∉ operators ↔ c ≠ '(' ∧ c ≠ ')' ∧ c ≠ '|' ∧ c ≠ '*' := by
  simp [operators]

/-! ## Parentheses in pairs -/

/-- `Paired bars cs`: the parentheses are in pairs, and outside of them there is no bar, unless
`bars` allows for it. -/
inductive Paired : Bool → List Char → Prop
  | nil {bars : Bool} : Paired bars []
  | char {bars : Bool} {c : Char} {cs : List Char} : c ≠ '(' → c ≠ ')' →
      (c = '|' → bars = true) → Paired bars cs → Paired bars (c :: cs)
  | group {bars : Bool} {cs ds : List Char} : Paired true cs → Paired bars ds →
      Paired bars ('(' :: (cs ++ ')' :: ds))

namespace Paired

variable {bars : Bool} {cs ds : List Char}

theorem append (h : Paired bars cs) (h' : Paired bars ds) : Paired bars (cs ++ ds) := by
  induction h with
  | nil => exact h'
  | char hopen hclose hbar _ ih => exact .char hopen hclose hbar (ih h')
  | group hinner _ _ ih =>
      rw [List.cons_append, List.append_assoc]
      exact .group hinner (ih h')

theorem weaken (h : Paired bars cs) : Paired true cs := by
  induction h with
  | nil => exact .nil
  | char hopen hclose _ _ ih => exact .char hopen hclose (fun _ => rfl) ih
  | group hinner _ _ ih => exact .group hinner ih

theorem unpaired_append (h : Paired bars cs) (rest : List Char) : ∀ (pos : Nat)
    (opened : List Nat), unpaired pos opened (cs ++ rest) =
      unpaired (pos + cs.length) opened rest := by
  induction h generalizing rest with
  | nil =>
      intro pos opened
      rfl
  | @char _ c cs hopen hclose _ _ ih =>
      intro pos opened
      show (if c = '(' then _ else if c = ')' then _ else unpaired _ _ (cs ++ rest)) = _
      rw [if_neg hopen, if_neg hclose, ih, List.length_cons]
      congr 1
      omega
  | @group _ cs ds _ _ ihc ihd =>
      intro pos opened
      rw [List.cons_append, List.append_assoc]
      show unpaired (pos + 1) (pos :: opened) (cs ++ ')' :: (ds ++ rest)) = _
      rw [ihc]
      show unpaired _ opened (ds ++ rest) = _
      rw [ihd]
      congr 1
      simp only [List.length_cons, List.length_append]
      omega

/-- The search for the end of a group passes over pairs. -/
theorem closing_append (h : Paired bars cs) (rest : List Char) : ∀ depth,
    closing (depth + 1) (cs ++ rest) = (closing (depth + 1) rest).map (· + cs.length) := by
  induction h generalizing rest with
  | nil =>
      intro depth
      exact Option.map_id'.symm
  | @char _ c cs hopen hclose _ _ ih =>
      intro depth
      rw [List.cons_append, closing, if_neg hopen, if_neg hclose, ih, Option.map_map]
      rfl
  | @group _ cs ds _ _ ihc ihd =>
      intro depth
      rw [List.cons_append, List.append_assoc, closing, if_pos rfl, ihc, List.cons_append]
      show ((((closing (depth + 1) (ds ++ rest)).map _).map _).map _) = _
      rw [ihd, Option.map_map, Option.map_map, Option.map_map]
      congr 1
      funext n
      simp only [Function.comp, List.length_cons, List.length_append]
      omega

/-- So does the search for a bar, and at depth 0 too if there is none. -/
theorem firstBar_append (h : Paired bars cs) (rest : List Char) : ∀ {depth},
    (bars = true → 0 < depth) →
      firstBar depth (cs ++ rest) = (firstBar depth rest).map (· + cs.length) := by
  induction h generalizing rest with
  | nil =>
      intro depth _
      exact Option.map_id'.symm
  | @char bars c cs hopen hclose hbar _ ih =>
      intro depth hdepth
      have hnot : ¬ (c = '|' ∧ depth = 0) := by
        rintro ⟨hc, rfl⟩
        exact absurd (hdepth (hbar hc)) (Nat.lt_irrefl 0)
      rw [List.cons_append, firstBar, if_neg hopen, if_neg hclose, if_neg hnot, ih _ hdepth,
        Option.map_map]
      rfl
  | @group _ cs ds _ _ ihc ihd =>
      intro depth hdepth
      rw [List.cons_append, List.append_assoc, firstBar, if_pos rfl,
        ihc _ fun _ => Nat.succ_pos depth, List.cons_append]
      show ((((firstBar depth (ds ++ rest)).map _).map _).map _) = _
      rw [ihd _ hdepth, Option.map_map, Option.map_map, Option.map_map]
      congr 1
      funext n
      simp only [Function.comp, List.length_cons, List.length_append]
      omega

end Paired

namespace Spells

variable {category : Category} {cs ds : List Char} {e f : Regex}

/-- Only an expression has bars outside of its groups. -/
theorem paired (h : Spells category cs e) : Paired (category matches .expression) cs := by
  induction h with
  | single _ ih => exact ih.weaken
  | union _ _ ihc ihd => exact ihc.weaken.append (.char (by decide) (by decide) (fun _ => rfl) ihd)
  | item _ ih => exact ih
  | concat _ _ ihc ihd => exact ihc.append ihd
  | operand _ ih => exact ih
  | star _ ih => exact ih.append (.char (by decide) (by decide) nofun .nil)
  | symbol hc =>
      obtain ⟨hopen, hclose, hbar, -⟩ := notMem_operators.mp hc
      exact .char hopen hclose (fun hc => absurd hc hbar) .nil
  | group _ ih => exact .group ih .nil

/-- Every part of an expression starts with an operand. -/
theorem front (h : Spells category cs e) :
    ∃ os rest f, cs = os ++ rest ∧ Spells .operand os f := by
  induction h with
  | single _ ih => exact ih
  | union _ _ ih _ =>
      obtain ⟨os, rest, f, rfl, hos⟩ := ih
      exact ⟨os, _, f, List.append_assoc _ _ _, hos⟩
  | item _ ih => exact ih
  | concat _ _ ih _ =>
      obtain ⟨os, rest, f, rfl, hos⟩ := ih
      exact ⟨os, _, f, List.append_assoc _ _ _, hos⟩
  | operand _ ih => exact ih
  | star _ ih =>
      obtain ⟨os, rest, f, rfl, hos⟩ := ih
      exact ⟨os, _, f, List.append_assoc _ _ _, hos⟩
  | symbol hc => exact ⟨_, [], _, (List.append_nil _).symm, .symbol hc⟩
  | group h _ => exact ⟨_, [], _, (List.append_nil _).symm, .group h⟩

/-- An operand does not start with a repetition sign, and neither does anything else. -/
theorem exists_head (h : Spells category cs e) : ∃ c rest, cs = c :: rest ∧ c ≠ '*' := by
  obtain ⟨os, rest, f, rfl, hos⟩ := h.front
  cases hos with
  | symbol hc =>
      obtain ⟨-, -, -, hstar⟩ := notMem_operators.mp hc
      exact ⟨_, _, rfl, hstar⟩
  | group => exact ⟨_, _, rfl, by decide⟩

theorem length_pos (h : Spells category cs e) : 0 < cs.length := by
  obtain ⟨c, rest, rfl, -⟩ := h.exists_head
  exact Nat.succ_pos _

/-- An item is an operand with repetition signs behind it, one `star` each. -/
theorem exists_operand (h : Spells .item cs e) :
    ∃ os f n, Spells .operand os f ∧ cs = os ++ List.replicate n '*' ∧ e = f.starred n := by
  generalize hitem : Category.item = category at h
  induction h with
  | operand h _ => exact ⟨_, _, 0, h, (List.append_nil _).symm, rfl⟩
  | star _ ih =>
      obtain ⟨os, f, n, hos, rfl, rfl⟩ := ih hitem
      refine ⟨os, f, n + 1, hos, ?_, rfl⟩
      rw [List.replicate_succ', List.append_assoc]
  | single => cases hitem
  | union => cases hitem
  | item => cases hitem
  | concat => cases hitem
  | symbol => cases hitem
  | group => cases hitem

theorem starred (h : Spells .operand cs e) (n : Nat) :
    Spells .item (cs ++ List.replicate n '*') (e.starred n) := by
  induction n with
  | zero =>
      rw [List.replicate_zero, List.append_nil]
      exact .operand h
  | succ n ih =>
      rw [List.replicate_succ', ← List.append_assoc]
      exact .star ih

theorem expression_of_operand (h : Spells .operand cs e) : Spells .expression cs e :=
  .single (.item (.operand h))

theorem unpaired_eq_none (h : Spells category cs e) : unpaired 0 [] cs = none := by
  have hpaired := h.paired.unpaired_append [] 0 []
  rw [List.append_nil] at hpaired
  exact hpaired

/-- The first bar of a union is behind the first concatenation. -/
theorem firstBar_union (h : Spells .concatenation cs e) (ds : List Char) :
    firstBar 0 (cs ++ '|' :: ds) = some cs.length := by
  rw [h.paired.firstBar_append _ nofun]
  show (some 0).map _ = _
  rw [Option.map_some, Nat.zero_add]

theorem firstBar_eq_none (h : Spells .concatenation cs e) : firstBar 0 cs = none := by
  have hbar : firstBar 0 (cs ++ []) = none := h.paired.firstBar_append [] nofun
  rwa [List.append_nil] at hbar

/-- So an expression without a bar outside of its groups is a concatenation. -/
theorem concatenation (h : Spells .expression cs e) (hbar : firstBar 0 cs = none) :
    Spells .concatenation cs e := by
  cases h with
  | single h => exact h
  | union h =>
      rw [h.firstBar_union] at hbar
      exact nomatch hbar

end Spells

/-! ## Where a span is cut -/

theorem closing_group {cs : List Char} (h : Paired true cs) (rest : List Char) :
    closing 0 ('(' :: (cs ++ ')' :: rest)) = some (cs.length + 2) := by
  rw [closing, if_pos rfl, h.closing_append]
  show ((some 1).map _).map _ = _
  simp only [Option.map_some, Option.some.injEq]
  omega

/-- A group ends with its closing parenthesis, and what comes behind does not matter. -/
theorem closing_take {cs : List Char} : ∀ {depth n : Nat}, closing depth cs = some n →
    closing depth (cs.take n) = some n ∧ ∃ front, cs.take n = front ++ [')'] := by
  induction cs with
  | nil =>
      intro depth n h
      exact nomatch h
  | cons c cs ih =>
      intro depth n h
      rw [closing] at h
      have hstep {d : Nat} (h : (closing d cs).map (· + 1) = some n) :
          (closing d (cs.take (n - 1))).map (· + 1) = some n ∧
            (c :: cs).take n = c :: cs.take (n - 1) ∧
            ∃ front, (c :: cs).take n = front ++ [')'] := by
        obtain ⟨m, hm, rfl⟩ := Option.map_eq_some_iff.mp h
        obtain ⟨hclosing, front, hfront⟩ := ih hm
        refine ⟨?_, rfl, c :: front, ?_⟩
        · rw [Nat.add_sub_cancel, hclosing]
          rfl
        · rw [List.take_succ_cons, hfront]
          rfl
      split at h
      · rename_i hc
        obtain ⟨hclosing, htake, hfront⟩ := hstep h
        refine ⟨?_, hfront⟩
        rw [htake, closing, if_pos hc, hclosing]
      · rename_i hopen
        split at h
        · rename_i hc
          split at h
          · rename_i hdepth
            cases h
            refine ⟨?_, [], ?_⟩
            · rw [List.take_succ_cons, closing, if_neg hopen, if_pos hc, if_pos hdepth]
            · rw [hc]
              rfl
          · rename_i hdepth
            obtain ⟨hclosing, htake, hfront⟩ := hstep h
            refine ⟨?_, hfront⟩
            rw [htake, closing, if_neg hopen, if_pos hc, if_neg hdepth, hclosing]
        · rename_i hclose
          obtain ⟨hclosing, htake, hfront⟩ := hstep h
          refine ⟨?_, hfront⟩
          rw [htake, closing, if_neg hopen, if_neg hclose, hclosing]

theorem take_group {cs : List Char} {n : Nat} (h : closing 0 ('(' :: cs) = some n) :
    ∃ inner, ('(' :: cs).take n = '(' :: (inner ++ [')']) := by
  obtain ⟨hpos, -⟩ := closing_bounds h
  obtain ⟨-, front, hfront⟩ := closing_take h
  obtain ⟨m, rfl⟩ : ∃ m, n = m + 1 := Nat.exists_eq_succ_of_ne_zero (Nat.ne_of_gt hpos)
  rw [List.take_succ_cons] at hfront ⊢
  cases front with
  | nil => exact absurd (List.cons.inj hfront).1 (by decide)
  | cons c inner => exact ⟨inner, congrArg _ (List.cons.inj hfront).2⟩

/-- There is a bar where the first one is found, and none before it. -/
theorem firstBar_split {cs : List Char} : ∀ {depth i : Nat}, firstBar depth cs = some i →
    firstBar depth (cs.take i) = none ∧ cs = cs.take i ++ '|' :: cs.drop (i + 1) := by
  induction cs with
  | nil =>
      intro depth i h
      exact nomatch h
  | cons c cs ih =>
      intro depth i h
      rw [firstBar] at h
      have hstep {d : Nat} (h : (firstBar d cs).map (· + 1) = some i) :
          (firstBar d (cs.take (i - 1))).map (· + 1) = none ∧
            (c :: cs).take i = c :: cs.take (i - 1) ∧
            c :: cs = (c :: cs).take i ++ '|' :: (c :: cs).drop (i + 1) := by
        obtain ⟨j, hj, rfl⟩ := Option.map_eq_some_iff.mp h
        obtain ⟨hnone, hsplit⟩ := ih hj
        refine ⟨?_, rfl, ?_⟩
        · rw [Nat.add_sub_cancel, hnone]
          rfl
        · rw [List.take_succ_cons, List.drop_succ_cons, List.cons_append, ← hsplit]
      split at h
      · rename_i hc
        obtain ⟨hnone, htake, hsplit⟩ := hstep h
        refine ⟨?_, hsplit⟩
        rw [htake, firstBar, if_pos hc, hnone]
      · rename_i hopen
        split at h
        · rename_i hc
          obtain ⟨hnone, htake, hsplit⟩ := hstep h
          refine ⟨?_, hsplit⟩
          rw [htake, firstBar, if_neg hopen, if_pos hc, hnone]
        · rename_i hclose
          split at h
          · rename_i hbar
            cases h
            exact ⟨rfl, by rw [hbar.1]; rfl⟩
          · rename_i hbar
            obtain ⟨hnone, htake, hsplit⟩ := hstep h
            refine ⟨?_, hsplit⟩
            rw [htake, firstBar, if_neg hopen, if_neg hclose, if_neg hbar, hnone]

/-! ## The shape of what is spelled -/

namespace Span

variable {s : Span} {os rest : List Char} {f : Regex} {start : Nat}

theorem operand_of_closing {cs : List Char} {n : Nat} (hchars : s.chars = '(' :: cs)
    (h : closing 0 s.chars = some n) : s.operand = .ok n := by
  unfold operand
  split
  · rename_i hnil
    exact nomatch hnil.symm.trans hchars
  · rename_i c cs' hcons
    obtain ⟨rfl, -⟩ := List.cons.inj (hcons.symm.trans hchars)
    rw [if_pos rfl, h]

/-- The operand at the front of a span is a character that is no operator, or a group. -/
theorem operand_cases {n : Nat} (h : s.operand = .ok n) :
    (∃ c, s.chars.take n = [c] ∧ c ∉ operators) ∨
      ∃ inner, s.chars.take n = '(' :: (inner ++ [')']) ∧
        closing 0 (s.chars.take n) = some n := by
  obtain ⟨start, chars⟩ := s
  cases chars with
  | nil => cases h
  | cons c cs =>
      simp only [operand] at h
      split at h
      · rename_i hc
        subst hc
        split at h
        · rename_i m hclosing
          obtain rfl := Except.ok.inj h
          obtain ⟨inner, hinner⟩ := take_group hclosing
          exact Or.inr ⟨inner, hinner, (closing_take hclosing).1⟩
        · cases h
      · rename_i hopen
        split at h
        · cases h
        · rename_i hclose
          split at h
          · cases h
          · rename_i hstar
            split at h
            · cases h
            · rename_i hbar
              obtain rfl := Except.ok.inj h
              exact Or.inl ⟨c, rfl, notMem_operators.mpr ⟨hopen, hclose, hbar, hstar⟩⟩

theorem operand_of_spells (h : Spells .operand os f) (start : Nat) (rest : List Char) :
    operand ⟨start, os ++ rest⟩ = .ok os.length := by
  cases h with
  | symbol hc =>
      obtain ⟨hopen, hclose, hbar, hstar⟩ := notMem_operators.mp hc
      simp only [operand, List.singleton_append, if_neg hopen, if_neg hclose, if_neg hstar,
        if_neg hbar, List.length_singleton]
  | @group cs _ h =>
      rw [List.cons_append, List.cons_append, List.append_assoc]
      refine (operand_of_closing rfl (closing_group h.paired rest)).trans ?_
      simp

theorem shape_symbol {c : Char} (hchars : s.chars = [c]) (h : Spells .operand [c] f) :
    s.shape = .ok (.literal c) := by
  obtain ⟨start, chars⟩ := s
  obtain rfl : chars = [c] := hchars
  have hoperand : operand ⟨start, [c]⟩ = .ok 1 := operand_of_spells h start []
  rw [shape, hoperand]
  rfl

/-- A span of two characters or more is one group, or it is cut at a bar or behind its first
operand. -/
theorem shape_of_long (h : 2 ≤ s.length) :
    s.shape = if s.chars.head? = some '(' ∧ closing 0 s.chars = some s.length then
        .ok (.group ((s.drop 1).take (s.length - 2)))
      else
        match firstBar 0 s.chars with
        | some i => .ok (.union (s.take i) (s.drop (i + 1)))
        | none => s.operand.map s.factor := by
  obtain ⟨start, chars⟩ := s
  match chars, h with
  | c :: d :: cs, _ =>
      rw [shape]
      by_cases hgroup : c = '(' ∧ closing 0 (c :: d :: cs) = some (cs.length + 2)
      · exact (if_pos hgroup).trans (if_pos ⟨congrArg some hgroup.1, hgroup.2⟩).symm
      · refine (if_neg hgroup).trans (if_neg ?_).symm
        exact fun h => hgroup ⟨Option.some.inj h.1, h.2⟩

/-- One group and nothing around it. -/
theorem shape_group {inner : List Char} (hchars : s.chars = '(' :: (inner ++ [')']))
    (hclosing : closing 0 s.chars = some s.length) :
    s.shape = .ok (.group ⟨s.start + 1, inner⟩) := by
  obtain ⟨start, chars⟩ := s
  obtain rfl : chars = '(' :: (inner ++ [')']) := hchars
  have hinner : ((drop ⟨start, '(' :: (inner ++ [')'])⟩ 1).take
      (length ⟨start, '(' :: (inner ++ [')'])⟩ - 2)) = ⟨start + 1, inner⟩ := by
    simp [take, drop, length]
  have htwo : 2 ≤ length ⟨start, '(' :: (inner ++ [')'])⟩ := by simp [length]
  rw [shape_of_long htwo, if_pos ⟨rfl, hclosing⟩, hinner]

/-- A span that is one operand, or is cut at its first bar, or behind its first operand. -/
theorem shape_cases {shape : Shape} (h : s.shape = .ok shape) :
    s.operand = .ok s.length ∨
      (∃ i, firstBar 0 s.chars = some i ∧ shape = .union (s.take i) (s.drop (i + 1))) ∨
      ∃ n, firstBar 0 s.chars = none ∧ s.operand = .ok n ∧ shape = s.factor n := by
  unfold Span.shape at h
  split at h
  · cases h
  · rename_i c hchars
    cases hoperand : s.operand with
    | error e =>
        rw [hoperand] at h
        cases h
    | ok n =>
        obtain ⟨hpos, hle, -⟩ := operand_bounds hoperand
        have hlen : s.length = 1 := by rw [length, hchars, List.length_singleton]
        obtain rfl : n = s.length := by omega
        exact Or.inl rfl
  · rename_i c cs _ hchars
    split at h
    · rename_i hgroup
      obtain ⟨rfl, hclosing⟩ := hgroup
      exact Or.inl (operand_of_closing hchars hclosing)
    · split at h
      · rename_i i hbar
        exact Or.inr (Or.inl ⟨i, hbar, (Except.ok.inj h).symm⟩)
      · rename_i hbar
        cases hoperand : s.operand with
        | error e =>
            rw [hoperand] at h
            cases h
        | ok n =>
            rw [hoperand] at h
            exact Or.inr (Or.inr ⟨n, hbar, rfl, (Except.ok.inj h).symm⟩)

/-- Where the first operand is not all of the span, one of the two cuts is made. -/
theorem shape_of_operand {n : Nat} (h : s.operand = .ok n) (hlt : n < s.length) :
    s.shape = match firstBar 0 s.chars with
      | some i => .ok (.union (s.take i) (s.drop (i + 1)))
      | none => .ok (s.factor n) := by
  obtain ⟨hpos, -, -⟩ := operand_bounds h
  -- a group that is all of the span would be the operand
  have hnot : ¬ (s.chars.head? = some '(' ∧ closing 0 s.chars = some s.length) := by
    rintro ⟨hopen, hclosing⟩
    obtain ⟨cs, hchars⟩ := List.head?_eq_some_iff.mp hopen
    have hall := operand_of_closing hchars hclosing
    rw [h] at hall
    exact absurd (Except.ok.inj hall) (Nat.ne_of_lt hlt)
  rw [shape_of_long (Nat.lt_of_le_of_lt hpos hlt), if_neg hnot, h]
  rfl

/-- How many repetition signs stand behind the first `n` characters. -/
def stars (s : Span) (n : Nat) : Nat := ((s.chars.drop n).takeWhile (· = '*')).length

theorem stars_le {n : Nat} (h : n ≤ s.length) : n + s.stars n ≤ s.length := by
  have hle : s.stars n ≤ (s.chars.drop n).length := (List.takeWhile_sublist _).length_le
  rw [List.length_drop] at hle
  rw [length] at h ⊢
  omega

/-- Behind an operand there are repetition signs, and the rest starts with something else. -/
theorem factor_eq (s : Span) (n : Nat) : ∃ stars,
    s.chars = s.chars.take n ++ (List.replicate stars '*' ++ s.chars.drop (n + stars)) ∧
      s.factor n = .factor (s.take n) stars
        (if s.chars.drop (n + stars) = [] then none else some (s.drop (n + stars))) := by
  have hstars : (s.chars.drop n).takeWhile (· = '*') = List.replicate (s.stars n) '*' := by
    refine List.eq_replicate_of_mem ?_
    intro c hc
    simpa using List.all_eq_true.mp List.all_takeWhile c hc
  obtain ⟨rest, hrest⟩ : (s.chars.drop n).takeWhile (· = '*') <+: s.chars.drop n :=
    List.takeWhile_prefix _
  have hdrop : s.chars.drop (n + s.stars n) = rest := by
    rw [← List.drop_drop]
    exact List.append_cancel_left ((List.prefix_iff_eq_append.mp ⟨rest, hrest⟩).trans hrest.symm)
  refine ⟨s.stars n, ?_, ?_⟩
  · rw [hdrop, ← hstars, hrest, List.take_append_drop]
  · show (if n + s.stars n < s.length then Shape.factor _ _ _ else Shape.factor _ _ _) = _
    by_cases hlt : n + s.stars n < s.length
    · rw [if_pos hlt, if_neg (by simpa [length] using hlt)]
      rfl
    · rw [if_neg hlt, if_pos (by simpa [length] using hlt)]
      rfl

theorem factor_of_stars {n : Nat} (hrest : ∀ c ∈ rest.head?, c ≠ '*') :
    factor ⟨start, os ++ (List.replicate n '*' ++ rest)⟩ os.length =
      .factor ⟨start, os⟩ n (if rest = [] then none else some ⟨start + (os.length + n), rest⟩) := by
  have hstars : ((os ++ (List.replicate n '*' ++ rest)).drop os.length).takeWhile (· = '*') =
      List.replicate n '*' := by
    rw [List.drop_left, List.takeWhile_append_of_pos (by simp)]
    cases rest with
    | nil => simp
    | cons c rest =>
        rw [List.takeWhile_cons_of_neg (by simpa using hrest c rfl), List.append_nil]
  have hdrop : (os ++ (List.replicate n '*' ++ rest)).drop (os.length + n) = rest := by
    rw [← List.append_assoc]
    exact List.drop_left' (by simp)
  simp only [factor, hstars, take, drop, hdrop, List.take_left, List.length_replicate, length,
    List.length_append]
  cases rest with
  | nil => simp
  | cons c rest => simp

theorem shape_union {cs : List Char} (h : Spells .concatenation cs f) (start : Nat)
    (ds : List Char) : shape ⟨start, cs ++ '|' :: ds⟩ =
      .ok (.union ⟨start, cs⟩ ⟨start + (cs.length + 1), ds⟩) := by
  have hbar := h.firstBar_union ds
  obtain ⟨os, rest, f', rfl, hos⟩ := h.front
  have hoperand : operand ⟨start, os ++ rest ++ '|' :: ds⟩ = .ok os.length := by
    rw [List.append_assoc]
    exact operand_of_spells hos start _
  have hlt : os.length < length ⟨start, os ++ rest ++ '|' :: ds⟩ := by
    simp only [length, List.length_append, List.length_cons]
    omega
  rw [shape_of_operand hoperand hlt, hbar]
  simp only [take, drop, List.take_left, Except.ok.injEq, Shape.union.injEq, Span.mk.injEq,
    true_and]
  rw [← List.drop_drop, List.drop_left]
  rfl

theorem shape_factor {n : Nat} (h : Spells .operand os f) (start : Nat)
    (hbar : firstBar 0 (os ++ (List.replicate n '*' ++ rest)) = none)
    (hstars : 0 < n ∨ rest ≠ []) (hrest : ∀ c ∈ rest.head?, c ≠ '*') :
    shape ⟨start, os ++ (List.replicate n '*' ++ rest)⟩ = .ok (.factor ⟨start, os⟩ n
      (if rest = [] then none else some ⟨start + (os.length + n), rest⟩)) := by
  have hlt : os.length < length ⟨start, os ++ (List.replicate n '*' ++ rest)⟩ := by
    rw [← List.length_pos_iff] at hstars
    simp only [length, List.length_append, List.length_replicate]
    omega
  rw [shape_of_operand (operand_of_spells h start _) hlt, hbar, factor_of_stars hrest]

end Span

/-! ## Taking spans apart -/

/-- What the parts of a shape spell makes this expression. -/
def Shape.Makes : Shape → Regex → Prop
  | .literal c, e => e = .symbol c
  | .group inner, e => ofSpan inner = .ok e
  | .union left right, e =>
      ∃ f g, ofSpan left = .ok f ∧ ofSpan right = .ok g ∧ e = .union f g
  | .factor operand stars none, e => ∃ f, ofSpan operand = .ok f ∧ e = f.starred stars
  | .factor operand stars (some rest), e =>
      ∃ f g, ofSpan operand = .ok f ∧ ofSpan rest = .ok g ∧ e = .concat (f.starred stars) g

theorem ofSpan_eq_ok_iff {s : Span} {e : Regex} :
    ofSpan s = .ok e ↔ ∃ shape, s.shape = .ok shape ∧ shape.Makes e := by
  rw [ofSpan]
  split
  · rename_i hshape
    simp [hshape]
  · rename_i hshape
    simp [hshape, Shape.Makes, eq_comm]
  · rename_i hshape
    simp [hshape, Shape.Makes]
  · rename_i left right hshape
    simp only [hshape, Except.ok.injEq, exists_eq_left', Shape.Makes]
    cases ofSpan left <;> cases ofSpan right <;>
      simp [bind, Except.bind, pure, Except.pure, eq_comm]
  · rename_i operand stars hshape
    simp only [hshape, Except.ok.injEq, exists_eq_left', Shape.Makes]
    cases ofSpan operand <;> simp [bind, Except.bind, pure, Except.pure, eq_comm]
  · rename_i operand stars rest hshape
    simp only [hshape, Except.ok.injEq, exists_eq_left', Shape.Makes]
    cases ofSpan operand <;> cases ofSpan rest <;>
      simp [bind, Except.bind, pure, Except.pure, eq_comm]

/-- If what is shorter than a span spells expressions, then the operand at the front of the span
spells an operand. -/
theorem spells_operand {s : Span} {n : Nat} {f : Regex}
    (ih : ∀ u : Span, u.length < s.length → ∀ {e}, ofSpan u = .ok e → Spells .expression u.chars e)
    (hn : s.operand = .ok n) (hf : ofSpan (s.take n) = .ok f) :
    Spells .operand (s.chars.take n) f := by
  obtain ⟨shape, hshape, hmakes⟩ := ofSpan_eq_ok_iff.mp hf
  obtain ⟨-, hle, -⟩ := Span.operand_bounds hn
  have hlen : (s.take n).length = n := by rw [Span.length_take, Nat.min_eq_left hle]
  rcases Span.operand_cases hn with ⟨c, htake, hc⟩ | ⟨inner, htake, hclosing⟩
  · have hsymbol : Spells .operand [c] (.symbol c) := .symbol hc
    obtain rfl := Except.ok.inj ((Span.shape_symbol htake hsymbol).symm.trans hshape)
    obtain rfl : f = .symbol c := hmakes
    rw [htake]
    exact hsymbol
  · have hgroup := Span.shape_group (s := s.take n) htake (hclosing.trans (congrArg some hlen.symm))
    obtain rfl := Except.ok.inj (hgroup.symm.trans hshape)
    rw [htake]
    refine .group (ih _ ?_ hmakes)
    have hinner := Span.length_part hshape List.mem_cons_self
    exact Nat.lt_of_lt_of_le hinner (hlen.symm ▸ hle)

/-- A span that spells something is derived from the grammar. -/
theorem spells_of_ofSpan : ∀ (s : Span) {e : Regex}, ofSpan s = .ok e →
    Spells .expression s.chars e := by
  intro s
  generalize hsize : s.length = size
  induction size using Nat.strongRecOn generalizing s with
  | _ size ih =>
      intro e he
      have ih : ∀ u : Span, u.length < s.length → ∀ {e}, ofSpan u = .ok e →
          Spells .expression u.chars e := fun u hu => ih u.length (hsize ▸ hu) u rfl
      obtain ⟨shape, hshape, hmakes⟩ := ofSpan_eq_ok_iff.mp he
      rcases Span.shape_cases hshape with hall | ⟨i, hbar, rfl⟩ | ⟨n, hbar, hn, rfl⟩
      -- a literal or a group and nothing else
      · have htake : s.take s.length = s := by
          rw [Span.take, Span.length, List.take_length]
        have hoperand := spells_operand ih hall (htake.symm ▸ he)
        rw [Span.length, List.take_length] at hoperand
        exact hoperand.expression_of_operand
      · obtain ⟨f, g, hf, hg, rfl⟩ := hmakes
        obtain ⟨hnone, hsplit⟩ := firstBar_split hbar
        have hleft := ih _ (Span.length_part hshape (by simp [Shape.parts])) hf
        have hright := ih _ (Span.length_part hshape (by simp [Shape.parts])) hg
        rw [hsplit]
        exact .union (hleft.concatenation hnone) hright
      · obtain ⟨stars, hsplit, hfactor⟩ := s.factor_eq n
        rw [hfactor] at hshape hmakes
        split at hmakes
        · rename_i hnil
          obtain ⟨f, hf, rfl⟩ := hmakes
          rw [hsplit, hnil, List.append_nil]
          exact .single (.item ((spells_operand ih hn hf).starred stars))
        · rename_i hne
          rw [if_neg hne] at hshape
          obtain ⟨f, g, hf, hg, rfl⟩ := hmakes
          have hitem := (spells_operand ih hn hf).starred stars
          have hrest : Spells .expression (s.chars.drop (n + stars)) g :=
            ih _ (Span.length_part hshape (by simp [Shape.parts])) hg
          have hnone : firstBar 0 (s.chars.drop (n + stars)) = none := by
            rw [hsplit, ← List.append_assoc,
              hitem.paired.firstBar_append _ (absurd · Bool.false_ne_true)] at hbar
            exact Option.map_eq_none_iff.mp hbar
          rw [hsplit, ← List.append_assoc]
          exact .single (.concat hitem (hrest.concatenation hnone))

theorem ofSpan_of_operand {cs : List Char} {e : Regex} (h : Spells .operand cs e)
    (ih : ∀ {ds f}, Spells .expression ds f → ds.length < cs.length →
      ∀ start, ofSpan ⟨start, ds⟩ = .ok f) (start : Nat) : ofSpan ⟨start, cs⟩ = .ok e := by
  refine ofSpan_eq_ok_iff.mpr ?_
  cases h with
  | symbol hc => exact ⟨_, Span.shape_symbol rfl (.symbol hc), rfl⟩
  | @group inner _ hinner =>
      have hlen : ('(' :: inner ++ [')']).length = inner.length + 2 := by simp
      have hclosing : closing 0 ('(' :: inner ++ [')']) = some ('(' :: inner ++ [')']).length := by
        rw [hlen]
        exact closing_group hinner.paired []
      refine ⟨_, Span.shape_group rfl hclosing, ih hinner ?_ _⟩
      rw [hlen]
      omega

/-- What is derived from the grammar is spelled by its span, wherever that starts. -/
theorem ofSpan_of_spells : ∀ {cs : List Char} {e : Regex}, Spells .expression cs e →
    ∀ start, ofSpan ⟨start, cs⟩ = .ok e := by
  intro cs
  -- the parts of a span are shorter, while an operand is an expression as long as itself
  generalize hsize : cs.length = size
  induction size using Nat.strongRecOn generalizing cs with
  | _ size ih =>
      intro e h start
      have ih {ds : List Char} {f : Regex} (hds : Spells .expression ds f)
          (hlt : ds.length < cs.length) (start : Nat) : ofSpan ⟨start, ds⟩ = .ok f :=
        ih ds.length (hsize ▸ hlt) rfl hds start
      clear hsize
      cases h with
      | @union cs ds e f hc hd =>
          rw [List.length_append, List.length_cons] at ih
          exact ofSpan_eq_ok_iff.mpr ⟨_, Span.shape_union hc start ds, e, f,
            ih (.single hc) (by omega) _, ih hd (by omega) _, rfl⟩
      | single hc =>
          have hbar := hc.firstBar_eq_none
          cases hc with
          | item hi =>
              obtain ⟨os, f, n, hos, rfl, rfl⟩ := hi.exists_operand
              cases n with
              | zero =>
                  rw [List.replicate_zero, List.append_nil] at ih ⊢
                  exact ofSpan_of_operand hos ih start
              | succ n =>
                  rw [List.length_append, List.length_replicate] at ih
                  rw [← List.append_nil (List.replicate _ _)] at hbar ⊢
                  have hshape := Span.shape_factor hos start hbar (Or.inl n.succ_pos) nofun
                  exact ofSpan_eq_ok_iff.mpr ⟨_, hshape, f,
                    ih hos.expression_of_operand (by omega) _, rfl⟩
          | @concat _ ds _ g hi hd =>
              obtain ⟨os, f, n, hos, rfl, rfl⟩ := hi.exists_operand
              obtain ⟨c, rest, hds, hc⟩ := hd.exists_head
              have hpos := hos.length_pos
              have hpos' := hd.length_pos
              rw [List.length_append, List.length_append, List.length_replicate] at ih
              rw [List.append_assoc] at hbar ⊢
              have hne : ds ≠ [] := by
                rw [hds]
                exact nofun
              have hshape := Span.shape_factor hos start hbar (Or.inr hne) (by simpa [hds] using hc)
              rw [if_neg hne] at hshape
              exact ofSpan_eq_ok_iff.mpr ⟨_, hshape, f, g,
                ih hos.expression_of_operand (by omega) _,
                ih (.single hd) (by omega) _, rfl⟩

/-- A span spells what is derived from the grammar, and nothing else. -/
theorem ofSpan_eq_ok_iff_spells {start : Nat} {cs : List Char} {e : Regex} :
    ofSpan ⟨start, cs⟩ = .ok e ↔ Spells .expression cs e :=
  ⟨spells_of_ofSpan ⟨start, cs⟩, fun h => ofSpan_of_spells h start⟩

theorem parse_of_two {source : String} (hlen : 2 ≤ source.toList.length) :
    parse source = match unpaired 0 [] source.toList with
      | some pos => .error (.unbalancedParen pos)
      | none => ofSpan ⟨0, source.toList⟩ := by
  rw [parse]
  split
  · rename_i hnil
    rw [hnil] at hlen
    exact absurd hlen (by decide)
  · rename_i c hone
    rw [hone] at hlen
    exact absurd hlen (Nat.lt_irrefl 1)
  · rfl

/-- A source of two or more characters that the grammar derives is read with its tree. -/
theorem parse_of_spells {source : String} {e : Regex} (hlen : 2 ≤ source.toList.length)
    (h : Spells .expression source.toList e) : parse source = .ok e := by
  rw [parse_of_two hlen, h.unpaired_eq_none]
  exact ofSpan_of_spells h 0

/-- **Syntax of expressions.**  A source of two or more characters spells an expression exactly
when the grammar derives it with that tree.  A source of one character is that character,
operator or not, and the empty one spells nothing. -/
theorem parse_eq_ok_iff_spells (source : String) :
    (∀ e, 2 ≤ source.toList.length →
      (parse source = .ok e ↔ Spells .expression source.toList e)) ∧
    (∀ c, source.toList = [c] → parse source = .ok (.symbol c)) ∧
    (source.toList = [] → parse source = .error .empty) := by
  refine ⟨?_, ?_, ?_⟩
  · intro e hlen
    refine ⟨?_, parse_of_spells hlen⟩
    intro h
    rw [parse_of_two hlen] at h
    split at h
    · cases h
    · exact ofSpan_eq_ok_iff_spells.mp h
  · intro c hone
    rw [parse, hone]
  · intro hnil
    rw [parse, hnil]

/-- A group with a bar in it and two repetition signs behind it, in the first side of a union. -/
theorem parse_eq_ok_iff_spells_nested : 2 ≤ "(a|b)**c|d".toList.length ∧
    parse "(a|b)**c|d" = .ok (.union (.concat (.star (.star (.union (.symbol 'a') (.symbol 'b'))))
      (.symbol 'c')) (.symbol 'd')) := by
  have hsymbol {c : Char} (hc : c ∉ operators) : Spells .item [c] (.symbol c) :=
    .operand (.symbol hc)
  have ha := hsymbol (c := 'a') (by decide)
  have hb := hsymbol (c := 'b') (by decide)
  have hc := hsymbol (c := 'c') (by decide)
  have hd := hsymbol (c := 'd') (by decide)
  have hgroup := Spells.group (.union (.item ha) (.single (.item hb)))
  have hsource := Spells.union (.concat (.star (.star (.operand hgroup))) (.item hc))
    (.single (.item hd))
  refine ⟨by decide, ((parse_eq_ok_iff_spells "(a|b)**c|d").1 _ (by decide)).mpr ?_⟩
  exact hsource

end FrontEnd.Regex
