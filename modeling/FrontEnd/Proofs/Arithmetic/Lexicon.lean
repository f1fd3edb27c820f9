/-
# `Arithmetic.Lexicon` — what the token classes of arithmetic match

The classes are long regular expressions, but almost all of them say the same: a character of one
kind, and then any number of characters of another (`Word`).  Names, numbers and blanks are such
words, and an operator is one with nothing behind its first character.  Only `==` is not.

So the longest match of a class takes a first character and goes on as long as it can
(`pick_of_spellsWords`), and as no two classes but `=` and `==` start with the same
character, the first character already decides which class wins.  `front` says which, and
`longestMatch_eq_front` that the lexicon agrees.
-/
import FrontEnd.Arithmetic
import FrontEnd.Proofs.Lexer.Munch
import FrontEnd.Proofs.Regex.Spelling

namespace FrontEnd

variable {P Q : Char → Bool}

/-- A word with its first character in `P` and all others in `Q`. -/
structure Word (P Q : Char → Bool) where
  first : Char
  rest : List Char
  first_mem : P first = true
  rest_mem : ∀ c ∈ rest, Q c = true

/-- The characters of a word. -/
def Word.chars (w : Word P Q) : List Char := w.first :: w.rest

namespace Regex

/-! ## Classes of characters -/

/-- The characters spell an operand that stands for any one character in `P`. -/
def SpellsOne (P : Char → Bool) (cs : List Char) : Prop :=
  ∃ e, Spells .operand cs e ∧ e.words = {w | ∃ c, P c = true ∧ w = [c]}

/-- The source spells an expression for the words of `P` and `Q`. -/
def SpellsWords (P Q : Char → Bool) (source : String) : Prop :=
  ∃ e, parse source = .ok e ∧ e.words = Set.range (Word.chars (P := P) (Q := Q))

/-- Bars between characters that are no operators make a union of them. -/
theorem exists_spells_bars {c : Char} {cs : List Char} (hcs : ∀ d ∈ c :: cs, d ∉ operators) :
    ∃ e, Spells .expression (['|'].intercalate ((c :: cs).map fun d => [d])) e ∧
      e.words = {w | ∃ d ∈ c :: cs, w = [d]} := by
  induction cs generalizing c with
  | nil =>
      have hc : c ∉ operators := hcs c List.mem_cons_self
      refine ⟨.symbol c, .single (.item (.operand (.symbol hc))), ?_⟩
      ext w
      simp [words]
  | cons d cs ih =>
      obtain ⟨hc, hrest⟩ := List.forall_mem_cons.mp hcs
      obtain ⟨e, he, hwords⟩ := ih hrest
      refine ⟨.union (.symbol c) e, ?_, ?_⟩
      · rw [List.map_cons, List.map_cons, List.intercalate_cons_cons, List.append_assoc]
        exact .union (.item (.operand (.symbol hc))) he
      · ext w
        rw [words, hwords]
        simp [words]

theorem spellsOne_anyOf {cs : List Char} (hne : cs ≠ [])
    (hcs : cs.all (· ∉ operators) = true) (hP : ∀ c, P c = true ↔ c ∈ cs) :
    SpellsOne P (Arithmetic.anyOf cs).toList := by
  obtain ⟨c, cs, rfl⟩ := List.exists_cons_of_ne_nil hne
  obtain ⟨e, he, hwords⟩ := exists_spells_bars (by simpa using hcs)
  refine ⟨e, ?_, ?_⟩
  · have hchars : (Arithmetic.anyOf (c :: cs)).toList =
        '(' :: ['|'].intercalate ((c :: cs).map fun d => [d]) ++ [')'] := by
      simp [Arithmetic.anyOf, String.toList_intercalate, Function.comp_def]
    rw [hchars]
    exact .group he
  · rw [hwords]
    simp only [hP]

/-- One of two classes, in parentheses. -/
theorem SpellsOne.either {as bs : List Char} (ha : SpellsOne P as) (hb : SpellsOne Q bs) :
    SpellsOne (fun c => P c || Q c) ('(' :: (as ++ '|' :: bs) ++ [')']) := by
  obtain ⟨e, he, hP⟩ := ha
  obtain ⟨f, hf, hQ⟩ := hb
  refine ⟨.union e f, .group (.union (.item (.operand he)) hf.expression_of_operand), ?_⟩
  ext w
  simp only [words, hP, hQ, Set.mem_union, Set.mem_ofPred_eq, Bool.or_eq_true, or_and_right,
    exists_or]

/-- Any number of single characters is any string of them. -/
theorem mem_repeated_one {w : List Char} :
    w ∈ repeated {w | ∃ c, P c = true ∧ w = [c]} ↔ ∀ c ∈ w, P c = true := by
  refine ⟨?_, ?_⟩
  · rintro ⟨us, hus, rfl⟩ c hc
    obtain ⟨u, hu, hcu⟩ := List.mem_flatten.mp hc
    obtain ⟨d, hd, rfl⟩ := hus u hu
    rwa [List.mem_singleton.mp hcu]
  · intro h
    induction w with
    | nil => exact nil_mem_repeated _
    | cons c w ih =>
        obtain ⟨hc, hw⟩ := List.forall_mem_cons.mp h
        exact append_mem_repeated (u := [c]) ⟨c, hc, rfl⟩ (ih hw)

/-- A class and then a repeated one spell words. -/
theorem spellsWords_of_star {as bs : List Char} (ha : SpellsOne P as) (hb : SpellsOne Q bs)
    {source : String} (hsource : source.toList = as ++ ('(' :: (bs ++ ['*']) ++ [')'])) :
    SpellsWords P Q source := by
  obtain ⟨e, he, hP⟩ := ha
  obtain ⟨f, hf, hQ⟩ := hb
  refine ⟨.concat e (.star f), parse_of_spells ?_ ?_, ?_⟩
  · rw [hsource]
    simp only [List.length_append, List.length_cons, List.length_nil]
    omega
  · rw [hsource]
    exact .single (.concat (.operand he)
      (.item (.operand (.group (.single (.item (.star (.operand hf))))))))
  · ext w
    simp only [words, hP, hQ]
    refine ⟨?_, ?_⟩
    · rintro ⟨u, ⟨c, hc, rfl⟩, v, hv, rfl⟩
      exact ⟨⟨c, v, hc, mem_repeated_one.mp hv⟩, rfl⟩
    · rintro ⟨⟨c, v, hc, hv⟩, rfl⟩
      exact ⟨[c], ⟨c, hc, rfl⟩, v, mem_repeated_one.mpr hv, rfl⟩

/-- A source of one character spells that character, as a word with nothing behind it. -/
theorem spellsWords_singleton {c : Char} {source : String} (hsource : source.toList = [c]) :
    SpellsWords (· == c) (fun _ => false) source := by
  refine ⟨.symbol c, by rw [parse, hsource], ?_⟩
  ext w
  refine ⟨?_, ?_⟩
  · rintro rfl
    exact ⟨⟨c, [], beq_self_eq_true c, fun d hd => absurd hd List.not_mem_nil⟩, rfl⟩
  · rintro ⟨⟨d, rest, hd, hrest⟩, rfl⟩
    obtain rfl := eq_of_beq hd
    obtain rfl := List.eq_nil_iff_forall_not_mem.mpr fun x hx => Bool.false_ne_true (hrest x hx)
    rfl

end Regex

/-! ## The longest word at the front -/

/-- How long the longest word at the front of a text is. -/
def wordLength (P Q : Char → Bool) : List Char → Option Nat
  | [] => none
  | c :: cs => if P c then some ((cs.takeWhile Q).length + 1) else none

theorem le_length_takeWhile_iff {cs : List Char} : ∀ {k : Nat},
    k ≤ (cs.takeWhile Q).length ↔ k ≤ cs.length ∧ ∀ c ∈ cs.take k, Q c = true := by
  induction cs with
  | nil =>
      intro k
      simp
  | cons c cs ih =>
      intro k
      cases k with
      | zero => simp
      | succ k =>
          by_cases hc : Q c = true
          · rw [List.takeWhile_cons_of_pos hc, List.length_cons, Nat.add_le_add_iff_right, ih]
            simp [hc]
          · rw [List.takeWhile_cons_of_neg hc]
            simp [hc]

/-- A word at the front of a text takes the first character, and others as far as they go on. -/
theorem mem_prefixLengths_words {c : Char} {cs : List Char} {k : Nat} :
    k ∈ prefixLengths (Set.range (Word.chars (P := P) (Q := Q))) (c :: cs) ↔
      P c = true ∧ 0 < k ∧ k ≤ (cs.takeWhile Q).length + 1 := by
  cases k with
  | zero => simp [prefixLengths]
  | succ k =>
      rw [Nat.add_le_add_iff_right, le_length_takeWhile_iff]
      refine ⟨?_, ?_⟩
      · rintro ⟨-, hle, ⟨first, rest, hfirst, hrest⟩, hchars⟩
        obtain ⟨rfl, rfl⟩ := List.cons.inj hchars
        exact ⟨hfirst, k.succ_pos, Nat.le_of_succ_le_succ hle, hrest⟩
      · rintro ⟨hfirst, -, hle, hrest⟩
        exact ⟨k.succ_pos, Nat.succ_le_succ hle, ⟨c, cs.take k, hfirst, hrest⟩, rfl⟩

namespace Lexicon

variable {κ : Type} {source : String}

/-- The match of a class of words is the longest word at the front. -/
theorem pick_of_spellsWords (h : Regex.SpellsWords P Q source) (kind : Option κ)
    (text : List Char) :
    pick text (source, kind) = (wordLength P Q text).map (⟨kind, ·⟩) := by
  obtain ⟨e, he, hwords⟩ := h
  have hmatches (k : Nat) : Matches text (source, kind) k ↔
      k ∈ prefixLengths (Set.range (Word.chars (P := P) (Q := Q))) text := by
    rw [Matches, Regex.wordsOf_eq he, hwords]
  cases text with
  | nil =>
      refine pick_eq_none_iff.mpr fun k hk => ?_
      obtain ⟨hpos, hle, -⟩ := hk
      exact absurd hpos (Nat.not_lt.mpr hle)
  | cons c cs =>
      simp only [mem_prefixLengths_words] at hmatches
      by_cases hc : P c = true
      · simp only [wordLength, hc, if_true, Option.map_some]
        refine pick_eq_some_iff.mpr ⟨rfl, (hmatches _).mpr ⟨hc, Nat.succ_pos _, Nat.le_refl _⟩, ?_⟩
        intro k hk
        exact ((hmatches k).mp hk).2.2
      · simp only [wordLength, hc]
        exact pick_eq_none_iff.mpr fun k hk => hc ((hmatches k).mp hk).1

/-- Classes that can all be read make a lexicon. -/
theorem exists_compile {classes : List (String × Option κ)}
    (h : ∀ c ∈ classes, ∃ e, Regex.parse c.1 = .ok e) :
    ∃ lexicon, compile classes = .ok lexicon := by
  have hfrom : ∀ first, ∃ compiled, compileFrom first classes = .ok compiled := by
    induction classes with
    | nil => exact fun first => ⟨[], rfl⟩
    | cons c classes ih =>
        intro first
        obtain ⟨⟨e, he⟩, hrest⟩ := List.forall_mem_cons.mp h
        obtain ⟨compiled, hcompiled⟩ := ih hrest (first + 1)
        rw [compileFrom, Matcher.compile_eq he, hcompiled]
        exact ⟨_, rfl⟩
  obtain ⟨compiled, hcompiled⟩ := hfrom 0
  exact ⟨⟨compiled⟩, by rw [compile, hcompiled]; rfl⟩

end Lexicon

namespace Arithmetic

open Regex Lexicon

/-! ## The characters of the classes -/

theorem mem_charsFrom {first c : Char} {count : Nat} (hvalid : first.toNat + count ≤ 0xD800) :
    c ∈ charsFrom first count ↔ first.toNat ≤ c.toNat ∧ c.toNat < first.toNat + count := by
  simp only [charsFrom, List.mem_map, List.mem_range]
  refine ⟨?_, ?_⟩
  · rintro ⟨i, hi, rfl⟩
    have htoNat : (Char.ofNat (first.toNat + i)).toNat = first.toNat + i := by
      rw [Char.ofNat, dif_pos (Or.inl (by omega))]
      rfl
    rw [htoNat]
    omega
  · rintro ⟨hle, hlt⟩
    refine ⟨c.toNat - first.toNat, by omega, ?_⟩
    rw [Nat.add_sub_cancel' hle, Char.ofNat_toNat]

theorem isAlpha_iff (c : Char) :
    c.isAlpha = true ↔ c ∈ charsFrom 'a' 26 ++ charsFrom 'A' 26 := by
  rw [List.mem_append, mem_charsFrom (by decide), mem_charsFrom (by decide)]
  show (decide ('A'.val ≤ c.val ∧ c.val ≤ 'Z'.val) ||
    decide ('a'.val ≤ c.val) && decide (c.val ≤ 'z'.val)) = true ↔ _
  simp only [Bool.or_eq_true, Bool.and_eq_true, decide_eq_true_eq, UInt32.le_iff_toNat_le]
  show (65 ≤ c.toNat ∧ c.toNat ≤ 90) ∨ (97 ≤ c.toNat ∧ c.toNat ≤ 122) ↔
    (97 ≤ c.toNat ∧ c.toNat < 97 + 26) ∨ (65 ≤ c.toNat ∧ c.toNat < 65 + 26)
  omega

theorem isDigit_iff (c : Char) : c.isDigit = true ↔ c ∈ charsFrom '0' 10 := by
  rw [mem_charsFrom (by decide)]
  simp only [Char.isDigit, Bool.and_eq_true, decide_eq_true_eq, ge_iff_le,
    UInt32.le_iff_toNat_le]
  show 48 ≤ c.toNat ∧ c.toNat ≤ 57 ↔ 48 ≤ c.toNat ∧ c.toNat < 48 + 10
  omega

/-- No letter is a digit. -/
theorem isDigit_eq_false {c : Char} (h : c.isAlpha = true) : c.isDigit = false := by
  rw [isAlpha_iff, List.mem_append, mem_charsFrom (by decide), mem_charsFrom (by decide)] at h
  rw [Bool.eq_false_iff, ne_eq, isDigit_iff, mem_charsFrom (by decide)]
  have hletter : (97 ≤ c.toNat ∧ _) ∨ (65 ≤ c.toNat ∧ _) := h
  show ¬ (48 ≤ c.toNat ∧ c.toNat < 48 + 10)
  omega

theorem isWhitespace_iff (c : Char) :
    c.isWhitespace = true ↔ c ∈ [' ', '\t', '\n', '\r'] := by
  simp only [Char.isWhitespace, Bool.or_eq_true, decide_eq_true_eq, List.mem_cons,
    List.not_mem_nil, or_false]
  tauto

theorem spellsOne_letter : SpellsOne Char.isAlpha letter.toList :=
  spellsOne_anyOf (by decide) (by decide) isAlpha_iff

theorem spellsOne_digit : SpellsOne Char.isDigit digit.toList :=
  spellsOne_anyOf (by decide) (by decide) isDigit_iff

theorem spellsOne_blank : SpellsOne Char.isWhitespace blank.toList :=
  spellsOne_anyOf (by decide) (by decide) isWhitespace_iff

theorem spellsWords_id :
    SpellsWords Char.isAlpha Char.isAlphanum (letter ++ "((" ++ letter ++ "|" ++ digit ++ ")*)") :=
  spellsWords_of_star spellsOne_letter (spellsOne_letter.either spellsOne_digit) (by simp)

theorem spellsWords_number :
    SpellsWords Char.isDigit Char.isDigit (digit ++ "(" ++ digit ++ "*)") :=
  spellsWords_of_star spellsOne_digit spellsOne_digit (by simp)

theorem spellsWords_blank :
    SpellsWords Char.isWhitespace Char.isWhitespace (blank ++ "(" ++ blank ++ "*)") :=
  spellsWords_of_star spellsOne_blank spellsOne_blank (by simp)

/-! ## The winning class -/

/-- The kind of the token that a character makes by itself. -/
def sign : Char → Option Kind
  | '+' => some .plus
  | '-' => some .minus
  | '*' => some .star
  | '/' => some .slash
  | ',' => some .comma
  | '[' => some .openBracket
  | ']' => some .closeBracket
  | '(' => some .openParen
  | ')' => some .closeParen
  | '=' => some .equals
  | '$' => some .dollar
  | _ => none

/-- The match at the front of a text, told from the first character. -/
def front : List Char → Option (Match Kind)
  | [] => none
  | c :: cs =>
    if c.isAlpha then some ⟨some .id, (cs.takeWhile Char.isAlphanum).length + 1⟩
    else if c.isDigit then some ⟨some .number, (cs.takeWhile Char.isDigit).length + 1⟩
    else if c.isWhitespace then some ⟨none, (cs.takeWhile Char.isWhitespace).length + 1⟩
    else if c = '=' ∧ cs.head? = some '=' then some ⟨some .doubleEquals, 2⟩
    else (sign c).map fun kind => ⟨some kind, 1⟩

theorem parse_doubleEquals :
    Regex.parse "==" = .ok (.concat (.symbol '=') (.symbol '=')) := by
  have hsymbol : Spells .item ['='] (.symbol '=') := .operand (.symbol (by decide))
  exact parse_of_spells (by decide) (.single (.concat hsymbol (.item hsymbol)))

theorem pick_doubleEquals (kind : Option Kind) (c : Char) (cs : List Char) :
    pick (c :: cs) ("==", kind) =
      if c = '=' ∧ cs.head? = some '=' then some ⟨kind, 2⟩ else none := by
  have hmatches (k : Nat) :
      Matches (c :: cs) ("==", kind) k ↔ k = 2 ∧ c = '=' ∧ cs.head? = some '=' := by
    rw [Matches, Regex.wordsOf_eq parse_doubleEquals]
    refine ⟨?_, ?_⟩
    · rintro ⟨-, hle, u, rfl, v, rfl, htake⟩
      have hlen := congrArg List.length htake
      rw [List.length_take, Nat.min_eq_left hle] at hlen
      subst hlen
      cases cs with
      | nil => exact absurd hle (Nat.not_succ_le_self 1)
      | cons d cs => simpa using htake
    · rintro ⟨rfl, rfl, hhead⟩
      obtain ⟨cs, rfl⟩ := List.head?_eq_some_iff.mp hhead
      exact ⟨by decide, Nat.le_add_left 2 _, ['='], rfl, ['='], rfl, rfl⟩
  split
  · rename_i hdouble
    refine pick_eq_some_iff.mpr ⟨rfl, (hmatches 2).mpr ⟨rfl, hdouble⟩, ?_⟩
    intro k hk
    exact Nat.le_of_eq ((hmatches k).mp hk).1
  · rename_i hdouble
    exact pick_eq_none_iff.mpr fun k hk => hdouble ((hmatches k).mp hk).2

/-- A source of one character matches that character. -/
theorem pick_sign (source : String) (c : Char) (hsource : source.toList = [c])
    (kind : Option Kind) (d : Char) (cs : List Char) :
    pick (d :: cs) (source, kind) = if d = c then some ⟨kind, 1⟩ else none := by
  have hnone : cs.takeWhile (fun _ => false) = [] := by cases cs <;> rfl
  rw [pick_of_spellsWords (spellsWords_singleton hsource)]
  simp only [wordLength, beq_iff_eq, hnone]
  split <;> rfl

/-- Every class can be read. -/
theorem exists_lexicon : ∃ l, lexicon = .ok l := by
  refine exists_compile ?_
  have hwords {P Q : Char → Bool} {source : String} (h : SpellsWords P Q source) :
      ∃ e, Regex.parse source = .ok e := by
    obtain ⟨e, he, -⟩ := h
    exact ⟨e, he⟩
  simp only [classes, List.forall_mem_cons, List.not_mem_nil, false_imp_iff, implies_true,
    and_true]
  exact ⟨hwords spellsWords_id, hwords spellsWords_number, ⟨_, rfl⟩, ⟨_, rfl⟩, ⟨_, rfl⟩, ⟨_, rfl⟩,
    ⟨_, rfl⟩, ⟨_, rfl⟩, ⟨_, rfl⟩, ⟨_, rfl⟩, ⟨_, rfl⟩, ⟨_, parse_doubleEquals⟩, ⟨_, rfl⟩, ⟨_, rfl⟩,
    hwords spellsWords_blank⟩

/-- What the first character tells is what the lexicon finds. -/
theorem longestMatch_eq_front {l : Lexicon Kind} (h : lexicon = .ok l) (text : List Char) :
    l.longestMatch text = front text := by
  cases text with
  | nil => exact longestMatch_nil l
  | cons c cs =>
      rw [longestMatch_eq h]
      simp only [classes, List.map_cons, List.map_nil, pick_of_spellsWords spellsWords_id,
        pick_of_spellsWords spellsWords_number, pick_of_spellsWords spellsWords_blank,
        pick_doubleEquals, pick_sign "+" '+' rfl, pick_sign "-" '-' rfl, pick_sign "*" '*' rfl,
        pick_sign "/" '/' rfl, pick_sign "," ',' rfl, pick_sign "[" '[' rfl,
        pick_sign "]" ']' rfl, pick_sign "(" '(' rfl, pick_sign ")" ')' rfl,
        pick_sign "=" '=' rfl, pick_sign "$" '$' rfl]
      by_cases hsign : c ∈ ['+', '-', '*', '/', ',', '[', ']', '(', ')', '=', '$']
      -- the signs are told apart by themselves, and behind `=` the next character counts
      · simp only [List.mem_cons, List.not_mem_nil, or_false] at hsign
        by_cases hdouble : cs.head? = some '='
        all_goals
          rcases hsign with rfl | rfl | rfl | rfl | rfl | rfl | rfl | rfl | rfl | rfl | rfl <;>
            simp [hdouble, wordLength, front, sign, Match.longer]
      -- any other character is in at most one of the three classes of words
      · simp only [List.mem_cons, List.not_mem_nil, or_false, not_or] at hsign
        by_cases hblank : c.isWhitespace = true
        · have hblanks := (isWhitespace_iff c).mp hblank
          simp only [List.mem_cons, List.not_mem_nil, or_false] at hblanks
          rcases hblanks with rfl | rfl | rfl | rfl <;> simp [wordLength, front, Match.longer]
        · by_cases halpha : c.isAlpha = true
          · have hdigit := isDigit_eq_false halpha
            simp [hsign, hblank, halpha, hdigit, wordLength, front, Match.longer]
          · by_cases hdigit : c.isDigit = true
            · simp [hsign, hblank, halpha, hdigit, wordLength, front, Match.longer]
            · simp [hsign, hblank, halpha, hdigit, wordLength, front, sign, Match.longer]

theorem wins_of_front {text : List Char} {kind : Option Kind} {n : Nat}
    (h : front text = some ⟨kind, n⟩) : Wins classes text kind n := by
  obtain ⟨l, hl⟩ := exists_lexicon
  exact (longestMatch_eq_some_iff hl).mp ((longestMatch_eq_front hl text).trans h)

end Arithmetic

end FrontEnd
