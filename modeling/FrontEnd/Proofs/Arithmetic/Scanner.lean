/-
# `Arithmetic.Scanner` — the lexicon of arithmetic scans like a scanner written by hand

The scanner looks at one character to know what starts there, and takes what belongs to it:
blanks are passed over, a letter goes on into a name and a digit into a number as far as they
can, and `=` looks at one more character.  It knows nothing of regular expressions and does not
compare matches.

The lexicon agrees with it at every place of a text (`front_of_not_blank`, and `front_blank` for
the blanks), so its cut of the text is that of the scanner (`exists_cuts_scan`), and a tokenizer
serves what the scanner finds, however it is pulled.
-/
import FrontEnd.Proofs.Arithmetic.Writing
import FrontEnd.Proofs.Lexer.Stream
import Mathlib.Data.List.TakeWhile

namespace FrontEnd.Arithmetic

open Lexicon Tokenizer

/-! ## The scanner -/

/-- What starts with a character: the kind of the token, and how many of the characters behind
belong to it.  Letters and digits are those of ASCII. -/
def lexemeAt (c : Char) (behind : List Char) : Option (Kind × Nat) :=
  if c.isAlpha then some (.id, (behind.takeWhile Char.isAlphanum).length)
  else if c.isDigit then some (.number, (behind.takeWhile Char.isDigit).length)
  else if c = '=' ∧ behind.head? = some '=' then some (.doubleEquals, 1)
  else (sign c).map (·, 0)

/-- The place behind the blanks. -/
def pastBlanks (c : Cursor) : Cursor :=
  ⟨c.offset + Text.byteLength (c.rest.takeWhile Char.isWhitespace),
    c.rest.dropWhile Char.isWhitespace⟩

/-- The tokens from a place on, and the failure if a character starts none of them. -/
def scan (c : Cursor) : List (Token Kind) × Option LexError :=
  match _h : (pastBlanks c).rest with
  | [] => ([], none)
  | first :: behind =>
    match lexemeAt first behind with
    | none => ([], some (.noMatch (pastBlanks c).offset first))
    | some (kind, more) =>
      let (tokens, failure) := scan ((pastBlanks c).advance (more + 1))
      (tokenAt (pastBlanks c) kind (more + 1) :: tokens, failure)
termination_by c.rest.length
decreasing_by
  have hle : (pastBlanks c).rest.length ≤ c.rest.length := (List.dropWhile_sublist _).length_le
  rw [Cursor.advance, List.length_drop, _h, List.length_cons]
  rw [_h, List.length_cons] at hle
  omega

/-! ## The lexicon agrees -/

theorem front_of_not_blank {c : Char} (h : c.isWhitespace = false) (behind : List Char) :
    front (c :: behind) =
      (lexemeAt c behind).map fun (kind, more) => ⟨some kind, more + 1⟩ := by
  rw [front, lexemeAt]
  split
  · rfl
  · split
    · rfl
    · rw [if_neg (Bool.eq_false_iff.mp h)]
      split
      · rfl
      · cases sign c <;> rfl

theorem not_matches_of_front {text : List Char} (h : front text = none) :
    ∀ c ∈ classes, ∀ k, ¬ Matches text c k := by
  obtain ⟨l, hl⟩ := exists_lexicon
  exact (longestMatch_eq_none_iff hl).mp ((longestMatch_eq_front hl text).trans h)

/-- Blanks in front of something else are one piece or none, and no token. -/
theorem exists_cuts_blank {gap rest : List Char} (hgap : Blank gap)
    (hrest : ∀ c ∈ rest.head?, c.isWhitespace = false) {offset : Nat} {last : Cursor}
    {pieces : List (Piece Kind)}
    (h : Cuts classes ⟨offset + Text.byteLength gap, rest⟩ pieces last) :
    ∃ pieces', Cuts classes ⟨offset, gap ++ rest⟩ pieces' last ∧
      pieces'.filterMap Piece.token? = pieces.filterMap Piece.token? := by
  cases gap with
  | nil => exact ⟨pieces, h, rfl⟩
  | cons c gap =>
      refine ⟨_, .piece (wins_of_front (front_blank hgap hrest)) ?_, rfl⟩
      rw [advance_append]
      exact h

theorem pastBlanks_head (c : Cursor) :
    ∀ d ∈ (pastBlanks c).rest.head?, d.isWhitespace = false := by
  intro d hd
  have hnot := List.head?_dropWhile_not Char.isWhitespace c.rest
  rw [pastBlanks] at hd
  rwa [Option.mem_def.mp hd] at hnot

theorem exists_cuts_pastBlanks {c last : Cursor} {pieces : List (Piece Kind)}
    (h : Cuts classes (pastBlanks c) pieces last) :
    ∃ pieces', Cuts classes c pieces' last ∧
      pieces'.filterMap Piece.token? = pieces.filterMap Piece.token? := by
  have hgap : Blank (c.rest.takeWhile Char.isWhitespace) := fun d hd => List.mem_takeWhile_imp hd
  have hcuts := exists_cuts_blank hgap (pastBlanks_head c) h
  rwa [pastBlanks, List.takeWhile_append_dropWhile] at hcuts

/-- Where nothing starts behind the blanks the cut ends, without a token. -/
theorem exists_cuts_stop {c : Cursor}
    (hnone : ∀ cls ∈ classes, ∀ k, ¬ Matches (pastBlanks c).rest cls k) :
    ∃ pieces, Cuts classes c pieces (pastBlanks c) ∧ pieces.filterMap Piece.token? = [] :=
  exists_cuts_pastBlanks (.stop hnone)

/-- The cut of a text into winning matches gives what the scanner finds. -/
theorem exists_cuts_scan (c : Cursor) : ∃ pieces last, Cuts classes c pieces last ∧
    scan c = (pieces.filterMap Piece.token?, failureAt last) := by
  fun_induction scan c with
  | case1 c hrest =>
      obtain ⟨pieces, hpieces, htokens⟩ :=
        exists_cuts_stop (hrest ▸ fun cls _ => not_matches_nil cls)
      refine ⟨pieces, _, hpieces, ?_⟩
      rw [htokens, failureAt, hrest]
      rfl
  | case2 c first behind hrest hnone =>
      have hblank := pastBlanks_head c first (by rw [hrest]; rfl)
      have hfront : front (first :: behind) = none := by
        rw [front_of_not_blank hblank, hnone]
        rfl
      obtain ⟨pieces, hpieces, htokens⟩ := exists_cuts_stop (hrest ▸ not_matches_of_front hfront)
      refine ⟨pieces, _, hpieces, ?_⟩
      rw [htokens, failureAt, hrest]
      rfl
  | case3 c first behind hrest kind more hsome tokens failure hscan ih =>
      have hblank := pastBlanks_head c first (by rw [hrest]; rfl)
      have hfront : front (first :: behind) = some ⟨some kind, more + 1⟩ := by
        rw [front_of_not_blank hblank, hsome]
        rfl
      obtain ⟨later, last, hlater, hend⟩ := ih
      obtain ⟨pieces, hpieces, htokens⟩ :=
        exists_cuts_pastBlanks (.piece (hrest ▸ wins_of_front hfront) hlater)
      refine ⟨pieces, last, hpieces, ?_⟩
      obtain ⟨rfl, rfl⟩ := Prod.mk.inj (hscan.symm.trans hend)
      rw [htokens]
      rfl

/-- **The scanner is the lexicon.**  The classes make a lexicon, and a tokenizer over any text
serves, however it is pulled, the tokens that the scanner finds in the text and then the failure
at which it stops. -/
theorem scan_served : ∃ l, lexicon = .ok l ∧ ∀ text pulls,
    Serves l text (scan ⟨0, text.toList⟩).1 (scan ⟨0, text.toList⟩).2 pulls
      (pulled l text pulls) := by
  obtain ⟨l, hl⟩ := exists_lexicon
  refine ⟨l, hl, ?_⟩
  intro text pulls
  obtain ⟨pieces, last, hcuts, hscan⟩ := exists_cuts_scan ⟨0, text.toList⟩
  rw [hscan]
  exact serves_of_cuts hl hcuts pulls

end FrontEnd.Arithmetic
