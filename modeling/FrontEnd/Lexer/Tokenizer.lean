/-
# `Tokenizer` — maximal munch

A tokenizer goes through a text from the left.  At every point it takes the longest
match of its lexicon.  Matches of skipped classes are taken at once, so a tokenizer
always stands at a token, at a character that no class matches, or at the end.
-/
import FrontEnd.Lexer.Lexicon
import FrontEnd.Text.Escape

namespace FrontEnd

/-- A token: its kind, its text, and where it starts and ends, in bytes; the end is one
past the last byte. -/
structure Token (κ : Type) where
  kind : κ
  lexeme : String
  start : Nat
  stop : Nat
  deriving DecidableEq, Repr

/-- Why there is no token. -/
inductive LexError where
  /-- No class matches at byte `pos`, where the character `found` stands. -/
  | noMatch (pos : Nat) (found : Char)
  /-- The text has ended. -/
  | endOfInput (pos : Nat)
  deriving DecidableEq, Repr

namespace LexError

/-- The byte at which the text could not be read on. -/
def pos : LexError → Nat
  | noMatch pos _ => pos
  | endOfInput pos => pos

/-- The text of the report. -/
def message : LexError → String
  | noMatch pos found =>
    s!"[ERROR] ({pos}): lexer could not identify token starting with " ++ Text.quoted found
  | endOfInput pos => s!"[ERROR] ({pos}): no input left to tokenize"

end LexError

/-- A place in a text: how many bytes lie before it, and the characters behind it. -/
structure Cursor where
  offset : Nat
  rest : List Char
  deriving DecidableEq, Repr

/-- The place `n` characters further on. -/
def Cursor.advance (c : Cursor) (n : Nat) : Cursor :=
  ⟨c.offset + Text.byteLength (c.rest.take n), c.rest.drop n⟩

/-- The place behind all matches of skipped classes. -/
def Lexicon.skip {κ : Type} (lexicon : Lexicon κ) (c : Cursor) : Cursor :=
  match _h : lexicon.longestMatch c.rest with
  | some ⟨none, n⟩ => lexicon.skip (c.advance n)
  | _ => c
termination_by c.rest.length
decreasing_by
  have := Lexicon.longestMatch_bounds _h
  simp only [Cursor.advance, List.length_drop] at this ⊢
  omega

theorem Lexicon.length_rest_skip {κ : Type} (lexicon : Lexicon κ) (c : Cursor) :
    (lexicon.skip c).rest.length ≤ c.rest.length := by
  fun_induction Lexicon.skip lexicon c with
  | case1 c n h ih =>
    simp only [Cursor.advance, List.length_drop] at ih ⊢
    omega
  | case2 c h => exact Nat.le_refl _

/-- A tokenizer over a text. -/
structure Tokenizer (κ : Type) where
  lexicon : Lexicon κ
  /-- The whole text. -/
  source : String
  cursor : Cursor
  /-- Whether `next` has reported an error. -/
  failed : Bool

namespace Tokenizer

variable {κ : Type}

/-- A tokenizer without text. -/
def idle (lexicon : Lexicon κ) : Tokenizer κ := ⟨lexicon, "", ⟨0, []⟩, false⟩

/-- Starts again with another text. -/
def tokenize (t : Tokenizer κ) (text : String) : Tokenizer κ :=
  { t with source := text, cursor := t.lexicon.skip ⟨0, text.toList⟩, failed := false }

/-- A tokenizer at the first token of a text. -/
def start (lexicon : Lexicon κ) (text : String) : Tokenizer κ := (idle lexicon).tokenize text

/-- The byte at which the next token starts. -/
def offset (t : Tokenizer κ) : Nat := t.cursor.offset

/-- Whether there is text left. -/
def hasMore (t : Tokenizer κ) : Bool := !t.cursor.rest.isEmpty

/-- The token at the cursor, with the tokenizer behind it and behind what is skipped there; or why
there is none, with the tokenizer where it was. -/
def nextToken (t : Tokenizer κ) : Except LexError (Token κ) × Tokenizer κ :=
  match t.cursor.rest with
  | [] => (.error (.endOfInput t.offset), t)
  | found :: _ =>
    match t.lexicon.longestMatch t.cursor.rest with
    | some ⟨some kind, n⟩ =>
      let behind := t.cursor.advance n
      (.ok { kind, lexeme := String.ofList (t.cursor.rest.take n),
             start := t.offset, stop := behind.offset },
        { t with cursor := t.lexicon.skip behind })
    | _ => (.error (.noMatch t.offset found), t)

theorem nextToken_shorter {t u : Tokenizer κ} {token : Token κ}
    (h : t.nextToken = (.ok token, u)) : u.cursor.rest.length < t.cursor.rest.length := by
  unfold nextToken at h
  split at h
  · cases h
  · split at h
    · rename_i n hm
      cases h
      have hb := Lexicon.longestMatch_bounds hm
      have hs := t.lexicon.length_rest_skip (t.cursor.advance n)
      simp only [Cursor.advance, List.length_drop] at hb hs ⊢
      omega
    · cases h

/-- All tokens up to the end or up to the first error; the tokenizer stays there. -/
def collect (t : Tokenizer κ) : Except LexError (List (Token κ)) × Tokenizer κ :=
  if t.hasMore then
    match _h : t.nextToken with
    | (.error e, u) => (.error e, u)
    | (.ok token, u) =>
      let (tokens, last) := u.collect
      (tokens.map (token :: ·), last)
  else (.ok [], t)
termination_by t.cursor.rest.length
decreasing_by exact nextToken_shorter _h

/-- The next token or error for one who goes through the tokens in turn: nothing at the
end of the text, and nothing more once an error has been handed out. -/
def next (t : Tokenizer κ) : Option (Except LexError (Token κ)) × Tokenizer κ :=
  if t.failed || !t.hasMore then (none, t)
  else
    let (result, u) := t.nextToken
    (some result, { u with failed := !result.isOk })

end Tokenizer

end FrontEnd
