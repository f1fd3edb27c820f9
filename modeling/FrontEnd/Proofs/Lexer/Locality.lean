/-
# `Lexer.Locality` — a tokenizer looks only at the text ahead

The classes of a lexicon see the rest of the text and nothing else; how many bytes lie before it
is only counted.  So a tokenizer gives what a fresh one over the rest of its text gives, the
bytes before the rest added to every place.

The two differ in one thing: the fresh tokenizer skips ahead before its first token, and the other
has done so behind its last one.  As every call skips ahead before it ends (`Settled`), there is
nothing left to skip at the front of the rest.
-/
import FrontEnd.Proofs.Lexer.Stream

namespace FrontEnd

variable {κ : Type}

/-! ## The same further on -/

/-- The place with `n` more bytes before it. -/
def Cursor.moved (n : Nat) (c : Cursor) : Cursor := { c with offset := c.offset + n }

/-- The token with `n` more bytes before it. -/
def Token.moved (n : Nat) (token : Token κ) : Token κ :=
  { token with start := token.start + n, stop := token.stop + n }

/-- The failure with `n` more bytes before it. -/
def LexError.moved (n : Nat) : LexError → LexError
  | noMatch pos found => noMatch (pos + n) found
  | endOfInput pos => endOfInput (pos + n)

theorem Cursor.advance_moved (n k : Nat) (c : Cursor) :
    (c.moved n).advance k = (c.advance k).moved n := by
  rw [advance, advance, moved, moved, Nat.add_right_comm]

namespace Lexicon

variable {lexicon : Lexicon κ}

theorem tokenAt_moved (n k : Nat) (c : Cursor) (kind : κ) :
    tokenAt (c.moved n) kind k = (tokenAt c kind k).moved n := by
  rw [tokenAt, Cursor.advance_moved]
  rfl

theorem skip_moved (n : Nat) (c : Cursor) :
    lexicon.skip (c.moved n) = (lexicon.skip c).moved n := by
  fun_induction skip lexicon c with
  | case1 c k hm ih =>
      rw [skip_of_ignored (c := c.moved n) hm, Cursor.advance_moved, ih]
  | case2 c hne => exact skip_of_not_ignored hne

end Lexicon

namespace Tokenizer

variable {lexicon : Lexicon κ} {t u : Tokenizer κ}

/-- What collecting gives, with `n` more bytes before the text. -/
def movedAll (n : Nat) : Except LexError (List (Token κ)) → Except LexError (List (Token κ))
  | .ok tokens => .ok (tokens.map (Token.moved n))
  | .error e => .error (e.moved n)

theorem movedAll_map (n : Nat) (token : Token κ) (r : Except LexError (List (Token κ))) :
    movedAll n (r.map (token :: ·)) = (movedAll n r).map (token.moved n :: ·) := by
  cases r <;> rfl

/-- Of two tokenizers at the same rest the one gives what the other gives, further on. -/
theorem collect_moved {n : Nat} (hu : Settled lexicon u) (hlex : t.lexicon = lexicon)
    (hcursor : t.cursor = u.cursor.moved n) : t.collect.1 = movedAll n u.collect.1 := by
  -- there is less text left behind every token
  generalize hsize : u.cursor.rest.length = size
  induction size using Nat.strong_induction_on generalizing t u with
  | _ size ih =>
      have hrest : t.cursor.rest = u.cursor.rest := by rw [hcursor]; rfl
      have hlex' : t.lexicon = u.lexicon := hlex.trans hu.lexicon_eq.symm
      rcases hu.nextToken_cases with
        ⟨hnil, -⟩ | ⟨found, rest, hcons, hm, -⟩ | ⟨kind, k, hm, hnext⟩
      · rw [collect_of_nil hnil, collect_of_nil (hrest.trans hnil)]
        rfl
      · rw [← hu.lexicon_eq] at hm
        rw [collect_of_no_match hcons hm,
          collect_of_no_match (hrest.trans hcons) (hrest ▸ hlex' ▸ hm), hcursor]
        rfl
      · rw [← hu.lexicon_eq] at hm
        have hmoved : (t.movedBehind k).cursor = (u.movedBehind k).cursor.moved n := by
          rw [movedBehind, movedBehind, hcursor, hlex', Cursor.advance_moved, Lexicon.skip_moved]
        rw [collect_of_match hm, collect_of_match (hrest ▸ hlex' ▸ hm), movedAll_map, hcursor,
          Lexicon.tokenAt_moved,
          ih _ (hsize ▸ nextToken_shorter hnext) (t := t.movedBehind k) (hu.movedBehind k) hlex
            hmoved rfl]

/-! ## The text stays -/

theorem nextToken_source (t : Tokenizer κ) : t.nextToken.2.source = t.source := by
  rw [nextToken]
  split
  · rfl
  · split <;> rfl

theorem source_after (t : Tokenizer κ) (pull : Pull) : (t.after pull.call).source = t.source := by
  cases pull with
  | nextToken => exact nextToken_source t
  | next =>
      rw [Pull.call, after, next]
      split
      · rfl
      · exact nextToken_source t
  | collect =>
      rw [Pull.call, after]
      fun_induction collect t with
      | case1 t hmore e u hnext =>
          rw [← nextToken_source t, hnext]
      | case2 t hmore token u hnext tokens last hlast ih =>
          rw [hlast] at ih
          rw [← nextToken_source t, hnext]
          exact ih
      | case3 t hmore => rfl

theorem source_pulled (lexicon : Lexicon κ) (text : String) (pulls : List Pull) :
    (pulled lexicon text pulls).source = text := by
  induction pulls using List.reverseRecOn with
  | nil => rfl
  | append_singleton pulls pull ih =>
      rw [pulled, List.map_append, List.foldl_append]
      exact (source_after _ pull).trans ih

theorem settled_pulled (lexicon : Lexicon κ) (text : String) (pulls : List Pull) :
    Settled lexicon (pulled lexicon text pulls) :=
  settled_history lexicon (.start text :: pulls.map Pull.call)

/-- **Tokenizing is local.**  Whatever has been pulled from a tokenizer over a text, collecting
gives the tokens or the failure that a fresh tokenizer finds in the rest of the text, with the bytes
before the rest added to every place. -/
theorem collect_pulled (lexicon : Lexicon κ) (text : String) (pulls : List Pull) :
    ∃ front rest, text = front ++ rest ∧
      front.utf8ByteSize = (pulled lexicon text pulls).offset ∧
      (pulled lexicon text pulls).collect.1 =
        movedAll (pulled lexicon text pulls).offset (start lexicon rest).collect.1 := by
  have h := settled_pulled lexicon text pulls
  obtain ⟨front, hsource, hoffset⟩ := h.source_eq
  rw [source_pulled] at hsource
  refine ⟨front, _, hsource, hoffset, ?_⟩
  generalize pulled lexicon text pulls = t at h
  refine collect_moved (settled_tokenize rfl _) h.lexicon_eq ?_
  have hskip : lexicon.skip ⟨0, t.cursor.rest⟩ = ⟨0, t.cursor.rest⟩ :=
    Lexicon.skip_of_not_ignored h.skipped
  show t.cursor = (lexicon.skip ⟨0, (String.ofList t.cursor.rest).toList⟩).moved t.offset
  rw [String.toList_ofList, hskip, Cursor.moved, Nat.zero_add]
  rfl

end Tokenizer

end FrontEnd
