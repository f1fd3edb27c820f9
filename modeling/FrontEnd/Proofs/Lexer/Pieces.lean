/-
# `Lexer.Pieces` — a text is cut into pieces

Maximal munch cuts a text from the left.  Every piece is the winning match at its place, and
the cut ends where no class matches: at the end of the text, or at a character that cannot be
read.  A piece has a kind unless its class is skipped, and the pieces with a kind are the tokens.

There is one cut of every text (`Munch.exists_cuts`, `Cuts.unique`).  Its pieces spell what lies
before its end and lie side by side (`Cuts.rest_eq`, `Cuts.tiled`), and a tokenizer gives the
tokens among them and stays at the end (`Cuts.collect_eq`), although it takes skipped pieces
as soon as it has taken the token before them.
-/
import FrontEnd.Proofs.Lexer.Munch

namespace FrontEnd

variable {κ : Type}

/-- A piece of a text, without a kind if its class is skipped. -/
abbrev Piece (κ : Type) := Token (Option κ)

/-- The token that a piece makes. -/
def Piece.token? (p : Piece κ) : Option (Token κ) :=
  p.kind.map fun kind => ⟨kind, p.lexeme, p.start, p.stop⟩

namespace Lexicon

/-- `Cuts classes c pieces last`: from `c` on the winning matches, one behind the other, are the
pieces, and behind them, at `last`, no class matches. -/
inductive Cuts (classes : List (String × Option κ)) : Cursor → List (Piece κ) → Cursor → Prop
  | stop {c : Cursor} :
      (∀ cls ∈ classes, ∀ k, ¬ Matches c.rest cls k) → Cuts classes c [] c
  | piece {c last : Cursor} {kind : Option κ} {n : Nat} {pieces : List (Piece κ)} :
      Wins classes c.rest kind n → Cuts classes (c.advance n) pieces last →
      Cuts classes c (tokenAt c kind n :: pieces) last

/-- What a cut says of its text: the tokens if it goes to the end, and otherwise at which byte
and at which character no class matches. -/
def outcome (pieces : List (Piece κ)) (last : Cursor) : Except LexError (List (Token κ)) :=
  match last.rest with
  | [] => .ok (pieces.filterMap Piece.token?)
  | found :: _ => .error (.noMatch last.offset found)

/-- The pieces lie side by side from byte `start` to byte `stop`, and each takes the bytes
of its text. -/
inductive Tiled : Nat → List (Piece κ) → Nat → Prop
  | nil {stop : Nat} : Tiled stop [] stop
  | cons {p : Piece κ} {pieces : List (Piece κ)} {stop : Nat} :
      p.stop = p.start + p.lexeme.utf8ByteSize → Tiled p.stop pieces stop →
      Tiled p.start (p :: pieces) stop

theorem outcome_skipped (c last : Cursor) (n : Nat) (pieces : List (Piece κ)) :
    outcome (tokenAt c none n :: pieces) last = outcome pieces last := by
  unfold outcome
  split <;> rfl

theorem outcome_token (c last : Cursor) (kind : κ) (n : Nat) (pieces : List (Piece κ)) :
    outcome (tokenAt c (some kind) n :: pieces) last =
      (outcome pieces last).map (tokenAt c kind n :: ·) := by
  unfold outcome
  split <;> rfl

/-! ## Every text has one cut -/

variable {classes : List (String × Option κ)} {lexicon : Lexicon κ}

theorem not_matches_nil (cls : String × Option κ) (k : Nat) : ¬ Matches [] cls k := by
  rintro ⟨hpos, hle, -⟩
  exact absurd hpos (Nat.not_lt.mpr hle)

theorem Munch.exists_cuts {c : Cursor} {r : Except LexError (List (Token κ))}
    (hr : Munch classes c r) : ∃ pieces last, Cuts classes c pieces last := by
  induction hr with
  | done => exact ⟨[], _, .stop fun cls _ => not_matches_nil cls⟩
  | stuck hnone => exact ⟨[], _, .stop hnone⟩
  | skip hwins _ ih =>
      obtain ⟨pieces, last, hcuts⟩ := ih
      exact ⟨_, last, .piece hwins hcuts⟩
  | token hwins _ ih =>
      obtain ⟨pieces, last, hcuts⟩ := ih
      exact ⟨_, last, .piece hwins hcuts⟩

theorem Cuts.unique (h : compile classes = .ok lexicon) {c last : Cursor}
    {pieces : List (Piece κ)} (hcuts : Cuts classes c pieces last) :
    ∀ {pieces' : List (Piece κ)} {last' : Cursor}, Cuts classes c pieces' last' →
      pieces' = pieces ∧ last' = last := by
  induction hcuts with
  | stop hnone =>
      intro pieces' last' hcuts'
      cases hcuts' with
      | stop => exact ⟨rfl, rfl⟩
      | piece hwins' =>
          have hmatch := (longestMatch_eq_some_iff h).mpr hwins'
          exact nomatch ((longestMatch_eq_none_iff h).mpr hnone).symm.trans hmatch
  | piece hwins _ ih =>
      intro pieces' last' hcuts'
      have hmatch := (longestMatch_eq_some_iff h).mpr hwins
      cases hcuts' with
      | stop hnone' => exact nomatch ((longestMatch_eq_none_iff h).mpr hnone').symm.trans hmatch
      | piece hwins' hlater =>
          obtain ⟨rfl, rfl⟩ := Match.mk.inj
            (Option.some.inj (((longestMatch_eq_some_iff h).mpr hwins').symm.trans hmatch))
          obtain ⟨rfl, rfl⟩ := ih hlater
          exact ⟨rfl, rfl⟩

/-! ## The pieces of a text -/

theorem Cuts.rest_eq {c last : Cursor} {pieces : List (Piece κ)}
    (hcuts : Cuts classes c pieces last) :
    c.rest = pieces.flatMap (·.lexeme.toList) ++ last.rest := by
  induction hcuts with
  | stop => rfl
  | @piece c last kind n pieces hwins hlater ih =>
      calc c.rest = c.rest.take n ++ c.rest.drop n := (List.take_append_drop n c.rest).symm
        _ = c.rest.take n ++ (pieces.flatMap (·.lexeme.toList) ++ last.rest) := by rw [← ih]; rfl
        _ = (tokenAt c kind n :: pieces).flatMap (·.lexeme.toList) ++ last.rest := by
          rw [List.flatMap_cons, tokenAt, String.toList_ofList, List.append_assoc]

theorem Cuts.tiled {c last : Cursor} {pieces : List (Piece κ)}
    (hcuts : Cuts classes c pieces last) : Tiled c.offset pieces last.offset := by
  induction hcuts with
  | stop => exact .nil
  | @piece c last kind n pieces hwins hlater ih =>
      have hstop : (c.advance n).offset =
          c.offset + (String.ofList (c.rest.take n)).utf8ByteSize := by
        rw [← Text.byteLength_eq, Cursor.advance]
      exact .cons (p := tokenAt c kind n) hstop ih

/-- Of the bytes of the text none is lost. -/
theorem Cuts.bytes_eq {c last : Cursor} {pieces : List (Piece κ)}
    (hcuts : Cuts classes c pieces last) :
    last.offset + Text.byteLength last.rest = c.offset + Text.byteLength c.rest := by
  induction hcuts with
  | stop => rfl
  | @piece c last kind n pieces hwins hlater ih =>
      rw [ih, Cursor.advance, Nat.add_assoc, ← Text.byteLength_append, List.take_append_drop]

/-! ## The tokenizer follows the cut -/

/-- A tokenizer that has skipped ahead from a cursor gives the tokens of the cut from there and
stays at its end. -/
theorem Cuts.collect_eq (h : compile classes = .ok lexicon) {c last : Cursor}
    {pieces : List (Piece κ)} (hcuts : Cuts classes c pieces last) :
    ∀ (t : Tokenizer κ), t.lexicon = lexicon → t.cursor = lexicon.skip c →
      t.collect = (outcome pieces last, { t with cursor := last }) := by
  induction hcuts with
  | @stop c hnone =>
      intro t hlex hcursor
      have hm := (longestMatch_eq_none_iff h).mpr hnone
      rw [skip_of_no_match hm] at hcursor
      subst hcursor hlex
      cases hrest : t.cursor.rest with
      | nil => rw [Tokenizer.collect_of_nil hrest, outcome, hrest]; rfl
      | cons found rest => rw [Tokenizer.collect_of_no_match hrest hm, outcome, hrest]
  | @piece c last kind n pieces hwins hlater ih =>
      intro t hlex hcursor
      have hm := (longestMatch_eq_some_iff h).mpr hwins
      cases kind with
      | none =>
          -- the piece has been skipped already
          rw [skip_of_ignored hm] at hcursor
          rw [ih t hlex hcursor, outcome_skipped]
      | some kind =>
          rw [skip_of_token hm] at hcursor
          subst hcursor hlex
          rw [Tokenizer.collect_of_match hm, ih (t.movedBehind n) rfl rfl, outcome_token]
          rfl

/-- **Maximal munch.**  A text has one cut into winning matches.  Collecting the tokens of the text
gives those of the cut and leaves the tokenizer at its end; where a character is left there,
collecting fails at that character.  The pieces, skipped ones included, spell the text before the
end of the cut and lie side by side from byte `0` on. -/
theorem collect_eq_cut (h : compile classes = .ok lexicon) (text : String) :
    ∃ pieces last, Cuts classes ⟨0, text.toList⟩ pieces last ∧
      (∀ pieces' last', Cuts classes ⟨0, text.toList⟩ pieces' last' →
        pieces' = pieces ∧ last' = last) ∧
      (Tokenizer.start lexicon text).collect =
        (outcome pieces last, { Tokenizer.start lexicon text with cursor := last }) ∧
      text.toList = pieces.flatMap (·.lexeme.toList) ++ last.rest ∧
      Tiled 0 pieces last.offset ∧
      last.offset + Text.byteLength last.rest = text.utf8ByteSize := by
  obtain ⟨pieces, last, hcuts⟩ :=
    (munch_collect h ⟨0, text.toList⟩ (Tokenizer.start lexicon text) rfl rfl).exists_cuts
  refine ⟨pieces, last, hcuts, ?_, ?_, hcuts.rest_eq, hcuts.tiled, ?_⟩
  · intro pieces' last' hcuts'
    exact hcuts.unique h hcuts'
  · exact hcuts.collect_eq h _ rfl rfl
  · rw [hcuts.bytes_eq, Nat.zero_add, Text.byteLength_eq, String.ofList_toList]

/-- A word that is also in a later class, words with a letter of two bytes, and blanks. -/
def wordClasses : List (String × Option Bool) :=
  [("if", some true), ("(i|f|é)*", some false), ("  *", none)]

theorem collect_eq_cut_words :
    ∃ pieces, Cuts wordClasses ⟨0, "  ifé if".toList⟩ pieces ⟨9, []⟩ ∧
      pieces.filterMap Piece.token? = [⟨false, "ifé", 2, 6⟩, ⟨true, "if", 7, 9⟩] ∧
      "  ifé if".toList = pieces.flatMap (·.lexeme.toList) ∧ Tiled 0 pieces 9 := by
  have heval : ((compile wordClasses).toOption.map fun lexicon =>
      let (tokens, t) := (Tokenizer.start lexicon "  ifé if").collect
      (tokens.toOption, t.cursor)) =
      some (some [⟨false, "ifé", 2, 6⟩, ⟨true, "if", 7, 9⟩], ⟨9, []⟩) := by
    decide +kernel
  obtain ⟨lexicon, hl, heval⟩ := Option.map_eq_some_iff.mp heval
  have hok {ε α : Type} {x : Except ε α} {a : α} (h : x.toOption = some a) : x = .ok a := by
    cases x with
    | error e => exact nomatch h
    | ok b => rw [Option.some.inj h]
  obtain ⟨pieces, last, hcuts, -, hcollect, hspell, htiled, -⟩ :=
    collect_eq_cut (hok hl) "  ifé if"
  rw [hcollect] at heval
  obtain ⟨houtcome, rfl⟩ := Prod.mk.inj heval
  exact ⟨pieces, hcuts, Option.some.inj houtcome, by simpa using hspell, htiled⟩

end Lexicon

end FrontEnd
