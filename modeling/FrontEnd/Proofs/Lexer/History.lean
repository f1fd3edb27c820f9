/-
# `Lexer.History` — what holds of a tokenizer after any calls

A tokenizer keeps its text and a cursor in it.  Whatever has been called before, the cursor is
at a place of the text (`Cursor.Ahead`), so that the offset counts the bytes of whole characters,
and it is behind all that is skipped, because every call that moves it skips ahead before it
ends.  So the class that wins at the cursor has a kind, and there are three cases only: the
text has ended, no class matches, or there is a token (`Settled.nextToken_cases`).  In the first two
the tokenizer stays where it was (`nextToken_error`), in the third it goes on.

`Settled` is kept by each call (`Settled.after`), and so by a history of calls
(`settled_history`); all else is read off it.
-/
import FrontEnd.Proofs.Lexer.Pieces

namespace FrontEnd

variable {κ : Type}

/-! ## Places in a text -/

/-- `Ahead c d`: going on from `c` in the same text one comes to `d`. -/
def Cursor.Ahead (c d : Cursor) : Prop :=
  ∃ between, c.rest = between ++ d.rest ∧ d.offset = c.offset + Text.byteLength between

namespace Cursor

theorem Ahead.refl (c : Cursor) : Ahead c c := ⟨[], rfl, rfl⟩

theorem Ahead.trans {c d e : Cursor} (h : Ahead c d) (h' : Ahead d e) : Ahead c e := by
  obtain ⟨xs, hrest, hoffset⟩ := h
  obtain ⟨ys, hrest', hoffset'⟩ := h'
  refine ⟨xs ++ ys, ?_, ?_⟩
  · rw [hrest, hrest', List.append_assoc]
  · rw [hoffset', hoffset, Text.byteLength_append, Nat.add_assoc]

theorem ahead_advance (c : Cursor) (n : Nat) : Ahead c (c.advance n) :=
  ⟨c.rest.take n, (List.take_append_drop n c.rest).symm, rfl⟩

theorem Ahead.offset_le {c d : Cursor} (h : Ahead c d) : c.offset ≤ d.offset := by
  obtain ⟨between, -, hoffset⟩ := h
  rw [hoffset]
  exact Nat.le_add_right _ _

end Cursor

namespace Lexicon

theorem ahead_skip (lexicon : Lexicon κ) (c : Cursor) : Cursor.Ahead c (lexicon.skip c) := by
  fun_induction skip lexicon c with
  | case1 c n _ ih => exact (c.ahead_advance n).trans ih
  | case2 c _ => exact .refl c

/-- Behind what is skipped no skipped class wins. -/
theorem longestMatch_skip_ne (lexicon : Lexicon κ) (c : Cursor) (n : Nat) :
    lexicon.longestMatch (lexicon.skip c).rest ≠ some ⟨none, n⟩ := by
  fun_induction skip lexicon c with
  | case1 c m _ ih => exact ih
  | case2 c h => exact h n

end Lexicon

/-! ## Calls -/

/-- A call to a tokenizer, or to what makes one for the same lexicon. -/
inductive Call where
  | idle
  | start (text : String)
  | tokenize (text : String)
  | nextToken
  | next
  | collect

namespace Tokenizer

/-- The tokenizer after a call. -/
def after (t : Tokenizer κ) : Call → Tokenizer κ
  | .idle => idle t.lexicon
  | .start text => start t.lexicon text
  | .tokenize text => t.tokenize text
  | .nextToken => t.nextToken.2
  | .next => t.next.2
  | .collect => t.collect.2

/-- The tokenizer after some calls, one after the other. -/
def history (lexicon : Lexicon κ) (calls : List Call) : Tokenizer κ :=
  calls.foldl after (idle lexicon)

/-- `Settled lexicon t`: the cursor of the tokenizer is at a place of its text, behind all that is
skipped. -/
structure Settled (lexicon : Lexicon κ) (t : Tokenizer κ) : Prop where
  lexicon_eq : t.lexicon = lexicon
  ahead : Cursor.Ahead ⟨0, t.source.toList⟩ t.cursor
  skipped : ∀ n, lexicon.longestMatch t.cursor.rest ≠ some ⟨none, n⟩

variable {lexicon : Lexicon κ} {t u : Tokenizer κ}

theorem settled_idle (lexicon : Lexicon κ) : Settled lexicon (idle lexicon) := by
  refine ⟨rfl, .refl _, ?_⟩
  intro n
  show lexicon.longestMatch [] ≠ _
  rw [Lexicon.longestMatch_nil]
  exact nofun

theorem settled_tokenize (h : t.lexicon = lexicon) (text : String) :
    Settled lexicon (t.tokenize text) := by
  subst h
  exact ⟨rfl, t.lexicon.ahead_skip _, t.lexicon.longestMatch_skip_ne _⟩

theorem Settled.movedBehind (h : Settled lexicon t) (n : Nat) :
    Settled lexicon (t.movedBehind n) := by
  obtain ⟨rfl, hahead, -⟩ := h
  refine ⟨rfl, ?_, t.lexicon.longestMatch_skip_ne _⟩
  exact hahead.trans ((t.cursor.ahead_advance n).trans (t.lexicon.ahead_skip _))

theorem Settled.winner (h : Settled lexicon t) :
    lexicon.longestMatch t.cursor.rest = none ∨
      ∃ kind n, lexicon.longestMatch t.cursor.rest = some ⟨some kind, n⟩ := by
  cases hm : lexicon.longestMatch t.cursor.rest with
  | none => exact Or.inl rfl
  | some m =>
      obtain ⟨kind, n⟩ := m
      cases kind with
      | none => exact absurd hm (h.skipped n)
      | some kind => exact Or.inr ⟨kind, n, rfl⟩

/-- At the end of the text, at a character that no class matches, or at a token. -/
theorem Settled.nextToken_cases (h : Settled lexicon t) :
    (t.cursor.rest = [] ∧ t.nextToken = (.error (.endOfInput t.offset), t)) ∨
      (∃ found rest, t.cursor.rest = found :: rest ∧
        lexicon.longestMatch t.cursor.rest = none ∧
        t.nextToken = (.error (.noMatch t.offset found), t)) ∨
      ∃ kind n, lexicon.longestMatch t.cursor.rest = some ⟨some kind, n⟩ ∧
        t.nextToken = (.ok (Lexicon.tokenAt t.cursor kind n), t.movedBehind n) := by
  have hwinner := h.winner
  obtain rfl := h.lexicon_eq
  rcases hwinner with hm | ⟨kind, n, hm⟩
  · cases hrest : t.cursor.rest with
    | nil => exact Or.inl ⟨rfl, nextToken_of_nil hrest⟩
    | cons found rest =>
        exact Or.inr (Or.inl ⟨found, rest, rfl, hrest ▸ hm, nextToken_of_no_match hrest hm⟩)
  · exact Or.inr (Or.inr ⟨kind, n, hm, nextToken_of_match hm⟩)

/-- An error is reported where the tokenizer stands, and there it stays. -/
theorem nextToken_error {e : LexError} (h : t.nextToken = (.error e, u)) :
    e.pos = t.offset ∧ u = t := by
  rw [nextToken] at h
  split at h
  · cases h
    exact ⟨rfl, rfl⟩
  · split at h
    · cases h
    · cases h
      exact ⟨rfl, rfl⟩

/-- Behind a token the tokenizer is further on. -/
theorem Settled.nextToken_ok (h : Settled lexicon t) {token : Token κ}
    (hok : t.nextToken = (.ok token, u)) : Settled lexicon u ∧ t.offset < u.offset := by
  rcases h.nextToken_cases with ⟨-, hnext⟩ | ⟨found, rest, -, -, hnext⟩ | ⟨kind, n, hm, hnext⟩
  · cases hok.symm.trans hnext
  · cases hok.symm.trans hnext
  · obtain ⟨-, rfl⟩ := Prod.mk.inj (hok.symm.trans hnext)
    refine ⟨h.movedBehind n, ?_⟩
    obtain ⟨hpos, hle⟩ := Lexicon.longestMatch_bounds hm
    have hne : t.cursor.rest.take n ≠ [] := by
      rw [← List.length_pos_iff, List.length_take]
      exact Nat.lt_min.mpr ⟨hpos, Nat.lt_of_lt_of_le hpos hle⟩
    calc t.offset < t.offset + Text.byteLength (t.cursor.rest.take n) :=
          Nat.lt_add_of_pos_right (Text.byteLength_pos hne)
      _ ≤ (t.movedBehind n).offset := (t.lexicon.ahead_skip (t.cursor.advance n)).offset_le

theorem Settled.nextToken (h : Settled lexicon t) : Settled lexicon t.nextToken.2 := by
  cases hnext : t.nextToken with
  | mk result u =>
      cases result with
      | error e =>
          obtain ⟨-, rfl⟩ := nextToken_error hnext
          exact h
      | ok token => exact (h.nextToken_ok hnext).1

theorem Settled.next (h : Settled lexicon t) : Settled lexicon t.next.2 := by
  rw [Tokenizer.next]
  split
  · exact h
  · have hbehind := h.nextToken
    exact ⟨hbehind.lexicon_eq, hbehind.ahead, hbehind.skipped⟩

theorem Settled.collect (h : Settled lexicon t) : Settled lexicon t.collect.2 := by
  -- there is less text left behind every token
  generalize hsize : t.cursor.rest.length = size
  induction size using Nat.strong_induction_on generalizing t with
  | _ size ih =>
      cases hmore : t.hasMore with
      | false =>
          rw [Tokenizer.collect, if_neg (hmore ▸ Bool.false_ne_true)]
          exact h
      | true =>
          have hbehind := h.nextToken
          cases hnext : t.nextToken with
          | mk result u =>
              rw [hnext] at hbehind
              cases result with
              | error e =>
                  rw [collect_of_error hmore hnext]
                  exact hbehind
              | ok token =>
                  rw [collect_of_ok hmore hnext]
                  exact ih _ (hsize ▸ nextToken_shorter hnext) hbehind rfl

/-- Every call leaves the tokenizer behind what is skipped. -/
theorem Settled.after (h : Settled lexicon t) (call : Call) : Settled lexicon (t.after call) := by
  have hidle : Settled lexicon (idle t.lexicon) := h.lexicon_eq ▸ settled_idle _
  cases call with
  | idle => exact hidle
  | start text => exact settled_tokenize hidle.lexicon_eq text
  | tokenize text => exact settled_tokenize h.lexicon_eq text
  | nextToken => exact h.nextToken
  | next => exact h.next
  | collect => exact h.collect

theorem settled_history (lexicon : Lexicon κ) (calls : List Call) :
    Settled lexicon (history lexicon calls) :=
  List.foldlRecOn calls Tokenizer.after (settled_idle lexicon) fun _ h call _ => h.after call

/-! ## The invariant -/

/-- The text is what lies before the cursor, so many bytes, and what lies behind it. -/
theorem Settled.source_eq (h : Settled lexicon t) :
    ∃ front, t.source = front ++ String.ofList t.cursor.rest ∧ front.utf8ByteSize = t.offset := by
  obtain ⟨front, hrest, hoffset⟩ := h.ahead
  refine ⟨String.ofList front, ?_, ?_⟩
  · rw [← String.ofList_append, ← hrest, String.ofList_toList]
  · rw [← Text.byteLength_eq]
    exact (hoffset.trans (Nat.zero_add _)).symm

theorem hasMore_eq_false_iff : t.hasMore = false ↔ t.cursor.rest = [] := by
  rw [hasMore, Bool.not_eq_false', List.isEmpty_iff]

/-- What holds of a tokenizer between two calls. -/
structure Invariant (classes : List (String × Option κ)) (t : Tokenizer κ) : Prop where
  /-- The offset is in the text, at the boundary of a character, and the rest lies behind it. -/
  within : t.offset ≤ t.source.utf8ByteSize
  boundary : String.Pos.Raw.IsValid t.source ⟨t.offset⟩
  source_eq : ∃ front, t.source = front ++ String.ofList t.cursor.rest ∧
    front.utf8ByteSize = t.offset
  /-- A class that wins at the cursor has a kind. -/
  winner : t.lexicon.longestMatch t.cursor.rest = none ∨
    ∃ kind n, t.lexicon.longestMatch t.cursor.rest = some ⟨some kind, n⟩
  hasMore_iff : t.hasMore = false ↔ t.offset = t.source.utf8ByteSize
  /-- There is no token at the end of the text and where no class matches. -/
  endOfInput_iff : (∃ pos, t.nextToken.1 = .error (.endOfInput pos)) ↔ t.hasMore = false
  noMatch_iff : (∃ pos found, t.nextToken.1 = .error (.noMatch pos found)) ↔
    t.hasMore = true ∧ ∀ c ∈ classes, ∀ k, ¬ Lexicon.Matches t.cursor.rest c k
  /-- An error is reported at the offset and changes nothing, and a token moves the offset on. -/
  unchanged : ∀ e, t.nextToken.1 = .error e → e.pos = t.offset ∧ t.after .nextToken = t
  advances : ∀ token, t.nextToken.1 = .ok token → t.offset < (t.after .nextToken).offset

theorem Settled.hasMore_iff (h : Settled lexicon t) :
    t.hasMore = false ↔ t.offset = t.source.utf8ByteSize := by
  obtain ⟨front, hsource, hfront⟩ := h.source_eq
  rw [hasMore_eq_false_iff, hsource, String.utf8ByteSize_append, hfront, ← Text.byteLength_eq]
  refine ⟨?_, ?_⟩
  · intro hrest
    rw [hrest]
    rfl
  · intro hsize
    by_contra hne
    have hpos := Text.byteLength_pos hne
    omega

theorem Settled.endOfInput_iff (h : Settled lexicon t) :
    (∃ pos, t.nextToken.1 = .error (.endOfInput pos)) ↔ t.hasMore = false := by
  rw [hasMore_eq_false_iff]
  rcases h.nextToken_cases with
    ⟨hrest, hnext⟩ | ⟨found, rest, hrest, -, hnext⟩ | ⟨kind, n, hm, hnext⟩
  · exact iff_of_true ⟨_, congrArg Prod.fst hnext⟩ hrest
  · rw [hnext, hrest]
    exact iff_of_false nofun nofun
  · rw [hnext]
    refine iff_of_false nofun ?_
    intro hrest
    rw [hrest, Lexicon.longestMatch_nil] at hm
    exact nomatch hm

theorem Settled.noMatch_iff (h : Settled lexicon t) :
    (∃ pos found, t.nextToken.1 = .error (.noMatch pos found)) ↔
      t.hasMore = true ∧ lexicon.longestMatch t.cursor.rest = none := by
  rw [← Bool.not_eq_false, hasMore_eq_false_iff]
  rcases h.nextToken_cases with
    ⟨hrest, hnext⟩ | ⟨found, rest, hrest, hm, hnext⟩ | ⟨kind, n, hm, hnext⟩
  · rw [hnext]
    exact iff_of_false nofun fun hmore => hmore.1 hrest
  · exact iff_of_true ⟨_, _, congrArg Prod.fst hnext⟩ ⟨by rw [hrest]; exact nofun, hm⟩
  · rw [hnext, hm]
    exact iff_of_false nofun nofun

/-- **Invariant of a tokenizer.**  It holds after any calls, in any order and with any texts. -/
theorem invariant_history {classes : List (String × Option κ)}
    (hcompile : Lexicon.compile classes = .ok lexicon) (calls : List Call) :
    (history lexicon calls).Invariant classes := by
  have h := settled_history lexicon calls
  generalize history lexicon calls = t at h
  obtain ⟨front, hsource, hfront⟩ := h.source_eq
  have hboundary : String.Pos.Raw.IsValid t.source ⟨t.offset⟩ :=
    String.Pos.Raw.isValid_iff_exists_append.mpr
      ⟨front, _, hsource, String.Pos.Raw.ext hfront.symm⟩
  refine ⟨String.Pos.Raw.le_iff.mp hboundary.le_rawEndPos, hboundary, ⟨front, hsource, hfront⟩,
    h.lexicon_eq ▸ h.winner, h.hasMore_iff, h.endOfInput_iff, ?_, ?_, ?_⟩
  · rw [h.noMatch_iff, Lexicon.longestMatch_eq_none_iff hcompile]
  · intro e herror
    exact nextToken_error (Prod.ext herror rfl)
  · intro token hok
    exact (h.nextToken_ok (Prod.ext hok rfl)).2

/-- Here the tokenizer has skipped blanks, read a word with a letter of two bytes, and come to a
character that no class matches. -/
theorem invariant_history_words : ∃ lexicon t,
    Lexicon.compile Lexicon.wordClasses = .ok lexicon ∧
    history lexicon [.start "  ifé? if", .next, .nextToken, .collect] = t ∧ t.offset = 6 ∧
    t.nextToken.1.toOption.isNone = true ∧ t.hasMore = true ∧ t.Invariant Lexicon.wordClasses := by
  have heval : ((Lexicon.compile Lexicon.wordClasses).toOption.map fun lexicon =>
      let t := history lexicon [.start "  ifé? if", .next, .nextToken, .collect]
      (t.offset, t.nextToken.1.toOption.isNone, t.hasMore)) = some (6, true, true) := by
    decide +kernel
  cases hlexicon : Lexicon.compile Lexicon.wordClasses with
  | error e =>
      rw [hlexicon] at heval
      exact nomatch heval
  | ok lexicon =>
      rw [hlexicon] at heval
      obtain ⟨hoffset, hrest⟩ := Prod.mk.inj (Option.some.inj heval)
      obtain ⟨hnone, hmore⟩ := Prod.mk.inj hrest
      exact ⟨lexicon, _, rfl, rfl, hoffset, hnone, hmore, invariant_history hlexicon _⟩

end Tokenizer

end FrontEnd
