/-
# `Lexer.Stream` — one stream of tokens, however it is pulled

The scan of a text gives some tokens and then, if it does not come to the end, a failure.
A tokenizer over the text has three calls that give tokens (`Pull`), and they can be mixed.
They share the cursor, but only one of them marks the tokenizer as failed.

What a tokenizer gives next depends on the pulls before only through two things: how many
tokens they have taken (`Pull.taken`), and whether `next` was among them behind the last token
(`Pull.Late`).  The tokens ahead of the cursor are those of the scan that have not been taken
(`Pulled.after`), and all answers are read off that (`Pulled.serves`).
-/
import FrontEnd.Proofs.Lexer.History

namespace FrontEnd

variable {κ : Type}

/-! ## Pulls -/

/-- A call that takes tokens from a tokenizer. -/
inductive Pull where
  | nextToken
  | next
  | collect
  deriving DecidableEq

namespace Pull

/-- The same among all calls. -/
def call : Pull → Call
  | nextToken => .nextToken
  | next => .next
  | collect => .collect

/-- How many of `n` tokens are taken: one by each pull, or all of them by collecting. -/
def taken (n : Nat) (pulls : List Pull) : Nat :=
  if collect ∈ pulls then n else min n pulls.length

/-- `next` has been called when all of `n` tokens were taken. -/
def Late (n : Nat) (pulls : List Pull) : Prop :=
  ∃ before after, pulls = before ++ next :: after ∧ taken n before = n

variable {n : Nat} {pulls : List Pull} {pull : Pull}

theorem taken_le (n : Nat) (pulls : List Pull) : taken n pulls ≤ n := by
  rw [taken]
  split
  · exact Nat.le_refl n
  · exact Nat.min_le_left _ _

theorem taken_collect (n : Nat) (pulls : List Pull) : taken n (pulls ++ [collect]) = n :=
  if_pos (List.mem_append_right _ List.mem_cons_self)

theorem taken_one (h : pull ≠ collect) :
    taken n (pulls ++ [pull]) = min n (taken n pulls + 1) := by
  have hmem : collect ∈ pulls ++ [pull] ↔ collect ∈ pulls := by
    simp [Ne.symm h]
  simp only [taken, hmem, List.length_append, List.length_singleton]
  split
  · exact (Nat.min_eq_left (Nat.le_succ n)).symm
  · omega

/-- Tokens that have been taken are not put back. -/
theorem taken_append (h : taken n pulls = n) (more : List Pull) :
    taken n (pulls ++ more) = n := by
  have hle := taken_le n (pulls ++ more)
  simp only [taken, List.mem_append, List.length_append] at h hle ⊢
  by_cases hpulls : collect ∈ pulls
  · simp [hpulls]
  · rw [if_neg hpulls] at h
    split
    · rfl
    · omega

theorem Late.taken_eq (h : Late n pulls) : taken n pulls = n := by
  obtain ⟨before, after, rfl, hbefore⟩ := h
  exact taken_append hbefore _

theorem late_append_singleton :
    Late n (pulls ++ [pull]) ↔ Late n pulls ∨ pull = next ∧ taken n pulls = n := by
  refine ⟨?_, ?_⟩
  · rintro ⟨before, after, heq, hbefore⟩
    rcases List.eq_nil_or_concat after with rfl | ⟨after, last, rfl⟩
    · obtain ⟨rfl, hlast⟩ := List.append_inj' heq rfl
      exact Or.inr ⟨(List.cons.inj hlast).1, hbefore⟩
    · rw [List.concat_eq_append, ← List.cons_append, ← List.append_assoc] at heq
      obtain ⟨rfl, -⟩ := List.append_inj' heq rfl
      exact Or.inl ⟨before, after, rfl, hbefore⟩
  · rintro (⟨before, after, rfl, hbefore⟩ | ⟨rfl, hpulls⟩)
    · exact ⟨before, after ++ [pull], by rw [List.append_assoc, List.cons_append], hbefore⟩
    · exact ⟨pulls, [], rfl, hpulls⟩

end Pull

/-! ## The scan -/

namespace Lexicon

/-- What is wrong at the end of a cut: nothing if the text ends there too. -/
def failureAt (last : Cursor) : Option LexError := last.rest.head?.map (.noMatch last.offset)

/-- `Scans classes text tokens failure`: maximal munch over the text finds the tokens and then, if
it does not come to the end of the text, the failure. -/
def Scans (classes : List (String × Option κ)) (text : String) (tokens : List (Token κ))
    (failure : Option LexError) : Prop :=
  ∃ pieces last, Cuts classes ⟨0, text.toList⟩ pieces last ∧
    tokens = pieces.filterMap Piece.token? ∧ failure = failureAt last

theorem outcome_eq (pieces : List (Piece κ)) (last : Cursor) :
    outcome pieces last =
      (failureAt last).elim (.ok (pieces.filterMap Piece.token?)) .error := by
  rw [outcome, failureAt]
  cases last.rest <;> rfl

/-- At the end of a cut no class matches. -/
theorem Cuts.not_matches {classes : List (String × Option κ)} {c last : Cursor}
    {pieces : List (Piece κ)} (h : Cuts classes c pieces last) :
    ∀ cls ∈ classes, ∀ k, ¬ Matches last.rest cls k := by
  induction h with
  | stop hnone => exact hnone
  | piece _ _ ih => exact ih

end Lexicon

namespace Tokenizer

open Lexicon Pull

/-! ## What a tokenizer has ahead of it -/

/-- `Faces classes tokens last t`: ahead of the cursor are the tokens, and behind them, at `last`,
no class matches. -/
def Faces (classes : List (String × Option κ)) (tokens : List (Token κ)) (last : Cursor)
    (t : Tokenizer κ) : Prop :=
  ∃ c pieces, t.cursor = t.lexicon.skip c ∧ Cuts classes c pieces last ∧
    tokens = pieces.filterMap Piece.token?

variable {classes : List (String × Option κ)} {tokens : List (Token κ)} {last : Cursor}
  {t u : Tokenizer κ}

/-- The tokenizer stands at the end, or at the first of the tokens. -/
theorem Faces.cases (hlex : compile classes = .ok t.lexicon) (h : Faces classes tokens last t) :
    (tokens = [] ∧ t.cursor = last) ∨
      ∃ token rest n, tokens = token :: rest ∧ t.nextToken = (.ok token, t.movedBehind n) ∧
        Faces classes rest last (t.movedBehind n) := by
  obtain ⟨c, pieces, hcursor, hcuts, rfl⟩ := h
  induction hcuts with
  | stop hnone =>
      rw [skip_of_no_match ((longestMatch_eq_none_iff hlex).mpr hnone)] at hcursor
      exact Or.inl ⟨rfl, hcursor⟩
  | @piece c last kind n pieces hwins hlater ih =>
      have hm := (longestMatch_eq_some_iff hlex).mpr hwins
      cases kind with
      | none =>
          -- the piece has been skipped already
          rw [skip_of_ignored hm] at hcursor
          exact ih hcursor
      | some kind =>
          rw [skip_of_token hm] at hcursor
          subst hcursor
          exact Or.inr ⟨tokenAt t.cursor kind n, pieces.filterMap Piece.token?, n, rfl,
            nextToken_of_match hm, _, pieces, rfl, hlater, rfl⟩

/-- Where no class matches there is a failure, or the text has ended. -/
theorem nextToken_at_end (hm : t.lexicon.longestMatch t.cursor.rest = none) :
    t.nextToken = (.error ((failureAt t.cursor).getD (.endOfInput t.cursor.offset)), t) := by
  cases hrest : t.cursor.rest with
  | nil =>
      rw [nextToken_of_nil hrest, failureAt, hrest]
      rfl
  | cons found rest =>
      rw [nextToken_of_no_match hrest hm, failureAt, hrest]
      rfl

theorem Faces.collect_eq (hlex : compile classes = .ok t.lexicon)
    (h : Faces classes tokens last t) :
    t.collect = ((failureAt last).elim (.ok tokens) .error, { t with cursor := last }) := by
  obtain ⟨c, pieces, hcursor, hcuts, rfl⟩ := h
  rw [hcuts.collect_eq hlex t rfl hcursor, outcome_eq]

/-! ## The answers of `next` -/

theorem next_of_failed (h : t.failed = true) : t.next = (none, t) := by
  rw [next, h]
  rfl

theorem next_of_nil (h : t.cursor.rest = []) : t.next = (none, t) := by
  rw [next, hasMore_eq_false_iff.mpr h]
  simp

theorem next_of_ok (hfailed : t.failed = false) {token : Token κ}
    (h : t.nextToken = (.ok token, u)) :
    t.next = (some (.ok token), { u with failed := false }) := by
  have hmore : t.hasMore = true := by
    rw [← Bool.not_eq_false, hasMore_eq_false_iff]
    intro hrest
    cases h.symm.trans (nextToken_of_nil hrest)
  rw [next, hfailed, hmore, h]
  rfl

theorem next_of_error (hfailed : t.failed = false) (hmore : t.hasMore = true) {e : LexError}
    (h : t.nextToken = (.error e, u)) :
    t.next = (some (.error e), { u with failed := true }) := by
  rw [next, hfailed, hmore, h]
  rfl

/-! ## Pull after pull -/

/-- A tokenizer over a text after some pulls. -/
def pulled (lexicon : Lexicon κ) (text : String) (pulls : List Pull) : Tokenizer κ :=
  (pulls.map call).foldl after (start lexicon text)

/-- `Pulled classes tokens last pulls t`: of a stream of tokens that ends at `last`, those that the
pulls have not taken are ahead of the tokenizer, and it is marked as failed if `next` has come
to a failure. -/
structure Pulled (classes : List (String × Option κ)) (tokens : List (Token κ)) (last : Cursor)
    (pulls : List Pull) (t : Tokenizer κ) : Prop where
  compiled : compile classes = .ok t.lexicon
  unmatched : t.lexicon.longestMatch last.rest = none
  faces : Faces classes (tokens.drop (taken tokens.length pulls)) last t
  failed_iff : t.failed = true ↔ last.rest ≠ [] ∧ Late tokens.length pulls

variable {pulls : List Pull}

/-- All tokens are taken and the tokenizer stands at the end, or it stands at the first token
that has not been taken. -/
theorem Pulled.cases (h : Pulled classes tokens last pulls t) :
    (taken tokens.length pulls = tokens.length ∧ t.cursor = last) ∨
      ∃ token n, tokens[taken tokens.length pulls]? = some token ∧
        taken tokens.length pulls < tokens.length ∧ t.failed = false ∧
        t.nextToken = (.ok token, t.movedBehind n) ∧
        Faces classes (tokens.drop (taken tokens.length pulls + 1)) last (t.movedBehind n) := by
  have hle := taken_le tokens.length pulls
  rcases h.faces.cases h.compiled with ⟨hnil, hcursor⟩ | ⟨token, rest, n, hdrop, hnext, hfaces⟩
  · exact Or.inl ⟨Nat.le_antisymm hle (List.drop_eq_nil_iff.mp hnil), hcursor⟩
  · have hlt : taken tokens.length pulls < tokens.length := by
      refine Nat.lt_of_le_of_ne hle fun heq => ?_
      rw [heq, List.drop_length] at hdrop
      exact nomatch hdrop
    rw [List.drop_eq_getElem_cons hlt] at hdrop
    obtain ⟨rfl, rfl⟩ := List.cons.inj hdrop
    refine Or.inr ⟨_, n, List.getElem?_eq_getElem hlt, hlt, ?_, hnext, hfaces⟩
    rw [Bool.eq_false_iff]
    intro hfailed
    exact Nat.ne_of_lt hlt (h.failed_iff.mp hfailed).2.taken_eq

/-- At the end there is the failure of the stream, or the text has ended. -/
theorem Pulled.nextToken_eq (h : Pulled classes tokens last pulls t) (hcursor : t.cursor = last) :
    t.nextToken = (.error ((failureAt last).getD (.endOfInput last.offset)), t) := by
  rw [nextToken_at_end (hcursor ▸ h.unmatched), hcursor]

/-- At the end nothing is ahead. -/
theorem Pulled.at_end (h : Pulled classes tokens last pulls t) {pulls' : List Pull}
    (hall : taken tokens.length pulls' = tokens.length) (hlex : u.lexicon = t.lexicon)
    (hcursor : u.cursor = last)
    (hfailed : u.failed = true ↔ last.rest ≠ [] ∧ Late tokens.length pulls') :
    Pulled classes tokens last pulls' u := by
  refine ⟨hlex ▸ h.compiled, hlex ▸ h.unmatched, ?_, hfailed⟩
  rw [hall, List.drop_length]
  refine ⟨last, [], ?_, .stop ((longestMatch_eq_none_iff h.compiled).mp h.unmatched), rfl⟩
  rw [hlex, skip_of_no_match h.unmatched, hcursor]

/-- A pull has taken one token. -/
theorem Pulled.behind_token (h : Pulled classes tokens last pulls t) {pull : Pull}
    (hone : pull ≠ .collect) (hlt : taken tokens.length pulls < tokens.length)
    (hlex : u.lexicon = t.lexicon) (hfailed : u.failed = false)
    (hfaces : Faces classes (tokens.drop (taken tokens.length pulls + 1)) last u) :
    Pulled classes tokens last (pulls ++ [pull]) u := by
  refine ⟨hlex ▸ h.compiled, hlex ▸ h.unmatched, ?_, ?_⟩
  · rwa [taken_one hone, Nat.min_eq_right hlt]
  · rw [hfailed, late_append_singleton]
    refine iff_of_false Bool.false_ne_true ?_
    rintro ⟨-, hlate | ⟨-, hall⟩⟩
    · exact Nat.ne_of_lt hlt hlate.taken_eq
    · exact Nat.ne_of_lt hlt hall

/-- One more pull. -/
theorem Pulled.after (h : Pulled classes tokens last pulls t) (pull : Pull) :
    Pulled classes tokens last (pulls ++ [pull]) (t.after pull.call) := by
  have hsame (hne : pull ≠ .next) : t.failed = true ↔
      last.rest ≠ [] ∧ Late tokens.length (pulls ++ [pull]) := by
    rw [h.failed_iff, late_append_singleton, or_iff_left (fun hnext => hne hnext.1)]
  cases pull with
  | nextToken =>
      rw [call, Tokenizer.after]
      rcases h.cases with ⟨hall, hcursor⟩ | ⟨token, n, -, hlt, hfailed, hnext, hfaces⟩
      · rw [h.nextToken_eq hcursor]
        exact h.at_end (taken_append hall _) rfl hcursor (hsame (by simp))
      · rw [hnext]
        exact h.behind_token (by simp) hlt rfl hfailed hfaces
  | collect =>
      rw [call, Tokenizer.after, h.faces.collect_eq h.compiled]
      exact h.at_end (taken_collect _ _) rfl rfl (hsame (by simp))
  | next =>
      rw [call, Tokenizer.after]
      rcases h.cases with ⟨hall, hcursor⟩ | ⟨token, n, -, hlt, hfailed, hnext, hfaces⟩
      · have hall' := taken_append hall [.next]
        have hlate : Late tokens.length (pulls ++ [.next]) :=
          late_append_singleton.mpr (Or.inr ⟨rfl, hall⟩)
        cases hfailed : t.failed with
        | true =>
            rw [next_of_failed hfailed]
            exact h.at_end hall' rfl hcursor
              (iff_of_true hfailed ⟨(h.failed_iff.mp hfailed).1, hlate⟩)
        | false =>
            by_cases hrest : last.rest = []
            · rw [next_of_nil (hcursor ▸ hrest)]
              refine h.at_end hall' rfl hcursor (iff_of_false ?_ fun hlate => hlate.1 hrest)
              rw [hfailed]
              exact Bool.false_ne_true
            · have hmore : t.hasMore = true := by
                rwa [← Bool.not_eq_false, hasMore_eq_false_iff, hcursor]
              rw [next_of_error hfailed hmore (h.nextToken_eq hcursor)]
              exact h.at_end hall' rfl hcursor (iff_of_true rfl ⟨hrest, hlate⟩)
      · rw [next_of_ok hfailed hnext]
        exact h.behind_token (by simp) hlt rfl rfl hfaces

theorem pulled_pulled {lexicon : Lexicon κ} (hlex : compile classes = .ok lexicon) {text : String}
    {pieces : List (Piece κ)} (hcuts : Cuts classes ⟨0, text.toList⟩ pieces last)
    (pulls : List Pull) :
    Pulled classes (pieces.filterMap Piece.token?) last pulls (pulled lexicon text pulls) := by
  induction pulls using List.reverseRecOn with
  | nil =>
      refine ⟨hlex, (longestMatch_eq_none_iff hlex).mpr hcuts.not_matches, ?_, ?_⟩
      · exact ⟨_, pieces, rfl, hcuts, by simp [taken]⟩
      · refine iff_of_false Bool.false_ne_true ?_
        rintro ⟨-, before, after, heq, -⟩
        exact nomatch List.append_eq_nil_iff.mp heq.symm
  | append_singleton pulls pull ih =>
      have hstep := ih.after pull
      rwa [pulled, List.map_append, List.foldl_append]

/-! ## The answers -/

/-- `Serves lexicon text tokens failure pulls t`: the answers that are left to give for the tokens
and the failure of a text after the pulls are those of the tokenizer. -/
structure Serves (lexicon : Lexicon κ) (text : String) (tokens : List (Token κ))
    (failure : Option LexError) (pulls : List Pull) (t : Tokenizer κ) : Prop where
  /-- Both single calls give the first token that has not been taken. -/
  token : ∀ token, tokens[taken tokens.length pulls]? = some token →
    t.nextToken.1 = .ok token ∧ t.next.1 = some (.ok token)
  /-- Behind the last token `nextToken` gives the failure, as often as it is called. -/
  nextToken_end : taken tokens.length pulls = tokens.length →
    t.nextToken.1 = .error (failure.getD (.endOfInput text.utf8ByteSize))
  /-- There `next` gives the failure the first time, and nothing ever after. -/
  next_first : taken tokens.length pulls = tokens.length → ¬ Late tokens.length pulls →
    t.next.1 = failure.map .error
  next_later : Late tokens.length pulls → t.next.1 = none
  /-- Collecting gives the tokens that have not been taken, or the failure and stays there. -/
  collect_eq : t.collect.1 =
    failure.elim (.ok (tokens.drop (taken tokens.length pulls))) .error
  offset_collect : ∀ e, failure = some e → t.collect.2.offset = e.pos
  /-- Nothing is kept for another text. -/
  tokenize_eq : ∀ text', t.tokenize text' = start lexicon text'

/-- What a tokenizer has ahead of it decides its answers. -/
theorem Pulled.serves {lexicon : Lexicon κ} (hlex : t.lexicon = lexicon) {text : String}
    (h : Pulled classes tokens last pulls t)
    (hsize : last.offset + Text.byteLength last.rest = text.utf8ByteSize) :
    Serves lexicon text tokens (failureAt last) pulls t := by
  subst hlex
  have hcollect := h.faces.collect_eq h.compiled
  -- behind the last token the tokenizer is at the end of the scan
  have hend (hall : taken tokens.length pulls = tokens.length) : t.cursor = last := by
    rcases h.cases with ⟨-, hcursor⟩ | ⟨token, n, -, hlt, -, -, -⟩
    · exact hcursor
    · exact absurd hall (Nat.ne_of_lt hlt)
  refine ⟨?_, ?_, ?_, ?_, by rw [hcollect], ?_, fun text' => rfl⟩
  · intro token htoken
    rcases h.cases with ⟨hall, -⟩ | ⟨token', n, htoken', -, hfailed, hnext, -⟩
    · rw [hall, List.getElem?_eq_none (Nat.le_refl _)] at htoken
      exact nomatch htoken
    · obtain rfl := Option.some.inj (htoken'.symm.trans htoken)
      exact ⟨by rw [hnext], by rw [next_of_ok hfailed hnext]⟩
  · intro hall
    rw [h.nextToken_eq (hend hall), failureAt]
    cases hrest : last.rest with
    | nil =>
        rw [hrest] at hsize
        rw [← hsize]
        rfl
    | cons found rest => rfl
  · intro hall hlate
    have hcursor := hend hall
    have hfailed : t.failed = false := by
      rw [Bool.eq_false_iff]
      exact fun hfailed => hlate (h.failed_iff.mp hfailed).2
    have hnext := h.nextToken_eq hcursor
    rw [failureAt] at hnext ⊢
    cases hrest : last.rest with
    | nil => rw [next_of_nil (hcursor ▸ hrest)]; rfl
    | cons found rest =>
        have hmore : t.hasMore = true := by
          rw [← Bool.not_eq_false, hasMore_eq_false_iff, hcursor, hrest]
          exact nofun
        rw [hrest] at hnext
        rw [next_of_error hfailed hmore hnext]
        rfl
  · intro hlate
    by_cases hrest : last.rest = []
    · rw [next_of_nil (hend hlate.taken_eq ▸ hrest)]
    · rw [next_of_failed (h.failed_iff.mpr ⟨hrest, hlate⟩)]
  · intro e he
    rw [hcollect]
    obtain ⟨found, -, rfl⟩ := Option.map_eq_some_iff.mp he
    rfl

/-- The tokenizer over a text serves what the scan of the text finds. -/
theorem serves_of_cuts {lexicon : Lexicon κ} (hlex : compile classes = .ok lexicon)
    {text : String} {pieces : List (Piece κ)}
    (hcuts : Cuts classes ⟨0, text.toList⟩ pieces last) (pulls : List Pull) :
    Serves lexicon text (pieces.filterMap Piece.token?) (failureAt last) pulls
      (pulled lexicon text pulls) := by
  have hpulled := pulled_pulled hlex hcuts pulls
  have hsize : last.offset + Text.byteLength last.rest = text.utf8ByteSize := by
    rw [hcuts.bytes_eq, Nat.zero_add, Text.byteLength_eq, String.ofList_toList]
  exact hpulled.serves (Except.ok.inj (hpulled.compiled.symm.trans hlex)) hsize

/-- **One stream of tokens.**  Every text has a scan, and whatever has been pulled from a tokenizer
over the text, in whatever order, it gives what is left of the tokens of the scan, and behind them
the failure. -/
theorem serves_pulled {lexicon : Lexicon κ} (hlex : compile classes = .ok lexicon)
    (text : String) :
    (∃ tokens failure, Scans classes text tokens failure) ∧
      ∀ tokens failure, Scans classes text tokens failure → ∀ pulls,
        Serves lexicon text tokens failure pulls (pulled lexicon text pulls) := by
  refine ⟨?_, ?_⟩
  · obtain ⟨pieces, last, hcuts⟩ :=
      (munch_collect hlex ⟨0, text.toList⟩ (start lexicon text) rfl rfl).exists_cuts
    exact ⟨_, _, pieces, last, hcuts, rfl, rfl⟩
  · rintro tokens failure ⟨pieces, last, hcuts, rfl, rfl⟩ pulls
    exact serves_of_cuts hlex hcuts pulls

/-- A word with a letter of two bytes, and behind it a character that no class matches. -/
theorem serves_pulled_words : ∃ lexicon tokens failure,
    compile wordClasses = .ok lexicon ∧ Scans wordClasses "  ifé? if" tokens failure ∧
    failure = some (.noMatch 6 '?') ∧
    ∀ pulls, Serves lexicon "  ifé? if" tokens failure pulls
      (pulled lexicon "  ifé? if" pulls) := by
  have heval : ((compile wordClasses).toOption.map fun lexicon =>
      (start lexicon "  ifé? if").collect.1) = some (.error (.noMatch 6 '?')) := by
    decide +kernel
  cases hlexicon : compile wordClasses with
  | error e =>
      rw [hlexicon] at heval
      exact nomatch heval
  | ok lexicon =>
      rw [hlexicon] at heval
      obtain ⟨⟨tokens, failure, hscans⟩, hserves⟩ := serves_pulled hlexicon "  ifé? if"
      have hcollect := (hserves tokens failure hscans []).collect_eq.symm.trans
        (Option.some.inj heval)
      refine ⟨lexicon, tokens, failure, rfl, hscans, ?_, hserves tokens failure hscans⟩
      cases failure with
      | none => exact nomatch hcollect
      | some e => rw [Except.error.inj hcollect]

end Tokenizer

end FrontEnd
