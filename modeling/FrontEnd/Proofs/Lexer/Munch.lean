/-
# `Lexer.Munch` — the tokenizer does maximal munch

`Wins` says in terms of words alone which class wins at the front of a text and how long its
match is: no class has a longer match, and no class before it has one as long.
`Munch` is the scan that takes winning matches one behind the other.

A lexicon finds the winner (`longestMatch_eq_some_iff`), and a tokenizer, which skips ahead
at every step, gives what the scan gives (`collect_eq_iff`).
-/
import FrontEnd.Lexer.Tokenizer
import FrontEnd.Proofs.Regex.Matcher

namespace FrontEnd

variable {κ : Type}

/-- The words of the expression that a source spells; none if it spells none. -/
def Regex.wordsOf (source : String) : Set (List Char) :=
  {w | ∃ e, Regex.parse source = .ok e ∧ w ∈ e.words}

theorem Regex.wordsOf_eq {source : String} {e : Regex} (h : Regex.parse source = .ok e) :
    Regex.wordsOf source = e.words := by
  ext w
  refine ⟨?_, ?_⟩
  · rintro ⟨e', he', hw⟩
    obtain rfl := Except.ok.inj (h.symm.trans he')
    exact hw
  · intro hw
    exact ⟨e, h, hw⟩

namespace Lexicon

/-! ## The specification -/

/-- A class matches `k` characters at the front of a text. -/
def Matches (text : List Char) (c : String × Option κ) (k : Nat) : Prop :=
  k ∈ prefixLengths (Regex.wordsOf c.1) text

/-- `Wins classes text kind n`: at the front of the text the longest match of a class has
`n` characters, and the first class with a match as long is of this kind. -/
def Wins (classes : List (String × Option κ)) (text : List Char) (kind : Option κ) (n : Nat) :
    Prop :=
  ∃ before source after, classes = before ++ (source, kind) :: after ∧
    Matches text (source, kind) n ∧ (∀ c ∈ before, ∀ k, Matches text c k → k < n) ∧
    ∀ c ∈ (source, kind) :: after, ∀ k, Matches text c k → k ≤ n

/-- The token of `n` characters behind a cursor. -/
def tokenAt (c : Cursor) (kind : κ) (n : Nat) : Token κ :=
  ⟨kind, String.ofList (c.rest.take n), c.offset, (c.advance n).offset⟩

/-- `Munch classes c r`: from the cursor on, the scan that takes the winning match
at every point ends in `r`. -/
inductive Munch (classes : List (String × Option κ)) :
    Cursor → Except LexError (List (Token κ)) → Prop
  | done {offset : Nat} : Munch classes ⟨offset, []⟩ (.ok [])
  | stuck {offset : Nat} {found : Char} {rest : List Char} :
      (∀ c ∈ classes, ∀ k, ¬ Matches (found :: rest) c k) →
      Munch classes ⟨offset, found :: rest⟩ (.error (.noMatch offset found))
  | skip {c : Cursor} {n : Nat} {r : Except LexError (List (Token κ))} :
      Wins classes c.rest none n → Munch classes (c.advance n) r → Munch classes c r
  | token {c : Cursor} {kind : κ} {n : Nat} {r : Except LexError (List (Token κ))} :
      Wins classes c.rest (some kind) n → Munch classes (c.advance n) r →
      Munch classes c (r.map (tokenAt c kind n :: ·))

end Lexicon

/-! ## The first of the longest matches -/

theorem Match.longer_eq_none_iff {a b : Option (Match κ)} :
    Match.longer a b = none ↔ a = none ∧ b = none := by
  cases a with
  | none => cases b <;> simp [Match.longer]
  | some a =>
      cases b with
      | none => simp [Match.longer]
      | some b =>
          simp only [Match.longer]
          split <;> simp

theorem Match.longer_eq_some_iff {a b : Option (Match κ)} {m : Match κ} :
    Match.longer a b = some m ↔
      (a = some m ∧ ∀ x, b = some x → x.length ≤ m.length) ∨
        (b = some m ∧ ∀ x, a = some x → x.length < m.length) := by
  cases a with
  | none =>
      cases b with
      | none => simp [Match.longer]
      | some b => simp [Match.longer]
  | some a =>
      cases b with
      | none => simp [Match.longer]
      | some b =>
          simp only [Match.longer]
          split
          · rename_i hle
            refine ⟨?_, ?_⟩
            · intro h
              obtain rfl := Option.some.inj h
              refine Or.inl ⟨rfl, fun x hx => ?_⟩
              obtain rfl := Option.some.inj hx
              exact hle
            · rintro (⟨h, -⟩ | ⟨h, hlt⟩)
              · exact h
              · obtain rfl := Option.some.inj h
                exact absurd hle (Nat.not_le.mpr (hlt a rfl))
          · rename_i hgt
            refine ⟨?_, ?_⟩
            · intro h
              obtain rfl := Option.some.inj h
              refine Or.inr ⟨rfl, fun x hx => ?_⟩
              obtain rfl := Option.some.inj hx
              exact Nat.lt_of_not_le hgt
            · rintro (⟨h, hle⟩ | ⟨h, -⟩)
              · obtain rfl := Option.some.inj h
                exact absurd (hle b rfl) hgt
              · exact h

/-- The longer match stays below a bound exactly when both do. -/
theorem Match.longer_lt_iff {a b : Option (Match κ)} {n : Nat} :
    (∀ x, Match.longer a b = some x → x.length < n) ↔
      (∀ x, a = some x → x.length < n) ∧ ∀ x, b = some x → x.length < n := by
  cases hlonger : Match.longer a b with
  | none =>
      obtain ⟨rfl, rfl⟩ := Match.longer_eq_none_iff.mp hlonger
      simp
  | some m =>
      simp only [Option.some.injEq, forall_eq']
      rcases Match.longer_eq_some_iff.mp hlonger with ⟨rfl, hle⟩ | ⟨rfl, hlt⟩
      · refine ⟨?_, ?_⟩
        · intro hm
          exact ⟨fun x hx => Option.some.inj hx ▸ hm, fun x hx => Nat.lt_of_le_of_lt (hle x hx) hm⟩
        · intro h
          exact h.1 m rfl
      · refine ⟨?_, ?_⟩
        · intro hm
          exact ⟨fun x hx => Nat.lt_trans (hlt x hx) hm, fun x hx => Option.some.inj hx ▸ hm⟩
        · intro h
          exact h.2 m rfl

theorem foldl_longer_eq_none_iff : ∀ {found : List (Option (Match κ))} {best : Option (Match κ)},
    found.foldl Match.longer best = none ↔ best = none ∧ ∀ o ∈ found, o = none := by
  intro found
  induction found with
  | nil =>
      intro best
      simp
  | cons o found ih =>
      intro best
      rw [List.foldl_cons, ih, Match.longer_eq_none_iff, and_assoc, List.forall_mem_cons]

/-- Of some matches in turn the first of the longest is kept. -/
theorem foldl_longer_eq_some_iff {m : Match κ} :
    ∀ {found : List (Option (Match κ))} {best : Option (Match κ)},
      found.foldl Match.longer best = some m ↔
      (best = some m ∧ ∀ x, some x ∈ found → x.length ≤ m.length) ∨
        ∃ before after, found = before ++ some m :: after ∧
          (∀ x, best = some x → x.length < m.length) ∧
          (∀ x, some x ∈ before → x.length < m.length) ∧
          ∀ x, some x ∈ after → x.length ≤ m.length := by
  intro found
  induction found with
  | nil =>
      intro best
      simp
  | cons o found ih =>
      intro best
      have hmem {P : Match κ → Prop} {l : List (Option (Match κ))} :
          (∀ x, some x ∈ o :: l → P x) ↔ (∀ x, o = some x → P x) ∧ ∀ x, some x ∈ l → P x := by
        simp only [List.mem_cons, or_imp, forall_and, eq_comm]
      rw [List.foldl_cons, ih, Match.longer_eq_some_iff]
      refine ⟨?_, ?_⟩
      · rintro (⟨⟨rfl, ho⟩ | ⟨rfl, hbest⟩, hfound⟩ | ⟨before, after, rfl, hlt, hbefore, hafter⟩)
        · exact Or.inl ⟨rfl, hmem.mpr ⟨ho, hfound⟩⟩
        · exact Or.inr ⟨[], found, rfl, hbest, nofun, hfound⟩
        · obtain ⟨hbest, ho⟩ := Match.longer_lt_iff.mp hlt
          exact Or.inr ⟨o :: before, after, rfl, hbest, hmem.mpr ⟨ho, hbefore⟩, hafter⟩
      · rintro (⟨rfl, hfound⟩ | ⟨before, after, heq, hbest, hbefore, hafter⟩)
        · obtain ⟨ho, hfound⟩ := hmem.mp hfound
          exact Or.inl ⟨Or.inl ⟨rfl, ho⟩, hfound⟩
        · cases before with
          | nil =>
              obtain ⟨rfl, rfl⟩ := List.cons.inj heq
              exact Or.inl ⟨Or.inr ⟨rfl, hbest⟩, hafter⟩
          | cons o' before =>
              obtain ⟨rfl, rfl⟩ := List.cons.inj heq
              obtain ⟨ho, hbefore⟩ := hmem.mp hbefore
              have hlt := Match.longer_lt_iff.mpr ⟨hbest, ho⟩
              exact Or.inr ⟨before, after, rfl, hlt, hbefore, hafter⟩

namespace Lexicon

/-! ## The winner of a lexicon -/

/-- The match of a class at the front of a text. -/
def pick (text : List Char) (c : String × Option κ) : Option (Match κ) :=
  (Matcher.compile c.1).toOption.bind fun m => (m.prefixLength text).map (⟨c.2, ·⟩)

theorem compileFrom_matchOf (text : List Char) : ∀ {classes : List (String × Option κ)}
    {first : Nat} {compiled : List (TokenClass κ)}, compileFrom first classes = .ok compiled →
      compiled.map (matchOf text) = classes.map (pick text) := by
  intro classes
  induction classes with
  | nil =>
      intro first compiled h
      cases h
      rfl
  | cons c classes ih =>
      intro first compiled h
      rw [compileFrom] at h
      cases hm : Matcher.compile c.1 with
      | error e =>
          rw [hm] at h
          exact nomatch h
      | ok m =>
          rw [hm] at h
          cases hrest : compileFrom (first + 1) classes with
          | error e =>
              rw [hrest] at h
              exact nomatch h
          | ok rest =>
              rw [hrest] at h
              obtain rfl := Except.ok.inj h
              rw [List.map_cons, List.map_cons, ih hrest, pick, hm]
              rfl

/-- What a class matches at most, if it matches at all. -/
theorem pick_cases (text : List Char) (c : String × Option κ) :
    (pick text c = none ∧ ∀ k, ¬ Matches text c k) ∨
      ∃ n, pick text c = some ⟨c.2, n⟩ ∧ Matches text c n ∧ ∀ k, Matches text c k → k ≤ n := by
  cases hm : Matcher.compile c.1 with
  | error err =>
      refine Or.inl ⟨by rw [pick, hm]; rfl, ?_⟩
      rintro k ⟨-, -, e, he, -⟩
      rw [Matcher.compile_eq he] at hm
      exact nomatch hm
  | ok m =>
      obtain ⟨e, he, hdfa⟩ := Matcher.exists_parse_of_compile hm
      have hwords : Regex.wordsOf c.1 = e.words := Regex.wordsOf_eq he
      cases hlen : m.prefixLength text with
      | none =>
          refine Or.inl ⟨by rw [pick, hm]; simp [hlen, Except.toOption], ?_⟩
          intro k hk
          rw [Matches, hwords] at hk
          exact (Matcher.prefixLength_eq_none_iff hdfa).mp hlen k hk
      | some n =>
          refine Or.inr ⟨n, by rw [pick, hm]; simp [hlen, Except.toOption], ?_⟩
          have hgreatest := (Matcher.prefixLength_eq_some_iff hdfa).mp hlen
          rw [← hwords] at hgreatest
          exact ⟨hgreatest.1, fun k hk => hgreatest.2 hk⟩

theorem pick_eq_none_iff {text : List Char} {c : String × Option κ} :
    pick text c = none ↔ ∀ k, ¬ Matches text c k := by
  rcases pick_cases text c with ⟨hpick, hnone⟩ | ⟨n, hpick, hn, -⟩
  · exact iff_of_true hpick hnone
  · rw [hpick]
    exact iff_of_false nofun fun hnone => hnone n hn

theorem pick_eq_some_iff {text : List Char} {c : String × Option κ} {m : Match κ} :
    pick text c = some m ↔
      m.kind = c.2 ∧ Matches text c m.length ∧ ∀ k, Matches text c k → k ≤ m.length := by
  rcases pick_cases text c with ⟨hpick, hnone⟩ | ⟨n, hpick, hn, hle⟩
  · rw [hpick]
    exact iff_of_false nofun fun h => hnone _ h.2.1
  · rw [hpick]
    refine ⟨?_, ?_⟩
    · intro h
      obtain rfl := Option.some.inj h
      exact ⟨rfl, hn, hle⟩
    · rintro ⟨hkind, hm, hmle⟩
      have hlen : n = m.length := Nat.le_antisymm (hmle n hn) (hle m.length hm)
      rw [hlen, ← hkind]

/-- The matches of a class stay below a bound exactly when its longest match does. -/
theorem pick_bound_iff {text : List Char} {c : String × Option κ} {P : Nat → Prop}
    (hP : ∀ j k, j ≤ k → P k → P j) :
    (∀ x, pick text c = some x → P x.length) ↔ ∀ k, Matches text c k → P k := by
  rcases pick_cases text c with ⟨hpick, hnone⟩ | ⟨n, hpick, hn, hle⟩
  · exact iff_of_true (fun x hx => nomatch hpick.symm.trans hx) fun k hk => absurd hk (hnone k)
  · refine ⟨?_, ?_⟩
    · intro h k hk
      exact hP k n (hle k hk) (h ⟨c.2, n⟩ hpick)
    · intro h x hx
      obtain rfl := Option.some.inj (hpick.symm.trans hx)
      exact h n hn

variable {classes : List (String × Option κ)} {lexicon : Lexicon κ}

theorem longestMatch_eq (h : compile classes = .ok lexicon) (text : List Char) :
    lexicon.longestMatch text = (classes.map (pick text)).foldl Match.longer none := by
  cases hc : compileFrom 0 classes with
  | error e =>
      rw [compile, hc] at h
      exact nomatch h
  | ok compiled =>
      rw [compile, hc] at h
      obtain rfl := Except.ok.inj h
      rw [longestMatch, ← compileFrom_matchOf text hc, List.foldl_map]

theorem longestMatch_eq_none_iff (h : compile classes = .ok lexicon) {text : List Char} :
    lexicon.longestMatch text = none ↔ ∀ c ∈ classes, ∀ k, ¬ Matches text c k := by
  rw [longestMatch_eq h, foldl_longer_eq_none_iff]
  simp only [true_and, List.forall_mem_map, pick_eq_none_iff]

theorem longestMatch_eq_some_iff (h : compile classes = .ok lexicon) {text : List Char}
    {kind : Option κ} {n : Nat} :
    lexicon.longestMatch text = some ⟨kind, n⟩ ↔ Wins classes text kind n := by
  have hlt {cs : List (String × Option κ)} :
      (∀ x, some x ∈ cs.map (pick text) → x.length < n) ↔
        ∀ c ∈ cs, ∀ k, Matches text c k → k < n := by
    simp only [← pick_bound_iff (P := (· < n)) fun j k => Nat.lt_of_le_of_lt, List.mem_map]
    exact ⟨fun hx c hc x hp => hx x ⟨c, hc, hp⟩, fun hx x ⟨c, hc, hp⟩ => hx c hc x hp⟩
  have hle {cs : List (String × Option κ)} :
      (∀ x, some x ∈ cs.map (pick text) → x.length ≤ n) ↔
        ∀ c ∈ cs, ∀ k, Matches text c k → k ≤ n := by
    simp only [← pick_bound_iff (P := (· ≤ n)) fun j k => Nat.le_trans, List.mem_map]
    exact ⟨fun hx c hc x hp => hx x ⟨c, hc, hp⟩, fun hx x ⟨c, hc, hp⟩ => hx c hc x hp⟩
  rw [longestMatch_eq h, foldl_longer_eq_some_iff]
  refine ⟨?_, ?_⟩
  · rintro (⟨hnone, -⟩ | ⟨before, after, heq, -, hbefore, hafter⟩)
    · exact nomatch hnone
    · obtain ⟨fronts, rest, rfl, rfl, hrest⟩ := List.map_eq_append_iff.mp heq
      obtain ⟨c, backs, rfl, hc, rfl⟩ := List.map_eq_cons_iff.mp hrest
      obtain ⟨rfl, hn, hmax⟩ := pick_eq_some_iff.mp hc
      exact ⟨fronts, c.1, backs, rfl, hn, hlt.mp hbefore,
        List.forall_mem_cons.mpr ⟨hmax, hle.mp hafter⟩⟩
  · rintro ⟨before, source, after, rfl, hn, hbefore, hafter⟩
    obtain ⟨hmax, hafter⟩ := List.forall_mem_cons.mp hafter
    refine Or.inr ⟨before.map (pick text), after.map (pick text), ?_, nofun, hlt.mpr hbefore,
      hle.mpr hafter⟩
    rw [List.map_append, List.map_cons, (pick_eq_some_iff (m := ⟨kind, n⟩)).mpr ⟨rfl, hn, hmax⟩]

/-! ## The tokenizer -/

theorem skip_of_ignored {c : Cursor} {n : Nat} (h : lexicon.longestMatch c.rest = some ⟨none, n⟩) :
    lexicon.skip c = lexicon.skip (c.advance n) := by
  rw [skip]
  split
  · rename_i n' h'
    obtain ⟨-, rfl⟩ : (none : Option κ) = none ∧ n = n' := by
      simpa using h.symm.trans h'
    rfl
  · rename_i hno
    exact absurd h (hno n)

theorem skip_of_not_ignored {c : Cursor} (h : ∀ n, lexicon.longestMatch c.rest ≠ some ⟨none, n⟩) :
    lexicon.skip c = c := by
  rw [skip]
  split
  · rename_i hm
    exact absurd hm (h _)
  · rfl

theorem skip_of_token {c : Cursor} {kind : κ} {n : Nat}
    (h : lexicon.longestMatch c.rest = some ⟨some kind, n⟩) : lexicon.skip c = c :=
  skip_of_not_ignored fun _ hm => nomatch h.symm.trans hm

theorem skip_of_no_match {c : Cursor} (h : lexicon.longestMatch c.rest = none) :
    lexicon.skip c = c :=
  skip_of_not_ignored fun _ hm => nomatch h.symm.trans hm

theorem longestMatch_nil (lexicon : Lexicon κ) : lexicon.longestMatch [] = none := by
  cases h : lexicon.longestMatch [] with
  | none => rfl
  | some m =>
      obtain ⟨hpos, hle⟩ := longestMatch_bounds h
      exact absurd hpos (Nat.not_lt.mpr hle)

end Lexicon

namespace Tokenizer

theorem collect_of_error {t u : Tokenizer κ} {e : LexError} (hmore : t.hasMore = true)
    (h : t.nextToken = (.error e, u)) : t.collect = (.error e, u) := by
  rw [collect, if_pos hmore]
  split
  · rename_i h'
    cases h.symm.trans h'
    rfl
  · rename_i h'
    cases h.symm.trans h'

theorem collect_of_ok {t u : Tokenizer κ} {token : Token κ} (hmore : t.hasMore = true)
    (h : t.nextToken = (.ok token, u)) :
    t.collect = (u.collect.1.map (token :: ·), u.collect.2) := by
  rw [collect, if_pos hmore]
  split
  · rename_i h'
    cases h.symm.trans h'
  · rename_i h'
    cases h.symm.trans h'
    rfl

/-- The tokenizer with its cursor moved behind a match and behind what is skipped there. -/
def movedBehind (t : Tokenizer κ) (n : Nat) : Tokenizer κ :=
  { t with cursor := t.lexicon.skip (t.cursor.advance n) }

/-- At a match of a class with a kind there is a token. -/
theorem nextToken_of_match {t : Tokenizer κ} {kind : κ} {n : Nat}
    (hm : t.lexicon.longestMatch t.cursor.rest = some ⟨some kind, n⟩) :
    t.nextToken = (.ok (Lexicon.tokenAt t.cursor kind n), t.movedBehind n) := by
  cases hrest : t.cursor.rest with
  | nil =>
      rw [hrest, Lexicon.longestMatch_nil] at hm
      exact nomatch hm
  | cons found rest =>
      rw [hrest] at hm
      simp only [nextToken, hrest, hm, Lexicon.tokenAt, offset, movedBehind]

/-- Where no class matches there is none, and the tokenizer stays. -/
theorem nextToken_of_no_match {t : Tokenizer κ} {found : Char} {rest : List Char}
    (hrest : t.cursor.rest = found :: rest)
    (hm : t.lexicon.longestMatch t.cursor.rest = none) :
    t.nextToken = (.error (.noMatch t.cursor.offset found), t) := by
  rw [hrest] at hm
  simp only [nextToken, hrest, hm, offset]

theorem nextToken_of_nil {t : Tokenizer κ} (hrest : t.cursor.rest = []) :
    t.nextToken = (.error (.endOfInput t.cursor.offset), t) := by
  simp only [nextToken, hrest, offset]

theorem collect_of_match {t : Tokenizer κ} {kind : κ} {n : Nat}
    (hm : t.lexicon.longestMatch t.cursor.rest = some ⟨some kind, n⟩) :
    t.collect = ((t.movedBehind n).collect.1.map (Lexicon.tokenAt t.cursor kind n :: ·),
      (t.movedBehind n).collect.2) := by
  refine collect_of_ok ?_ (nextToken_of_match hm)
  rw [hasMore, Bool.not_eq_true', List.isEmpty_eq_false_iff]
  intro hrest
  rw [hrest, Lexicon.longestMatch_nil] at hm
  exact nomatch hm

theorem collect_of_no_match {t : Tokenizer κ} {found : Char} {rest : List Char}
    (hrest : t.cursor.rest = found :: rest)
    (hm : t.lexicon.longestMatch t.cursor.rest = none) :
    t.collect = (.error (.noMatch t.cursor.offset found), t) :=
  collect_of_error (by simp [hasMore, hrest]) (nextToken_of_no_match hrest hm)

theorem collect_of_nil {t : Tokenizer κ} (hrest : t.cursor.rest = []) :
    t.collect = (.ok [], t) := by
  rw [collect, if_neg (by simp [hasMore, hrest])]

end Tokenizer

namespace Lexicon

variable {classes : List (String × Option κ)} {lexicon : Lexicon κ}

/-- A tokenizer that has skipped ahead from a cursor gives what the scan from there gives. -/
theorem munch_collect (h : compile classes = .ok lexicon) (c : Cursor) (t : Tokenizer κ)
    (hlex : t.lexicon = lexicon) (hcursor : t.cursor = lexicon.skip c) :
    Munch classes c t.collect.1 := by
  -- each match shortens what is left, skipped or not
  generalize hsize : c.rest.length = size
  induction size using Nat.strong_induction_on generalizing c t with
  | _ size ih =>
      have hshorter {m : Match κ} (hm : lexicon.longestMatch c.rest = some m) :
          (c.advance m.length).rest.length < size := by
        obtain ⟨hpos, hle⟩ := longestMatch_bounds hm
        rw [Cursor.advance, List.length_drop]
        omega
      cases hm : lexicon.longestMatch c.rest with
      | none =>
          rw [skip_of_no_match hm] at hcursor
          obtain ⟨offset, rest⟩ := c
          cases rest with
          | nil =>
              rw [Tokenizer.collect_of_nil (by rw [hcursor])]
              exact .done
          | cons found rest =>
              rw [Tokenizer.collect_of_no_match (by rw [hcursor]) (by rw [hlex, hcursor, hm]),
                hcursor]
              exact .stuck ((longestMatch_eq_none_iff h).mp hm)
      | some m =>
          obtain ⟨kind, n⟩ := m
          have hwins := (longestMatch_eq_some_iff h).mp hm
          cases kind with
          | none =>
              rw [skip_of_ignored hm] at hcursor
              exact .skip hwins (ih _ (hshorter hm) _ t hlex hcursor rfl)
          | some kind =>
              rw [skip_of_token hm] at hcursor
              rw [Tokenizer.collect_of_match (by rw [hlex, hcursor, hm]), hcursor]
              refine .token hwins (ih _ (hshorter hm) _ (t.movedBehind n) hlex ?_ rfl)
              rw [Tokenizer.movedBehind, hlex, hcursor]

/-- The winning match decides how a scan goes on. -/
theorem Munch.inv (h : compile classes = .ok lexicon) {c : Cursor}
    {r : Except LexError (List (Token κ))} (hr : Munch classes c r) :
    match lexicon.longestMatch c.rest with
    | none => (c.rest = [] ∧ r = .ok []) ∨
        ∃ found rest, c.rest = found :: rest ∧ r = .error (.noMatch c.offset found)
    | some ⟨none, n⟩ => Munch classes (c.advance n) r
    | some ⟨some kind, n⟩ =>
        ∃ later, Munch classes (c.advance n) later ∧ r = later.map (tokenAt c kind n :: ·) := by
  cases hr with
  | done =>
      rw [longestMatch_nil]
      exact Or.inl ⟨rfl, rfl⟩
  | stuck hnone =>
      rw [(longestMatch_eq_none_iff h).mpr hnone]
      exact Or.inr ⟨_, _, rfl, rfl⟩
  | skip hwins hlater =>
      rw [(longestMatch_eq_some_iff h).mpr hwins]
      exact hlater
  | token hwins hlater =>
      rw [(longestMatch_eq_some_iff h).mpr hwins]
      exact ⟨_, hlater, rfl⟩

/-- The scan ends in one way only. -/
theorem Munch.unique (h : compile classes = .ok lexicon) {c : Cursor}
    {r : Except LexError (List (Token κ))} (hr : Munch classes c r) :
    ∀ {r' : Except LexError (List (Token κ))}, Munch classes c r' → r = r' := by
  induction hr with
  | done =>
      intro r' hr'
      have hinv := hr'.inv h
      rw [longestMatch_nil] at hinv
      rcases hinv with ⟨-, rfl⟩ | ⟨found, rest, hrest, -⟩
      · rfl
      · exact nomatch hrest
  | stuck hnone =>
      intro r' hr'
      have hinv := hr'.inv h
      rw [(longestMatch_eq_none_iff h).mpr hnone] at hinv
      rcases hinv with ⟨hrest, -⟩ | ⟨found, rest, hrest, rfl⟩
      · exact nomatch hrest
      · rw [(List.cons.inj hrest).1]
  | skip hwins _ ih =>
      intro r' hr'
      have hinv := hr'.inv h
      rw [(longestMatch_eq_some_iff h).mpr hwins] at hinv
      exact ih hinv
  | token hwins _ ih =>
      intro r' hr'
      have hinv := hr'.inv h
      rw [(longestMatch_eq_some_iff h).mpr hwins] at hinv
      obtain ⟨later, hlater, rfl⟩ := hinv
      rw [ih hlater]

theorem collect_eq_iff (h : compile classes = .ok lexicon) {text : String}
    {r : Except LexError (List (Token κ))} :
    (Tokenizer.start lexicon text).collect.1 = r ↔ Munch classes ⟨0, text.toList⟩ r := by
  have hmunch := munch_collect h ⟨0, text.toList⟩ (Tokenizer.start lexicon text) rfl rfl
  refine ⟨?_, ?_⟩
  · rintro rfl
    exact hmunch
  · intro hr
    exact hmunch.unique h hr

end Lexicon

end FrontEnd
