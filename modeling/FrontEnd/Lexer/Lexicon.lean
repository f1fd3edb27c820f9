/-
# `Lexicon` — the token classes of a language

A class is a regular expression and the kind of token that it makes; matches of a class
without a kind are skipped.  At the front of a text the class with the longest match
wins, and of several the one that was registered first.
-/
import FrontEnd.Regex.Matcher

namespace FrontEnd

/-- A token class; `κ` is the type of token kinds. -/
structure TokenClass (κ : Type) where
  matcher : Matcher
  /-- Absent for a class whose matches are skipped. -/
  kind : Option κ

/-- The token classes of a language, in the order of registration. -/
structure Lexicon (κ : Type) where
  classes : List (TokenClass κ)

/-- The class at `index` has a malformed regular expression. -/
structure ClassError where
  index : Nat
  cause : RegexError
  deriving DecidableEq, Repr

/-- A match at the front of a text: what the class makes of it, and how many
characters it takes. -/
structure Match (κ : Type) where
  kind : Option κ
  length : Nat

/-- The longer of two matches, and of equally long ones the first. -/
def Match.longer {κ : Type} : Option (Match κ) → Option (Match κ) → Option (Match κ)
  | best, none => best
  | none, some m => some m
  | some best, some m => if m.length ≤ best.length then some best else some m

/-- The longer match is one of the two. -/
theorem Match.longer_cases {κ : Type} {a b : Option (Match κ)} {m : Match κ}
    (h : Match.longer a b = some m) : a = some m ∨ b = some m := by
  cases b with
  | none => exact .inl h
  | some b =>
    cases a with
    | none => exact .inr h
    | some a =>
      simp only [Match.longer] at h
      split at h
      · exact .inl h
      · exact .inr h

namespace Lexicon

variable {κ : Type}

/-- How many classes there are, skipped ones included. -/
def size (lexicon : Lexicon κ) : Nat := lexicon.classes.length

/-- Compiles classes given as regular expressions with their kinds; `first` is the
number of the class at the front. -/
def compileFrom (first : Nat) : List (String × Option κ) → Except ClassError (List (TokenClass κ))
  | [] => .ok []
  | (source, kind) :: classes =>
    match Matcher.compile source with
    | .error e => .error ⟨first, e⟩
    | .ok matcher => (compileFrom (first + 1) classes).map (⟨matcher, kind⟩ :: ·)

/-- The lexicon of the given classes, or the first malformed one. -/
def compile (classes : List (String × Option κ)) : Except ClassError (Lexicon κ) :=
  (compileFrom 0 classes).map .mk

/-- The non-empty match of a class at the front of a text. -/
def matchOf (text : List Char) (c : TokenClass κ) : Option (Match κ) :=
  (c.matcher.prefixLength text).map fun n => ⟨c.kind, n⟩

/-- The winning match at the front of a text. -/
def longestMatch (lexicon : Lexicon κ) (text : List Char) : Option (Match κ) :=
  lexicon.classes.foldl (fun best c => Match.longer best (matchOf text c)) none

/-- A match is not empty and lies inside the text. -/
theorem longestMatch_bounds {lexicon : Lexicon κ} {text : List Char} {m : Match κ}
    (h : lexicon.longestMatch text = some m) : 0 < m.length ∧ m.length ≤ text.length := by
  have bounds (classes : List (TokenClass κ)) (best : Option (Match κ))
      (hbest : ∀ b, best = some b → 0 < b.length ∧ b.length ≤ text.length)
      (h : classes.foldl (fun best c => Match.longer best (matchOf text c)) best = some m) :
      0 < m.length ∧ m.length ≤ text.length := by
    induction classes generalizing best with
    | nil => exact hbest m h
    | cons c classes ih =>
      refine ih _ (fun b hb => ?_) h
      rcases Match.longer_cases hb with hb | hb
      · exact hbest b hb
      · obtain ⟨n, hn, rfl⟩ := Option.map_eq_some_iff.1 hb
        exact Machine.longestPrefix_bounds hn
  exact bounds lexicon.classes none (fun _ hb => nomatch hb) h

end Lexicon

end FrontEnd
