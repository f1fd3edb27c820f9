/-
# `Regex.Rendering` — a tree in full parentheses is read back

`parenthesized` writes a tree so that nothing is left to the strength of operators:

    symbol         the character itself
    union          `(l|r)`
    concatenation  `(l)(r)`
    repetition     `(x)*`

Such a text is always a concatenation of the grammar, whatever the tree (`spells_parenthesized`):
where a part could be an expression, it stands in parentheses.  So reading the text comes down
to what the grammar derives, and no position in it has to be looked at.

Conversely nothing but characters that stand for themselves comes into a tree
(`Spells.plain`), a source of one character apart.  So these texts leave out no tree that can be
read at all.
-/
import FrontEnd.Proofs.Regex.Spelling

namespace FrontEnd.Regex

/-- The characters of a tree, from left to right. -/
def symbols : Regex → List Char
  | .symbol c => [c]
  | .union l r => l.symbols ++ r.symbols
  | .concat e f => e.symbols ++ f.symbols
  | .star e => e.symbols

/-- A tree with no operator among its characters. -/
def Plain (e : Regex) : Prop := ∀ c ∈ e.symbols, c ∉ operators

instance (e : Regex) : Decidable e.Plain :=
  List.decidableBAll (· ∉ operators) e.symbols

/-- The characters of a tree written in full parentheses. -/
def parenthesized : Regex → List Char
  | .symbol c => [c]
  | .union l r => '(' :: (l.parenthesized ++ '|' :: r.parenthesized) ++ [')']
  | .concat e f => ('(' :: e.parenthesized ++ [')']) ++ ('(' :: f.parenthesized ++ [')'])
  | .star e => ('(' :: e.parenthesized ++ [')']) ++ ['*']

/-- A tree as a source, in full parentheses. -/
def text (e : Regex) : String := String.ofList e.parenthesized

/-! ## Plain trees -/

theorem plain_symbol {c : Char} : Plain (.symbol c) ↔ c ∉ operators := by
  simp [Plain, symbols]

theorem plain_union {l r : Regex} : Plain (.union l r) ↔ l.Plain ∧ r.Plain :=
  List.forall_mem_append

theorem plain_concat {e f : Regex} : Plain (.concat e f) ↔ e.Plain ∧ f.Plain :=
  List.forall_mem_append

theorem plain_star {e : Regex} : Plain (.star e) ↔ e.Plain := Iff.rfl

/-- What the grammar derives has a plain tree. -/
theorem Spells.plain {category : Category} {cs : List Char} {e : Regex}
    (h : Spells category cs e) : e.Plain := by
  induction h with
  | single _ ih => exact ih
  | union _ _ ihl ihr => exact plain_union.mpr ⟨ihl, ihr⟩
  | item _ ih => exact ih
  | concat _ _ ihe ihf => exact plain_concat.mpr ⟨ihe, ihf⟩
  | operand _ ih => exact ih
  | star _ ih => exact plain_star.mpr ih
  | symbol hc => exact plain_symbol.mpr hc
  | group _ ih => exact ih

/-- Only plain trees are read, and single characters. -/
theorem plain_of_parse {source : String} {e : Regex} (h : parse source = .ok e) :
    e.Plain ∨ ∃ c, e = .symbol c := by
  by_cases hlen : 2 ≤ source.toList.length
  · rw [parse_of_two hlen] at h
    cases hunpaired : unpaired 0 [] source.toList with
    | some pos =>
        rw [hunpaired] at h
        cases h
    | none =>
        rw [hunpaired] at h
        exact Or.inl (spells_of_ofSpan _ h).plain
  · cases hsource : source.toList with
    | nil =>
        rw [parse, hsource] at h
        cases h
    | cons c cs =>
        rw [hsource, List.length_cons] at hlen
        obtain rfl : cs = [] := List.eq_nil_of_length_eq_zero (by omega)
        rw [parse, hsource] at h
        exact Or.inr ⟨c, (Except.ok.inj h).symm⟩

/-! ## Reading the text of a tree -/

theorem Spells.parenthesis {cs : List Char} {e : Regex} (h : Spells .concatenation cs e) :
    Spells .item ('(' :: cs ++ [')']) e :=
  .operand (.group (.single h))

/-- The text of a plain tree is derived with that tree. -/
theorem spells_parenthesized : ∀ {e : Regex}, e.Plain →
    Spells .concatenation e.parenthesized e := by
  intro e
  induction e with
  | symbol c =>
      intro he
      exact .item (.operand (.symbol (plain_symbol.mp he)))
  | union l r ihl ihr =>
      intro he
      obtain ⟨hl, hr⟩ := plain_union.mp he
      exact .item (.operand (.group (.union (ihl hl) (.single (ihr hr)))))
  | concat e f ihe ihf =>
      intro hef
      obtain ⟨he, hf⟩ := plain_concat.mp hef
      exact .concat (ihe he).parenthesis (.item (ihf hf).parenthesis)
  | star e ih =>
      intro he
      exact .item (.star (ih (plain_star.mp he)).parenthesis)

theorem toList_text (e : Regex) : e.text.toList = e.parenthesized := String.toList_ofList

/-- A character alone is read whichever it is. -/
theorem parse_text_symbol (c : Char) : parse (text (.symbol c)) = .ok (.symbol c) := by
  rw [parse, toList_text]
  rfl

/-- The text of anything but a character has parentheses in it. -/
theorem symbol_or_two_le_length (e : Regex) :
    (∃ c, e = .symbol c) ∨ 2 ≤ e.parenthesized.length := by
  cases e with
  | symbol c => exact Or.inl ⟨c, rfl⟩
  | union | concat | star =>
      refine Or.inr ?_
      simp only [parenthesized, List.length_append, List.length_cons]
      omega

theorem parse_text {e : Regex} (he : e.Plain) : parse e.text = .ok e := by
  rcases symbol_or_two_le_length e with ⟨c, rfl⟩ | hlen
  · exact parse_text_symbol c
  · rw [← toList_text] at hlen
    refine parse_of_spells hlen ?_
    rw [toList_text]
    exact .single (spells_parenthesized he)

/-- **Reading undoes writing.**  A tree without operators among its characters, written in full
parentheses, is read as exactly that tree.  So every such tree is the reading of some source, and
besides them only single characters are. -/
theorem parse_parenthesized (e : Regex) :
    (e.Plain → parse e.text = .ok e) ∧
      ((∃ source, parse source = .ok e) ↔ e.Plain ∨ ∃ c, e = .symbol c) := by
  refine ⟨parse_text, ?_, ?_⟩
  · rintro ⟨source, hsource⟩
    exact plain_of_parse hsource
  · rintro (he | ⟨c, rfl⟩)
    · exact ⟨e.text, parse_text he⟩
    · exact ⟨_, parse_text_symbol c⟩

/-- A union below a repetition, and a concatenation whose first side is one too. -/
theorem parse_parenthesized_nested :
    let e : Regex := .concat (.concat (.symbol 'a') (.star (.union (.symbol 'b') (.symbol 'a'))))
      (.star (.star (.symbol 'c')))
    e.Plain ∧ e.text = "((a)(((b|a))*))(((c)*)*)" ∧ parse e.text = .ok e :=
  ⟨by decide, by decide, (parse_parenthesized _).1 (by decide)⟩

end FrontEnd.Regex
