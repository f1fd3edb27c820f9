/-
# `Lr.Labels` — what stands in quotes can be read back

A label stands between quotes, so it must not close them, and a reader must be able to tell its
lines apart.  A backslash protects the character behind it, unless it is protected itself.  So a
text leaves the quotes around it alone if a scan from the left meets no quote without protection and
ends without protecting what comes next (`inside`).

The scan goes over each escaped character, and over the two characters between two lines, and is
then where it was before (`inside_escapeChar`).  Nothing is carried over from one of them to the
next, so it does not matter how a name ends or what the next line starts with, and the reader
(`readLines`) takes the label apart at the same places.
-/
import FrontEnd.Lr.Dot
import Mathlib.Data.List.Induction

namespace FrontEnd.Lr

/-! ## Escaping in two passes -/

/-- A text with `new` in the place of each `c`. -/
def replaced (c : Char) (new : List Char) (cs : List Char) : List Char :=
  cs.flatMap fun d => if d = c then new else [d]

/-- Doubling the backslashes first and protecting the quotes then is the same as doing both at
once: the first pass makes no quotes. -/
theorem toList_escapeLabel (s : String) :
    (escapeLabel s).toList = replaced '"' ['\\', '"'] (replaced '\\' ['\\', '\\'] s.toList) := by
  rw [escapeLabel, String.toList_ofList, replaced, replaced, List.flatMap_assoc]
  congr 1
  funext c
  rw [escapeChar]
  by_cases hslash : c = '\\'
  · rw [if_pos hslash, if_pos hslash]
    rfl
  · rw [if_neg hslash, if_neg hslash, List.flatMap_singleton]

/-! ## Inside of quotes -/

/-- Scans what stands behind an opening quote, the first character of it protected if `b` says so:
`none` if some quote in it is not protected, and else whether the next character is. -/
def inside (b : Bool) : List Char → Option Bool
  | [] => some b
  | c :: cs => if c = '"' ∧ b = false then none else inside (!b && c = '\\') cs

/-- How many backslashes a text ends with. -/
def trailing (cs : List Char) : Nat := (cs.reverse.takeWhile (· = '\\')).length

theorem inside_append (cs ds : List Char) : ∀ b,
    inside b (cs ++ ds) = (inside b cs).bind (inside · ds) := by
  induction cs with
  | nil => exact fun b => rfl
  | cons c cs ih =>
      intro b
      rw [List.cons_append, inside, inside]
      split
      · rfl
      · exact ih _

theorem trailing_append_singleton (cs : List Char) (c : Char) :
    trailing (cs ++ [c]) = if c = '\\' then trailing cs + 1 else 0 := by
  rw [trailing, List.reverse_append, List.reverse_singleton, List.singleton_append,
    List.takeWhile_cons]
  by_cases hc : c = '\\' <;> simp [hc, trailing]

/-- A character is protected when the number of backslashes in front of it is odd. -/
theorem odd_trailing_iff {cs : List Char} {b : Bool} (h : inside false cs = some b) :
    trailing cs % 2 = 1 ↔ b = true := by
  induction cs using List.reverseRecOn generalizing b with
  | nil =>
      obtain rfl := Option.some.inj h
      exact iff_of_false (by decide) Bool.false_ne_true
  | append_singleton cs c ih =>
      rw [inside_append] at h
      obtain ⟨b', hb', h⟩ := Option.bind_eq_some_iff.mp h
      have hrun := ih hb'
      rw [inside] at h
      split at h
      · exact nomatch h
      · obtain rfl := Option.some.inj h
        rw [trailing_append_singleton]
        by_cases hc : c = '\\'
        · cases b' <;> simp [hc] at hrun ⊢ <;> omega
        · simp [hc]

/-- Where no quote closes, each quote has an odd number of backslashes in front. -/
theorem odd_trailing_of_inside {before after : List Char} {b : Bool}
    (h : inside false (before ++ '"' :: after) = some b) : trailing before % 2 = 1 := by
  rw [inside_append] at h
  obtain ⟨b', hb', h⟩ := Option.bind_eq_some_iff.mp h
  refine (odd_trailing_iff hb').mpr ?_
  cases b' with
  | true => rfl
  | false => exact nomatch h

/-- How a text is read inside of quotes, line by line: a protected backslash or quote stands for
itself, a protected `n` ends the line, and all else that a backslash could protect is refused, as is
a quote that is not protected. -/
def readLines : List Char → Option (List (List Char))
  | [] => some [[]]
  | '\\' :: '\\' :: cs => (readLines cs).map (List.modifyHead ('\\' :: ·))
  | '\\' :: '"' :: cs => (readLines cs).map (List.modifyHead ('"' :: ·))
  | '\\' :: 'n' :: cs => (readLines cs).map ([] :: ·)
  | '\\' :: _ => none
  | '"' :: _ => none
  | c :: cs => (readLines cs).map (List.modifyHead (c :: ·))

/-- The lines of a label. -/
def readLabel (label : String) : Option (List String) :=
  (readLines label.toList).map (List.map String.ofList)

theorem readLines_of_plain {c : Char} (hslash : c ≠ '\\') (hquote : c ≠ '"') (cs : List Char) :
    readLines (c :: cs) = (readLines cs).map (List.modifyHead (c :: ·)) := by
  rw [readLines]
  all_goals simp [hslash, hquote]

/-! ## One line -/

theorem inside_escapeChar (c : Char) : inside false (escapeChar c) = some false := by
  rw [escapeChar]
  split
  · rfl
  · split
    · rfl
    · rename_i hslash hquote
      simp [inside, hslash, hquote]

theorem readLines_escapeChar (c : Char) (rest : List Char) :
    readLines (escapeChar c ++ rest) = (readLines rest).map (List.modifyHead (c :: ·)) := by
  rw [escapeChar]
  split
  · rename_i hslash
    rw [hslash]
    rfl
  · rename_i hslash
    split
    · rename_i hquote
      rw [hquote]
      rfl
    · rename_i hquote
      exact readLines_of_plain hslash hquote rest

theorem inside_escaped (cs : List Char) : inside false (cs.flatMap escapeChar) = some false := by
  induction cs with
  | nil => rfl
  | cons c cs ih =>
      rw [List.flatMap_cons, inside_append, inside_escapeChar]
      exact ih

theorem readLines_escaped (cs rest : List Char) :
    readLines (cs.flatMap escapeChar ++ rest) =
      (readLines rest).map (List.modifyHead (cs ++ ·)) := by
  induction cs with
  | nil =>
      rw [List.flatMap_nil, List.nil_append]
      cases readLines rest with
      | none => rfl
      | some lines => cases lines <;> rfl
  | cons c cs ih =>
      rw [List.flatMap_cons, List.append_assoc, readLines_escapeChar, ih, Option.map_map]
      congr 1
      funext lines
      cases lines <;> rfl

theorem inside_escapeLabel (s : String) : inside false (escapeLabel s).toList = some false := by
  rw [escapeLabel, String.toList_ofList]
  exact inside_escaped s.toList

/-! ## All lines -/

/-- The lines as a text between quotes. -/
def joined (lines : List (List Char)) : List Char :=
  ['\\', 'n'].intercalate (lines.map (List.flatMap escapeChar))

theorem toList_labelText (lines : List String) :
    (labelText lines).toList = joined (lines.map String.toList) := by
  rw [labelText, String.toList_intercalate, joined, List.map_map, List.map_map]
  congr 1
  exact List.map_congr_left fun s _ => String.toList_ofList

theorem joined_cons_cons (cs ds : List Char) (lines : List (List Char)) :
    joined (cs :: ds :: lines) = cs.flatMap escapeChar ++ '\\' :: 'n' :: joined (ds :: lines) := by
  rw [joined, List.map_cons, List.map_cons, List.intercalate_cons_cons, List.append_assoc]
  rfl

theorem inside_joined (lines : List (List Char)) : inside false (joined lines) = some false := by
  induction lines with
  | nil => rfl
  | cons cs lines ih =>
      cases lines with
      | nil => simpa [joined] using inside_escaped cs
      | cons ds lines =>
          rw [joined_cons_cons, inside_append, inside_escaped]
          exact ih

theorem readLines_joined {lines : List (List Char)} (hne : lines ≠ []) :
    readLines (joined lines) = some lines := by
  induction lines with
  | nil => exact absurd rfl hne
  | cons cs lines ih =>
      cases lines with
      | nil =>
          have hread := readLines_escaped cs []
          simpa [joined, readLines] using hread
      | cons ds lines =>
          rw [joined_cons_cons, readLines_escaped]
          show ((readLines (joined (ds :: lines))).map ([] :: ·)).map _ = _
          rw [ih (List.cons_ne_nil ds lines)]
          simp

theorem inside_labelText (lines : List String) :
    inside false (labelText lines).toList = some false := by
  rw [toList_labelText]
  exact inside_joined _

/-- A label of at least one line is read as its lines. -/
theorem readLabel_labelText {lines : List String} (hne : lines ≠ []) :
    readLabel (labelText lines) = some lines := by
  have hne : lines.map String.toList ≠ [] := fun hnil => hne (List.map_eq_nil_iff.mp hnil)
  rw [readLabel, toList_labelText, readLines_joined hne]
  simp [Function.comp_def]

/-- A label can be read by whoever looks for the quote behind it and then for its lines. -/
structure Legible (lines : List String) : Prop where
  /-- The quotes in it have an odd number of backslashes in front of them. -/
  guarded : ∀ before after, (labelText lines).toList = before ++ '"' :: after →
    trailing before % 2 = 1
  /-- The quote behind it has an even number. -/
  closed : trailing (labelText lines).toList % 2 = 0
  read : readLabel (labelText lines) = some lines

theorem legible_of_ne_nil {lines : List String} (hne : lines ≠ []) : Legible lines := by
  have hinside := inside_labelText lines
  refine ⟨fun before after hsplit => ?_, ?_, readLabel_labelText hne⟩
  · rw [hsplit] at hinside
    exact odd_trailing_of_inside hinside
  · have heven : ¬ trailing (labelText lines).toList % 2 = 1 := fun hodd =>
      absurd ((odd_trailing_iff hinside).mp hodd) Bool.false_ne_true
    exact Nat.mod_two_ne_one.mp heven

theorem readLabel_escapeLabel (s : String) : readLabel (escapeLabel s) = some [s] := by
  have hone : labelText [s] = escapeLabel s := String.intercalate_singleton
  rw [← hone, readLabel_labelText (List.cons_ne_nil s [])]

/-- So labels of different lines are different. -/
theorem labelText_inj {lines lines' : List String} (hne : lines ≠ []) (hne' : lines' ≠ []) :
    labelText lines = labelText lines' ↔ lines = lines' := by
  refine ⟨fun h => ?_, congrArg labelText⟩
  have hread := readLabel_labelText hne
  rw [h, readLabel_labelText hne'] at hread
  exact (Option.some.inj hread).symm

end FrontEnd.Lr
