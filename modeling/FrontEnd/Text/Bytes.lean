/-
# `Text.Bytes` — the length of a text in UTF-8

Offsets into a text are counted in bytes of its UTF-8 form, while the text itself
is read character by character.
-/

namespace FrontEnd.Text

/-- How many bytes the characters take in UTF-8. -/
def byteLength : List Char → Nat
  | [] => 0
  | c :: cs => c.utf8Size + byteLength cs

@[simp] theorem byteLength_append (xs ys : List Char) :
    byteLength (xs ++ ys) = byteLength xs + byteLength ys := by
  induction xs with
  | nil => simp [byteLength]
  | cons c cs ih => simp [byteLength, ih, Nat.add_assoc]

end FrontEnd.Text
