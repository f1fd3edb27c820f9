/-
# `Text.Escape` — characters written in ASCII or between quotes

Two ways to write a character that may not be shown as it is.  `ascii` is for the
labels of drawings: printable ASCII stays, all else is an escape.  `quoted` is for
messages: the character stands between single quotes and is escaped only where a
reader could not see it.
-/
import FrontEnd.Text.Visible

namespace FrontEnd.Text

/-- A code point in hexadecimal, between braces. -/
def codePoint (c : Char) : String :=
  "\\u\x7b" ++ String.ofList (Nat.toDigits 16 c.toNat) ++ "\x7d"

/-- Printable ASCII as it is, with quotes and backslashes escaped; tab, return and
newline by their letters; every other character by its code point. -/
def ascii (c : Char) : String :=
  if c = '\t' then "\\t"
  else if c = '\r' then "\\r"
  else if c = '\n' then "\\n"
  else if c = '\'' then "\\'"
  else if c = '"' then "\\\""
  else if c = '\\' then "\\\\"
  else if 0x20 ≤ c.toNat ∧ c.toNat ≤ 0x7e then c.toString
  else codePoint c

/-- A character between single quotes.  NUL, tab, return, newline, the single quote and
the backslash have an escape of their own; a character that would not be visible
by itself is written by its code point. -/
def quoted (c : Char) : String :=
  "'" ++ body ++ "'"
where
  body : String :=
    if c = '\x00' then "\\0"
    else if c = '\t' then "\\t"
    else if c = '\r' then "\\r"
    else if c = '\n' then "\\n"
    else if c = '\'' then "\\'"
    else if c = '\\' then "\\\\"
    else if isVisible c then c.toString
    else codePoint c

end FrontEnd.Text
