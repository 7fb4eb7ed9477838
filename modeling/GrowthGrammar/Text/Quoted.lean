import GrowthGrammar.Text.Printable

/-!
# Characters between quotes

Messages write a character between single quotes. A quote, a backslash and the common control
characters are escaped by a letter, and other characters without a form of their own by their code.
-/

namespace GrowthGrammar.Text

/-- A character as it stands between single quotes. -/
def escapeChar (c : Char) : String :=
  if c = '\x00' then "\\0"
  else if c = '\t' then "\\t"
  else if c = '\n' then "\\n"
  else if c = '\r' then "\\r"
  else if c = '\'' then "\\'"
  else if c = '\\' then "\\\\"
  else if isHidden c then "\\u\x7b" ++ String.ofList (Nat.toDigits 16 c.toNat) ++ "\x7d"
  else c.toString

/-- A character between single quotes. -/
def quoteChar (c : Char) : String := "'" ++ escapeChar c ++ "'"

end GrowthGrammar.Text
