import MmixBackend.Text.Printable

/-!
# Quoted text

The written form of a string literal: between double quotes, with a short escape for the
quote, the backslash and the common control characters, and a numeric escape for every other
character that cannot be shown as it is. A single quote needs no escape.
-/

namespace MmixBackend.Text

/-- The code point in hexadecimal, lower case, without leading zeros, between braces. -/
def numericEscape (c : Char) : String :=
  "\\u\x7b" ++ String.ofList (Nat.toDigits 16 c.toNat) ++ "\x7d"

/-- How one character is written inside quotes. -/
def escape (c : Char) : String :=
  if c = '\x00' then "\\0"
  else if c = '\t' then "\\t"
  else if c = '\n' then "\\n"
  else if c = '\r' then "\\r"
  else if c = '\\' then "\\\\"
  else if c = '\x22' then "\\\x22"
  else if isPrintable c then String.singleton c
  else numericEscape c

/-- The written form of a text. -/
def quote (text : String) : String :=
  "\x22" ++ String.join (text.toList.map escape) ++ "\x22"

end MmixBackend.Text
