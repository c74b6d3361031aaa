import Pseudocode.Text.Printable

/-!
# Quoted text

The quoted form of a text: between single quotes, or between double quotes when that saves escaping.
Backslashes and the quote in use are escaped, and so are line ends, tabs and everything unprintable.
-/

namespace Pseudocode.Text

/-- The lower-case hexadecimal digits of a number, at least `width` of them. -/
def hex (width n : Nat) : String :=
  let digits := Nat.toDigits 16 n
  String.ofList (List.replicate (width - digits.length) '0' ++ digits)

/-- A character as it stands inside a quoted text. -/
def escape (quote c : Char) : String :=
  if c == quote || c == '\\' then String.ofList ['\\', c]
  else if c == '\n' then "\\n"
  else if c == '\r' then "\\r"
  else if c == '\t' then "\\t"
  else if isPrintable c then String.singleton c
  else if c.toNat < 0x100 then "\\x" ++ hex 2 c.toNat
  else if c.toNat < 0x10000 then "\\u" ++ hex 4 c.toNat
  else "\\U" ++ hex 8 c.toNat

/-- The single quote. -/
def singleQuote : Char :=
  Char.ofNat 39

/-- The quote of a text: single, unless it has single quotes in it and no double one. -/
def quoteFor (s : List Char) : Char :=
  if s.contains singleQuote && !s.contains '"' then '"' else singleQuote

/-- A text in quotes. -/
def quoted (s : String) : String :=
  let quote := quoteFor s.toList
  let body := String.join (s.toList.map (escape quote))
  String.singleton quote ++ body ++ String.singleton quote

end Pseudocode.Text
