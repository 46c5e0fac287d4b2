/-
How symbols are written in the text of a set.

A character stands between single quotes.  The usual short escapes stand for
NUL, tab, line feed, carriage return, the backslash and the quote itself; what
cannot be shown is written by its code point in hexadecimal; everything else is
written as it is.  Bytes are written in decimal and letters by their names.
-/
import ExtendedRegex.Alphabet.Letter
import ExtendedRegex.Text.Printable

universe u

namespace ExtendedRegex

/-- Symbols that have a written form. -/
class Spelled (α : Type u) where
  /-- The written form of a symbol. -/
  spell : α → String

export Spelled (spell)

namespace Text

/-- The escape of a code point: its hexadecimal digits in lower case, without leading zeros. -/
def codePointEscape (c : Char) : String :=
  "\\u\x7b" ++ String.ofList (Nat.toDigits 16 c.toNat) ++ "\x7d"

/-- What stands for a character between single quotes. -/
def escape (c : Char) : String :=
  if c = '\x00' then "\\0"
  else if c = '\t' then "\\t"
  else if c = '\n' then "\\n"
  else if c = '\r' then "\\r"
  else if c = '\\' then "\\\\"
  else if c = '\x27' then "\\\x27"
  else if isPrintable c then c.toString
  else codePointEscape c

/-- A character between single quotes. -/
def quote (c : Char) : String := "\x27" ++ escape c ++ "\x27"

end Text

instance : Spelled Char := ⟨Text.quote⟩

instance : Spelled UInt8 := ⟨fun b => toString b.toNat⟩

namespace Letter

/-- The name of a letter. -/
def name : Letter → String
  | a => "A"
  | b => "B"
  | c => "C"
  | d => "D"
  | e => "E"

instance : Spelled Letter := ⟨name⟩

end Letter

end ExtendedRegex
