/-
What can be wrong with the text of a pattern, and how it is reported.

* `Fault.message` is the wording of each fault;
* `ParseError.message` adds the place, the text around it and a caret below.
-/
namespace ExtendedRegex

/-- What is wrong at a place of a pattern. -/
inductive Fault where
  /-- The text ends inside an escape or a class. -/
  | unexpectedEnd
  /-- Another character was needed, or any character at all. -/
  | expected (wanted : Char) (found : Option Char)
  /-- A parenthesis closes no group. -/
  | trailing (found : Char)
  /-- A star has no item before it. -/
  | nothingToRepeat
  /-- A bracket closes no class. -/
  | strayBracket
  /-- A backslash before a character that has no escape. -/
  | unknownEscape (found : Char)
  /-- Too few hexadecimal digits. -/
  | expectedHexDigit
  /-- A number that is no character. -/
  | invalidCodePoint (value : Nat)
  /-- A repetition whose greatest count is below its least. -/
  | invalidRepetition (min max : Nat)
  /-- No number where a count is needed. -/
  | expectedNumber (found : Option Char)
  /-- A count above the greatest one allowed. -/
  | repetitionTooLarge
  deriving DecidableEq

namespace Fault

/-- A character in quotes, or the end of the text. -/
def describe : Option Char → String
  | some c => "\x27" ++ c.toString ++ "\x27"
  | none => "end of input"

/-- The digits of a number in base 16, in upper case. -/
def upperHex (n : Nat) : String := String.ofList ((Nat.toDigits 16 n).map Char.toUpper)

def message : Fault → String
  | unexpectedEnd => "Unexpected end of input"
  | expected wanted found => "Expected " ++ describe (some wanted) ++ " but got " ++ describe found
  | trailing found => "Expected end of input but got " ++ describe (some found)
  | nothingToRepeat => "Unexpected \x27*\x27 with nothing to repeat"
  | strayBracket => "Unexpected \x27]\x27"
  | unknownEscape found => "Unknown escape \x27\\" ++ found.toString ++ "\x27"
  | expectedHexDigit => "Expected a hexadecimal digit"
  | invalidCodePoint value => "Invalid code point " ++ upperHex value
  | invalidRepetition min max =>
    "Invalid repetition \x7b" ++ toString min ++ "," ++ toString max ++ "\x7d"
  | expectedNumber found => "Expected a number but got " ++ describe found
  | repetitionTooLarge => "Repetition count is too large"

end Fault

/-- A fault and the number of characters before it. -/
structure Failure where
  fault : Fault
  offset : Nat
  deriving DecidableEq

/-- A failure together with the text in which it was found. -/
structure ParseError extends Failure where
  input : String
  deriving DecidableEq

namespace ParseError

/-- How many characters are shown on each side of the place of a failure. -/
def contextWidth : Nat := 5

/-- The first character that is shown. -/
def windowStart (e : ParseError) : Nat := e.offset - contextWidth

/-- The text around the place of the failure. -/
def window (e : ParseError) : String :=
  String.ofList ((e.input.toList.drop e.windowStart).take (e.offset - e.windowStart + contextWidth))

/-- A caret below the place of the failure. -/
def caret (e : ParseError) : String :=
  String.ofList (List.replicate (e.offset - e.windowStart) ' ' ++ ['^'])

/-- The fault, its place, and the text around it. -/
def message (e : ParseError) : String :=
  e.fault.message ++ " at index " ++ toString e.offset ++ "\n" ++ e.window ++ "\n" ++ e.caret

end ParseError

end ExtendedRegex
