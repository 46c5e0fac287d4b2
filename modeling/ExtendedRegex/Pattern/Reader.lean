/-
Reading patterns, one character at a time.

A `Reader` holds what has been read: the open groups, from the innermost to the
outermost, and what the next character may be part of.  `Reader.step` takes one
character, and `Reader.finish` takes the end of the text.

* `Pattern.parse` reads a text, and `Term.parse` goes on to the term;
* `Term.parse_eq_ok_iff`, `Term.parse_eq_error_iff`: what is read of the characters of a text is what
  comes of parsing it.

Design notes: a character is never looked at again, so a fault depends only on
the text up to the place where it is found.  A quantifier belongs to the item
just before it; at the start of a branch there is none, and there `+`, `?` and
`{` stand for themselves.
-/
import ExtendedRegex.Pattern.Error
import ExtendedRegex.Pattern.Syntax

namespace ExtendedRegex

/-- A group, or the whole pattern, as far as it has been read; the latest parts come first. -/
structure Frame where
  branches : List Pattern
  items : List Pattern

namespace Frame

/-- Nothing has been read. -/
def empty : Frame := ⟨[], []⟩

/-- Adds an item to the last branch. -/
def push (f : Frame) (p : Pattern) : Frame := { f with items := p :: f.items }

/-- Puts a quantifier to the last item. -/
def quantify (f : Frame) (q : Quantifier) : Frame :=
  match f.items with
  | [] => f
  | p :: items => { f with items := .quantified p q :: items }

/-- The last branch as a pattern. -/
def branch (f : Frame) : Pattern := .seq f.items.reverse

/-- Ends the last branch and opens the next one. -/
def nextBranch (f : Frame) : Frame := ⟨f.branch :: f.branches, []⟩

/-- All branches as a pattern. -/
def pattern (f : Frame) : Pattern := .alt (f.branch :: f.branches).reverse

end Frame

/-- What the next character may be part of. -/
inductive Mode where
  /-- An item, a quantifier, or the end of a branch or group. -/
  | item
  /-- The start of a group, after its parenthesis. -/
  | groupStart
  /-- The colon after the parenthesis and the question mark of a group. -/
  | groupColon
  /-- An escape, after its backslash. -/
  | escape
  /-- The hexadecimal digits of a code point, of which the first is at `start`. -/
  | codePoint (start missing value : Nat)
  /-- The start of a class, after its bracket. -/
  | bracketStart
  /-- A range of a class, or its end; the latest range comes first. -/
  | bracket (negated : Bool) (ranges : List (Char × Char))
  /-- The hyphen of a range, if there is one, after the first character of the range. -/
  | rangeHyphen (negated : Bool) (ranges : List (Char × Char)) (first : Char)
  /-- The last character of a range, after its hyphen. -/
  | rangeEnd (negated : Bool) (ranges : List (Char × Char)) (first : Char)
  /-- The least count of a repetition whose brace is at `brace`. -/
  | minimum (brace : Nat) (value : Option Nat)
  /-- The greatest count, whose first digit is at `start`, or the closing brace in its place. -/
  | maximum (brace start min : Nat) (value : Option Nat)

/-- What has been read: the innermost open group, the groups around it, and the mode. -/
structure Reader where
  mode : Mode
  frame : Frame
  outer : List Frame

namespace Reader

/-- The greatest count of a repetition. -/
def maxCount : Nat := 1000

/-- Nothing has been read. -/
def start : Reader := ⟨.item, .empty, []⟩

/-- The characters that stand for themselves after a backslash. -/
def escapable : List Char := ['\\', '/', '[', ']', '(', ')', '.', '|', '*', '?', '+']

/-- The value of a decimal digit. -/
def digit? (c : Char) : Option Nat :=
  if '0' ≤ c ∧ c ≤ '9' then some (c.toNat - '0'.toNat) else none

/-- The value of a hexadecimal digit. -/
def hexDigit? (c : Char) : Option Nat :=
  if '0' ≤ c ∧ c ≤ '9' then some (c.toNat - '0'.toNat)
  else if 'a' ≤ c ∧ c ≤ 'f' then some (c.toNat - 'a'.toNat + 10)
  else if 'A' ≤ c ∧ c ≤ 'F' then some (c.toNat - 'A'.toNat + 10)
  else none

/-- Goes on to what the next character may be part of. -/
def await (r : Reader) (mode : Mode) : Reader := { r with mode := mode }

/-- Adds an item. -/
def push (r : Reader) (p : Pattern) : Reader := { r with mode := .item, frame := r.frame.push p }

/-- Puts a quantifier to the last item. -/
def quantify (r : Reader) (q : Quantifier) : Reader :=
  { r with mode := .item, frame := r.frame.quantify q }

/-- The quantifier of a character, if there is an item for it; otherwise what `alone` says. -/
def quantifyOr (r : Reader) (q : Quantifier) (alone : Except Failure Reader) :
    Except Failure Reader :=
  if r.frame.items.isEmpty then alone else .ok (r.quantify q)

/-- An item, a quantifier, or the end of a branch or group. -/
def stepItem (r : Reader) (offset : Nat) (c : Char) : Except Failure Reader :=
  match c with
  | '|' => .ok { r with mode := .item, frame := r.frame.nextBranch }
  | '(' => .ok ⟨.groupStart, .empty, r.frame :: r.outer⟩
  | ')' =>
    match r.outer with
    | [] => .error ⟨.trailing c, offset⟩
    | f :: outer => .ok ⟨.item, f.push r.frame.pattern, outer⟩
  | '[' => .ok (r.await .bracketStart)
  | ']' => .error ⟨.strayBracket, offset⟩
  | '.' => .ok (r.push .any)
  | '\\' => .ok (r.await .escape)
  | '*' => r.quantifyOr .star (.error ⟨.nothingToRepeat, offset⟩)
  | '+' => r.quantifyOr .plus (.ok (r.push (.char c)))
  | '?' => r.quantifyOr .opt (.ok (r.push (.char c)))
  | '{' => .ok (if r.frame.items.isEmpty then r.push (.char c) else r.await (.minimum offset none))
  | _ => .ok (r.push (.char c))

/-- What comes after a backslash. -/
def stepEscape (r : Reader) (offset : Nat) (c : Char) : Except Failure Reader :=
  match c with
  | 'n' => .ok (r.push (.char '\n'))
  | 'r' => .ok (r.push (.char '\r'))
  | 't' => .ok (r.push (.char '\t'))
  | 'd' => .ok (r.push .digit)
  | 'x' => .ok (r.await (.codePoint (offset + 1) 2 0))
  | 'u' => .ok (r.await (.codePoint (offset + 1) 4 0))
  | _ => if c ∈ escapable then .ok (r.push (.char c)) else .error ⟨.unknownEscape c, offset⟩

/-- One more digit of a code point, which is complete when no digit is missing. -/
def stepCodePoint (r : Reader) (start missing value offset : Nat) (c : Char) :
    Except Failure Reader :=
  match hexDigit? c with
  | none => .error ⟨.expectedHexDigit, offset⟩
  | some d =>
    let value := value * 16 + d
    if 1 < missing then .ok (r.await (.codePoint start (missing - 1) value))
    else if value.isValidChar then .ok (r.push (.char (Char.ofNat value)))
    else .error ⟨.invalidCodePoint value, start⟩

/-- The start of a range, or the end of the class. -/
def stepBracket (r : Reader) (negated : Bool) (ranges : List (Char × Char)) (c : Char) : Reader :=
  if c = ']' then r.push (.bracket negated ranges.reverse)
  else r.await (.rangeHyphen negated ranges c)

/-- One more digit of a count, unless it makes the count too large. -/
def addDigit (value : Option Nat) (d start : Nat) : Except Failure Nat :=
  let value := value.getD 0 * 10 + d
  if maxCount < value then .error ⟨.repetitionTooLarge, start⟩ else .ok value

/-- The least count of a repetition, and what ends it. -/
def stepMinimum (r : Reader) (brace : Nat) (value : Option Nat) (offset : Nat) (c : Char) :
    Except Failure Reader :=
  match digit? c, value with
  | some d, _ =>
    (addDigit value d (brace + 1)).map fun value => r.await (.minimum brace (some value))
  | none, none => .error ⟨.expectedNumber (some c), offset⟩
  | none, some min =>
    if c = ',' then .ok (r.await (.maximum brace (offset + 1) min none))
    else if c = '}' then .ok (r.quantify (.rep min (some min)))
    else .error ⟨.expected '}' (some c), offset⟩

/-- The greatest count of a repetition, or the brace that ends it. -/
def stepMaximum (r : Reader) (brace start min : Nat) (value : Option Nat) (offset : Nat)
    (c : Char) : Except Failure Reader :=
  match digit? c, value with
  | some d, _ =>
    (addDigit value d start).map fun value => r.await (.maximum brace start min (some value))
  | none, none =>
    if c = '}' then .ok (r.quantify (.rep min none)) else .error ⟨.expectedNumber (some c), offset⟩
  | none, some max =>
    if c ≠ '}' then .error ⟨.expected '}' (some c), offset⟩
    else if max < min then .error ⟨.invalidRepetition min max, brace⟩
    else .ok (r.quantify (.rep min (some max)))

/-- Takes the character at an offset. -/
def step (r : Reader) (offset : Nat) (c : Char) : Except Failure Reader :=
  match r.mode with
  | .item => r.stepItem offset c
  | .groupStart => if c = '?' then .ok (r.await .groupColon) else r.stepItem offset c
  | .groupColon => if c = ':' then .ok (r.await .item) else .error ⟨.expected ':' (some c), offset⟩
  | .escape => r.stepEscape offset c
  | .codePoint start missing value => r.stepCodePoint start missing value offset c
  | .bracketStart => .ok (if c = '^' then r.await (.bracket true []) else r.stepBracket false [] c)
  | .bracket negated ranges => .ok (r.stepBracket negated ranges c)
  | .rangeHyphen negated ranges a =>
    .ok (if c = '-' then r.await (.rangeEnd negated ranges a)
      else r.stepBracket negated ((a, a) :: ranges) c)
  | .rangeEnd negated ranges a =>
    .ok (if c = ']' then r.stepBracket negated (('-', '-') :: (a, a) :: ranges) c
      else r.await (.bracket negated ((a, c) :: ranges)))
  | .minimum brace value => r.stepMinimum brace value offset c
  | .maximum brace start min value => r.stepMaximum brace start min value offset c

/-- Takes the end of the text, which is at an offset. -/
def finish (r : Reader) (offset : Nat) : Except Failure Pattern :=
  match r.mode with
  | .item | .groupStart =>
    if r.outer.isEmpty then .ok r.frame.pattern else .error ⟨.expected ')' none, offset⟩
  | .groupColon => .error ⟨.expected ':' none, offset⟩
  | .escape | .bracketStart | .bracket .. | .rangeHyphen .. | .rangeEnd .. =>
    .error ⟨.unexpectedEnd, offset⟩
  | .codePoint .. => .error ⟨.expectedHexDigit, offset⟩
  | .minimum _ none | .maximum _ _ _ none => .error ⟨.expectedNumber none, offset⟩
  | .minimum _ (some _) | .maximum _ _ _ (some _) => .error ⟨.expected '}' none, offset⟩

/-- Reads the rest of a text, of which the first character is at an offset. -/
def read (r : Reader) (offset : Nat) : List Char → Except Failure Pattern
  | [] => r.finish offset
  | c :: cs =>
    match r.step offset c with
    | .error e => .error e
    | .ok r => read r (offset + 1) cs

end Reader

/-- Reads a pattern. -/
def Pattern.parse (input : String) : Except ParseError Pattern :=
  (Reader.start.read 0 input.toList).mapError fun failure => ⟨failure, input⟩

/-- Reads a pattern and gives its term. -/
def Term.parse (input : String) : Except ParseError CharTerm :=
  (Pattern.parse input).map Pattern.term

namespace Term

theorem parse_eq_error_iff {input : String} {e : ParseError} :
    parse input = .error e ↔
      Reader.start.read 0 input.toList = .error e.toFailure ∧ e.input = input := by
  rw [parse, Pattern.parse]
  cases Reader.start.read 0 input.toList with
  | ok p =>
    refine iff_of_false (fun h => ?_) ?_
    · contradiction
    · rintro ⟨h, -⟩
      contradiction
  | error failure =>
    show Except.error (ParseError.mk failure input) = _ ↔ _
    constructor
    · intro h
      obtain rfl := Except.error.inj h
      exact ⟨rfl, rfl⟩
    · rintro ⟨h, rfl⟩
      rw [Except.error.inj h]

theorem parse_eq_ok_iff {input : String} {t : CharTerm} :
    parse input = .ok t ↔ ∃ p, Reader.start.read 0 input.toList = .ok p ∧ p.term = t := by
  rw [parse, Pattern.parse]
  cases Reader.start.read 0 input.toList with
  | ok p =>
    show Except.ok p.term = _ ↔ _
    constructor
    · intro h
      exact ⟨p, rfl, Except.ok.inj h⟩
    · rintro ⟨q, h, rfl⟩
      rw [Except.ok.inj h]
  | error failure =>
    refine iff_of_false (fun h => ?_) ?_
    · contradiction
    · rintro ⟨p, h, -⟩
      contradiction

end Term

end ExtendedRegex
