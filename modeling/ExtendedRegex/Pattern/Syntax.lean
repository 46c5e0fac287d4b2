/-
The syntax of patterns, and the terms that they stand for.

A pattern is an alternation of sequences of items.  An item is a character, a
dot, the class of decimal digits, a class in brackets or a group, and quantifiers
may follow it.  A group has no node of its own: it is the pattern inside.

* `Pattern.term` is the term of a pattern.
-/
import ExtendedRegex.Pattern.DecimalDigit
import ExtendedRegex.Term.Build

namespace ExtendedRegex

/-- How often an item is repeated. -/
inductive Quantifier where
  /-- Any number of times, written `*`. -/
  | star
  /-- Once or more, written `+`. -/
  | plus
  /-- Once or not at all, written `?`. -/
  | opt
  /-- Between `min` and `max` times; without `max`, any number of times from `min` on. -/
  | rep (min : Nat) (max : Option Nat)
  deriving DecidableEq

/-- A pattern, or a part of one. -/
inductive Pattern where
  /-- A character that stands for itself. -/
  | char (c : Char)
  /-- Any single character. -/
  | any
  /-- Any decimal digit. -/
  | digit
  /-- A class in brackets: the ends of its ranges in the order in which they are written. -/
  | bracket (negated : Bool) (ranges : List (Char × Char))
  /-- An item with a quantifier. -/
  | quantified (item : Pattern) (quantifier : Quantifier)
  /-- Items one after another. -/
  | seq (items : List Pattern)
  /-- Alternative branches. -/
  | alt (branches : List Pattern)
  deriving Inhabited

/-- Terms over sets of characters. -/
abbrev CharTerm := Term (RangeSet Char)

/-- The repetition of a term. -/
def Quantifier.apply : Quantifier → CharTerm → CharTerm
  | star, t => t.closure
  | plus, t => t.plus
  | opt, t => t.opt
  | rep min max, t => t.rep min max

namespace Pattern

/-- The characters of a class in brackets. -/
def bracketSet (negated : Bool) (ranges : List (Char × Char)) : RangeSet Char :=
  let set := RangeSet.ofEnds ranges
  if negated then set.compl else set

mutual

/-- The term that a pattern stands for. -/
def term : Pattern → CharTerm
  | char c => .ofSet (.single c)
  | any => .ofSet .full
  | digit => .ofSet decimalDigits
  | bracket negated ranges => .ofSet (bracketSet negated ranges)
  | quantified item quantifier => quantifier.apply (term item)
  | seq items => .concat (terms items)
  | alt branches => .oneOf (terms branches)

def terms : List Pattern → List CharTerm
  | [] => []
  | p :: ps => term p :: terms ps

end

end Pattern

end ExtendedRegex
