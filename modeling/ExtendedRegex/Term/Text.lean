/-
How terms are written.

* `Term.compact` is the form for reading, in which a literal is just its set and
  members stand in parentheses after the name of their kind;
* `Term.structural` shows how the term is stored, with members in brackets;
* `Straddle.message` reports a block that straddles a literal.
-/
import ExtendedRegex.Term.Derivative
import ExtendedRegex.Text.SetText

universe u

namespace ExtendedRegex

variable {S : Type u} [SetText S]

namespace Term

/-- The texts with commas between them. -/
def commas (texts : List String) : String := ", ".intercalate texts

mutual

/-- The form for reading. -/
def compact : Term S → String
  | eps => "Eps"
  | empty => "Empty"
  | all => "All"
  | literal set => SetText.compact set
  | alt ts => "Alt(" ++ commas (compactEach ts) ++ ")"
  | seq ts => "Seq(" ++ commas (compactEach ts) ++ ")"
  | inter ts => "And(" ++ commas (compactEach ts) ++ ")"
  | compl t => "Not(" ++ compact t ++ ")"
  | star t => "Star(" ++ compact t ++ ")"

def compactEach : List (Term S) → List String
  | [] => []
  | t :: ts => compact t :: compactEach ts

end

mutual

/-- The form that shows how the term is stored. -/
def structural : Term S → String
  | eps => "Eps"
  | empty => "Empty"
  | all => "All"
  | literal set => "Literal(" ++ SetText.structural set ++ ")"
  | alt ts => "Alt([" ++ commas (structuralEach ts) ++ "])"
  | seq ts => "Seq([" ++ commas (structuralEach ts) ++ "])"
  | inter ts => "And([" ++ commas (structuralEach ts) ++ "])"
  | compl t => "Not(" ++ structural t ++ ")"
  | star t => "Star(" ++ structural t ++ ")"

def structuralEach : List (Term S) → List String
  | [] => []
  | t :: ts => structural t :: structuralEach ts

end

end Term

/-- What is reported when a word holds a block that straddles a literal. -/
def Straddle.message (e : Straddle S) : String :=
  "Invalid Symbols: singleton " ++ SetText.structural e.block ++ " partially overlaps "
    ++ SetText.structural e.set ++ "."

end ExtendedRegex
