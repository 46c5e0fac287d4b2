/-
Deciding emptiness, equivalence, inclusion and intersection.

* `Term.matchesNothing?`: whether no word matches;
* `Term.equivalent?`: whether two terms match the same words;
* `Term.includes?`: whether the first term matches all that the second does;
* `Term.meets?`: whether some word matches both.

Each is a search through the derivatives of a term or of a pair of terms, cut
short by what the terms themselves show.  A known first set is exact, so two
that differ refute equivalence.
-/
import ExtendedRegex.Search

universe u

namespace ExtendedRegex.Term

variable {S : Type u} [SetAlgebra S] [Ord S] [DecidableEq S] [Hashable S]

/-- A term matches nothing if none of its derivatives has a word. -/
def emptinessQuestion : Question S (Term S) where
  settle t :=
    match t.emptiness with
    | .empty => some true
    | .inhabited => some false
    | .unknown => none
  step block t := t.derivative block

/-- The derivatives of both terms of a pair. -/
def derivativePair (block : S) (p : Term S × Term S) : Except (Straddle S) (Term S × Term S) := do
  return (← p.1.derivative block, ← p.2.derivative block)

/-- Whether two terms match the same words, if their shape shows it. -/
def settleEquivalence (a b : Term S) : Option Bool :=
  if a = b then some true
  else if a.nullable != b.nullable then some false
  else match a.firstSet?, b.firstSet? with
    | some fa, some fb => if fa = fb then none else some false
    | _, _ => none

/-- Whether `a` matches all words of `b`, if their shape shows it. -/
def settleInclusion (a b : Term S) : Option Bool :=
  if a = b || b.isEmpty || a.isAll then some true
  else if a.isEmpty then
    match b.emptiness with
    | .empty => some true
    | .inhabited => some false
    | .unknown => none
  else if b.nullable && !a.nullable then some false
  else match a.firstSet?, b.firstSet? with
    | some fa, some fb => if SetAlgebra.containsAll fa fb then none else some false
    | _, _ => none

/-- Two terms are equivalent if no derivatives by the same word can be told apart. -/
def equivalenceQuestion : Question S (Term S × Term S) where
  settle p := settleEquivalence p.1 p.2
  step := derivativePair

/-- A term includes another if no derivative by the same word falls outside. -/
def inclusionQuestion : Question S (Term S × Term S) where
  settle p := settleInclusion p.1 p.2
  step := derivativePair

/-- Whether no word matches. -/
def matchesNothing? (fuel : Nat) (t : Term S) : Option Bool := emptinessQuestion.holds? fuel t

/-- Whether the same words match both terms. -/
def equivalent? (fuel : Nat) (a b : Term S) : Option Bool := equivalenceQuestion.holds? fuel (a, b)

/-- Whether every word that matches `b` matches `a`. -/
def includes? (fuel : Nat) (a b : Term S) : Option Bool := inclusionQuestion.holds? fuel (a, b)

/-- Whether some word matches both terms. -/
def meets? (fuel : Nat) (a b : Term S) : Option Bool :=
  (matchesNothing? fuel (allOf [a, b])).map not

end ExtendedRegex.Term
