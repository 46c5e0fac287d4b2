/-
Equations between languages, and the term for what an automaton accepts.

Each state of an automaton gives an equation: what matches there is the empty
word, if the state accepts, or a symbol of a label and then what matches at the
target.  The unknowns are eliminated one by one.  An equation `X = u X | q` is
solved by `u* q`, and the solution is put in place of the unknown elsewhere.

* `Equation.solve` solves a list of equations;
* `Automaton.toTerm` is the term for the language of the start state;
* `Term.rebuild?` goes from a term to its automaton and back.

Design notes: the equations are listed from the last unknown to the first, so
that the number of an unknown is the length of the list behind it, and each step
takes the equation at the front.
-/
import ExtendedRegex.Automaton

universe u

namespace ExtendedRegex

/-- The alternation of a constant and of unknowns, each after a coefficient. -/
structure Equation (S : Type u) where
  constant : Term S
  coefficients : List (Nat × Term S)

namespace Equation

variable {S : Type u} [SetAlgebra S] [Ord S] [DecidableEq S]

/-- The coefficients without that of one unknown. -/
def without (unknown : Nat) (coefficients : List (Nat × Term S)) : List (Nat × Term S) :=
  coefficients.filter fun c => c.1 ≠ unknown

/-- Adds one more way to an unknown. -/
def addPath (unknown : Nat) (path : Term S) : List (Nat × Term S) → List (Nat × Term S)
  | [] => [(unknown, path)]
  | (k, t) :: rest =>
    if k = unknown then (k, .oneOf [path, t]) :: rest else (k, t) :: addPath unknown path rest

/-- Solves an equation for its own unknown: `X = u X | q` has the solution `u* q`. -/
def withoutLoop (unknown : Nat) (e : Equation S) : Equation S :=
  match e.coefficients.lookup unknown with
  | none => e
  | some loop =>
    let again := Term.closure loop
    { constant := .concat [again, e.constant]
      coefficients := (without unknown e.coefficients).map fun (k, t) => (k, .concat [again, t]) }

/-- Puts the solution of an unknown in its place. -/
def substitute (unknown : Nat) (solution e : Equation S) : Equation S :=
  match e.coefficients.lookup unknown with
  | none => e
  | some via =>
    { constant := .oneOf [.concat [via, solution.constant], e.constant]
      coefficients := solution.coefficients.foldl
        (fun coefficients (k, t) => addPath k (.concat [via, t]) coefficients)
        (without unknown e.coefficients) }

/-- Eliminates an unknown from the equations of all others. -/
def eliminate (unknown : Nat) (e : Equation S) (others : List (Equation S)) : List (Equation S) :=
  others.map (substitute unknown (e.withoutLoop unknown))

@[simp] theorem length_eliminate (unknown : Nat) (e : Equation S) (others : List (Equation S)) :
    (eliminate unknown e others).length = others.length := by simp [eliminate]

/-- The solution for unknown 0, from equations listed from the last unknown to the first. -/
def solve : List (Equation S) → Term S
  | [] => .empty
  | [e] => e.constant
  | e :: e' :: es => solve (eliminate (es.length + 1) e (e' :: es))
termination_by es => es.length

/-- The equation of a state.  Unknown `n + 1` stands for state `n`. -/
def ofState (s : State S) : Equation S where
  constant := if s.accepting then .eps else .empty
  coefficients := s.transitions.map fun (n, label) => (n + 1, .ofSet label)

/-- The equations of an automaton, after which comes that of unknown 0, which is the start state. -/
def ofAutomaton (a : Automaton S) : List (Equation S) :=
  (⟨.empty, [(1, .eps)]⟩ :: a.states.toList.map ofState).reverse

end Equation

variable {S : Type u} [SetAlgebra S] [Ord S] [DecidableEq S]

/-- The term for the words that an automaton accepts. -/
def Automaton.toTerm (a : Automaton S) : Term S := Equation.solve (Equation.ofAutomaton a)

/-- The term for the words that the automaton of a term accepts. -/
def Term.rebuild? [Hashable S] (fuel : Nat) (t : Term S) : Option (Term S) :=
  match Automaton.ofTerm? fuel none t with
  | some (.ok a) => some a.toTerm
  | _ => none

end ExtendedRegex
