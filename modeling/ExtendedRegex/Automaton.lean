/-
Deterministic automata whose states are terms.

Each state is labelled with the term for what may follow there.  Its transitions
go to the states of its derivatives, and each carries the symbols that lead to
the target.  Evidently empty derivatives have no state, so a missing transition
means that nothing more can match.

* `Automaton.run?` and `Automaton.accepts` read a word;
* `Automaton.ofTerm?` builds the automaton of a term, with an optional limit on
  the number of states.

Design notes: states are numbered in the order of their discovery, and state 0
is the term itself.  All blocks that lead to one target are joined in the label of
one transition.  A state is finished when its transitions are known, so the
number of finished states is the number of the next one to look at.
-/
import ExtendedRegex.Numbering
import ExtendedRegex.Term.Branches

universe u

namespace ExtendedRegex

/-- A state: its term, and its transitions in the order of their targets. -/
structure State (S : Type u) where
  term : Term S
  transitions : List (Nat × S)

/-- States by their numbers. -/
structure Automaton (S : Type u) where
  states : Array (State S)

/-- An automaton would need more states than the limit allows. -/
structure TooManyStates where
  limit : Nat
  deriving DecidableEq

def TooManyStates.message (e : TooManyStates) : String :=
  "The dfa needs more than the limit of " ++ toString e.limit ++ " states."

namespace State

variable {S : Type u}

/-- Whether a word may end here. -/
def accepting (s : State S) : Bool := s.term.nullable

/-- The target of the first transition whose label has every symbol of the block. -/
def target? [SetAlgebra S] (s : State S) (block : S) : Option Nat :=
  (s.transitions.find? fun (_, label) => SetAlgebra.containsAll label block).map Prod.fst

end State

namespace Automaton

variable {S : Type u}

section Reading

variable [SetAlgebra S]

/-- The state that is reached from state `n` by a word. -/
def runFrom? (a : Automaton S) : Nat → List S → Option (State S)
  | n, [] => a.states[n]?
  | n, block :: word =>
    a.states[n]?.bind fun s => (s.target? block).bind fun m => runFrom? a m word

/-- The state that is reached from the start by a word. -/
def run? (a : Automaton S) (word : List S) : Option (State S) := a.runFrom? 0 word

/-- Whether a word leads to an accepting state. -/
def accepts (a : Automaton S) (word : List S) : Bool := (a.run? word).any State.accepting

end Reading

/-- Joins the labels of neighbours that have the same target. -/
def joinLabels [SetAlgebra S] : List (Nat × S) → List (Nat × S)
  | [] => []
  | (n, label) :: rest =>
    match joinLabels rest with
    | [] => [(n, label)]
    | (m, label') :: rest =>
      if n = m then (n, label ∪ label') :: rest else (n, label) :: (m, label') :: rest

/-- Numbered branches as transitions: one for each target, in the order of the targets. -/
def ofBranches [SetAlgebra S] (branches : List (Nat × S)) : List (Nat × S) :=
  joinLabels (branches.mergeSort fun a b => a.1 ≤ b.1)

variable [DecidableEq S] [Hashable S]

/-- The number of a term among the states, unless it is new and there may be no more states. -/
def registerState (limit : Option Nat) (known : Numbering (Term S)) (t : Term S) :
    Except TooManyStates (Numbering (Term S) × Nat) :=
  let (known', n) := known.register t
  match limit with
  | some limit => if limit ≤ n then .error ⟨limit⟩ else .ok (known', n)
  | none => .ok (known', n)

/-- The branches of a state with the numbers of their terms, in the order of the branches. -/
def registerBranches (limit : Option Nat) (known : Numbering (Term S)) :
    List (Term S × S) → Except TooManyStates (Numbering (Term S) × List (Nat × S))
  | [] => .ok (known, [])
  | (t, label) :: rest =>
    match registerState limit known t with
    | .error e => .error e
    | .ok (known, n) =>
      (registerBranches limit known rest).map fun (known, ts) => (known, (n, label) :: ts)

variable [SetAlgebra S] [Ord S]

/-- Looks at the states one after another until all of them are finished. -/
def explore? (limit : Option Nat) : Nat → Partition S → Numbering (Term S) → Array (State S) →
    Option (Except TooManyStates (Automaton S))
  | 0, _, _, _ => none
  | fuel + 1, p, known, finished =>
    match known.items[finished.size]? with
    | none => some (.ok ⟨finished⟩)
    | some t =>
      match t.branches? fuel p with
      | none => none
      | some (p, branches) =>
        match registerBranches limit known branches with
        | .error e => some (.error e)
        | .ok (known, branches) =>
          explore? limit fuel p known (finished.push ⟨t, ofBranches branches⟩)

/-- The automaton of a term and its derivatives. -/
def ofTerm? (fuel : Nat) (limit : Option Nat) (t : Term S) :
    Option (Except TooManyStates (Automaton S)) :=
  match registerState limit .empty t with
  | .error e => some (.error e)
  | .ok (known, _) => explore? limit fuel .trivial known #[]

end Automaton

end ExtendedRegex
