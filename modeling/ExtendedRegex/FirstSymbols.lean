/-
The symbols that can stand at each place of a matching word.

* `Term.symbolsAt?` gives the sets for the first places of a word;
* `Term.firstSymbols?` is the set for the very first place.

Design notes: the terms that are left after a number of symbols are listed once
each.  A symbol counts only if it leads to a term that some word matches, so the
search goes on only from such terms.  Whether a term matches anything is found
out once, and remembered from one place of the word to the next.
-/
import ExtendedRegex.Decision
import ExtendedRegex.Term.Branches
import Std.Data.HashMap

universe u

namespace ExtendedRegex.Term

variable {S : Type u} [SetAlgebra S] [Ord S] [DecidableEq S] [Hashable S]

/-- What is known of terms: whether no word matches. -/
abbrev Verdicts (S : Type u) [DecidableEq S] [Hashable S] := Std.HashMap (Term S) Bool

/-- Whether no word matches a term, which is looked up or else found out and remembered. -/
def verdict? (fuel : Nat) (known : Verdicts S) (t : Term S) : Option (Bool × Verdicts S) :=
  match known[t]? with
  | some dead => some (dead, known)
  | none => (t.matchesNothing? fuel).map fun dead => (dead, known.insert t dead)

/-- The branches of all the terms of a list. -/
def allBranches? (fuel : Nat) (p : Partition S) :
    List (Term S) → Option (Partition S × List (Term S × S))
  | [] => some (p, [])
  | t :: ts => do
    let (p, branches) ← branches? fuel p t
    let (p, others) ← allBranches? fuel p ts
    return (p, branches ++ others)

/-- The branches that lead to a term which some word matches. -/
def liveBranches? (fuel : Nat) (known : Verdicts S) :
    List (Term S × S) → Option (List (Term S × S) × Verdicts S)
  | [] => some ([], known)
  | (t, set) :: rest => do
    let (dead, known) ← verdict? fuel known t
    let (live, known) ← liveBranches? fuel known rest
    return (if dead then live else (t, set) :: live, known)

/-- The symbols at each of the next `count` places of the words that match any of the terms. -/
def symbolsFrom? (fuel : Nat) : Nat → Partition S → Verdicts S → List (Term S) → Option (List S)
  | 0, _, _, _ => some []
  | count + 1, p, known, ts => do
    let (p, branches) ← allBranches? fuel p ts
    let (live, known) ← liveBranches? fuel known branches
    let next := (Question.fresh Std.HashSet.emptyWithCapacity (live.map Prod.fst)).1
    let later ← symbolsFrom? fuel count p known next
    return SetAlgebra.unionAll (live.map Prod.snd) :: later

/-- For each of the first `count` places, the symbols that a matching word can have there. -/
def symbolsAt? (fuel count : Nat) (t : Term S) : Option (List S) :=
  symbolsFrom? fuel count .trivial Std.HashMap.emptyWithCapacity [t]

/-- The symbols that a matching word can start with. -/
def firstSymbols? (fuel : Nat) (t : Term S) : Option S :=
  (symbolsAt? fuel 1 t).map SetAlgebra.unionAll

end ExtendedRegex.Term
