/-
Making terms in canonical form.

Each function makes the term that its name says and simplifies at once, so that
terms built from equal parts by equal means are equal.

* `ofSet`, `word`: literals and words;
* `concat`, `oneOf`, `allOf`: sequences, alternations and intersections of any
  number of terms; `before` puts one term in front of the factors of another;
* `complement`, `closure`, `plus`, `opt`, `rep`: the operations on one term.

Design notes: alternations and intersections keep their members in increasing
order and without repetition.  A literal comes before every compound term and
the empty word before every literal, so the few members that are not compound
are put in front.  An intersection is taken apart by the first symbols that its
members allow: when no symbol is left, only the empty word can match.  Copies of a
term are never built one by one, so that a power of `eps` or `empty` costs nothing
whatever its exponent.
-/
import ExtendedRegex.Term.Order

universe u

namespace ExtendedRegex.Term

open SetAlgebra (unionAll interAll)

variable {S : Type u}

/-- Alternations, sequences, intersections, complements and stars. -/
def isCompound : Term S → Bool
  | alt _ | seq _ | inter _ | compl _ | star _ => true
  | _ => false

/-- The members of an alternation, or the term itself as its only alternative. -/
def alternatives : Term S → List (Term S)
  | alt ts => ts
  | t => [t]

/-- The members of a sequence, or the term itself as its only factor; the empty word has none. -/
def factors : Term S → List (Term S)
  | seq ts => ts
  | eps => []
  | t => [t]

/-- The members of an intersection, or the term itself as its only conjunct; `all` has none. -/
def conjuncts : Term S → List (Term S)
  | inter ts => ts
  | all => []
  | t => [t]

/-- The alternation of some members, which is the member itself if there is only one. -/
def ofAlternatives : List (Term S) → Term S
  | [] => empty
  | [t] => t
  | ts => alt ts

/-- The sequence of some members, which is the member itself if there is only one. -/
def ofFactors : List (Term S) → Term S
  | [] => eps
  | [t] => t
  | ts => seq ts

/-- The intersection of some members, which is the member itself if there is only one. -/
def ofConjuncts : List (Term S) → Term S
  | [] => all
  | [t] => t
  | ts => inter ts

/-- The terms matched one after another. -/
def concat (ts : List (Term S)) : Term S :=
  let parts := ts.flatMap factors
  if parts.any isEmpty then empty else ofFactors parts

/-- A term matched before the factors of a sequence. -/
def before (t : Term S) (rest : List (Term S)) : Term S :=
  if t.isEmpty then empty else ofFactors (t.factors ++ rest)

/-- A term matched a number of times, one after another. -/
def power (t : Term S) (n : Nat) : Term S :=
  if n = 0 then eps
  else match t with
    | eps => eps
    | empty => empty
    | _ => ofFactors (List.replicate n t.factors).flatten

section Sorted

variable [Ord S] [DecidableEq S]

/-- Keeps one of any equal terms that follow each other. -/
def dropRepeats : List (Term S) → List (Term S)
  | [] => []
  | [t] => [t]
  | t :: u :: ts => if t = u then dropRepeats (u :: ts) else t :: dropRepeats (u :: ts)

/-- The terms in increasing order, each once. -/
def sortMembers (ts : List (Term S)) : List (Term S) :=
  dropRepeats (ts.mergeSort fun t u => (compare t u).isLE)

end Sorted

variable [SetAlgebra S]

/-- One symbol of the set. -/
def ofSet (set : S) : Term S := if SetAlgebra.isEmpty set then empty else literal set

/-- One symbol of each set in turn. -/
def word (sets : List S) : Term S := concat (sets.map ofSet)

/-- The literal of a set as a list of members: none if the set is empty. -/
def literalMember (set : S) : List (Term S) := if SetAlgebra.isEmpty set then [] else [literal set]

/-- What the other term does not match.  The words other than the empty one are a symbol and then
any word. -/
def complement : Term S → Term S
  | empty => all
  | all => empty
  | eps => concat [ofSet SetAlgebra.full, all]
  | compl t => t
  | t => compl t

/-- Any number of words that a term matches, when the term is no alternation with the empty word. -/
def starOf (t : Term S) : Term S :=
  match t with
  | eps | empty => eps
  | all | star _ => t
  | literal set => if SetAlgebra.isEmpty (SetAlgebra.compl set) then all else star t
  | _ => star t

variable [Ord S] [DecidableEq S]

/-- What any of the terms matches.  Literals are joined into one, and the empty word is listed only
if no other member matches it. -/
def oneOf (ts : List (Term S)) : Term S :=
  let parts := ts.flatMap alternatives
  if parts.any isAll then all
  else
    let compounds := sortMembers (parts.filter isCompound)
    let epsilon := if parts.any isEps && !compounds.any nullable then [eps] else []
    ofAlternatives (epsilon ++ literalMember (unionAll (parts.filterMap literal?)) ++ compounds)

/-- What each of the terms matches.  A word that matches all of them is empty or starts with a
symbol that is in every first set that is known. -/
def allOf (ts : List (Term S)) : Term S :=
  let parts := ts.flatMap conjuncts
  if parts.any isEmpty then empty
  else
    let compounds := sortMembers (parts.filter isCompound)
    let sets := parts.filterMap literal?
    if parts.any isEps || SetAlgebra.isEmpty (interAll (sets ++ compounds.filterMap firstSet?)) then
      if parts.all nullable then eps else empty
    else
      let literals := if sets.isEmpty then [] else literalMember (interAll sets)
      ofConjuncts (literals ++ compounds)

/-- Any number of words that the term matches, one after another. -/
def closure (t : Term S) : Term S :=
  match t with
  | alt ts => if ts.any isEps then starOf (oneOf (ts.filter fun t => !t.isEps)) else star t
  | _ => starOf t

/-- One or more words that the term matches. -/
def plus (t : Term S) : Term S :=
  match t with
  | eps | empty | all | star _ => t
  | _ => concat [t, closure t]

/-- The term or the empty word. -/
def opt (t : Term S) : Term S :=
  match t with
  | eps | empty => eps
  | all => t
  | _ => oneOf [t, eps]

/-- At least `min` and at most `max` words that the term matches; without `max`, any number from
`min` on. -/
def rep (t : Term S) (min : Nat) : Option Nat → Term S
  | none => concat [power t min, closure t]
  | some max => if max < min then empty else concat [power t min, power (opt t) (max - min)]

end ExtendedRegex.Term
