/-
Breadth-first search through derivatives.

A search asks whether something holds of an item and of all its derivatives,
where an item is a term or a pair of terms.  A `Question` settles an item at
once if it can, and otherwise steps to its derivatives by a block.

* `Question.holds?` is the answer: `false` as soon as an item is refuted, `true`
  when no open item is left;
* the blocks are those of a single partition, which is refined along the way.

Design notes: every search takes a bound on the number of its steps, its fuel,
and `none` means that the bound was too small.  More steps never change an
answer.  Items are put in the queue at most once, and only while they are open.
-/
import ExtendedRegex.Term.Derivative
import Std.Data.HashSet

universe u v

namespace ExtendedRegex

/-- Something to be decided of an item and its derivatives. -/
structure Question (S : Type u) (α : Type v) where
  /-- Whether it holds, if that is plain from the item itself and needs no further search. -/
  settle : α → Option Bool
  /-- The derivative of an item. -/
  step : S → α → Except (Straddle S) α

namespace Question

variable {S : Type u} {α : Type v}

/-- The items that are not settled, or nothing if one of them is refuted. -/
def openItems? (q : Question S α) : List α → Option (List α)
  | [] => some []
  | x :: xs =>
    match q.settle x with
    | some false => none
    | some true => q.openItems? xs
    | none => (q.openItems? xs).map (x :: ·)

variable [BEq α] [Hashable α]

/-- The items that have not been seen, and all that have been seen after that. -/
def fresh (seen : Std.HashSet α) : List α → List α × Std.HashSet α
  | [] => ([], seen)
  | x :: xs =>
    let (known, seen) := seen.containsThenInsert x
    if known then fresh seen xs
    else
      let (ys, seen) := fresh seen xs
      (x :: ys, seen)

variable [SetAlgebra S]

/-- Goes on from a queue of open items, all of which have been seen: those at the front in order,
and after them those at the back, of which the last comes first. -/
def searchFrom? (q : Question S α) :
    Nat → Partition S → Std.HashSet α → List α → List α → Option Bool
  | 0, _, _, _, _ => none
  | _ + 1, _, _, [], [] => some true
  | fuel + 1, p, seen, [], x :: back => searchFrom? q fuel p seen (x :: back).reverse []
  | fuel + 1, p, seen, x :: front, back =>
    match p.overBlocks? (q.step · x) fuel with
    | none => none
    | some (p, derived) =>
      match q.openItems? (derived.map Prod.snd) with
      | none => some false
      | some items =>
        let (new, seen) := fresh seen items
        searchFrom? q fuel p seen front (new.reverseAux back)

/-- Whether it holds of an item and all its derivatives. -/
def holds? (q : Question S α) (fuel : Nat) (x : α) : Option Bool :=
  match q.settle x with
  | some answer => some answer
  | none => q.searchFrom? fuel .trivial (Std.HashSet.emptyWithCapacity.insert x) [x] []

end Question

end ExtendedRegex
