/-
Derivatives by blocks of symbols.

The derivative of a term by a block is the term for the rest of a word that
starts with a symbol of the block.  All symbols of the block must have the same
derivative, so a literal that has some of them but not all stands in the way.

* `Term.derivative` gives the derivative, or the first literal that the block
  straddles;
* `Term.derivativeWord` and `Term.accepts` read a word, one block per symbol;
* `Partition.overBlocks?` takes derivatives by every block of a partition and
  refines it by the literal that stands in the way until there is none.

Design notes: the derivative of a sequence is an alternation, with one
alternative for each member up to the first that is not nullable.  Evidently
empty derivatives become `Term.empty`, which keeps their number finite.  Which
literals a derivative meets does not depend on the block.  So a literal that
stands in the way of one block splits none of the blocks that came before.
-/
import ExtendedRegex.Partition
import ExtendedRegex.Term.Build

universe u v

namespace ExtendedRegex

/-- A block that has some, but not all, of its symbols in the set of a literal. -/
structure Straddle (S : Type u) where
  block : S
  set : S
  deriving DecidableEq

namespace Term

variable {S : Type u} [SetAlgebra S] [Ord S] [DecidableEq S]

/-- Turns a term that is evidently empty into `empty`. -/
def prune (t : Term S) : Term S :=
  match t.emptiness with
  | .empty => empty
  | _ => t

/-- The derivative of a literal. -/
def derivativeLiteral (block set : S) : Except (Straddle S) (Term S) :=
  match SetAlgebra.overlap block set with
  | .disjoint => .ok empty
  | .equal | .secondContainsFirst => .ok eps
  | .firstContainsSecond | .crossing => .error ⟨block, set⟩

mutual

/-- The derivative of a term by a block. -/
def derivative (block : S) : Term S → Except (Straddle S) (Term S)
  | eps => .ok empty
  | empty => .ok empty
  | all => .ok all
  | literal set => derivativeLiteral block set
  | alt ts => do return prune (oneOf (← derivativeEach block ts))
  | seq ts => do return prune (oneOf (← derivativeSeq block ts))
  | inter ts => do return prune (allOf (← derivativeEach block ts))
  | compl t => do return prune (complement (← derivative block t))
  | star t => do return prune (before (← derivative block t) [star t])

/-- The derivatives of the members. -/
def derivativeEach (block : S) : List (Term S) → Except (Straddle S) (List (Term S))
  | [] => .ok []
  | t :: ts => do
    let d ← derivative block t
    return d :: (← derivativeEach block ts)

/-- The alternatives of the derivative of a sequence: the first symbol is read by a member before
which all are nullable. -/
def derivativeSeq (block : S) : List (Term S) → Except (Straddle S) (List (Term S))
  | [] => .ok []
  | t :: ts => do
    let alternative := before (← derivative block t) ts
    if t.nullable then return alternative :: (← derivativeSeq block ts)
    else return [alternative]

end

/-- The derivative by each block of a word in turn. -/
def derivativeWord (t : Term S) (word : List S) : Except (Straddle S) (Term S) :=
  word.foldlM (fun t block => t.derivative block) t

/-- Whether a word matches. -/
def accepts (t : Term S) (word : List S) : Except (Straddle S) Bool :=
  (t.derivativeWord word).map nullable

end Term

namespace Partition

variable {S : Type u} [SetAlgebra S] {β : Type v}

/-- Applies `f` to the blocks of a list in turn.  When a literal stands in the way of a block, that
block and those after it are split by the set of the literal.  The number bounds the steps. -/
def eachBlock? (f : S → Except (Straddle S) β) : Nat → List S → Option (List (S × β))
  | _, [] => some []
  | 0, _ :: _ => none
  | fuel + 1, block :: blocks =>
    match f block with
    | .ok result => (eachBlock? f fuel blocks).map ((block, result) :: ·)
    | .error e => eachBlock? f fuel ((block :: blocks).flatMap (splitBlock e.set))

/-- Applies `f` to every block of a partition, which is refined where a literal stands in the way.
-/
def overBlocks? (p : Partition S) (f : S → Except (Straddle S) β) (fuel : Nat) :
    Option (Partition S × List (S × β)) :=
  (eachBlock? f fuel p.blocks).map fun results => (⟨results.map Prod.fst⟩, results)

end Partition

end ExtendedRegex
