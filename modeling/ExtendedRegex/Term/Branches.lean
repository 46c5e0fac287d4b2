/-
The branches of a term: its derivatives, each with the block of symbols that
leads to it.

* `Term.branches?` lists the branches of a term over a partition, which it
  refines as far as the term needs, without those that are evidently empty.
-/
import ExtendedRegex.Term.Derivative

universe u

namespace ExtendedRegex.Term

variable {S : Type u} [SetAlgebra S] [Ord S] [DecidableEq S]

/-- The derivatives by the blocks of a partition, each with its block and in the order of the
blocks, and the partition after the refinements that the term needs. -/
def branches? (fuel : Nat) (p : Partition S) (t : Term S) :
    Option (Partition S × List (Term S × S)) := do
  let (p, derived) ← p.overBlocks? t.derivative fuel
  let kept := derived.filter fun (_, d) => d.emptiness ≠ .empty
  return (p, kept.map Prod.swap)

end ExtendedRegex.Term
