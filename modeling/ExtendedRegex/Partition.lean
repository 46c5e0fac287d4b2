/-
Finite partitions of the symbols into blocks.

Derivatives are taken by a whole block of symbols at once, and a partition only
has to be as fine as the literals that a computation has met so far.

* `Partition.trivial` is a single block of every symbol;
* `Partition.refine` splits each block that a set straddles into the part inside
  the set and the part outside it, in this order and in the place of the block.
-/
import ExtendedRegex.SetAlgebra

universe u

namespace ExtendedRegex

/-- Blocks of symbols in a fixed order.  The partitions that `refine` makes from `trivial` have
blocks that are not empty, share no symbol, and together have every symbol. -/
structure Partition (S : Type u) where
  blocks : List S
  deriving DecidableEq

namespace Partition

variable {S : Type u} [SetAlgebra S]

open SetAlgebra (isEmpty difference)

/-- The coarsest partition, of a single block. -/
def trivial : Partition S := ⟨[SetAlgebra.full]⟩

/-- The parts of a block inside and outside a set, or the block itself when one of them is empty. -/
def splitBlock (set block : S) : List S :=
  if isEmpty (block ∩ set) || isEmpty (difference block set) then [block]
  else [block ∩ set, difference block set]

/-- Splits every block that straddles the set. -/
def refine (p : Partition S) (set : S) : Partition S := ⟨p.blocks.flatMap (splitBlock set)⟩

end Partition

end ExtendedRegex
