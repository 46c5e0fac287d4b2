/-
The operations on sets of symbols that terms are built over.

A term never looks inside the sets that label its literals.  What it needs to
know about them is asked of a `SetAlgebra`: the Boolean operations, a test for
emptiness and a test for inclusion.

* `SetAlgebra.overlap` sorts two sets by how they overlap;
* `LawfulSetAlgebra` says what the operations mean for the elements, and that
  two sets with the same elements are equal.

Design notes: inclusion is an operation of its own because a representation may
answer it more directly than by complement and intersection, which is only the
default.  A word is a list of sets, one for each symbol that is read; an algebra
whose sets have single elements reads a symbol as the set of just that symbol.
-/
universe u v

namespace ExtendedRegex

/-- Sets of symbols with the Boolean operations. -/
class SetAlgebra (S : Type u) extends EmptyCollection S, Union S, Inter S where
  /-- The set of every symbol. -/
  full : S
  /-- The symbols that are not in the set. -/
  compl : S → S
  /-- Whether the set has no symbol. -/
  isEmpty : S → Bool
  /-- Whether the first set has every symbol of the second. -/
  containsAll : S → S → Bool := fun a b => isEmpty (b ∩ compl a)

/-- The operations of a set algebra mean what they say, for elements of type `E`. -/
class LawfulSetAlgebra (S : Type u) (E : outParam (Type v)) [SetAlgebra S] [Membership E S] :
    Prop where
  nonempty : Nonempty E
  ext {a b : S} (h : ∀ e, e ∈ a ↔ e ∈ b) : a = b
  not_mem_empty (e : E) : e ∉ (∅ : S)
  mem_full (e : E) : e ∈ (SetAlgebra.full : S)
  mem_union {a b : S} {e : E} : e ∈ a ∪ b ↔ e ∈ a ∨ e ∈ b
  mem_inter {a b : S} {e : E} : e ∈ a ∩ b ↔ e ∈ a ∧ e ∈ b
  mem_compl {a : S} {e : E} : e ∈ SetAlgebra.compl a ↔ e ∉ a
  isEmpty_iff {a : S} : SetAlgebra.isEmpty a = true ↔ ∀ e, e ∉ a
  containsAll_iff {a b : S} : SetAlgebra.containsAll a b = true ↔ ∀ e, e ∈ b → e ∈ a

/-- The ways in which two sets can overlap. -/
inductive Overlap where
  /-- No symbol is in both. -/
  | disjoint
  /-- The second set is a proper part of the first. -/
  | firstContainsSecond
  /-- The first set is a proper part of the second. -/
  | secondContainsFirst
  /-- The sets are the same, and not empty. -/
  | equal
  /-- The sets share a symbol, and each has one that the other has not. -/
  | crossing
  deriving DecidableEq

namespace SetAlgebra

variable {S : Type u} [SetAlgebra S]

/-- The symbols of `a` that are not in `b`. -/
def difference (a b : S) : S := a ∩ compl b

/-- How two sets overlap. -/
def overlap (a b : S) : Overlap :=
  if isEmpty (a ∩ b) then .disjoint
  else match containsAll a b, containsAll b a with
    | true, true => .equal
    | true, false => .firstContainsSecond
    | false, true => .secondContainsFirst
    | false, false => .crossing

/-- The union of all sets of a list. -/
def unionAll (sets : List S) : S := sets.foldr (· ∪ ·) ∅

/-- The intersection of all sets of a list; of no sets, the full set. -/
def interAll (sets : List S) : S := sets.foldr (· ∩ ·) full

end SetAlgebra

end ExtendedRegex
