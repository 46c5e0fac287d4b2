/-
Comparing terms when their sets need not be comparable.

* `Comparable` is for values of which two may have no order, where `Ord` orders any two;
* `Term.compare?` orders terms as far as their sets are ordered: by kind, then by contents, and then
  by whether they are nullable.

Design notes: terms share their members, and two that are one object are equal without a look at
their contents.  Which ones are is not visible in the values, so it is a parameter.  What a node
keeps is compared after its contents, though equal contents leave nothing to tell apart.
-/
import ExtendedRegex.Alphabet.Letter
import ExtendedRegex.Mask
import ExtendedRegex.RangeSet
import ExtendedRegex.Term.Order

universe u

namespace ExtendedRegex

/-- Values that may be ordered. -/
class Comparable (S : Type u) where
  /-- The order of two values, if they have one. -/
  compare? : S → S → Option Ordering

export Comparable (compare?)

/-- The first answer, or the second one if the first says that there is no difference. -/
@[macro_inline]
def firstDifference (first second : Option Ordering) : Option Ordering :=
  match first with
  | some .eq => second
  | other => other

instance : Comparable Char := ⟨fun c d => some (compare c d)⟩

instance : Comparable UInt8 := ⟨fun m n => some (compare m n)⟩

instance : Comparable Letter := ⟨fun l m => some (compare l m)⟩

instance : Comparable Mask := ⟨fun m n => some (compare m n)⟩

section Lists

variable {α : Type u} [Comparable α]

/-- Orders lists by the first place where they differ; a list comes before its extensions. -/
def compareLists? : List α → List α → Option Ordering
  | [], [] => some .eq
  | [], _ :: _ => some .lt
  | _ :: _, [] => some .gt
  | a :: as, b :: bs => firstDifference (compare? a b) (compareLists? as bs)

instance : Comparable (List α) := ⟨compareLists?⟩

end Lists

section Ranges

variable {α : Type u} [Alphabet α] [Comparable α]

instance : Comparable (Interval α) :=
  ⟨fun i j => firstDifference (compare? i.start j.start) (compare? i.stop j.stop)⟩

instance : Comparable (RangeSet α) := ⟨fun s t => compare? s.ranges t.ranges⟩

end Ranges

namespace Term

variable {S : Type u} [Comparable S]

mutual

/-- Orders terms by kind, by contents and by what their nodes keep, unless they are one object. -/
def compare? (same : Term S → Term S → Bool) (t u : Term S) : Option Ordering :=
  if same t u then some .eq
  else firstDifference
    (match t, u with
    | literal a, literal b => Comparable.compare? a b
    | alt ts, alt us => compareMembers? same ts us
    | seq ts, seq us => compareMembers? same ts us
    | inter ts, inter us => compareMembers? same ts us
    | compl t, compl u => compare? same t u
    | star t, star u => compare? same t u
    | t, u => some (Ord.compare t.kind u.kind))
    (some (Ord.compare t.nullable u.nullable))

def compareMembers? (same : Term S → Term S → Bool) :
    List (Term S) → List (Term S) → Option Ordering
  | [], [] => some .eq
  | [], _ :: _ => some .lt
  | _ :: _, [] => some .gt
  | t :: ts, u :: us => firstDifference (compare? same t u) (compareMembers? same ts us)

end

end Term

end ExtendedRegex
