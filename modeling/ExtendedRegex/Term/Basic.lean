/-
Terms: regular expressions with intersection and complement.

* `Term.nullable` says whether the empty word matches;
* `Term.plain` says that neither an intersection nor a complement occurs;
* `Term.firstBound` has every symbol that a matching word can start with, and
  `Term.firstSet?` gives it for plain terms;
* `Term.emptiness` is a verdict on whether any word matches, as far as the
  shape of the term shows it.

Design notes: alternation, sequence and intersection take a list of members, and
every function on terms comes with a companion on lists of terms, so that both
recurse on the structure.  Members may be shared between many terms, and a term
with shared members can stand for a very large tree.  So every node keeps the
answers of `nullable` and `plain`, and neither walks through the members again.
The constructors do not simplify; `Term.Build` has the functions that make terms
in canonical form, for which `firstSet?` is exact.
-/
import ExtendedRegex.SetAlgebra

universe u

namespace ExtendedRegex

section

variable (S : Type u)

/-- A regular expression whose literals are sets of symbols. -/
inductive Term where
  /-- Matches only the empty word. -/
  | eps
  /-- Matches nothing. -/
  | empty
  /-- Matches every word. -/
  | all
  /-- Matches each symbol of the set, as a word of length one. -/
  | literal (set : S)
  /-- Matches what any member matches. -/
  | alt (members : List Term)
  /-- Matches a concatenation of words that the members match in turn. -/
  | seq (members : List Term)
  /-- Matches what each member matches. -/
  | inter (members : List Term)
  /-- Matches what the other term does not match. -/
  | compl (body : Term)
  /-- Matches any number of words that the other term matches, one after another. -/
  | star (body : Term)
with
  /-- What a node keeps for `Term.nullable`. -/
  @[computed_field] keptNullable : Term S → Bool
    | .eps => true
    | .empty => false
    | .all => true
    | .literal _ => false
    | .alt ts => ts.attach.any fun ⟨t, _⟩ => keptNullable t
    | .seq ts => ts.attach.all fun ⟨t, _⟩ => keptNullable t
    | .inter ts => ts.attach.all fun ⟨t, _⟩ => keptNullable t
    | .compl t => !keptNullable t
    | .star _ => true
  /-- What a node keeps for `Term.plain`. -/
  @[computed_field] keptPlain : Term S → Bool
    | .eps => true
    | .empty => true
    | .all => true
    | .literal _ => true
    | .alt ts => ts.attach.all fun ⟨t, _⟩ => keptPlain t
    | .seq ts => ts.attach.all fun ⟨t, _⟩ => keptPlain t
    | .inter _ => false
    | .compl _ => false
    | .star t => keptPlain t
  /-- A fingerprint of the kinds of all nodes.  Terms with different fingerprints differ. -/
  @[computed_field] shape : Term S → UInt64
    | .eps => 11
    | .empty => 13
    | .all => 17
    | .literal _ => 19
    | .alt ts => ts.attach.foldl (fun h ⟨t, _⟩ => mixHash h (shape t)) 23
    | .seq ts => ts.attach.foldl (fun h ⟨t, _⟩ => mixHash h (shape t)) 29
    | .inter ts => ts.attach.foldl (fun h ⟨t, _⟩ => mixHash h (shape t)) 31
    | .compl t => mixHash 37 (shape t)
    | .star t => mixHash 41 (shape t)
  deriving Inhabited

end

/-- What the shape of a term shows about the words that match it. -/
inductive Emptiness where
  /-- No word matches. -/
  | empty
  /-- Some word matches. -/
  | inhabited
  /-- The shape does not show it. -/
  | unknown
  deriving DecidableEq

namespace Term

variable {S : Type u}

def isEps : Term S → Bool
  | eps => true
  | _ => false

def isEmpty : Term S → Bool
  | empty => true
  | _ => false

def isAll : Term S → Bool
  | all => true
  | _ => false

/-- The set of a literal. -/
def literal? : Term S → Option S
  | literal set => some set
  | _ => none

/-- Whether the empty word matches. -/
def nullable (t : Term S) : Bool := keptNullable S t

@[simp] theorem nullable_eps : (eps : Term S).nullable = true := by simp [nullable, keptNullable]

@[simp] theorem nullable_empty : (empty : Term S).nullable = false := by
  simp [nullable, keptNullable]

@[simp] theorem nullable_all : (all : Term S).nullable = true := by simp [nullable, keptNullable]

@[simp] theorem nullable_literal {set : S} : (literal set).nullable = false := by
  simp [nullable, keptNullable]

@[simp] theorem nullable_alt {ts : List (Term S)} : (alt ts).nullable = ts.any nullable := by
  rw [nullable, keptNullable]
  simp only [List.any_subtype, List.unattach_attach]
  rfl

@[simp] theorem nullable_seq {ts : List (Term S)} : (seq ts).nullable = ts.all nullable := by
  rw [nullable, keptNullable]
  simp only [List.all_subtype, List.unattach_attach]
  rfl

@[simp] theorem nullable_inter {ts : List (Term S)} : (inter ts).nullable = ts.all nullable := by
  rw [nullable, keptNullable]
  simp only [List.all_subtype, List.unattach_attach]
  rfl

@[simp] theorem nullable_compl {t : Term S} : (compl t).nullable = !t.nullable := by
  simp [nullable, keptNullable]

@[simp] theorem nullable_star {t : Term S} : (star t).nullable = true := by
  simp [nullable, keptNullable]

/-- Whether neither an intersection nor a complement occurs in the term. -/
def plain (t : Term S) : Bool := keptPlain S t

@[simp] theorem plain_eps : (eps : Term S).plain = true := by simp [plain, keptPlain]

@[simp] theorem plain_empty : (empty : Term S).plain = true := by simp [plain, keptPlain]

@[simp] theorem plain_all : (all : Term S).plain = true := by simp [plain, keptPlain]

@[simp] theorem plain_literal {set : S} : (literal set).plain = true := by
  simp [plain, keptPlain]

@[simp] theorem plain_alt {ts : List (Term S)} : (alt ts).plain = ts.all plain := by
  rw [plain, keptPlain]
  simp only [List.all_subtype, List.unattach_attach]
  rfl

@[simp] theorem plain_seq {ts : List (Term S)} : (seq ts).plain = ts.all plain := by
  rw [plain, keptPlain]
  simp only [List.all_subtype, List.unattach_attach]
  rfl

@[simp] theorem plain_inter {ts : List (Term S)} : (inter ts).plain = false := by
  simp [plain, keptPlain]

@[simp] theorem plain_compl {t : Term S} : (compl t).plain = false := by simp [plain, keptPlain]

@[simp] theorem plain_star {t : Term S} : (star t).plain = t.plain := by simp [plain, keptPlain]

section First

variable [SetAlgebra S]

mutual

/-- A set with every symbol that a matching word can start with.  Nothing is said of the words that
match an intersection or a complement. -/
def firstBound : Term S → S
  | eps => ∅
  | empty => ∅
  | all => SetAlgebra.full
  | literal set => set
  | alt ts => firstBoundAlt ts
  | seq ts => firstBoundSeq ts
  | inter _ => SetAlgebra.full
  | compl _ => SetAlgebra.full
  | star t => firstBound t

/-- The first symbols of an alternation are those of all members. -/
def firstBoundAlt : List (Term S) → S
  | [] => ∅
  | t :: ts => firstBound t ∪ firstBoundAlt ts

/-- The first symbols of a sequence are those of its members up to the first one that is not
nullable. -/
def firstBoundSeq : List (Term S) → S
  | [] => ∅
  | t :: ts => if nullable t then firstBound t ∪ firstBoundSeq ts else firstBound t

end

/-- The symbols that a matching word can start with, if the term is plain. -/
def firstSet? (t : Term S) : Option S := if t.plain then some t.firstBound else none

/-- Whether any word matches, as far as the shape of the term shows it. -/
def emptiness (t : Term S) : Emptiness :=
  if t.isEmpty then .empty
  else if t.nullable then .inhabited
  else match t.firstSet? with
    | none => .unknown
    | some first => if SetAlgebra.isEmpty first then .empty else .inhabited

end First

end Term

end ExtendedRegex
