/-
Equality, order and hashing of terms.

* terms have decidable equality;
* `Term.compare` orders terms by kind and then by contents, with members
  compared as in a dictionary.

Design notes: alternations and intersections list their members in this order,
so the order is visible in every canonical term.  Terms often share members, so
two terms or lists that are one object in memory are equal at once; in a
dictionary, members that are equal are skipped before any are compared.
-/
import ExtendedRegex.Term.Basic

universe u

namespace ExtendedRegex.Term

variable {S : Type u}

section Equality

variable [DecidableEq S]

mutual

/-- Decides equality by kind and then by contents. -/
def decEq (t u : Term S) : Decidable (t = u) :=
  withPtrEqDecEq t u fun _ =>
    if h : shape S t ≠ shape S u then isFalse fun htu => h (congrArg _ htu)
    else match t with
    | eps => match u with
      | eps => isTrue rfl
      | empty | all | literal _ | alt _ | seq _ | inter _ | compl _ | star _ => isFalse nofun
    | empty => match u with
      | empty => isTrue rfl
      | eps | all | literal _ | alt _ | seq _ | inter _ | compl _ | star _ => isFalse nofun
    | all => match u with
      | all => isTrue rfl
      | eps | empty | literal _ | alt _ | seq _ | inter _ | compl _ | star _ => isFalse nofun
    | literal a => match u with
      | literal b => decidable_of_iff (a = b) ⟨congrArg _, literal.inj⟩
      | eps | empty | all | alt _ | seq _ | inter _ | compl _ | star _ => isFalse nofun
    | alt ts => match u with
      | alt us => @decidable_of_iff _ (ts = us) ⟨congrArg _, alt.inj⟩ (decEqList ts us)
      | eps | empty | all | literal _ | seq _ | inter _ | compl _ | star _ => isFalse nofun
    | seq ts => match u with
      | seq us => @decidable_of_iff _ (ts = us) ⟨congrArg _, seq.inj⟩ (decEqList ts us)
      | eps | empty | all | literal _ | alt _ | inter _ | compl _ | star _ => isFalse nofun
    | inter ts => match u with
      | inter us => @decidable_of_iff _ (ts = us) ⟨congrArg _, inter.inj⟩ (decEqList ts us)
      | eps | empty | all | literal _ | alt _ | seq _ | compl _ | star _ => isFalse nofun
    | compl t => match u with
      | compl u => @decidable_of_iff _ (t = u) ⟨congrArg _, compl.inj⟩ (decEq t u)
      | eps | empty | all | literal _ | alt _ | seq _ | inter _ | star _ => isFalse nofun
    | star t => match u with
      | star u => @decidable_of_iff _ (t = u) ⟨congrArg _, star.inj⟩ (decEq t u)
      | eps | empty | all | literal _ | alt _ | seq _ | inter _ | compl _ => isFalse nofun

def decEqList (ts us : List (Term S)) : Decidable (ts = us) :=
  withPtrEqDecEq ts us fun _ =>
    match ts, us with
    | [], [] => isTrue rfl
    | [], _ :: _ => isFalse nofun
    | _ :: _, [] => isFalse nofun
    | t :: ts, u :: us =>
      match decEq t u with
      | isFalse h => isFalse fun h' => h (List.cons.inj h').1
      | isTrue h => @decidable_of_iff _ (ts = us) (by simp [h]) (decEqList ts us)

end

instance : DecidableEq (Term S) := decEq

end Equality

section Hash

variable [Hashable S]

mutual

def hash : Term S → UInt64
  | eps => 11
  | empty => 13
  | all => 17
  | literal set => mixHash 19 (Hashable.hash set)
  | alt ts => hashList 23 ts
  | seq ts => hashList 29 ts
  | inter ts => hashList 31 ts
  | compl t => mixHash 37 (hash t)
  | star t => mixHash 41 (hash t)

def hashList (seed : UInt64) : List (Term S) → UInt64
  | [] => seed
  | t :: ts => hashList (mixHash seed (hash t)) ts

end

instance : Hashable (Term S) := ⟨hash⟩

end Hash

/-- The place of a kind of term in the order of kinds. -/
def kind : Term S → Nat
  | eps => 0
  | empty => 1
  | all => 2
  | literal _ => 3
  | alt _ => 4
  | seq _ => 5
  | inter _ => 6
  | compl _ => 7
  | star _ => 8

variable [Ord S] [DecidableEq S]

mutual

/-- Orders terms by kind, and terms of one kind by their contents. -/
def compare : Term S → Term S → Ordering
  | literal a, literal b => Ord.compare a b
  | alt ts, alt us => compareList ts us
  | seq ts, seq us => compareList ts us
  | inter ts, inter us => compareList ts us
  | compl t, compl u => compare t u
  | star t, star u => compare t u
  | t, u => Ord.compare t.kind u.kind

/-- Orders lists of terms by the first place where they differ; a list comes before its extensions.
-/
def compareList : List (Term S) → List (Term S) → Ordering
  | [], [] => .eq
  | [], _ :: _ => .lt
  | _ :: _, [] => .gt
  | t :: ts, u :: us =>
    if t = u then compareList ts us else (compare t u).then (compareList ts us)

end

instance : Ord (Term S) := ⟨compare⟩

end ExtendedRegex.Term
