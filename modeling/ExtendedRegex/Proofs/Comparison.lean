/-
Terms are ordered totally, whichever of the two comparisons is asked.

* `LawfulComparable`: values that are ordered in full, and as `Ord` orders them;
* `compare?_eq`: terms over such sets are such values, whichever of them are one object;
* `TotallyOrdered`, `totallyOrdered_sets`: what the order of terms is like over range sets and masks.

Design notes: the two comparisons of a node differ from `Term.compare` in that they do not skip equal
members, and go on to what the node keeps.  Once comparison agrees with equality, neither matters.
-/
import ExtendedRegex.Proofs.Order
import ExtendedRegex.Term.Comparison

universe u

namespace ExtendedRegex

/-- Any two values are ordered, and as they are by `Ord`. -/
class LawfulComparable (S : Type u) [Comparable S] [Ord S] : Prop where
  compare?_eq (a b : S) : compare? a b = some (compare a b)

export LawfulComparable (compare?_eq)

theorem firstDifference_some (first second : Ordering) :
    firstDifference (some first) (some second) = some (first.then second) := by
  cases first <;> rfl

/-! ### Sets of symbols -/

instance : LawfulComparable Char := ⟨fun _ _ => rfl⟩

instance : LawfulComparable UInt8 := ⟨fun _ _ => rfl⟩

instance : LawfulComparable Letter := ⟨fun _ _ => rfl⟩

instance : LawfulComparable Mask := ⟨fun _ _ => rfl⟩

theorem compareLists?_eq {α : Type u} [Comparable α] [Ord α] [LawfulComparable α] (as bs : List α) :
    compareLists? as bs = some (compare as bs) := by
  induction as generalizing bs with
  | nil => cases bs <;> rfl
  | cons a as ih =>
    cases bs with
    | nil => rfl
    | cons b bs =>
      rw [compareLists?, compare?_eq, ih, firstDifference_some, List.compare_cons_cons]

instance {α : Type u} [Comparable α] [Ord α] [LawfulComparable α] : LawfulComparable (List α) :=
  ⟨compareLists?_eq⟩

section Ranges

variable {α : Type u} [Alphabet α] [Comparable α] [LawfulComparable α]

instance : LawfulComparable (Interval α) where
  compare?_eq i j := by
    show firstDifference (compare? i.start j.start) (compare? i.stop j.stop) = _
    rw [compare?_eq, compare?_eq, firstDifference_some]
    rfl

instance : LawfulComparable (RangeSet α) := ⟨fun s t => compare?_eq s.ranges t.ranges⟩

end Ranges

/-! ### Terms -/

namespace Term

variable {S : Type u} [Ord S] [DecidableEq S]

section Laws

variable [Std.LawfulEqOrd S] {t u : Term S} {ts us : List (Term S)}
  {same : Term S → Term S → Bool}

/-- Members that are equal may be compared instead of skipped. -/
theorem compareList_eq_compareLex : compareList ts us = List.compareLex compare ts us := by
  induction ts generalizing us with
  | nil => cases us <;> rfl
  | cons t ts ih =>
    cases us with
    | nil => rfl
    | cons u us =>
      rw [List.compareLex_cons_cons, ← ih]
      by_cases htu : t = u
      · have hself : compare u u = .eq := compare_eq_iff.mpr rfl
        rw [htu, compareList_cons_self, hself, Ordering.then]
      · exact compareList_cons_of_ne htu

/-- What the nodes keep does not tell apart terms that are equal otherwise. -/
theorem compare_then_nullable :
    (compare t u).then (Ord.compare t.nullable u.nullable) = compare t u := by
  cases h : compare t u with
  | lt => rfl
  | gt => rfl
  | eq =>
    have hself : Ord.compare u.nullable u.nullable = .eq := Std.ReflCmp.compare_self
    rw [compare_eq_iff.mp h, hself, Ordering.then]

/-- It is enough to compare the contents of two terms. -/
theorem compare_of_contents {contents : Option Ordering} (hsame : same t u = true → t = u)
    (h : contents = some (compare t u)) :
    (if same t u = true then some .eq
      else firstDifference contents (some (Ord.compare t.nullable u.nullable))) =
      some (compare t u) := by
  split
  · rw [compare_eq_iff.mpr (hsame ‹_›)]
  · rw [h, firstDifference_some, compare_then_nullable]

variable [Comparable S]

theorem compareMembers?_eq (h : ∀ t ∈ ts, ∀ u, compare? same t u = some (compare t u)) :
    compareMembers? same ts us = some (compareList ts us) := by
  rw [compareList_eq_compareLex]
  induction ts generalizing us with
  | nil => cases us <;> rfl
  | cons t ts ih =>
    cases us with
    | nil => rfl
    | cons u us =>
      have iht := h t (List.mem_cons_self ..) u
      have ihts := @ih us fun t ht => h t (List.mem_cons_of_mem _ ht)
      rw [compareMembers?, iht, ihts, firstDifference_some, List.compareLex_cons_cons]

variable [LawfulComparable S]

/-- Any two terms are ordered, and as they are by `compare`. -/
theorem compare?_eq (hsame : ∀ t u, same t u = true → t = u) :
    compare? same t u = some (compare t u) := by
  -- `same` and the flags are dealt with at each node; what is left are the contents.
  induction t, u using kindInduction with
  | unlike t u hkind =>
    rw [compare?.eq_def]
    refine compare_of_contents (hsame t u) ?_
    rw [compare_of_kind_ne hkind]
    split <;> first | rfl | exact absurd rfl hkind
  | eps =>
    rw [compare?.eq_def]
    exact compare_of_contents (hsame _ _) rfl
  | empty =>
    rw [compare?.eq_def]
    exact compare_of_contents (hsame _ _) rfl
  | all =>
    rw [compare?.eq_def]
    exact compare_of_contents (hsame _ _) rfl
  | literal a b =>
    rw [compare?.eq_def]
    exact compare_of_contents (hsame _ _) (LawfulComparable.compare?_eq a b)
  | alt ts us ih =>
    rw [compare?.eq_def]
    exact compare_of_contents (hsame _ _) (compareMembers?_eq ih)
  | seq ts us ih =>
    rw [compare?.eq_def]
    exact compare_of_contents (hsame _ _) (compareMembers?_eq ih)
  | inter ts us ih =>
    rw [compare?.eq_def]
    exact compare_of_contents (hsame _ _) (compareMembers?_eq ih)
  | compl t u ih =>
    rw [compare?.eq_def]
    exact compare_of_contents (hsame _ _) ih
  | star t u ih =>
    rw [compare?.eq_def]
    exact compare_of_contents (hsame _ _) ih

end Laws

/-- What the order of terms over some sets is like. -/
structure TotallyOrdered (S : Type u) [Ord S] [DecidableEq S] [Comparable S] : Prop where
  refl (t : Term S) : compare t t = .eq
  antisymm (t u : Term S) : (compare t u).isLE = true → (compare u t).isLE = true → t = u
  trans (t u v : Term S) :
    (compare t u).isLE = true → (compare u v).isLE = true → (compare t v).isLE = true
  swap (t u : Term S) : compare u t = (compare t u).swap
  eq_iff (t u : Term S) : compare t u = .eq ↔ t = u
  /-- Members are compared in turn. -/
  members (ts us : List (Term S)) : compareList ts us = List.compareLex compare ts us
  /-- What the nodes keep may be compared too. -/
  flag (t u : Term S) : (compare t u).then (Ord.compare t.nullable u.nullable) = compare t u
  /-- Any two terms are ordered, whichever of them are found to be one object. -/
  comparable (same : Term S → Term S → Bool) (h : ∀ t u, same t u = true → t = u) (t u : Term S) :
    compare? same t u = some (compare t u)

theorem totallyOrdered [Std.TransOrd S] [Std.LawfulEqOrd S] [Comparable S] [LawfulComparable S] :
    TotallyOrdered S where
  refl _ := compare_eq_iff.mpr rfl
  antisymm t u htu hut := by
    have heq : Ord.compare t u = .eq := Std.OrientedCmp.isLE_antisymm htu hut
    exact compare_eq_iff.mp heq
  trans t u v htu huv := by
    have htu : (Ord.compare t u).isLE = true := htu
    exact Std.TransOrd.isLE_trans htu huv
  swap _ _ := compare_swap
  eq_iff _ _ := compare_eq_iff
  members _ _ := compareList_eq_compareLex
  flag _ _ := compare_then_nullable
  comparable _ h _ _ := compare?_eq h

/-- **The order of terms is total.**  Over range sets of any alphabet and over masks, `compare` is a
linear order that agrees with equality, and `compare?` gives the same answers. -/
theorem totallyOrdered_sets (α : Type u) [Alphabet α] [LawfulAlphabet α] [Comparable α]
    [LawfulComparable α] : TotallyOrdered (RangeSet α) ∧ TotallyOrdered Mask :=
  ⟨totallyOrdered, totallyOrdered⟩

/-- Over characters, a negation comes before a closure, also if no two terms are one object. -/
theorem totallyOrdered_sets_char :
    (TotallyOrdered (RangeSet Char) ∧ TotallyOrdered Mask) ∧
      compare? (fun _ _ => false) (compl all) (star eps : Term (RangeSet Char)) = some .lt := by
  have h := totallyOrdered_sets Char
  exact ⟨h, h.1.comparable (fun _ _ => false) (fun _ _ => nofun) (compl all) (star eps)⟩

end Term

end ExtendedRegex
