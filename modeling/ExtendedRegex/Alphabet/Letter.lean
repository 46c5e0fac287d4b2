/-
The alphabet of five letters, the smallest one on which all the ways in which
two sets can overlap occur.

* `Letter.ofNat?` and `Letter.index` number the letters from 0 to 4;
* the order is the order of the numbers, and it is lawful.
-/
import ExtendedRegex.Alphabet

namespace ExtendedRegex

/-- One of the letters A to E. -/
inductive Letter where
  | a | b | c | d | e
  deriving DecidableEq, Hashable

namespace Letter

/-- The place of a letter, counted from 0. -/
def index : Letter → Nat
  | a => 0
  | b => 1
  | c => 2
  | d => 3
  | e => 4

/-- The letter at a place. -/
def ofNat? : Nat → Option Letter
  | 0 => some a
  | 1 => some b
  | 2 => some c
  | 3 => some d
  | 4 => some e
  | _ => none

@[simp] theorem ofNat?_index (l : Letter) : ofNat? l.index = some l := by
  cases l <;> rfl

theorem index_injective {l m : Letter} (h : l.index = m.index) : l = m :=
  Option.some.inj (by rw [← ofNat?_index l, h, ofNat?_index])

theorem index_ofNat? {n : Nat} {l : Letter} (h : ofNat? n = some l) : l.index = n := by
  unfold ofNat? at h
  split at h <;> first | contradiction | (obtain rfl := Option.some.inj h; rfl)

theorem index_lt_five (l : Letter) : l.index < 5 := by
  cases l <;> decide

instance : LE Letter := ⟨fun l m => l.index ≤ m.index⟩

instance : LT Letter := ⟨fun l m => l.index < m.index⟩

instance : Ord Letter := ⟨fun l m => compare l.index m.index⟩

instance : DecidableLE Letter := fun l m => inferInstanceAs (Decidable (l.index ≤ m.index))

instance : DecidableLT Letter := fun l m => inferInstanceAs (Decidable (l.index < m.index))

theorem le_iff {l m : Letter} : l ≤ m ↔ l.index ≤ m.index := Iff.rfl

theorem lt_iff {l m : Letter} : l < m ↔ l.index < m.index := Iff.rfl

theorem compare_eq {l m : Letter} : compare l m = compare l.index m.index := rfl

instance : Alphabet Letter where
  first := a
  last := e
  next? l := ofNat? (l.index + 1)
  prev? l := if l.index = 0 then none else ofNat? (l.index - 1)

instance : LawfulAlphabet Letter where
  le_refl l := Nat.le_refl l.index
  le_trans _ _ _ := Nat.le_trans
  le_antisymm _ _ h h' := index_injective (Nat.le_antisymm h h')
  le_total l m := Nat.le_total l.index m.index
  lt_iff l m := by simp only [lt_iff, le_iff]; omega
  eq_swap {l m} := by simp only [compare_eq]; exact Std.OrientedOrd.eq_swap
  isLE_trans {l m n} := by simp only [compare_eq]; exact Std.TransOrd.isLE_trans
  compare_self {l} := by simp only [compare_eq]; exact Std.ReflCmp.compare_self
  eq_of_compare {l m} h := index_injective (Std.LawfulEqOrd.eq_of_compare h)
  first_le l := Nat.zero_le l.index
  le_last l := Nat.le_of_lt_succ (index_lt_five l)
  lt_iff_of_next? {l m} h n := by
    have := index_ofNat? h
    simp only [lt_iff, le_iff]
    omega
  eq_last_of_next? {l} h := by cases l <;> first | rfl | contradiction
  lt_iff_of_prev? {l m} h n := by
    simp only [prev?] at h
    split at h
    · contradiction
    · have := index_ofNat? h
      simp only [lt_iff, le_iff]
      omega
  eq_first_of_prev? {l} h := by cases l <;> first | rfl | contradiction

end Letter

end ExtendedRegex
