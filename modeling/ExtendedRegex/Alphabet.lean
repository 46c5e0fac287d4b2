/-
Ordered alphabets: the symbols that words are made of.

An alphabet is linearly ordered, has a first and a last symbol, and every other
symbol has an immediate neighbour on each side.  That is all a set of symbols
needs to be stored as a list of intervals and still have a complement.

* `LawfulAlphabet` states the laws: `next?` and `prev?` are the immediate
  successor and predecessor, and they fail only at the two ends;
* `Char`, `UInt8` and the five letters of `Letter` are lawful alphabets.

Design notes: the laws are stated through the order alone (a symbol above `a` is
at least the successor of `a`), so nothing depends on how symbols are numbered,
and the gap in the middle of `Char` needs no mention outside its own instance.
-/
universe u

namespace ExtendedRegex

/-- An ordered set of symbols with two ends and steps to the neighbours. -/
class Alphabet (α : Type u) extends LE α, LT α, Ord α where
  /-- The least symbol. -/
  first : α
  /-- The greatest symbol. -/
  last : α
  /-- The next greater symbol, if there is one. -/
  next? : α → Option α
  /-- The next smaller symbol, if there is one. -/
  prev? : α → Option α
  [decidableEq : DecidableEq α]
  [decidableLE : DecidableLE α]
  [decidableLT : DecidableLT α]

attribute [reducible, instance] Alphabet.decidableEq Alphabet.decidableLE Alphabet.decidableLT

export Alphabet (next? prev?)

/-- The order is linear, `first` and `last` are its ends, and `next?` and `prev?` step to the
immediate neighbour. -/
class LawfulAlphabet (α : Type u) [Alphabet α] : Prop extends
    Std.IsLinearOrder α, Std.LawfulOrderLT α, Std.TransOrd α, Std.LawfulEqOrd α where
  first_le (a : α) : Alphabet.first ≤ a
  le_last (a : α) : a ≤ Alphabet.last
  lt_iff_of_next? {a b : α} (h : next? a = some b) (c : α) : a < c ↔ b ≤ c
  eq_last_of_next? {a : α} (h : next? a = none) : a = Alphabet.last
  lt_iff_of_prev? {a b : α} (h : prev? a = some b) (c : α) : c < a ↔ c ≤ b
  eq_first_of_prev? {a : α} (h : prev? a = none) : a = Alphabet.first

namespace Alphabet

variable {α : Type u} [Alphabet α]

/-- The later of two symbols. -/
def later (a b : α) : α := if a ≤ b then b else a

/-- The earlier of two symbols. -/
def earlier (a b : α) : α := if a ≤ b then a else b

end Alphabet

section Laws

variable {α : Type u} [Alphabet α] [LawfulAlphabet α] {a b : α}

theorem lt_of_next? (h : next? a = some b) : a < b :=
  (LawfulAlphabet.lt_iff_of_next? h b).2 (Std.IsPreorder.le_refl b)

theorem lt_of_prev? (h : prev? a = some b) : b < a :=
  (LawfulAlphabet.lt_iff_of_prev? h b).2 (Std.IsPreorder.le_refl b)

/-- Only the last symbol has no symbol above it. -/
theorem not_lt_of_next? (h : next? a = none) (c : α) : ¬ a < c := by
  have := LawfulAlphabet.le_last c
  have := LawfulAlphabet.eq_last_of_next? h
  grind

/-- Only the first symbol has no symbol below it. -/
theorem not_lt_of_prev? (h : prev? a = none) (c : α) : ¬ c < a := by
  have := LawfulAlphabet.first_le c
  have := LawfulAlphabet.eq_first_of_prev? h
  grind

theorem Alphabet.later_le {c : α} : later a b ≤ c ↔ a ≤ c ∧ b ≤ c := by
  unfold later
  split <;> grind

theorem Alphabet.le_later {c : α} : c ≤ later a b ↔ c ≤ a ∨ c ≤ b := by
  unfold later
  split <;> grind

theorem Alphabet.le_earlier {c : α} : c ≤ earlier a b ↔ c ≤ a ∧ c ≤ b := by
  unfold earlier
  split <;> grind

end Laws

/-! ### Bytes -/

instance : Alphabet UInt8 where
  first := 0
  last := 255
  next? a := if a = 255 then none else some (a + 1)
  prev? a := if a = 0 then none else some (a - 1)

instance : LawfulAlphabet UInt8 where
  first_le a := by simp [Alphabet.first, UInt8.le_iff_toNat_le]
  le_last a := by
    have := a.toNat_lt
    simp [Alphabet.last, UInt8.le_iff_toNat_le]
    omega
  lt_iff_of_next? {a b} h c := by
    simp [next?] at h
    obtain ⟨ha, rfl⟩ := h
    have := a.toNat_lt
    have : a.toNat ≠ 255 := fun h => ha (UInt8.toNat_inj.1 h)
    simp [UInt8.le_iff_toNat_le, UInt8.lt_iff_toNat_lt, UInt8.toNat_add]
    omega
  eq_last_of_next? h := by simpa [next?, Alphabet.last] using h
  lt_iff_of_prev? {a b} h c := by
    simp [prev?] at h
    obtain ⟨ha, rfl⟩ := h
    have := a.toNat_lt
    have : a.toNat ≠ 0 := fun h => ha (UInt8.toNat_inj.1 h)
    simp [UInt8.le_iff_toNat_le, UInt8.lt_iff_toNat_lt, UInt8.toNat_sub]
    omega
  eq_first_of_prev? h := by simpa [prev?, Alphabet.first] using h

/-! ### Characters

The code points from U+D800 to U+DFFF are no characters, so U+D7FF and U+E000 are neighbours. -/

instance : Alphabet Char where
  first := '\u0000'
  last := Char.ofNat 0x10ffff
  next? c :=
    if c.toNat = 0x10ffff then none
    else if c.toNat = 0xd7ff then some (Char.ofNat 0xe000)
    else some (Char.ofNat (c.toNat + 1))
  prev? c :=
    if c.toNat = 0 then none
    else if c.toNat = 0xe000 then some (Char.ofNat 0xd7ff)
    else some (Char.ofNat (c.toNat - 1))

section Characters

theorem toNat_ofNat_of_valid {n : Nat} (h : n.isValidChar) : (Char.ofNat n).toNat = n := by
  rw [Char.ofNat, dif_pos h]
  rfl

theorem char_le_iff (a b : Char) : a ≤ b ↔ a.toNat ≤ b.toNat := Iff.rfl

theorem char_lt_iff (a b : Char) : a < b ↔ a.toNat < b.toNat := Iff.rfl

theorem toNat_valid (c : Char) : c.toNat.isValidChar := c.valid

instance : LawfulAlphabet Char where
  first_le a := by simp [char_le_iff, Alphabet.first]
  le_last a := by
    have := toNat_valid a
    have : (Char.ofNat 0x10ffff).toNat = 0x10ffff := rfl
    simp only [Nat.isValidChar, char_le_iff, Alphabet.last] at *
    omega
  lt_iff_of_next? {a b} h c := by
    have ha := toNat_valid a
    have hc := toNat_valid c
    simp only [next?] at h
    split at h
    · contradiction
    · split at h <;> obtain rfl := Option.some.inj h
      · have : (Char.ofNat 0xe000).toNat = 0xe000 := rfl
        simp only [Nat.isValidChar, char_le_iff, char_lt_iff] at *
        omega
      · have : (Char.ofNat (a.toNat + 1)).toNat = a.toNat + 1 :=
          toNat_ofNat_of_valid (by simp only [Nat.isValidChar] at *; omega)
        simp only [char_le_iff, char_lt_iff]
        omega
  eq_last_of_next? {a} h := by
    simp only [next?] at h
    split at h
    · exact Char.toNat_inj.1 (by simpa [Alphabet.last] using ‹_›)
    · split at h <;> contradiction
  lt_iff_of_prev? {a b} h c := by
    have ha := toNat_valid a
    have hc := toNat_valid c
    simp only [prev?] at h
    split at h
    · contradiction
    · split at h <;> obtain rfl := Option.some.inj h
      · have : (Char.ofNat 0xd7ff).toNat = 0xd7ff := rfl
        simp only [Nat.isValidChar, char_le_iff, char_lt_iff] at *
        omega
      · have : (Char.ofNat (a.toNat - 1)).toNat = a.toNat - 1 :=
          toNat_ofNat_of_valid (by simp only [Nat.isValidChar] at *; omega)
        simp only [char_le_iff, char_lt_iff]
        omega
  eq_first_of_prev? {a} h := by
    simp only [prev?] at h
    split at h
    · exact Char.toNat_inj.1 (by simpa [Alphabet.first] using ‹_›)
    · split at h <;> contradiction

end Characters

end ExtendedRegex
