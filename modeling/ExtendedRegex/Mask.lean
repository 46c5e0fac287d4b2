/-
Subsets of eight symbols as masks of eight bits.

* symbol `i` is in a mask when bit `i` is set;
* masks form a lawful set algebra, with the default test for inclusion;
* a word over masks is a list of masks, so what is read at one place may be
  more than one symbol.
-/
import ExtendedRegex.SetAlgebra

namespace ExtendedRegex

/-- A set of the symbols 0 to 7. -/
structure Mask where
  bits : BitVec 8
  deriving DecidableEq, Hashable

namespace Mask

/-- The mask with this number, if there is one. -/
def ofNat? (n : Nat) : Option Mask := if n < 256 then some ⟨BitVec.ofNat 8 n⟩ else none

/-- The number whose binary digits are the bits. -/
def toNat (m : Mask) : Nat := m.bits.toNat

instance : Membership (Fin 8) Mask := ⟨fun m i => m.bits[i] = true⟩

theorem mem_iff {m : Mask} {i : Fin 8} : i ∈ m ↔ m.bits[i] = true := Iff.rfl

/-- The mask of a single symbol. -/
def single (i : Fin 8) : Mask := ⟨1#8 <<< i.val⟩

@[simp] theorem mem_single {i j : Fin 8} : i ∈ single j ↔ i = j := by
  simp only [mem_iff, single]
  revert i j
  decide

/-- Masks are ordered by their numbers. -/
instance : Ord Mask := ⟨compareOn toNat⟩

theorem toNat_injective {m n : Mask} (h : m.toNat = n.toNat) : m = n := by
  cases m; cases n; exact congrArg Mask.mk (BitVec.eq_of_toNat_eq h)

instance : Std.TransOrd Mask := inferInstanceAs (Std.TransCmp (compareOn toNat))

instance : Std.LawfulEqOrd Mask where
  compare_self {m} := by
    show compare m.toNat m.toNat = .eq
    exact Std.ReflCmp.compare_self
  eq_of_compare {m n} h := by
    have h : compare m.toNat n.toNat = .eq := h
    exact toNat_injective (Std.LawfulEqOrd.eq_of_compare h)

instance : SetAlgebra Mask where
  emptyCollection := ⟨0⟩
  union m n := ⟨m.bits ||| n.bits⟩
  inter m n := ⟨m.bits &&& n.bits⟩
  full := ⟨BitVec.allOnes 8⟩
  compl m := ⟨~~~m.bits⟩
  isEmpty m := m.bits == 0

theorem ext {m n : Mask} (h : ∀ i : Fin 8, i ∈ m ↔ i ∈ n) : m = n := by
  cases m; cases n
  refine congrArg Mask.mk (BitVec.eq_of_getElem_eq fun i hi => ?_)
  exact Bool.eq_iff_iff.2 (h ⟨i, hi⟩)

theorem mem_inter {m n : Mask} {i : Fin 8} : i ∈ m ∩ n ↔ i ∈ m ∧ i ∈ n := by
  simp [mem_iff, Inter.inter]

theorem mem_compl {m : Mask} {i : Fin 8} : i ∈ SetAlgebra.compl m ↔ i ∉ m := by
  simp [mem_iff, SetAlgebra.compl]

theorem isEmpty_iff {m : Mask} : SetAlgebra.isEmpty m = true ↔ ∀ i, i ∉ m := by
  simp only [SetAlgebra.isEmpty, beq_iff_eq, mem_iff]
  constructor
  · intro h i
    simp [h]
  · exact fun h => BitVec.eq_of_getElem_eq fun i hi => by simpa using h ⟨i, hi⟩

instance : LawfulSetAlgebra Mask (Fin 8) where
  nonempty := ⟨0⟩
  ext := ext
  not_mem_empty i := by simp [mem_iff, EmptyCollection.emptyCollection]
  mem_full i := by simp only [mem_iff]; revert i; decide
  mem_union := by simp [mem_iff, Union.union]
  mem_inter := mem_inter
  mem_compl := mem_compl
  isEmpty_iff := isEmpty_iff
  containsAll_iff {m n} := by
    show SetAlgebra.isEmpty (n ∩ SetAlgebra.compl m) = true ↔ _
    simp [isEmpty_iff, mem_inter, mem_compl]

end Mask

end ExtendedRegex
