/-
How two sets of symbols overlap, and when one is part of the other.

* `Overlap.Describes`: what each way to overlap says of the symbols;
* `SetAlgebra.containsAll_eq_isEmpty`: whatever test for inclusion an algebra has, it answers as the
  one that looks for a symbol outside;
* `SetAlgebra.overlap_eq_iff`: how two sets overlap is told as it is;
* `RangeSet.overlap_of_elements`: both for range sets, whose test for inclusion is about the common
  symbols;
* `RangeSet.overlap_single_empty`: the set without symbols is a proper part of a set, but disjoint
  from it.

Design notes: all of this holds in every lawful algebra.  Whether two sets are disjoint is asked
first, and so the other four ways are about sets with a common symbol; among these, it is the
inclusions in the two directions that tell them apart.
-/
import ExtendedRegex.Alphabet.Letter
import ExtendedRegex.RangeSet
import Mathlib.Data.Set.Lattice
import Mathlib.Order.CompletePartialOrder

universe u v

namespace ExtendedRegex

/-! ### What each way says -/

namespace Overlap

variable {E : Type v} {A B : Set E} {o : Overlap}

/-- What a way to overlap says of the symbols of the two sets. -/
def Describes (A B : Set E) : Overlap → Prop
  | disjoint => Disjoint A B
  | equal => A = B ∧ A.Nonempty
  | firstContainsSecond => B ⊂ A ∧ B.Nonempty
  | secondContainsFirst => A ⊂ B ∧ A.Nonempty
  | crossing => (A ∩ B).Nonempty ∧ ¬ A ⊆ B ∧ ¬ B ⊆ A

/-- A set has a symbol in common with a part of it, unless the part has none. -/
theorem not_disjoint_of_subset (h : A ⊆ B) : ¬ Disjoint A B ↔ A.Nonempty := by
  rw [Set.not_disjoint_iff_nonempty_inter, Set.inter_eq_self_of_subset_left h]

/-- Sets with a common symbol are told apart by the inclusions in the two directions. -/
theorem describes_iff (ho : o ≠ disjoint) : o.Describes A B ↔
    ¬ Disjoint A B ∧ (B ⊆ A ↔ o = equal ∨ o = firstContainsSecond) ∧
      (A ⊆ B ↔ o = equal ∨ o = secondContainsFirst) := by
  cases o with
  | disjoint => contradiction
  | equal =>
    simp only [Describes, true_or, iff_true]
    constructor
    · rintro ⟨rfl, h⟩
      exact ⟨(not_disjoint_of_subset subset_rfl).mpr h, subset_rfl, subset_rfl⟩
    · rintro ⟨h, hba, hab⟩
      exact ⟨hab.antisymm hba, (not_disjoint_of_subset hab).mp h⟩
  | firstContainsSecond =>
    simp only [Describes, reduceCtorEq, or_true, or_false, iff_true, iff_false]
    constructor
    · rintro ⟨⟨hba, hab⟩, h⟩
      exact ⟨fun hd => (not_disjoint_of_subset hba).mpr h hd.symm, hba, hab⟩
    · rintro ⟨h, hba, hab⟩
      exact ⟨⟨hba, hab⟩, (not_disjoint_of_subset hba).mp fun hd => h hd.symm⟩
  | secondContainsFirst =>
    simp only [Describes, reduceCtorEq, or_true, or_false, iff_true, iff_false]
    constructor
    · rintro ⟨⟨hab, hba⟩, h⟩
      exact ⟨(not_disjoint_of_subset hab).mpr h, hba, hab⟩
    · rintro ⟨h, hba, hab⟩
      exact ⟨⟨hab, hba⟩, (not_disjoint_of_subset hab).mp h⟩
  | crossing =>
    simp only [Describes, reduceCtorEq, or_false, iff_false, Set.not_disjoint_iff_nonempty_inter]
    exact and_congr_right fun _ => and_comm

end Overlap

/-! ### What is told -/

namespace SetAlgebra

/-- The symbols of a set. -/
def elements {S : Type u} {E : Type v} [Membership E S] (a : S) : Set E := {e | e ∈ a}

variable {S : Type u} {E : Type v} [Membership E S] [SetAlgebra S] [LawfulSetAlgebra S E] {a b : S}
  {o : Overlap}

theorem elements_inter : elements (a ∩ b) = (elements a ∩ elements b : Set E) :=
  Set.ext fun _ => LawfulSetAlgebra.mem_inter

theorem elements_compl : elements (compl a) = (elements a : Set E)ᶜ :=
  Set.ext fun _ => LawfulSetAlgebra.mem_compl

theorem isEmpty_inter_iff : isEmpty (a ∩ b) = true ↔ Disjoint (elements a : Set E) (elements b) := by
  rw [Set.disjoint_iff_inter_eq_empty, ← elements_inter, Set.eq_empty_iff_forall_notMem]
  exact LawfulSetAlgebra.isEmpty_iff

theorem containsAll_iff_subset : containsAll a b = true ↔ (elements b : Set E) ⊆ elements a :=
  LawfulSetAlgebra.containsAll_iff

theorem containsAll_eq_isEmpty (E : Type v) [Membership E S] [LawfulSetAlgebra S E] (a b : S) :
    containsAll a b = isEmpty (b ∩ compl a) := by
  rw [Bool.eq_iff_iff, containsAll_iff_subset (E := E), isEmpty_inter_iff (E := E), elements_compl,
    Set.disjoint_compl_right_iff_subset]

/-- How two sets overlap is told as it is. -/
theorem overlap_eq_iff : overlap a b = o ↔ o.Describes (elements a : Set E) (elements b) := by
  by_cases ho : o = .disjoint
  · rw [ho, Overlap.Describes, ← isEmpty_inter_iff, overlap]
    cases isEmpty (a ∩ b) <;> cases containsAll a b <;> cases containsAll b a <;> simp
  · rw [Overlap.describes_iff ho, ← isEmpty_inter_iff, ← containsAll_iff_subset,
      ← containsAll_iff_subset, overlap]
    cases isEmpty (a ∩ b) <;> cases containsAll a b <;> cases containsAll b a <;> cases o <;>
      simp_all

end SetAlgebra

/-! ### Range sets -/

namespace RangeSet

open SetAlgebra (containsAll elements overlap)

variable {α : Type u} [Alphabet α] [LawfulAlphabet α]

/-- **Inclusion and overlap of range sets.**  That the common symbols of two sets make up the second
one is the same as that the second has no symbol outside of the first, and as that all its symbols
are in the first.  How two sets overlap is told as their symbols do, where one is told to contain the
other only if that one has a symbol. -/
theorem overlap_of_elements (s t : RangeSet α) :
    (containsAll s t = (t.inter s == t) ∧
      containsAll s t = SetAlgebra.isEmpty (t ∩ SetAlgebra.compl s) ∧
      (containsAll s t = true ↔ elements t ⊆ elements s)) ∧
    (overlap s t = .disjoint ↔ Disjoint (elements s) (elements t)) ∧
    (overlap s t = .equal ↔ elements s = elements t ∧ (elements s).Nonempty) ∧
    (overlap s t = .firstContainsSecond ↔ elements t ⊂ elements s ∧ (elements t).Nonempty) ∧
    (overlap s t = .secondContainsFirst ↔ elements s ⊂ elements t ∧ (elements s).Nonempty) ∧
    (overlap s t = .crossing ↔ (elements s ∩ elements t).Nonempty ∧
      ¬ elements s ⊆ elements t ∧ ¬ elements t ⊆ elements s) := by
  have hcontains : containsAll s t = SetAlgebra.isEmpty (t ∩ SetAlgebra.compl s) :=
    SetAlgebra.containsAll_eq_isEmpty α s t
  exact ⟨⟨rfl, hcontains, SetAlgebra.containsAll_iff_subset⟩, SetAlgebra.overlap_eq_iff,
    SetAlgebra.overlap_eq_iff, SetAlgebra.overlap_eq_iff, SetAlgebra.overlap_eq_iff,
    SetAlgebra.overlap_eq_iff⟩

/-- The characters below the gap of the surrogates have the last one of these, and none of those
above the gap. -/
theorem overlap_of_elements_char :
    let below := ofEnds [('\x00', '\ud7ff')]
    containsAll below (single '\ud7ff') = true ∧
      overlap below (single '\ud7ff') = .firstContainsSecond ∧
      overlap below (single '\ue000') = .disjoint := by
  intro below
  have hbelow : ∀ c : Char, c ∈ elements below ↔ c ≤ '\ud7ff' := fun c => by
    show c ∈ below ↔ _
    simp only [below, mem_ofEnds, List.mem_singleton, exists_eq_left, char_le_iff, Char.reduceToNat]
    omega
  have hsingle : ∀ c d : Char, c ∈ elements (single d) ↔ c = d := fun c d => mem_single
  obtain ⟨⟨-, -, hcontains⟩, -, -, hfirst, -⟩ := overlap_of_elements below (single '\ud7ff')
  obtain ⟨-, hdisjoint, -⟩ := overlap_of_elements below (single '\ue000')
  have hsubset : elements (single '\ud7ff') ⊆ elements below := fun c hc => by
    rw [(hsingle c _).mp hc]
    exact (hbelow _).mpr (by decide)
  refine ⟨hcontains.mpr hsubset, hfirst.mpr ⟨⟨hsubset, fun h => ?_⟩, ⟨_, mem_single.mpr rfl⟩⟩,
    hdisjoint.mpr (Set.disjoint_left.mpr fun c hc hc' => ?_)⟩
  · exact absurd ((hsingle _ _).mp (h ((hbelow 'a').mpr (by decide)))) (by decide)
  · rw [(hsingle c _).mp hc', hbelow] at hc
    exact absurd hc (by decide)

/-- The set without symbols is a proper part of any other set, but is told to be disjoint from it. -/
theorem overlap_single_empty :
    let first := single Letter.a
    let second : RangeSet Letter := empty
    elements second ⊂ elements first ∧ overlap first second = .disjoint ∧
      ¬ (overlap first second = .firstContainsSecond ↔ elements second ⊂ elements first) := by
  intro first second
  have hsubset : elements second ⊂ elements first := by
    refine ⟨fun l hl => absurd hl (isEmpty_iff.1 rfl l), fun h => ?_⟩
    exact isEmpty_iff.1 rfl Letter.a (h (mem_single.2 rfl))
  have hdisjoint : overlap first second = .disjoint := by decide
  refine ⟨hsubset, hdisjoint, fun h => ?_⟩
  have hfirst := h.2 hsubset
  rw [hdisjoint] at hfirst
  contradiction

end RangeSet

end ExtendedRegex
