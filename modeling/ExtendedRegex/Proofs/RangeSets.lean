/-
Range sets as the canonical forms of sets of symbols.

* `Spaced`: the intervals increase, and between any two of them there is a symbol that
  the set lacks;
* `ofEnds_canonical`: intervals in any order, with their ends in either order, are
  collected into a spaced set of just their symbols, and two such sets are equal exactly
  if the same symbols are found in both;
* `boolean_laws`: union, intersection and complement are spaced again, have the symbols
  that their names say, and make the range sets a Boolean algebra.

Design notes: all the laws come from `RangeSet.ext`, since both sides have the same
symbols.  The order of the Boolean algebra is inclusion, which plays no part in the
operations themselves.
-/
import ExtendedRegex.RangeSet
import Mathlib.Order.BooleanAlgebra.Basic

universe u

namespace ExtendedRegex.RangeSet

open ExtendedRegex.Interval (Apart)

variable {α : Type u} [Alphabet α]

/-- The intervals increase, with a symbol that is not found in the set between any two. -/
def Spaced (s : RangeSet α) : Prop :=
  s.ranges.Pairwise fun i j => ∃ a, i.stop < a ∧ a < j.start ∧ s.contains a = false

variable [LawfulAlphabet α] {s t : RangeSet α} {i j : Interval α} {a : α}

theorem contains_eq_false_iff : s.contains a = false ↔ a ∉ s := by
  rw [← Bool.not_eq_true, contains_iff]

theorem eq_iff_contains : s = t ↔ ∀ a, s.contains a = t.contains a := by
  constructor
  · rintro rfl a
    rfl
  · intro h
    refine ext fun a => ?_
    rw [← contains_iff, h a, contains_iff]

/-- The symbol right behind an interval of a set is not in the set. -/
theorem not_mem_of_next? (hi : i ∈ s.ranges) (ha : next? i.stop = some a) : a ∉ s := by
  rintro ⟨k, hk, hak⟩
  have hnext := LawfulAlphabet.lt_iff_of_next? ha
  have hlt := lt_of_next? ha
  obtain ⟨hka, hak⟩ := Interval.mem_iff.1 hak
  have hle := i.start_le_stop
  have hseparated := s.separated
  obtain ⟨before, after, hranges⟩ := List.append_of_mem hi
  rw [hranges] at hseparated hk
  rcases side_of_mem hseparated hk with ⟨-, hki⟩ | rfl | ⟨-, b, hb, hbk⟩
  · have := hki.stop_lt
    grind
  · grind
  · -- There is a symbol `b` between `i` and `k`, and `a` is no later than `b`.
    have := (hnext b).1 hb
    grind

theorem spaced (s : RangeSet α) : s.Spaced := by
  refine s.separated.imp_of_mem fun {i j} hi _ ⟨b, hb, hbj⟩ => ?_
  cases ha : next? i.stop with
  | none => exact absurd hb (not_lt_of_next? ha b)
  | some a =>
    have hab := (LawfulAlphabet.lt_iff_of_next? ha b).1 hb
    exact ⟨a, lt_of_next? ha, by grind, contains_eq_false_iff.2 (not_mem_of_next? hi ha)⟩

/-! ### Collected intervals -/

/-- **Collecting intervals.**  Whatever the order of the intervals, and whichever end of one comes
first, the result is spaced and has exactly their symbols; it is the only such set; and it is found
to be empty or full exactly if it is. -/
theorem ofEnds_canonical (ends : List (α × α)) :
    (ofEnds ends).Spaced ∧
    (∀ c, (ofEnds ends).contains c = true ↔
      ∃ p ∈ ends, p.1 ≤ c ∧ c ≤ p.2 ∨ p.2 ≤ c ∧ c ≤ p.1) ∧
    (∀ others : List (α × α), ofEnds ends = ofEnds others ↔
      ∀ c, (ofEnds ends).contains c = (ofEnds others).contains c) ∧
    ((ofEnds ends).isEmpty = true ↔ ∀ c, (ofEnds ends).contains c = false) ∧
    ((ofEnds ends).isFull = true ↔ ∀ c, (ofEnds ends).contains c = true) := by
  refine ⟨spaced _, fun c => contains_iff.trans mem_ofEnds, fun others => eq_iff_contains, ?_, ?_⟩
  · simp only [isEmpty_iff, contains_eq_false_iff]
  · simp only [isFull_iff, contains_iff]

/-- The characters on the two sides of the gap of the surrogates are neighbours, and so are the ends
of two intervals that are given backwards. -/
theorem ofEnds_canonical_char :
    let ends := [('\ue000', '\ue001'), ('d', 'c'), ('\ud7ff', '\ud7fe'), ('b', 'a'), ('c', 'c')]
    (ofEnds ends).Spaced ∧ (ofEnds ends).contains '\ue000' = true ∧
      ofEnds ends = ofEnds [('a', 'd'), ('\ud7fe', '\ue001')] := by
  intro ends
  obtain ⟨hspaced, hcontains, heq, -, -⟩ := ofEnds_canonical ends
  obtain ⟨-, hcontains', -⟩ := ofEnds_canonical [('a', 'd'), ('\ud7fe', '\ue001')]
  refine ⟨hspaced, (hcontains _).mpr ⟨_, List.mem_cons_self .., .inl (by decide)⟩, ?_⟩
  refine (heq _).mpr fun c => Bool.eq_iff_iff.mpr ?_
  rw [hcontains c, hcontains' c]
  have hvalid := toNat_valid c
  simp only [Nat.isValidChar] at hvalid
  simp only [ends, List.mem_cons, List.not_mem_nil, or_false, exists_eq_or_imp, exists_eq_left,
    char_le_iff, Char.reduceToNat]
  omega

/-! ### The Boolean algebra of range sets -/

/-- Range sets ordered by inclusion. -/
@[reducible] def booleanAlgebra : BooleanAlgebra (RangeSet α) where
  le s t := ∀ a, a ∈ s → a ∈ t
  le_refl s a h := h
  le_trans s t u hst htu a h := htu a (hst a h)
  le_antisymm s t hst hts := ext fun a => ⟨hst a, hts a⟩
  sup := union
  le_sup_left s t a h := mem_union.2 (.inl h)
  le_sup_right s t a h := mem_union.2 (.inr h)
  sup_le s t u hs ht a h := (mem_union.1 h).elim (hs a) (ht a)
  inf := inter
  inf_le_left s t a h := (mem_inter.1 h).1
  inf_le_right s t a h := (mem_inter.1 h).2
  le_inf s t u ht hu a h := mem_inter.2 ⟨ht a h, hu a h⟩
  le_sup_inf s t u a h := by
    obtain ⟨ht, hu⟩ := mem_inter.1 h
    rcases mem_union.1 ht with hs | ht
    · exact mem_union.2 (.inl hs)
    · exact mem_union.2 ((mem_union.1 hu).imp_right fun hu => mem_inter.2 ⟨ht, hu⟩)
  top := full
  bot := empty
  compl := compl
  le_top s a _ := mem_full
  bot_le s a h := absurd h (isEmpty_iff.1 rfl a)
  inf_compl_le_bot s a h := absurd (mem_inter.1 h).1 (mem_compl.1 (mem_inter.1 h).2)
  top_le_sup_compl s a _ := mem_union.2 ((em (a ∈ s)).imp_right mem_compl.2)

/-- The intervals of a set are what is collected from them. -/
theorem ofIntervals_ranges (s : RangeSet α) : ofIntervals s.ranges = s :=
  ext fun _ => mem_ofIntervals

theorem contains_union : (s.union t).contains a = (s.contains a || t.contains a) := by
  rw [Bool.eq_iff_iff, Bool.or_eq_true]
  simp only [contains_iff, mem_union]

theorem contains_inter : (s.inter t).contains a = (s.contains a && t.contains a) := by
  rw [Bool.eq_iff_iff, Bool.and_eq_true]
  simp only [contains_iff, mem_inter]

theorem contains_compl : s.compl.contains a = !s.contains a := by
  rw [Bool.eq_iff_iff, Bool.not_eq_true', contains_eq_false_iff, contains_iff, mem_compl]

/-- **Boolean laws.**  Union, intersection and complement have the symbols that their names say.
They are spaced: it changes nothing to collect the intervals of an intersection or of a complement
once more.  So they obey the laws of a Boolean algebra, and these are equations between lists of
intervals. -/
theorem boolean_laws (s t : RangeSet α) :
    ((s.union t).Spaced ∧ (s.inter t).Spaced ∧ s.compl.Spaced) ∧
    (coalesce (sortByStart (overlaps s.ranges t.ranges)) = overlaps s.ranges t.ranges ∧
      coalesce (sortByStart (gapsFrom Alphabet.first s.ranges)) =
        gapsFrom Alphabet.first s.ranges) ∧
    (∀ a, (s.union t).contains a = (s.contains a || t.contains a) ∧
      (s.inter t).contains a = (s.contains a && t.contains a) ∧
      s.compl.contains a = !s.contains a) ∧
    (∃ _ : BooleanAlgebra (RangeSet α),
      (∀ u v : RangeSet α, u ⊔ v = u.union v ∧ u ⊓ v = u.inter v ∧ uᶜ = u.compl) ∧
      (⊤ : RangeSet α) = full ∧ (⊥ : RangeSet α) = empty) ∧
    s.compl.compl = s ∧
    (s.union t).compl = s.compl.inter t.compl ∧ (s.inter t).compl = s.compl.union t.compl := by
  let _ := booleanAlgebra (α := α)
  refine ⟨⟨spaced _, spaced _, spaced _⟩, ⟨?_, ?_⟩,
    fun a => ⟨contains_union, contains_inter, contains_compl⟩, ?_, ?_, ?_, ?_⟩
  · exact congrArg ranges (ofIntervals_ranges (s.inter t))
  · exact congrArg ranges (ofIntervals_ranges s.compl)
  · exact ⟨booleanAlgebra, fun u v => ⟨rfl, rfl, rfl⟩, rfl, rfl⟩
  · exact (compl_compl s : sᶜᶜ = s)
  · exact (compl_sup : (s ⊔ t)ᶜ = sᶜ ⊓ tᶜ)
  · exact (compl_inf : (s ⊓ t)ᶜ = sᶜ ⊔ tᶜ)

/-- The two sides of the gap of the surrogates make up one interval. -/
theorem boolean_laws_char :
    (single '\ud7ff').union (single '\ue000') = ofEnds [('\ud7ff', '\ue000')] ∧
    ((single '\ud7ff').union (single '\ue000')).compl =
      (single '\ud7ff').compl.inter (single '\ue000').compl := by
  obtain ⟨-, -, hcontains, -, -, hunion, -⟩ := boolean_laws (single '\ud7ff') (single '\ue000')
  refine ⟨eq_iff_contains.mpr fun c => ?_, hunion⟩
  rw [(hcontains c).1, Bool.eq_iff_iff, Bool.or_eq_true]
  simp only [contains_iff, mem_single, mem_ofEnds, List.mem_singleton, exists_eq_left]
  have hvalid := toNat_valid c
  simp only [Nat.isValidChar] at hvalid
  simp only [← Char.toNat_inj, char_le_iff, Char.reduceToNat]
  omega

end ExtendedRegex.RangeSet
