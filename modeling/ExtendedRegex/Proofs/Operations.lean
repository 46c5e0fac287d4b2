/-
The languages of the terms that the building functions make.

Each function denotes the operation that it is named after, whatever terms it is
applied to:

* `language_concat`, `language_before`: concatenation;
* `mem_language_oneOf`, `mem_language_allOf`: union and intersection;
* `mem_language_complement`, `language_closure`: complement and Kleene star.
-/
import ExtendedRegex.Proofs.Language
import ExtendedRegex.Proofs.Members

universe u v

namespace ExtendedRegex.Term

open scoped Computability
open LawfulSetAlgebra (mem_full)

variable {S : Type u} {E : Type v} [Membership E S]

/-! ### Sequences -/

section Sequences

variable {t : Term S} {ts : List (Term S)}

theorem language_ofFactors : (ofFactors ts).language = (ts.map language).prod := by
  match ts with
  | [] => rfl
  | [t] => rw [ofFactors, List.map_singleton, List.prod_singleton]
  | t :: u :: ts => exact language_seq

theorem prod_language_factors : (t.factors.map language).prod = t.language := by
  cases t with
  | eps => rfl
  | seq ts => rw [factors, language_seq]
  | _ => simp [factors]

theorem prod_language_of_empty_mem (h : empty ∈ ts) : (ts.map language).prod = 0 := by
  obtain ⟨us, vs, rfl⟩ := List.append_of_mem h
  rw [List.map_append, List.map_cons, List.prod_append, List.prod_cons]
  rw [show (empty : Term S).language = 0 from rfl, zero_mul, mul_zero]

theorem language_concat : (concat ts).language = (ts.map language).prod := by
  -- Flattening regroups a product, which is associative.
  have hparts : ((ts.flatMap factors).map language).prod = (ts.map language).prod := by
    induction ts with
    | nil => rfl
    | cons t ts ih =>
      rw [List.flatMap_cons, List.map_append, List.prod_append, ih, prod_language_factors,
        List.map_cons, List.prod_cons]
  by_cases hempty : empty ∈ ts.flatMap factors
  · rw [concat_of_empty_mem hempty, ← hparts, prod_language_of_empty_mem hempty]
    rfl
  · rw [concat_of_empty_not_mem hempty, language_ofFactors, hparts]

theorem language_concat_pair {u : Term S} :
    (concat [t, u]).language = (t.language : Language E) * u.language := by
  rw [language_concat, List.map_cons, List.map_singleton, List.prod_cons, List.prod_singleton]

theorem language_before : (before t ts).language = t.language * (ts.map language).prod := by
  rw [before]
  by_cases h : t.isEmpty = true
  · rw [if_pos h, isEmpty_iff.mp h]
    exact (zero_mul _).symm
  · rw [if_neg h, language_ofFactors, List.map_append, List.prod_append, prod_language_factors]

end Sequences

/-! ### Sets, complements and stars -/

/-- Any word can be read one symbol at a time. -/
theorem kstar_eq_top {l : Language E} (h : ∀ e : E, [e] ∈ l) : l∗ = ⊤ := by
  refine Language.ext fun w => iff_of_true ?_ trivial
  rw [Language.mem_kstar]
  refine ⟨w.map fun e => [e], ?_, ?_⟩
  · induction w with
    | nil => rfl
    | cons e w ih => rw [List.map_cons, List.flatten_cons, ← ih, List.singleton_append]
  · intro u hu
    obtain ⟨e, -, rfl⟩ := List.mem_map.mp hu
    exact h e

/-- The star of an idempotent that contains the empty word. -/
theorem kstar_eq_self {l : Language E} (hnil : [] ∈ l) (hmul : ∀ u ∈ l, ∀ v ∈ l, u ++ v ∈ l) :
    l∗ = l := by
  refine Language.ext fun w => ⟨fun h => ?_, fun h => ?_⟩
  · obtain ⟨us, rfl, hus⟩ := Language.mem_kstar.mp h
    clear h
    induction us with
    | nil => exact hnil
    | cons u us ih =>
      have hrest : ∀ u ∈ us, u ∈ l := fun u hu => hus u (List.mem_cons_of_mem _ hu)
      exact hmul u (hus u (List.mem_cons_self ..)) _ (ih hrest)
  · exact Language.mem_kstar.mpr ⟨[w], by simp, by simpa using h⟩

/-- Two languages that differ in the empty word only have the same star. -/
theorem kstar_congr {l m : Language E} (h : ∀ w : List E, w ≠ [] → (w ∈ l ↔ w ∈ m)) :
    l∗ = m∗ := by
  refine Language.ext fun w => ?_
  rw [Language.mem_kstar_iff_exists_nonempty, Language.mem_kstar_iff_exists_nonempty]
  refine exists_congr fun us => and_congr_right fun _ => forall₂_congr fun u _ => ?_
  exact and_congr_left fun hu => h u hu

section Unary

variable [SetAlgebra S] [LawfulSetAlgebra S E]

theorem mem_language_ofSet {set : S} {w : List E} :
    w ∈ (ofSet set).language ↔ ∃ e ∈ set, w = [e] := by
  rw [ofSet]
  by_cases h : SetAlgebra.isEmpty set = true
  · have := LawfulSetAlgebra.isEmpty_iff.mp h
    rw [if_pos h]
    simp [this]
  · rw [if_neg h]
    rfl

theorem mem_language_complement {t : Term S} {w : List E} :
    w ∈ t.complement.language ↔ w ∉ t.language := by
  cases t with
  | eps =>
    rw [complement, language_concat, List.map_cons, List.prod_cons, Language.mem_mul]
    simp only [List.map_singleton, List.prod_singleton, mem_language_ofSet, mem_language_eps]
    constructor
    · rintro ⟨u, ⟨e, -, rfl⟩, v, -, rfl⟩
      exact List.cons_ne_nil e v
    · intro hw
      obtain ⟨e, v, rfl⟩ := List.exists_cons_of_ne_nil hw
      exact ⟨[e], ⟨e, mem_full e, rfl⟩, v, mem_language_all, rfl⟩
  | empty => simp [complement]
  | all => simp [complement]
  | compl t => rw [complement, mem_language_compl, not_not]
  | literal set => exact mem_language_compl
  | alt ts => exact mem_language_compl
  | seq ts => exact mem_language_compl
  | inter ts => exact mem_language_compl
  | star t => exact mem_language_compl

theorem language_starOf {t : Term S} : (starOf t).language = t.language∗ := by
  cases t with
  | eps => exact kstar_one.symm
  | empty => exact kstar_zero.symm
  | all =>
    exact (kstar_eq_self mem_language_all fun _ _ _ _ => mem_language_all).symm
  | literal set =>
    rw [starOf]
    by_cases h : SetAlgebra.isEmpty (SetAlgebra.compl set) = true
    · -- A literal of all symbols reads any word, one symbol at a time.
      rw [if_pos h]
      refine (kstar_eq_top fun e => mem_language_literal.mpr ⟨e, ?_, rfl⟩).symm
      have := LawfulSetAlgebra.isEmpty_iff.mp h e
      rwa [LawfulSetAlgebra.mem_compl, not_not] at this
    · rw [if_neg h]
      rfl
  | star t => exact (kstar_idem t.language).symm
  | alt ts => rfl
  | seq ts => rfl
  | inter ts => rfl
  | compl t => rfl

end Unary

/-! ### Alternations -/

section Alternations

variable {t : Term S} {ts : List (Term S)} {w : List E}

theorem mem_language_ofAlternatives :
    w ∈ (ofAlternatives ts).language ↔ ∃ t ∈ ts, w ∈ t.language := by
  match ts with
  | [] => simp [ofAlternatives]
  | [t] => simp [ofAlternatives]
  | t :: u :: ts => exact mem_language_alt

theorem mem_language_iff_alternatives :
    w ∈ t.language ↔ ∃ p ∈ t.alternatives, w ∈ p.language := by
  cases t with
  | alt ts => rw [alternatives, mem_language_alt]
  | _ => simp [alternatives]

theorem exists_mem_flatMap_alternatives :
    (∃ p ∈ ts.flatMap alternatives, w ∈ p.language) ↔ ∃ t ∈ ts, w ∈ t.language := by
  rw [exists_mem_flatMap]
  exact exists_congr fun t => and_congr_right' mem_language_iff_alternatives.symm

variable [SetAlgebra S] [LawfulSetAlgebra S E] [Ord S] [DecidableEq S]

/-- The members of an alternation match what its parts match. -/
theorem exists_mem_unionMembers {parts : List (Term S)} (hall : all ∉ parts) :
    (∃ t ∈ unionMembers parts, w ∈ t.language) ↔ ∃ p ∈ parts, w ∈ p.language := by
  constructor
  · rintro ⟨t, ht, hw⟩
    rcases mem_unionMembers.mp ht with ⟨rfl, heps, -⟩ | ⟨set, rfl, rfl, -⟩ | ⟨-, ht⟩
    · exact ⟨eps, heps, hw⟩
    · obtain ⟨e, he, rfl⟩ := mem_language_literal.mp hw
      obtain ⟨a, ha, hea⟩ := mem_unionAll_literals.mp he
      exact ⟨literal a, ha, mem_language_literal.mpr ⟨e, hea, rfl⟩⟩
    · exact ⟨t, ht, hw⟩
  · -- Compound parts are members themselves; the others are represented by a member.
    rintro ⟨p, hp, hw⟩
    by_cases hc : p.isCompound = true
    · exact ⟨p, (mem_unionMembers_of_isCompound hc).mpr hp, hw⟩
    · rcases cases_of_not_isCompound (Bool.not_eq_true _ ▸ hc) with rfl | rfl | rfl | ⟨a, rfl⟩
      · -- The empty word is listed on its own, or matches a compound member.
        obtain rfl := mem_language_eps.mp hw
        obtain ⟨t, ht, hnull⟩ := exists_nullable_mem_unionMembers hp
        exact ⟨t, ht, nullable_iff.mp hnull⟩
      · exact absurd hw mem_language_empty
      · exact absurd hp hall
      · obtain ⟨e, he, rfl⟩ := mem_language_literal.mp hw
        have hmem := mem_unionAll_literals.mpr ⟨a, hp, he⟩
        exact ⟨_, literal_mem_unionMembers hmem, e, hmem, rfl⟩

theorem mem_language_oneOf : w ∈ (oneOf ts).language ↔ ∃ t ∈ ts, w ∈ t.language := by
  rw [← exists_mem_flatMap_alternatives]
  by_cases h : all ∈ ts.flatMap alternatives
  · rw [oneOf_of_all_mem h]
    exact iff_of_true mem_language_all ⟨all, h, mem_language_all⟩
  · rw [oneOf_of_all_not_mem h, mem_language_ofAlternatives, exists_mem_unionMembers h]

theorem language_oneOf_pair {u : Term S} :
    (oneOf [t, u]).language = (t.language : Language E) + u.language := by
  refine Language.ext fun w => ?_
  rw [mem_language_oneOf, Language.mem_add, List.exists_mem_cons_iff]
  simp

/-- The empty word makes no difference under a star. -/
theorem language_closure : (closure t).language = t.language∗ := by
  rcases closure_cases t with ⟨-, heq⟩ | ⟨ts, rfl, -, heq⟩
  · rw [heq, language_starOf]
  · rw [heq, language_starOf]
    refine kstar_congr fun w hw => ?_
    rw [mem_language_oneOf, mem_language_alt]
    simp only [List.mem_filter]
    constructor
    · rintro ⟨t, ⟨ht, -⟩, hwt⟩
      exact ⟨t, ht, hwt⟩
    · rintro ⟨t, ht, hwt⟩
      refine ⟨t, ⟨ht, ?_⟩, hwt⟩
      rw [Bool.not_eq_true', Bool.eq_false_iff]
      intro heps
      rw [isEps_iff.mp heps, mem_language_eps] at hwt
      exact hw hwt

end Alternations

/-! ### Intersections -/

section Intersections

variable {t : Term S} {ts : List (Term S)} {w : List E}

theorem mem_language_ofConjuncts :
    w ∈ (ofConjuncts ts).language ↔ ∀ t ∈ ts, w ∈ t.language := by
  match ts with
  | [] => simp [ofConjuncts]
  | [t] => simp [ofConjuncts]
  | t :: u :: ts => exact mem_language_inter

theorem mem_language_iff_conjuncts : w ∈ t.language ↔ ∀ p ∈ t.conjuncts, w ∈ p.language := by
  cases t with
  | inter ts => rw [conjuncts, mem_language_inter]
  | _ => simp [conjuncts]

theorem forall_mem_flatMap_conjuncts :
    (∀ p ∈ ts.flatMap conjuncts, w ∈ p.language) ↔ ∀ t ∈ ts, w ∈ t.language := by
  rw [List.forall_mem_flatMap]
  exact forall₂_congr fun t _ => mem_language_iff_conjuncts.symm

variable [SetAlgebra S] [LawfulSetAlgebra S E]

/-- A word that all parts match is empty, or starts with a symbol that all of them admit. -/
theorem eq_nil_of_not_admits (h : ¬ ∃ e : E, ∀ p ∈ ts, p.Admits e)
    (hw : ∀ p ∈ ts, w ∈ p.language) : w = [] := by
  cases w with
  | nil => rfl
  | cons e w => exact absurd ⟨e, fun p hp first hfirst => mem_of_firstSet? hfirst (hw p hp)⟩ h

variable [Ord S] [DecidableEq S]

/-- The members of an intersection match together what its parts match together. -/
theorem forall_mem_meetMembers {parts : List (Term S)} (h : ∃ e : E, ∀ p ∈ parts, p.Admits e) :
    (∀ t ∈ meetMembers parts, w ∈ t.language) ↔ ∀ p ∈ parts, w ∈ p.language := by
  obtain ⟨f, hf⟩ := h
  constructor
  · intro hw p hp
    rcases (hf p hp).cases with hc | rfl | ⟨a, rfl⟩
    · exact hw p ((mem_meetMembers_of_isCompound hc).mpr hp)
    · exact mem_language_all
    · obtain ⟨e, he, rfl⟩ := mem_language_literal.mp (hw _ (literal_mem_meetMembers hf hp))
      exact ⟨e, mem_interAll_literals.mp he a hp, rfl⟩
  · intro hw t ht
    rcases mem_meetMembers.mp ht with ⟨set, rfl, rfl, ⟨a, ha⟩, -⟩ | ⟨-, ht⟩
    · -- The word is a single symbol, which is in every literal.
      obtain ⟨e, -, rfl⟩ := mem_language_literal.mp (hw _ ha)
      refine ⟨e, mem_interAll_literals.mpr fun b hb => ?_, rfl⟩
      obtain ⟨g, hg, heq⟩ := mem_language_literal.mp (hw _ hb)
      exact (List.cons.inj heq).1 ▸ hg
    · exact hw t ht

theorem mem_language_allOf : w ∈ (allOf ts).language ↔ ∀ t ∈ ts, w ∈ t.language := by
  rw [← forall_mem_flatMap_conjuncts]
  by_cases h : ∃ e : E, ∀ p ∈ ts.flatMap conjuncts, p.Admits e
  · rw [allOf_of_admits h, mem_language_ofConjuncts, forall_mem_meetMembers h]
  · -- Only the empty word can match, and nullability tells whether it does.
    rw [allOf_of_not_admits h]
    have hnull : (ts.flatMap conjuncts).all nullable = true ↔
        ∀ p ∈ ts.flatMap conjuncts, [] ∈ p.language :=
      List.all_eq_true.trans (forall₂_congr fun p _ => nullable_iff)
    constructor
    · intro hw
      by_cases hall : (ts.flatMap conjuncts).all nullable = true
      · rw [if_pos hall] at hw
        obtain rfl := mem_language_eps.mp hw
        exact hnull.mp hall
      · rw [if_neg hall] at hw
        exact absurd hw mem_language_empty
    · intro hw
      obtain rfl := eq_nil_of_not_admits h hw
      rw [if_pos (hnull.mpr hw)]
      rfl

end Intersections

end ExtendedRegex.Term
