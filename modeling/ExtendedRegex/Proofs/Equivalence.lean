/-
Equivalence is decided rightly.

* `Bisimulation`: pairs that agree on the empty word, with derivatives that are
  related again;
* `Bisimulation.language_eq`: related terms match the same words;
* `language_eq_of_equivalent?`: so do two terms between which no difference is found;
* `equivalent?_iff_language_eq`: there is an answer for any two built terms, and it
  says whether they match the same words.

Design notes: a search that ends with an empty queue leaves behind a finite
bisimulation, up to pairs of one and the same term.  Every pair that it met on the way
and did not look into was settled rightly.
-/
import ExtendedRegex.Mask
import ExtendedRegex.Proofs.Decision

universe u v

namespace ExtendedRegex.Term

variable {S : Type u} {E : Type v} [SetAlgebra S] [Membership E S] [Ord S] [DecidableEq S]

/-- Related terms agree on the empty word, and their derivatives by any symbol are related. -/
structure Bisimulation (E : Type v) [Membership E S] (R : Term S → Term S → Prop) : Prop where
  nullable : ∀ t u, R t u → t.nullable = u.nullable
  derivative : ∀ t u, R t u → ∀ e : E, R (t.derivativeAt e) (u.derivativeAt e)

variable [LawfulSetAlgebra S E]

theorem Bisimulation.language_eq {R : Term S → Term S → Prop} (hR : Bisimulation E R)
    {t u : Term S} (h : R t u) : (t.language : Language E) = u.language := by
  have halong : ∀ w : List E, ∀ t u, R t u → R (t.derivativeAlong w) (u.derivativeAlong w) := by
    -- Related terms stay related along a word.
    intro w
    induction w with
    | nil => exact fun t u h => h
    | cons e w ih => exact fun t u h => ih _ _ (hR.derivative t u h e)
  refine Language.ext fun w => ?_
  rw [← nullable_derivativeAlong, ← nullable_derivativeAlong, hR.nullable _ _ (halong w t u h)]

variable [Std.TransOrd S] [Std.LawfulEqOrd S] [Hashable S] {a b : Term S}

/-- What is seen by a search that finds no difference is a bisimulation, up to equality. -/
theorem exists_bisimulation (ha : Canonical a) (hb : Canonical b) {fuel : Nat}
    (h : equivalent? fuel a b = some true) :
    ∃ seen : List (Term S × Term S), (a = b ∨ (a, b) ∈ seen) ∧
      Bisimulation E fun t u => t = u ∨ (t, u) ∈ seen := by
  obtain ⟨seen, hstart, hseen⟩ := Question.exists_seen_of_holds? (E := E)
    equivalenceQuestion_stepsBy equivalenceQuestion_settlesBy (x := (a, b)) ⟨ha, hb⟩ h
  refine ⟨seen, hstart.imp_left settleEquivalence_eq_true.mp, ?_, ?_⟩
  · rintro t u (rfl | htu)
    · rfl
    · exact nullable_of_settleEquivalence (hseen _ htu).2.1
  · rintro t u (rfl | htu) e
    · exact .inl rfl
    · exact ((hseen _ htu).2.2 e).imp_left settleEquivalence_eq_true.mp

theorem language_eq_of_equivalent? (ha : Canonical a) (hb : Canonical b) {fuel : Nat}
    (h : equivalent? fuel a b = some true) : (a.language : Language E) = b.language := by
  obtain ⟨seen, hstart, hseen⟩ := exists_bisimulation (E := E) ha hb h
  exact hseen.language_eq hstart

/-- The search for a difference comes to an end on all built terms, and every answer is right: those
that it gives, those that it settles pairs of derivatives with, and the relation that is left when
no difference is found. -/
theorem equivalent?_iff_language_eq (ha : Built a) (hb : Built b) :
    (∃ bound, ∀ fuel ≥ bound, (equivalent? fuel a b).isSome = true) ∧
    (∀ fuel answer, equivalent? fuel a b = some answer →
      (answer = true ↔ (a.language : Language E) = b.language)) ∧
    (∀ (w : List E) answer,
      settleEquivalence (a.derivativeAlong w) (b.derivativeAlong w) = some answer →
      (answer = true ↔
        ((a.derivativeAlong w).language : Language E) = (b.derivativeAlong w).language)) ∧
    ∀ fuel, equivalent? fuel a b = some true →
      ∃ seen : List (Term S × Term S), (a = b ∨ (a, b) ∈ seen) ∧
        Bisimulation E fun t u => t = u ∨ (t, u) ∈ seen := by
  have hac := ha.canonical (E := E)
  have hbc := hb.canonical (E := E)
  refine ⟨?_, fun fuel answer h => ?_, fun w answer h => ?_, fun fuel h => ?_⟩
  · obtain ⟨K, hK, haK, hbK⟩ := exists_closed_pair (E := E) hac hbc
    exact holds?_pair_isSome equivalenceQuestion_stepsBy hK haK hbK
  · constructor
    · rintro rfl
      exact language_eq_of_equivalent? hac hbc h
    · intro hlanguage
      exact (Question.holds?_iff (E := E) equivalenceQuestion_stepsBy
        equivalenceQuestion_settlesBy ⟨hac, hbc⟩ h).mpr (always_nullable_eq.mpr hlanguage)
  · exact settleEquivalence_iff (canonical_derivativeAlong hac w)
      (canonical_derivativeAlong hbc w) h
  · exact exists_bisimulation hac hbc h

/-- Any number of symbols is none, or one and then any number. -/
theorem equivalent?_iff_language_eq_closure :
    Built (closure (ofSet (⟨3#8⟩ : Mask))) ∧
    Built (oneOf [eps, concat [ofSet (⟨3#8⟩ : Mask), closure (ofSet ⟨3#8⟩)]]) ∧
    ∃ bound, ∀ fuel ≥ bound, equivalent? fuel (closure (ofSet (⟨3#8⟩ : Mask)))
      (oneOf [eps, concat [ofSet ⟨3#8⟩, closure (ofSet ⟨3#8⟩)]]) = some true := by
  have hx : Built (ofSet (⟨3#8⟩ : Mask)) := .ofSet _
  have hclosure : Built (closure (ofSet (⟨3#8⟩ : Mask))) := .closure hx
  have hunfolded : Built (oneOf [eps, concat [ofSet (⟨3#8⟩ : Mask), closure (ofSet ⟨3#8⟩)]]) :=
    .oneOf (by simp [Built.eps, Built.concat, hx, hclosure])
  have hlanguage : ((closure (ofSet (⟨3#8⟩ : Mask))).language : Language (Fin 8)) =
      (oneOf [eps, concat [ofSet (⟨3#8⟩ : Mask), closure (ofSet ⟨3#8⟩)]]).language := by
    refine Language.ext fun w => ?_
    rw [mem_language_oneOf, language_closure, ← Language.one_add_self_mul_kstar_eq_kstar,
      Language.mem_add, Language.mem_one]
    simp [language_concat, language_closure]
  obtain ⟨⟨bound, hsome⟩, hiff, -⟩ := equivalent?_iff_language_eq (E := Fin 8) hclosure hunfolded
  refine ⟨hclosure, hunfolded, bound, fun fuel hfuel => ?_⟩
  obtain ⟨answer, hanswer⟩ := Option.isSome_iff_exists.mp (hsome fuel hfuel)
  rw [hanswer, (hiff fuel answer hanswer).mpr hlanguage]

end ExtendedRegex.Term
