/-
Emptiness and intersection are decided rightly.

* `Barren`: terms that are not nullable, with derivatives that are barren again;
* `Barren.not_mem_language`: no word matches a barren term;
* `not_mem_of_matchesNothing?`: nor a term for which no word is found;
* `matchesNothing?_iff_forall_not_mem`: there is an answer for any built term, and it
  says whether no word matches.  For two built terms there is an answer as well, which
  says whether some word matches both.

Design notes: a search that ends with an empty queue leaves behind a finite set of barren
terms, up to `empty`.  Whether two terms have a word in common is a question about their
intersection, which denotes the common words however it was simplified.
-/
import ExtendedRegex.Mask
import ExtendedRegex.Proofs.Decision

universe u v

namespace ExtendedRegex.Term

variable {S : Type u} [SetAlgebra S] [DecidableEq S]

theorem settle_emptinessQuestion_eq_true [Ord S] {t : Term S} :
    (emptinessQuestion : Question S (Term S)).settle t = some true ↔ t.emptiness = .empty := by
  dsimp only [emptinessQuestion]
  cases t.emptiness <;> simp

variable {E : Type v} [Membership E S] [Ord S]

/-- Barren terms are not nullable, and their derivatives by any symbol are barren. -/
structure Barren (E : Type v) [Membership E S] (K : Term S → Prop) : Prop where
  nullable : ∀ t, K t → t.nullable = false
  derivative : ∀ t, K t → ∀ e : E, K (t.derivativeAt e)

variable [LawfulSetAlgebra S E]

theorem Barren.not_mem_language {K : Term S → Prop} (hK : Barren E K) {t : Term S} (ht : K t)
    (w : List E) : w ∉ t.language := by
  have halong : ∀ w : List E, ∀ t, K t → K (t.derivativeAlong w) := by
    -- Barren terms stay barren along a word.
    intro w
    induction w with
    | nil => exact fun t ht => ht
    | cons e w ih => exact fun t ht => ih _ (hK.derivative t ht e)
  rw [← nullable_derivativeAlong, hK.nullable _ (halong w t ht)]
  exact Bool.false_ne_true

variable [Std.TransOrd S] [Std.LawfulEqOrd S] [Hashable S] {a b : Term S}

/-- What is seen by a search that finds no word is barren, together with `empty`. -/
theorem exists_barren (ha : Canonical a) {fuel : Nat} (h : matchesNothing? fuel a = some true) :
    ∃ seen : List (Term S), (a = empty ∨ a ∈ seen) ∧ Barren E fun t => t = empty ∨ t ∈ seen := by
  have hsettle : ∀ t : Term S, Canonical t →
      (emptinessQuestion : Question S (Term S)).settle t = some true → t = empty := fun t ht h =>
    (ht.emptiness_eq_empty_iff (E := E)).mp (settle_emptinessQuestion_eq_true.mp h)
  obtain ⟨seen, hstart, hseen⟩ := Question.exists_seen_of_holds? (E := E)
    emptinessQuestion_stepsBy emptinessQuestion_settlesBy ha h
  refine ⟨seen, hstart.imp_left (hsettle a ha), ?_, ?_⟩
  · rintro t (rfl | ht)
    · exact nullable_empty
    · exact emptinessQuestion_settlesBy.opened (E := E) t (hseen t ht).1 (hseen t ht).2.1
  · rintro t (rfl | ht) e
    · exact .inl rfl
    · obtain ⟨hc, -, hnext⟩ := hseen t ht
      exact (hnext e).imp_left (hsettle _ (canonical_derivativeAt hc))

theorem not_mem_of_matchesNothing? (ha : Canonical a) {fuel : Nat}
    (h : matchesNothing? fuel a = some true) (w : List E) : w ∉ a.language := by
  obtain ⟨seen, hstart, hseen⟩ := exists_barren (E := E) ha h
  exact hseen.not_mem_language hstart w

theorem meets?_iff (ha : Canonical a) (hb : Canonical b) {fuel : Nat} {answer : Bool}
    (h : meets? fuel a b = some answer) :
    answer = true ↔ ∃ w : List E, w ∈ a.language ∧ w ∈ b.language := by
  obtain ⟨nothing, hnothing, rfl⟩ := Option.map_eq_some_iff.mp h
  have hmeet : Canonical (allOf [a, b]) := canonical_allOf (E := E) (by simp [ha, hb])
  have hiff := matchesNothing?_iff (E := E) hmeet hnothing
  rw [Bool.not_eq_true', ← Bool.not_eq_true, hiff, not_forall]
  simp [mem_language_allOf]

/-- The search for a word comes to an end on all built terms, and every answer is right: those that
it gives for a term or for two of them together, those that it settles derivatives with, and what
is left when no word is found. -/
theorem matchesNothing?_iff_forall_not_mem (ha : Built a) (hb : Built b) :
    (∃ bound, ∀ fuel ≥ bound,
      (matchesNothing? fuel a).isSome = true ∧ (meets? fuel a b).isSome = true) ∧
    (∀ fuel answer, matchesNothing? fuel a = some answer →
      (answer = true ↔ ∀ w : List E, w ∉ a.language)) ∧
    (∀ fuel answer, meets? fuel a b = some answer →
      (answer = true ↔ ∃ w : List E, w ∈ a.language ∧ w ∈ b.language)) ∧
    (∀ w : List E,
      ((a.derivativeAlong w).emptiness = .empty → ∀ v, v ∉ (a.derivativeAlong w).language) ∧
      ((a.derivativeAlong w).emptiness = .inhabited → ∃ v, v ∈ (a.derivativeAlong w).language)) ∧
    ∀ fuel, matchesNothing? fuel a = some true →
      ∃ seen : List (Term S), (a = empty ∨ a ∈ seen) ∧
        Barren E fun t => t = empty ∨ t ∈ seen := by
  have hac := ha.canonical (E := E)
  have hbc := hb.canonical (E := E)
  refine ⟨?_, fun fuel answer h => ?_, fun fuel answer h => meets?_iff hac hbc h,
    fun w => ⟨not_mem_of_emptiness, (canonical_derivativeAlong hac w).exists_mem_of_emptiness⟩,
    fun fuel h => exists_barren hac h⟩
  · obtain ⟨K, hK, haK⟩ := hac.exists_closed (E := E)
    have hmeet : Canonical (allOf [a, b]) := canonical_allOf (E := E) (by simp [hac, hbc])
    obtain ⟨L, hL, hmeetL⟩ := hmeet.exists_closed (E := E)
    obtain ⟨m, hm⟩ := matchesNothing?_isSome hK
    obtain ⟨n, hn⟩ := matchesNothing?_isSome hL
    refine ⟨m + n, fun fuel hfuel => ⟨hm fuel (by omega) a haK, ?_⟩⟩
    rw [meets?, Option.isSome_map]
    exact hn fuel (by omega) _ hmeetL
  · constructor
    · rintro rfl
      exact not_mem_of_matchesNothing? hac h
    · intro hnone
      exact (matchesNothing?_iff hac h).mpr hnone

/-- A term has words, but none in common with its complement, which the shape of the intersection
does not show. -/
theorem matchesNothing?_iff_forall_not_mem_complement :
    Built (closure (ofSet (⟨3#8⟩ : Mask))) ∧ Built (complement (closure (ofSet (⟨3#8⟩ : Mask)))) ∧
    ∃ bound, ∀ fuel ≥ bound, matchesNothing? fuel (closure (ofSet (⟨3#8⟩ : Mask))) = some false ∧
      meets? fuel (closure (ofSet (⟨3#8⟩ : Mask))) (complement (closure (ofSet ⟨3#8⟩))) =
        some false := by
  have ha : Built (closure (ofSet (⟨3#8⟩ : Mask))) := .closure (.ofSet _)
  obtain ⟨⟨bound, hsome⟩, hnothing, hmeets, -⟩ :=
    matchesNothing?_iff_forall_not_mem (E := Fin 8) ha ha.complement
  refine ⟨ha, ha.complement, bound, fun fuel hfuel => ?_⟩
  obtain ⟨nothing, hn⟩ := Option.isSome_iff_exists.mp (hsome fuel hfuel).1
  obtain ⟨meets, hm⟩ := Option.isSome_iff_exists.mp (hsome fuel hfuel).2
  have hnil : ([] : List (Fin 8)) ∈ (closure (ofSet (⟨3#8⟩ : Mask))).language := by
    rw [language_closure]
    exact Language.nil_mem_kstar _
  have hcommon : ¬ ∃ w : List (Fin 8), w ∈ (closure (ofSet (⟨3#8⟩ : Mask))).language ∧
      w ∈ (complement (closure (ofSet (⟨3#8⟩ : Mask)))).language := fun ⟨w, hw, hw'⟩ =>
    mem_language_complement.mp hw' hw
  rw [hn, hm, Bool.eq_false_iff.mpr fun h => (hnothing fuel nothing hn).mp h [] hnil,
    Bool.eq_false_iff.mpr fun h => hcommon ((hmeets fuel meets hm).mp h)]
  exact ⟨rfl, rfl⟩

end ExtendedRegex.Term
