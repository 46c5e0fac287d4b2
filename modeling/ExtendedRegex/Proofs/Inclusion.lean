/-
Inclusion is decided rightly.

* `includes?_iff_language_le`: there is an answer for any two built terms, and it says
  whether every word that the second matches is matched by the first.

Design notes: nothing is included in `empty` but a term that matches nothing, and the
shape of a term may not show that.  Such a pair is left open, which is fine because its
second term is not nullable.
-/
import ExtendedRegex.Alphabet.Letter
import ExtendedRegex.Proofs.Decision
import ExtendedRegex.RangeSet

universe u v

namespace ExtendedRegex.Term

variable {S : Type u} {E : Type v} [SetAlgebra S] [Membership E S] [LawfulSetAlgebra S E] [Ord S]
  [DecidableEq S] [Std.TransOrd S] [Std.LawfulEqOrd S] [Hashable S] {a b : Term S}

/-- The search for a word of `b` alone comes to an end on all built terms, and every answer is right:
those that it gives, and those that it settles pairs of derivatives with. -/
theorem includes?_iff_language_le (ha : Built a) (hb : Built b) :
    (∃ bound, ∀ fuel ≥ bound, (includes? fuel a b).isSome = true) ∧
    (∀ fuel answer, includes? fuel a b = some answer →
      (answer = true ↔ ∀ w : List E, w ∈ b.language → w ∈ a.language)) ∧
    ∀ (v : List E) answer,
      settleInclusion (a.derivativeAlong v) (b.derivativeAlong v) = some answer →
      (answer = true ↔ ∀ w, w ∈ (b.derivativeAlong v).language → w ∈ (a.derivativeAlong v).language) := by
  have hac := ha.canonical (E := E)
  have hbc := hb.canonical (E := E)
  refine ⟨?_, fun fuel answer h => ?_, fun v answer h => ?_⟩
  · obtain ⟨K, hK, haK, hbK⟩ := exists_closed_pair (E := E) hac hbc
    exact holds?_pair_isSome inclusionQuestion_stepsBy hK haK hbK
  · have hanswer := Question.holds?_iff (E := E) inclusionQuestion_stepsBy
      inclusionQuestion_settlesBy ⟨hac, hbc⟩ h
    exact hanswer.trans always_nullable_imp
  · exact settleInclusion_iff (canonical_derivativeAlong hac v) (canonical_derivativeAlong hbc v) h

/-- The second term matches nothing, but only a search shows it. -/
theorem includes?_iff_language_le_empty :
    Built (empty : Term (RangeSet Letter)) ∧
    Built (allOf [closure (ofSet (RangeSet.single Letter.a)),
      complement (closure (ofSet (RangeSet.single Letter.a)))]) ∧
    ∃ bound, ∀ fuel ≥ bound, includes? fuel empty
      (allOf [closure (ofSet (RangeSet.single Letter.a)),
        complement (closure (ofSet (RangeSet.single Letter.a)))]) = some true := by
  have hclosure : Built (closure (ofSet (RangeSet.single Letter.a))) := .closure (.ofSet _)
  have hmeet : Built (allOf [closure (ofSet (RangeSet.single Letter.a)),
      complement (closure (ofSet (RangeSet.single Letter.a)))]) :=
    .allOf (by simp [Built.complement, hclosure])
  have hnone : ∀ w : List Letter, w ∉ (allOf [closure (ofSet (RangeSet.single Letter.a)),
      complement (closure (ofSet (RangeSet.single Letter.a)))]).language := by
    intro w hw
    rw [mem_language_allOf] at hw
    have hin := hw _ (List.mem_cons_self ..)
    have hout := hw _ (List.mem_cons_of_mem _ (List.mem_singleton_self _))
    rw [mem_language_complement] at hout
    exact hout hin
  obtain ⟨⟨bound, hsome⟩, hiff, -⟩ := includes?_iff_language_le (E := Letter) .empty hmeet
  refine ⟨.empty, hmeet, bound, fun fuel hfuel => ?_⟩
  obtain ⟨answer, hanswer⟩ := Option.isSome_iff_exists.mp (hsome fuel hfuel)
  rw [hanswer, (hiff fuel answer hanswer).mpr fun w hw => absurd hw (hnone w)]

end ExtendedRegex.Term
