/-
The questions that are decided by a search, and what their answers mean.

* `StepsBy` and `SettlesBy` hold for the questions of emptiness, equivalence and
  inclusion, on canonical terms;
* `settleEquivalence_iff`, `settleInclusion_iff`: what the shape of two terms shows of
  their languages is right, in all of the cases;
* `matchesNothing?_iff`: whether a term matches nothing.

Design notes: two terms are told apart by a word after which one derivative is
nullable and the other is not.  A first set is exact when it is known, so two first sets
differ in a symbol that starts a word of one of the languages alone.
-/
import ExtendedRegex.Decision
import ExtendedRegex.Proofs.FiniteDerivatives
import ExtendedRegex.Proofs.Search

universe u v

namespace ExtendedRegex.Term

open Question (Always SettlesBy)

variable {S : Type u} [SetAlgebra S] [DecidableEq S]

/-! ### What is left open -/

section Open

variable {a b : Term S}

/-- Equality is all that shows two terms to be equivalent at once. -/
theorem settleEquivalence_eq_true : settleEquivalence a b = some true ↔ a = b := by
  constructor
  · intro h
    rw [settleEquivalence] at h
    split at h
    · assumption
    · split at h
      · contradiction
      · split at h
        · split at h <;> contradiction
        · contradiction
  · exact fun h => if_pos h

theorem nullable_of_settleEquivalence (h : settleEquivalence a b = none) :
    a.nullable = b.nullable := by
  by_contra hnull
  have hne : a ≠ b := fun heq => hnull (heq ▸ rfl)
  rw [settleEquivalence, if_neg hne, if_pos (bne_iff_ne.mpr hnull)] at h
  contradiction

theorem nullable_of_settleInclusion (h : settleInclusion a b = none) :
    b.nullable = true → a.nullable = true := by
  intro hb
  by_contra hnull
  rw [settleInclusion] at h
  by_cases hplain : (decide (a = b) || b.isEmpty || a.isAll) = true
  · rw [if_pos hplain] at h
    contradiction
  · rw [if_neg hplain] at h
    by_cases hempty : a.isEmpty = true
    · rw [if_pos hempty] at h
      cases hverdict : b.emptiness with
      | empty =>
        rw [hverdict] at h
        contradiction
      | inhabited =>
        rw [hverdict] at h
        contradiction
      | unknown =>
        rw [nullable_of_emptiness hverdict] at hb
        contradiction
    · rw [if_neg hempty, if_pos (by simp [hb, hnull])] at h
      contradiction

end Open

/-! ### Steps -/

variable {E : Type v} [Membership E S] [Ord S]

/-- The derivatives of both terms of a pair at a symbol. -/
noncomputable def derivativePairAt (e : E) (p : Term S × Term S) : Term S × Term S :=
  (p.1.derivativeAt e, p.2.derivativeAt e)

/-- The literals that the derivatives of a pair meet. -/
def metByPair (p : Term S × Term S) : List S := p.1.metLiterals ++ p.2.metLiterals

theorem foldl_derivativePairAt (w : List E) (p : Term S × Term S) :
    w.foldl (fun p e => derivativePairAt e p) p =
      (p.1.derivativeAlong w, p.2.derivativeAlong w) := by
  induction w generalizing p with
  | nil => rfl
  | cons e w ih => exact ih (derivativePairAt e p)

section Steps

variable [LawfulSetAlgebra S E]

theorem derivativePair_eq {e : E} {block : S} (he : e ∈ block) (p : Term S × Term S) :
    derivativePair block p = unlessStraddled block (metByPair p) (derivativePairAt e p) := by
  rw [derivativePair, derivative_eq he p.1, metByPair]
  refine unlessStraddled_bind ?_
  rw [derivative_eq he p.2]
  exact unlessStraddled_map _

theorem emptinessQuestion_stepsBy :
    (emptinessQuestion : Question S (Term S)).StepsBy metLiterals (derivativeAt (E := E)) :=
  fun t _ _ he => derivative_eq he t

theorem equivalenceQuestion_stepsBy :
    (equivalenceQuestion : Question S (Term S × Term S)).StepsBy metByPair
      (derivativePairAt (E := E)) :=
  fun p _ _ he => derivativePair_eq he p

theorem inclusionQuestion_stepsBy :
    (inclusionQuestion : Question S (Term S × Term S)).StepsBy metByPair
      (derivativePairAt (E := E)) :=
  fun p _ _ he => derivativePair_eq he p

/-! ### What is asked of a pair after every word -/

variable {t a b : Term S}

theorem always_not_nullable :
    Always (derivativeAt (E := E)) (fun t => t.nullable = false) t ↔ ∀ w : List E, w ∉ t.language := by
  refine forall_congr' fun w => ?_
  rw [← nullable_derivativeAlong, Bool.not_eq_true]
  rfl

theorem always_nullable_eq :
    Always (derivativePairAt (E := E)) (fun p => p.1.nullable = p.2.nullable) (a, b) ↔
      (a.language : Language E) = b.language := by
  rw [Language.ext_iff]
  refine forall_congr' fun w => ?_
  rw [foldl_derivativePairAt, ← nullable_derivativeAlong, ← nullable_derivativeAlong]
  exact Bool.eq_iff_iff

theorem always_nullable_imp :
    Always (derivativePairAt (E := E)) (fun p => p.2.nullable = true → p.1.nullable = true) (a, b) ↔
      ∀ w : List E, w ∈ b.language → w ∈ a.language := by
  refine forall_congr' fun w => ?_
  rw [foldl_derivativePairAt, ← nullable_derivativeAlong, ← nullable_derivativeAlong]

end Steps

/-! ### What is settled without a search -/

section Settle

variable [LawfulSetAlgebra S E] {a b : Term S} {answer : Bool}

theorem settleEquivalence_iff (ha : Canonical a) (hb : Canonical b)
    (h : settleEquivalence a b = some answer) :
    answer = true ↔ (a.language : Language E) = b.language := by
  rw [settleEquivalence] at h
  by_cases heq : a = b
  · rw [if_pos heq] at h
    obtain rfl := Option.some.inj h
    exact iff_of_true rfl (heq ▸ rfl)
  · rw [if_neg heq] at h
    by_cases hnull : (a.nullable != b.nullable) = true
    · rw [if_pos hnull] at h
      obtain rfl := Option.some.inj h
      refine iff_of_false Bool.false_ne_true fun hlang => ?_
      rw [bne_iff_ne, Ne, Bool.eq_iff_iff, nullable_iff (E := E), nullable_iff (E := E), hlang] at hnull
      exact hnull Iff.rfl
    · rw [if_neg hnull] at h
      rcases hfa : a.firstSet? with _ | fa
      · rw [hfa] at h
        contradiction
      · rcases hfb : b.firstSet? with _ | fb
        · rw [hfa, hfb] at h
          contradiction
        · simp only [hfa, hfb] at h
          by_cases hfirst : fa = fb
          · rw [if_pos hfirst] at h
            contradiction
          · rw [if_neg hfirst] at h
            obtain rfl := Option.some.inj h
            exact iff_of_false Bool.false_ne_true fun hlang =>
              hfirst (ha.firstSet?_congr hb hfa hfb hlang)

theorem settleInclusion_iff (ha : Canonical a) (hb : Canonical b)
    (h : settleInclusion a b = some answer) :
    answer = true ↔ ∀ w : List E, w ∈ b.language → w ∈ a.language := by
  rw [settleInclusion] at h
  by_cases hplain : (decide (a = b) || b.isEmpty || a.isAll) = true
  · -- The terms are equal, or nothing is to be included, or everything is allowed.
    rw [if_pos hplain] at h
    obtain rfl := Option.some.inj h
    rw [Bool.or_eq_true, Bool.or_eq_true, decide_eq_true_eq, isEmpty_iff, isAll_iff] at hplain
    refine iff_of_true rfl fun w hw => ?_
    rcases hplain with (rfl | rfl) | rfl
    · exact hw
    · exact absurd hw mem_language_empty
    · exact mem_language_all
  · rw [if_neg hplain] at h
    by_cases hempty : a.isEmpty = true
    · -- Nothing is included in `empty` but a term that matches nothing.
      rw [if_pos hempty] at h
      rw [isEmpty_iff.mp hempty]
      cases hverdict : b.emptiness with
      | empty =>
        rw [hverdict] at h
        obtain rfl := Option.some.inj h
        exact iff_of_true rfl fun w hw => absurd hw (not_mem_of_emptiness hverdict w)
      | inhabited =>
        rw [hverdict] at h
        obtain rfl := Option.some.inj h
        obtain ⟨w, hw⟩ := hb.exists_mem_of_emptiness (E := E) hverdict
        exact iff_of_false Bool.false_ne_true fun hall => mem_language_empty (hall w hw)
      | unknown =>
        rw [hverdict] at h
        contradiction
    · rw [if_neg hempty] at h
      by_cases hnull : (b.nullable && !a.nullable) = true
      · -- Only the second term matches the empty word.
        rw [if_pos hnull] at h
        obtain rfl := Option.some.inj h
        rw [Bool.and_eq_true, Bool.not_eq_true', Bool.eq_false_iff, Ne, nullable_iff (E := E),
          nullable_iff (E := E)] at hnull
        exact iff_of_false Bool.false_ne_true fun hall => hnull.2 (hall [] hnull.1)
      · rw [if_neg hnull] at h
        rcases hfa : a.firstSet? with _ | fa
        · rw [hfa] at h
          contradiction
        · rcases hfb : b.firstSet? with _ | fb
          · rw [hfa, hfb] at h
            contradiction
          · simp only [hfa, hfb] at h
            by_cases hcontains : SetAlgebra.containsAll fa fb = true
            · rw [if_pos hcontains] at h
              contradiction
            · -- Some word of the second term starts with a symbol that none of the first starts with.
              rw [if_neg hcontains] at h
              obtain rfl := Option.some.inj h
              exact iff_of_false Bool.false_ne_true fun hall =>
                hcontains (ha.containsAll_firstSet? hb hfa hfb hall)

end Settle

/-! ### Searches on canonical terms -/

section Searches

variable [LawfulSetAlgebra S E] [Std.TransOrd S] [Std.LawfulEqOrd S]

theorem emptinessQuestion_settlesBy :
    SettlesBy (emptinessQuestion : Question S (Term S)) (derivativeAt (E := E))
      (fun t => t.nullable = false) Canonical where
  closed _ _ ht := canonical_derivativeAt ht
  settled t answer ht h := by
    rw [always_not_nullable]
    dsimp only [emptinessQuestion] at h
    cases hverdict : t.emptiness with
    | empty =>
      rw [hverdict] at h
      obtain rfl := Option.some.inj h
      exact iff_of_true rfl (not_mem_of_emptiness hverdict)
    | inhabited =>
      rw [hverdict] at h
      obtain rfl := Option.some.inj h
      obtain ⟨w, hw⟩ := ht.exists_mem_of_emptiness (E := E) hverdict
      exact iff_of_false Bool.false_ne_true fun hall => hall w hw
    | unknown =>
      rw [hverdict] at h
      contradiction
  opened t _ h := by
    dsimp only [emptinessQuestion] at h
    cases hverdict : t.emptiness with
    | empty =>
      rw [hverdict] at h
      contradiction
    | inhabited =>
      rw [hverdict] at h
      contradiction
    | unknown => exact nullable_of_emptiness hverdict

/-- Both terms of a pair are canonical. -/
def CanonicalPair (p : Term S × Term S) : Prop := Canonical p.1 ∧ Canonical p.2

theorem equivalenceQuestion_settlesBy :
    SettlesBy (equivalenceQuestion : Question S (Term S × Term S)) (derivativePairAt (E := E))
      (fun p => p.1.nullable = p.2.nullable) CanonicalPair where
  closed _ _ hp := ⟨canonical_derivativeAt hp.1, canonical_derivativeAt hp.2⟩
  settled _ _ hp h := (settleEquivalence_iff hp.1 hp.2 h).trans always_nullable_eq.symm
  opened _ _ h := nullable_of_settleEquivalence h

theorem inclusionQuestion_settlesBy :
    SettlesBy (inclusionQuestion : Question S (Term S × Term S)) (derivativePairAt (E := E))
      (fun p => p.2.nullable = true → p.1.nullable = true) CanonicalPair where
  closed _ _ hp := ⟨canonical_derivativeAt hp.1, canonical_derivativeAt hp.2⟩
  settled _ _ hp h := (settleInclusion_iff hp.1 hp.2 h).trans always_nullable_imp.symm
  opened _ _ h := nullable_of_settleInclusion h

/-- Two canonical terms are in one finite set that has all derivatives. -/
theorem exists_closed_pair {a b : Term S} (ha : Canonical a) (hb : Canonical b) :
    ∃ K : Set (Term S), Closed E K ∧ a ∈ K ∧ b ∈ K := by
  obtain ⟨K, hK, haK⟩ := ha.exists_closed (E := E)
  obtain ⟨L, hL, hbL⟩ := hb.exists_closed (E := E)
  exact ⟨K ∪ L, hK.union hL, .inl haK, .inr hbL⟩

variable [Hashable S] {t : Term S} {fuel : Nat} {answer : Bool}

theorem matchesNothing?_iff (ht : Canonical t) (h : matchesNothing? fuel t = some answer) :
    answer = true ↔ ∀ w : List E, w ∉ t.language :=
  (Question.holds?_iff emptinessQuestion_stepsBy emptinessQuestion_settlesBy ht h).trans
    always_not_nullable

end Searches

section Fuel

variable [LawfulSetAlgebra S E] [Hashable S] {a b : Term S}

theorem matchesNothing?_isSome {K : Set (Term S)} (hK : Closed E K) :
    ∃ bound, ∀ fuel ≥ bound, ∀ t ∈ K, (matchesNothing? fuel t).isSome = true := by
  obtain ⟨bound, h⟩ := Question.holds?_isSome (K := hK.finite.toFinset)
    (emptinessQuestion_stepsBy (E := E)) fun t ht e => by
      rw [Set.Finite.mem_toFinset] at ht ⊢
      exact hK.derivative t ht e
  exact ⟨bound, fun fuel hfuel t ht => h fuel hfuel t (hK.finite.mem_toFinset.mpr ht)⟩

/-- A search on a pair has an answer if both terms are in a finite set that has all derivatives. -/
theorem holds?_pair_isSome {q : Question S (Term S × Term S)}
    (hq : q.StepsBy metByPair (derivativePairAt (E := E))) {K : Set (Term S)} (hK : Closed E K)
    (ha : a ∈ K) (hb : b ∈ K) : ∃ bound, ∀ fuel ≥ bound, (q.holds? fuel (a, b)).isSome = true := by
  obtain ⟨bound, h⟩ := Question.holds?_isSome (K := hK.finite.toFinset ×ˢ hK.finite.toFinset) hq
    fun p hp e => by
      rw [Finset.mem_product, Set.Finite.mem_toFinset, Set.Finite.mem_toFinset] at hp ⊢
      exact ⟨hK.derivative p.1 hp.1 e, hK.derivative p.2 hp.2 e⟩
  refine ⟨bound, fun fuel hfuel => h fuel hfuel (a, b) (Finset.mem_product.mpr ?_)⟩
  exact ⟨hK.finite.mem_toFinset.mpr ha, hK.finite.mem_toFinset.mpr hb⟩

end Fuel

end ExtendedRegex.Term
