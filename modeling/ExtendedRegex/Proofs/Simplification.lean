/-
The laws of the operations on one term hold between terms, and not only between languages.

* `closure_forms`: a closure is `eps`, `all` or a star;
* `opt_eq_self`: a term that matches the empty word is its own option;
* `opt_eq_alt`: any other term gets the alternative `eps` in front;
* `closure_opt`: which the closure takes away again;
* `complement_complement`: the complement of a complement is the term, except for `eps`;
* `simplification_of_built`: all laws, for every built term.

Design notes: whether a term matches the empty word decides what becomes of the alternative `eps`, so
that this is how cases are split, and not by the kinds of terms.
-/
import ExtendedRegex.Mask
import ExtendedRegex.Proofs.Grouping
import ExtendedRegex.Proofs.Repetition

universe u v

namespace ExtendedRegex.Term

variable {S : Type u} [SetAlgebra S] {t : Term S}

/-! ### Closures -/

theorem starOf_forms (t : Term S) : starOf t = eps ∨ starOf t = all ∨ ∃ u, starOf t = star u := by
  cases t with
  | eps => exact .inl rfl
  | empty => exact .inl rfl
  | all => exact .inr (.inl rfl)
  | literal set =>
    rw [starOf]
    split
    · exact .inr (.inl rfl)
    · exact .inr (.inr ⟨_, rfl⟩)
  | _ => exact .inr (.inr ⟨_, rfl⟩)

variable [Ord S] [DecidableEq S]

theorem closure_forms (t : Term S) : closure t = eps ∨ closure t = all ∨ ∃ u, closure t = star u := by
  rcases closure_cases t with ⟨-, h⟩ | ⟨us, -, -, h⟩
  · exact h ▸ starOf_forms _
  · exact h ▸ starOf_forms _

theorem nullable_closure (t : Term S) : (closure t).nullable = true := by
  rcases closure_forms t with h | h | ⟨u, h⟩ <;> rw [h] <;> simp

theorem closure_closure (t : Term S) : closure (closure t) = closure t := by
  rcases closure_forms t with h | h | ⟨u, h⟩ <;> rw [h] <;> rfl

theorem plus_closure (t : Term S) : plus (closure t) = closure t := by
  rcases closure_forms t with h | h | ⟨u, h⟩ <;> rw [h] <;> rfl

/-- There is nothing to take away from a term that does not match the empty word. -/
theorem closure_eq_starOf (h : t.nullable = false) : closure t = starOf t := by
  rcases closure_cases t with ⟨-, heq⟩ | ⟨us, rfl, heps, -⟩
  · exact heq
  · exact absurd rfl (not_nullable_of_mem_alternatives h eps heps).2

/-! ### Options -/

section Options

theorem opt_eq_oneOf (heps : t ≠ eps) (hempty : t ≠ empty) (hall : t ≠ all) :
    opt t = oneOf [t, eps] := by
  cases t <;> first | rfl | contradiction

omit [SetAlgebra S] in
/-- Among members that do not match the empty word, `eps` has its place in front. -/
theorem UnionShape.cons_eps {us : List (Term S)} (shape : UnionShape us)
    (h : ∀ u ∈ us, u.nullable = false ∧ u ≠ .eps) : UnionShape (.eps :: us) where
  increasing := List.pairwise_cons.mpr
    ⟨fun u hu => compare_eq_lt_of_kind_lt (kind_pos (h u hu).2), shape.increasing⟩
  flat := List.forall_mem_cons.mpr ⟨by simp, shape.flat⟩
  literals a b ha hb := shape.literals a b (by simpa using ha) (by simpa using hb)
  epsilon := by
    intro _ u hu hnullable
    rcases List.mem_cons.mp hu with rfl | hu
    · rfl
    · rw [(h u hu).1] at hnullable
      contradiction

variable {E : Type v} [Membership E S]

theorem nullable_opt [LawfulSetAlgebra S E] (t : Term S) : (opt t).nullable = true := by
  rw [nullable_iff (E := E), language_opt]
  exact .inl rfl

variable [Std.TransOrd S] [Std.LawfulEqOrd S]

/-- The alternative `eps` makes no difference to a term that matches the empty word. -/
theorem opt_eq_self [LawfulSetAlgebra S E] (ht : Canonical t) (h : t.nullable = true) :
    opt t = t := by
  by_cases heps : t = .eps
  · rw [heps]
    rfl
  by_cases hall : t = .all
  · rw [hall]
    rfl
  have hempty : t ≠ .empty := by
    rintro rfl
    simp at h
  rw [opt_eq_oneOf heps hempty hall]
  refine (SameUnion.oneOf_eq ?_).trans (ht.oneOf_singleton (E := E))
  have hparts : [t, .eps].flatMap alternatives = t.alternatives ++ [.eps] := by
    rw [List.flatMap_cons, List.flatMap_singleton]
    rfl
  rw [hparts, List.flatMap_singleton]
  refine ⟨by simp, fun _ u hu => ?_, fun _ => ?_, fun _ => ?_⟩
  · have hne : u ≠ .eps := by
      rintro rfl
      contradiction
    simp [hne]
  · rw [List.filterMap_append]
    exact congrArg SetAlgebra.unionAll (List.append_nil _)
  · -- An alternative matches the empty word already.
    have hsome := any_nullable_alternatives.trans h
    exact iff_of_true ⟨.eps, by simp⟩ (List.any_eq_true.mp hsome)

/-- Any other term gets the alternative `eps`, in front of those that it has. -/
theorem opt_eq_alt [LawfulSetAlgebra S E] (ht : Canonical t) (hempty : t ≠ .empty)
    (h : t.nullable = false) : opt t = alt (.eps :: t.alternatives) := by
  have hne : ∀ u : Term S, u.nullable = true → t ≠ u := by
    rintro u hu rfl
    rw [h] at hu
    contradiction
  have shape := ht.unionShape_alternatives hempty (hne .all nullable_all)
  have hshape := shape.cons_eps (not_nullable_of_mem_alternatives h)
  have hmembers : ∀ u ∈ .eps :: t.alternatives, Canonical u :=
    List.forall_mem_cons.mpr ⟨.eps, fun u hu => (ht.of_mem_alternatives u hu).1⟩
  have hparts : oneOf [t, .eps] = oneOf (.eps :: t.alternatives) := by
    refine SameUnion.oneOf_eq (SameUnion.of_mem_iff fun u _ => ?_)
    rw [List.flatMap_cons, List.flatMap_singleton, List.flatMap_cons, ht.flatMap_alternatives,
      List.mem_append, List.mem_append, or_comm]
  have htwo : 2 ≤ (.eps :: t.alternatives : List (Term S)).length := by
    refine Nat.succ_le_succ (List.length_pos_iff.mpr fun hnil => hempty ?_)
    rw [← ht.ofAlternatives_alternatives, hnil]
    rfl
  rw [opt_eq_oneOf (hne .eps nullable_eps) hempty (hne .all nullable_all), hparts,
    hshape.oneOf_eq (E := E) hmembers, ofAlternatives_of_two_le htwo]

theorem closure_opt [LawfulSetAlgebra S E] (ht : Canonical t) : closure (opt t) = closure t := by
  by_cases hempty : t = .empty
  · rw [hempty]
    rfl
  cases h : t.nullable with
  | true => rw [opt_eq_self (E := E) ht h]
  | false =>
    have hrest : (.eps :: t.alternatives).filter (fun u => !u.isEps) = t.alternatives := by
      refine (List.filter_cons_of_neg (by simp [isEps])).trans (List.filter_eq_self.mpr ?_)
      intro u hu
      rw [Bool.not_eq_true', Bool.eq_false_iff, Ne, isEps_iff]
      exact (not_nullable_of_mem_alternatives h u hu).2
    calc closure (opt t)
        = closure (alt (.eps :: t.alternatives)) := by rw [opt_eq_alt (E := E) ht hempty h]
      _ = starOf (oneOf t.alternatives) := by rw [closure, if_pos (by simp [isEps]), hrest]
      _ = starOf t := by rw [ht.oneOf_alternatives (E := E)]
      _ = closure t := (closure_eq_starOf h).symm

end Options

/-! ### Complements -/

section Complements

variable {E : Type v} [Membership E S]

theorem complement_complement (ht : Canonical t) (h : t ≠ .eps) :
    complement (complement t) = t := by
  rcases complement_cases ht with rfl | rfl | rfl | ⟨u, rfl⟩ | ⟨heq, -⟩
  · contradiction
  · rfl
  · rfl
  · -- What was complemented is not of the four kinds that have no complement as a new node.
    cases ht with
    | compl body flat => exact complement_of_ne flat
  · rw [heq]
    rfl

omit [Ord S] [DecidableEq S] in
/-- The complement of `eps` is no complement node, and so the second one cannot take it away. -/
theorem complement_complement_eps [LawfulSetAlgebra S E] :
    complement (complement (eps : Term S)) = compl (seq [literal SetAlgebra.full, all]) := by
  rw [complement_eps (E := E)]
  rfl

end Complements

/-! ### All of them -/

/-- The operations on one term undo or absorb each other.  The complement of `eps` is a sequence, so
that the complement of this is another term than `eps`, but what it matches is the same. -/
theorem simplification_of_built (E : Type v) [Membership E S] [LawfulSetAlgebra S E]
    [Std.TransOrd S] [Std.LawfulEqOrd S] :
    (∀ t : Term S, Built t → closure (closure t) = closure t ∧ closure (opt t) = closure t ∧
      opt (closure t) = closure t ∧ plus (closure t) = closure t ∧ opt (opt t) = opt t ∧
      (t ≠ eps → complement (complement t) = t)) ∧
    complement (complement (eps : Term S)) ≠ eps ∧
    (complement (complement (eps : Term S))).language = ((eps : Term S).language : Language E) := by
  refine ⟨fun t ht => ?_, ?_, ?_⟩
  · have hc : Canonical t := ht.canonical (E := E)
    exact ⟨closure_closure t, closure_opt (E := E) hc,
      opt_eq_self (E := E) (canonical_closure (E := E) hc) (nullable_closure t), plus_closure t,
      opt_eq_self (E := E) (canonical_opt hc) (nullable_opt (E := E) t),
      complement_complement hc⟩
  · rw [complement_complement_eps (E := E)]
    simp
  · refine Language.ext fun w => ?_
    rw [mem_language_complement, mem_language_complement, not_not]

/-- A set with all symbols is optional only as an alternation, and its closure is `all`. -/
theorem simplification_of_built_full :
    Built (ofSet (⟨255#8⟩ : Mask)) ∧
    opt (ofSet (⟨255#8⟩ : Mask)) = alt [eps, literal ⟨255#8⟩] ∧
    closure (opt (ofSet (⟨255#8⟩ : Mask))) = all ∧
    complement (complement (ofSet (⟨255#8⟩ : Mask))) = ofSet ⟨255#8⟩ ∧
    complement (complement (eps : Term Mask)) ≠ eps := by
  obtain ⟨hlaws, hne, -⟩ := simplification_of_built (S := Mask) (Fin 8)
  have ht : Built (ofSet (⟨255#8⟩ : Mask)) := .ofSet _
  have hset : ofSet (⟨255#8⟩ : Mask) = literal ⟨255#8⟩ := if_neg (by decide)
  have hnullable : (ofSet (⟨255#8⟩ : Mask)).nullable = false := by
    rw [hset, nullable_literal]
  have hopt := opt_eq_alt (E := Fin 8) (ht.canonical (E := Fin 8)) (by simp [hset]) hnullable
  have hclosure : closure (ofSet (⟨255#8⟩ : Mask)) = all := by
    have hfull : SetAlgebra.isEmpty (SetAlgebra.compl (⟨255#8⟩ : Mask)) = true := by decide
    rw [hset, closure, starOf, if_pos hfull]
    simp
  obtain ⟨-, hopt_closure, -, -, -, hcomplement⟩ := hlaws _ ht
  refine ⟨ht, ?_, hopt_closure.trans hclosure, hcomplement (by simp [hset]), hne⟩
  rw [hopt, hset]
  rfl

end ExtendedRegex.Term
