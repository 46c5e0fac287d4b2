/-
The alternatives that a derivative splits into.

A sequence reads a symbol by one of its factors, and the derivative has an
alternative for each factor that can be the first to read something.

* `derivativeAt_eq_oneOf_partials`: the alternatives make up the derivative;
* `partials_before`: with more factors behind, each alternative is followed by them,
  and if the term is nullable there are the alternatives of the factors behind.

Design notes: a term that is no sequence has its derivative as the only
alternative, even if that is an alternation.
-/
import ExtendedRegex.Proofs.Distribution

universe u v

namespace ExtendedRegex.Term

variable {S : Type u} {E : Type v} [SetAlgebra S] [Membership E S] [Ord S] [DecidableEq S]

/-- The alternatives of the derivative, one for each factor that can read the symbol. -/
noncomputable def partials (e : E) (t : Term S) : List (Term S) := derivativeAtSeq e t.factors

variable {e : E} {t : Term S} {ts us vs : List (Term S)}

@[simp] theorem partials_eps : partials e (eps : Term S) = [] := rfl

@[simp] theorem partials_empty : partials e (empty : Term S) = [empty] := by
  show derivativeAtSeq e [empty] = [empty]
  rw [derivativeAtSeq, if_neg (by simp)]
  rfl

theorem partials_ofFactors (h : Flat ts) : partials e (ofFactors ts) = derivativeAtSeq e ts := by
  rw [partials, h.factors_ofFactors]

theorem partials_complement_eps [LawfulSetAlgebra S E] : partials e (complement (eps : Term S)) = [all] := by
  rw [complement_eps (E := E)]
  show derivativeAtSeq e [literal SetAlgebra.full, all] = [all]
  rw [derivativeAtSeq, derivativeAt, if_pos (LawfulSetAlgebra.mem_full e), if_neg (by simp)]
  rfl

variable [LawfulSetAlgebra S E] [Std.TransOrd S] [Std.LawfulEqOrd S]

theorem partials_of_ne (ht : Canonical t) (heps : t ≠ eps) (hseq : ∀ us, t ≠ seq us) :
    partials e t = [t.derivativeAt e] := by
  rw [partials, factors_of_ne_seq heps hseq, derivativeAtSeq, derivativeAtSeq, ite_self,
    (canonical_derivativeAt ht).before_nil]

theorem canonical_of_mem_partials (ht : Canonical t) : ∀ d ∈ partials e t, Canonical d := by
  by_cases hempty : t = empty
  · rw [hempty, partials_empty]
    exact fun d hd => List.mem_singleton.mp hd ▸ .empty
  · have hflat := ht.flat_factors hempty
    exact canonical_derivativeAtSeq hflat fun p hp => canonical_derivativeAt (hflat p hp).1

theorem derivativeAt_eq_oneOf_partials (ht : Canonical t) :
    t.derivativeAt e = oneOf (partials e t) := by
  by_cases heps : t = eps
  · rw [heps, partials_eps, oneOf_nil]
    rfl
  by_cases hseq : ∃ us, t = seq us
  · obtain ⟨us, rfl⟩ := hseq
    exact derivativeAt_seq ht
  · rw [partials_of_ne ht heps fun us hus => hseq ⟨us, hus⟩,
      (canonical_derivativeAt ht).oneOf_singleton]

theorem derivativeAtSeq_append (h : Flat us) :
    derivativeAtSeq e (us ++ vs) = (derivativeAtSeq e us).map (before · vs) ++
      if us.all nullable then derivativeAtSeq e vs else [] := by
  induction us with
  | nil => simp [derivativeAtSeq]
  | cons u us ih =>
    -- The alternatives of the factors behind are there if all those in front are nullable.
    have hd : Canonical (u.derivativeAt e) := canonical_derivativeAt (h u (List.mem_cons_self ..)).1
    rw [List.cons_append, derivativeAtSeq, derivativeAtSeq, List.map_cons,
      before_before hd h.tail, List.all_cons, ih h.tail]
    by_cases hnull : u.nullable = true
    · rw [if_pos hnull, if_pos hnull, hnull, Bool.true_and]
      rfl
    · rw [if_neg hnull, if_neg hnull, if_neg]
      · rfl
      · rw [Bool.and_eq_true]
        exact fun h => hnull h.1

theorem partials_before (ht : Canonical t) (h : Flat ts) :
    partials e (before t ts) = (partials e t).map (before · ts) ++
      if t.nullable then derivativeAtSeq e ts else [] := by
  by_cases hempty : t = empty
  · rw [hempty, before_empty, partials_empty, if_neg (by simp)]
    rfl
  · rw [partials, factors_before ht hempty h, derivativeAtSeq_append (ht.flat_factors hempty),
      all_nullable_factors]
    rfl

end ExtendedRegex.Term
