/-
A term has finitely many derivatives.

A set of canonical terms is `PartialClosed` if it has the alternatives of all
derivatives of its terms, and `Closed` if it has the derivatives as well.

* `PartialClosed.sums`: the alternations of terms from a finite `PartialClosed` set
  are a finite `Closed` set;
* `Closed.meets`, `Closed.complements`: so are the intersections and the
  complements of terms from a finite `Closed` set;
* `partialClosed_before`: the terms of a `Closed` set can be put in front of the
  factors of a sequence;
* `Canonical.exists_closed`: every canonical term is in a finite `Closed` set.

Design notes: the derivative of an alternation is the alternation of the alternatives
of its members, so it is enough to close a set under single alternatives.  An
alternation is determined by the set of its terms, and a finite set has finitely many
subsets.  A double complement is taken away, and so what is under a complement has to
be in the set as well.
-/
import ExtendedRegex.Proofs.Partials
import Mathlib.Data.Set.Finite.List

universe u v

namespace ExtendedRegex.Term

variable {S : Type u}

/-- What a function makes of the lists over a finite set is a finite set, if only the set of the
terms of a list matters. -/
theorem finite_of_congr {f : List (Term S) → Term S} {K : Set (Term S)} (hK : K.Finite)
    (hf : ∀ ts us : List (Term S), (∀ t, t ∈ ts ↔ t ∈ us) → f ts = f us) :
    {d | ∃ ts, (∀ t ∈ ts, t ∈ K) ∧ d = f ts}.Finite := by
  classical
  -- A list can be replaced by the terms of the set that are in it, in the order of the set.
  have hfinite : {us | us ∈ hK.toFinset.toList.sublists}.Finite := List.finite_toSet _
  refine (hfinite.image f).subset ?_
  rintro d ⟨ts, hts, rfl⟩
  refine ⟨hK.toFinset.toList.filter (· ∈ ts), ?_, hf _ _ fun t => ?_⟩
  · exact List.mem_sublists.mpr List.filter_sublist
  · rw [List.mem_filter, Finset.mem_toList, Set.Finite.mem_toFinset, decide_eq_true_eq]
    exact ⟨fun h => h.2, fun h => ⟨hts t h, h⟩⟩

variable {E : Type v} [SetAlgebra S] [Membership E S] [Ord S] [DecidableEq S]

/-- A finite set of canonical terms that has the alternatives of their derivatives. -/
structure PartialClosed (E : Type v) [Membership E S] (K : Set (Term S)) : Prop where
  finite : K.Finite
  canonical : ∀ t ∈ K, Canonical t
  body : ∀ t, compl t ∈ K → t ∈ K
  partials : ∀ t ∈ K, ∀ e : E, ∀ d ∈ partials e t, d ∈ K

/-- A finite set of canonical terms that has their derivatives as well. -/
structure Closed (E : Type v) [Membership E S] (K : Set (Term S)) : Prop
    extends PartialClosed E K where
  derivative : ∀ t ∈ K, ∀ e : E, t.derivativeAt e ∈ K

theorem PartialClosed.union {K L : Set (Term S)} (hK : PartialClosed E K)
    (hL : PartialClosed E L) : PartialClosed E (K ∪ L) where
  finite := hK.finite.union hL.finite
  canonical t ht := ht.elim (hK.canonical t) (hL.canonical t)
  body t ht := ht.imp (hK.body t) (hL.body t)
  partials t ht e d hd := ht.imp (fun ht => hK.partials t ht e d hd) fun ht => hL.partials t ht e d hd

theorem Closed.union {K L : Set (Term S)} (hK : Closed E K) (hL : Closed E L) :
    Closed E (K ∪ L) where
  toPartialClosed := hK.toPartialClosed.union hL.toPartialClosed
  derivative t ht e := ht.imp (fun ht => hK.derivative t ht e) fun ht => hL.derivative t ht e

theorem closed_empty : Closed E (∅ : Set (Term S)) where
  finite := Set.finite_empty
  canonical := by simp
  body := by simp
  partials := by simp
  derivative := by simp

/-- Finitely many closed sets make a single one. -/
theorem exists_closed_of_forall {ts : List (Term S)}
    (h : ∀ t ∈ ts, ∃ K : Set (Term S), Closed E K ∧ t ∈ K) :
    ∃ K : Set (Term S), Closed E K ∧ ∀ t ∈ ts, t ∈ K := by
  induction ts with
  | nil => exact ⟨∅, closed_empty, by simp⟩
  | cons t ts ih =>
    obtain ⟨K, hK, ht⟩ := h t (List.mem_cons_self ..)
    obtain ⟨L, hL, hts⟩ := ih fun u hu => h u (List.mem_cons_of_mem t hu)
    refine ⟨K ∪ L, hK.union hL, fun u hu => ?_⟩
    rcases List.mem_cons.mp hu with rfl | hu
    · exact .inl ht
    · exact .inr (hts u hu)

/-! ### Alternations, intersections and complements over a set -/

/-- The alternations of terms from a set. -/
def sums (K : Set (Term S)) : Set (Term S) := {d | ∃ ts, (∀ t ∈ ts, t ∈ K) ∧ d = oneOf ts}

/-- The intersections of terms from a set. -/
def meets (K : Set (Term S)) : Set (Term S) := {d | ∃ ts, (∀ t ∈ ts, t ∈ K) ∧ d = allOf ts}

/-- The terms of a set and their complements, together with `all` and `empty`. -/
def complements (K : Set (Term S)) : Set (Term S) := K ∪ complement '' K ∪ {.all, .empty}

variable [LawfulSetAlgebra S E] {K C : Set (Term S)} {t : Term S} {ts : List (Term S)}

theorem Closed.mem_complements_of_compl (h : Closed E K) (ht : compl t ∈ complements K) :
    t ∈ complements K := by
  obtain (ht | ⟨u, hu, heq⟩) | heq | heq := ht
  · exact .inl (.inl (h.body t ht))
  · rcases complement_cases (h.canonical u hu) with rfl | rfl | rfl | ⟨v, rfl⟩ | ⟨hu', -⟩
    · rw [complement_eps (E := E)] at heq
      contradiction
    · contradiction
    · contradiction
    · -- The complement of `compl v` is `v`, and so `t` is under two complements.
      have hv : v = .compl t := heq
      exact .inl (.inl (h.body t (hv ▸ h.body v hu)))
    · rw [hu'] at heq
      exact .inl (.inl (compl.inj heq ▸ hu))
  · contradiction
  · contradiction

variable [Std.TransOrd S] [Std.LawfulEqOrd S]

/-- All terms but sequences have their derivative as the only alternative. -/
theorem Closed.of_derivative {L : Set (Term S)} (finite : L.Finite)
    (canonical : ∀ t ∈ L, Canonical t) (body : ∀ t, compl t ∈ L → t ∈ L)
    (derivative : ∀ t ∈ L, ∀ e : E, t.derivativeAt e ∈ L)
    (hseq : ∀ us, Term.seq us ∈ L → ∀ e : E, ∀ d ∈ Term.partials e (.seq us), d ∈ L) :
    Closed E L := by
  refine ⟨⟨finite, canonical, body, fun t ht e d hd => ?_⟩, derivative⟩
  by_cases heps : t = .eps
  · rw [heps, partials_eps] at hd
    exact absurd hd List.not_mem_nil
  by_cases hus : ∃ us, t = .seq us
  · obtain ⟨us, rfl⟩ := hus
    exact hseq us ht e d hd
  · rw [partials_of_ne (canonical t ht) heps fun us h => hus ⟨us, h⟩, List.mem_singleton] at hd
    rw [hd]
    exact derivative t ht e

theorem PartialClosed.subset_sums (h : PartialClosed E K) : K ⊆ sums K := by
  intro t ht
  refine ⟨[t], fun u hu => List.mem_singleton.mp hu ▸ ht, ?_⟩
  rw [(h.canonical t ht).oneOf_singleton]

theorem PartialClosed.derivativeAt_mem_sums (h : PartialClosed E K) (ht : t ∈ sums K) (e : E) :
    t.derivativeAt e ∈ sums K := by
  obtain ⟨ts, hts, rfl⟩ := ht
  have hcanonical : ∀ t ∈ ts, Canonical t := fun t ht => h.canonical t (hts t ht)
  have hpartials : ∀ us ∈ ts.map (Term.partials e), ∀ u ∈ us, Canonical u :=
    List.forall_mem_map.mpr fun t ht => canonical_of_mem_partials (hcanonical t ht)
  refine ⟨ts.flatMap (Term.partials e), fun d hd => ?_, ?_⟩
  · obtain ⟨t, ht, hd⟩ := List.mem_flatMap.mp hd
    exact h.partials t (hts t ht) e d hd
  · -- The alternatives of one member at a time make up its derivative.
    rw [derivativeAt_oneOf hcanonical, List.flatMap_def, ← oneOf_map_oneOf hpartials, List.map_map]
    exact congrArg oneOf (List.map_congr_left fun t ht =>
      derivativeAt_eq_oneOf_partials (hcanonical t ht))

/-- The alternations of terms from a set that has all alternatives are a closed set. -/
theorem PartialClosed.sums (h : PartialClosed E K) : Closed E (sums K) := by
  refine Closed.of_derivative ?_ ?_ ?_ (fun t ht => h.derivativeAt_mem_sums ht) ?_
  · exact finite_of_congr h.finite fun ts us hts => oneOf_congr fun t _ => hts t
  · rintro t ⟨ts, hts, rfl⟩
    exact canonical_oneOf fun t ht => h.canonical t (hts t ht)
  · rintro t ⟨ts, hts, heq⟩
    have hmem : compl t ∈ ts :=
      mem_of_oneOf_eq (fun t ht => h.canonical t (hts t ht)) rfl (by simp) heq.symm
    exact h.subset_sums (h.body t (hts _ hmem))
  · -- A sequence has several alternatives, but it is one of the terms of the set itself.
    rintro us ⟨ts, hts, heq⟩ e d hd
    have hmem : Term.seq us ∈ ts :=
      mem_of_oneOf_eq (fun t ht => h.canonical t (hts t ht)) rfl (by simp) heq.symm
    exact h.subset_sums (h.partials _ (hts _ hmem) e d hd)

theorem PartialClosed.exists_closed (h : PartialClosed E K) (ht : t ∈ K) :
    ∃ L : Set (Term S), Closed E L ∧ t ∈ L :=
  ⟨Term.sums K, h.sums, h.subset_sums ht⟩

theorem Closed.subset_meets (h : Closed E K) : K ⊆ meets K := by
  intro t ht
  refine ⟨[t], fun u hu => List.mem_singleton.mp hu ▸ ht, ?_⟩
  rw [(h.canonical t ht).allOf_singleton]

/-- The intersections of terms from a closed set are a closed set. -/
theorem Closed.meets (h : Closed E K) : Closed E (meets K) := by
  refine Closed.of_derivative ?_ ?_ ?_ ?_ ?_
  · exact finite_of_congr h.finite fun ts us => allOf_congr
  · rintro t ⟨ts, hts, rfl⟩
    exact canonical_allOf fun t ht => h.canonical t (hts t ht)
  · rintro t ⟨ts, hts, heq⟩
    have hmem : compl t ∈ ts :=
      mem_of_allOf_eq (fun t ht => h.canonical t (hts t ht)) rfl (by simp) heq.symm
    exact h.subset_meets (h.body t (hts _ hmem))
  · rintro t ⟨ts, hts, rfl⟩ e
    refine ⟨ts.map (derivativeAt e), ?_, derivativeAt_allOf fun t ht => h.canonical t (hts t ht)⟩
    exact List.forall_mem_map.mpr fun t ht => h.derivative t (hts t ht) e
  · rintro us ⟨ts, hts, heq⟩ e d hd
    have hmem : Term.seq us ∈ ts :=
      mem_of_allOf_eq (fun t ht => h.canonical t (hts t ht)) rfl (by simp) heq.symm
    exact h.subset_meets (h.partials _ (hts _ hmem) e d hd)

theorem Closed.derivativeAt_mem_complements (h : Closed E K) (ht : t ∈ complements K) (e : E) :
    t.derivativeAt e ∈ complements K := by
  obtain (ht | ⟨u, hu, rfl⟩) | rfl | rfl := ht
  · exact .inl (.inl (h.derivative t ht e))
  · rcases complement_cases (h.canonical u hu) with rfl | rfl | rfl | ⟨v, rfl⟩ | ⟨heq, hc⟩
    · rw [derivativeAt_eq_oneOf_partials (canonical_complement .eps), partials_complement_eps,
        Canonical.all.oneOf_singleton]
      exact .inr (.inl rfl)
    · exact .inr (.inl rfl)
    · exact .inr (.inr rfl)
    · exact .inl (.inl (h.derivative v (h.body v hu) e))
    · rw [heq, derivativeAt_compl hc]
      exact .inl (.inr ⟨_, h.derivative u hu e, rfl⟩)
  · exact .inr (.inl rfl)
  · exact .inr (.inr rfl)

/-- The terms of a closed set and their complements are a closed set, together with `all` and
`empty`. -/
theorem Closed.complements (h : Closed E K) : Closed E (complements K) := by
  refine Closed.of_derivative ?_ ?_ (fun t ht => h.mem_complements_of_compl ht)
    (fun t ht => h.derivativeAt_mem_complements ht) ?_
  · exact (h.finite.union (h.finite.image _)).union (by simp)
  · rintro t ((ht | ⟨u, hu, rfl⟩) | rfl | rfl)
    · exact h.canonical t ht
    · exact canonical_complement (h.canonical u hu)
    · exact .all
    · exact .empty
  · rintro us ((ht | ⟨u, hu, heq⟩) | heq | heq) e d hd
    · exact .inl (.inl (h.partials _ ht e d hd))
    · rcases complement_cases (h.canonical u hu) with rfl | rfl | rfl | ⟨v, rfl⟩ | ⟨hu', -⟩
      · rw [← heq, partials_complement_eps, List.mem_singleton] at hd
        exact .inr (.inl hd)
      · contradiction
      · contradiction
      · have hv : v = .seq us := heq
        exact .inl (.inl (h.partials _ (hv ▸ h.body v hu) e d hd))
      · rw [hu'] at heq
        contradiction
    · contradiction
    · contradiction

/-! ### Sequences over a set -/

/-- Terms of a closed set in front of the factors of a sequence, with the alternatives of the
factors themselves. -/
theorem partialClosed_before (hK : Closed E K) (hts : Flat ts) (finite : C.Finite)
    (canonical : ∀ t ∈ C, Canonical t) (body : ∀ t, compl t ∈ C → t ∈ C) (rest : ofFactors ts ∈ C)
    (hpartials : ∀ t ∈ C, ∀ e : E, ∀ d ∈ partials e t, d ∈ (before · ts) '' K ∪ C) :
    PartialClosed E ((before · ts) '' K ∪ C) := by
  refine ⟨(hK.finite.image _).union finite, ?_, ?_, ?_⟩
  · rintro t (⟨u, hu, rfl⟩ | ht)
    · exact hts.canonical_before (hK.canonical u hu)
    · exact canonical t ht
  · rintro t (⟨u, hu, heq⟩ | ht)
    · rcases eq_of_before_eq_compl (hK.canonical u hu) hts heq with hts | ⟨rfl, rfl⟩
      · rw [hts] at rest
        exact .inr (body t rest)
      · have ht := hK.body t hu
        exact .inl ⟨t, ht, (hK.canonical t ht).before_nil⟩
    · exact .inr (body t ht)
  · rintro t (⟨u, hu, rfl⟩ | ht) e d hd
    · rw [partials_before (hK.canonical u hu) hts] at hd
      rcases List.mem_append.mp hd with hd | hd
      · obtain ⟨d', hd', rfl⟩ := List.mem_map.mp hd
        exact .inl ⟨d', hK.partials u hu e d' hd', rfl⟩
      · split at hd
        · rw [← partials_ofFactors hts] at hd
          exact hpartials _ rest e d hd
        · contradiction
    · exact hpartials t ht e d hd

/-- The factors of a sequence from some point on are in a set that has all their alternatives. -/
theorem exists_partialClosed_ofFactors (hts : Flat ts)
    (h : ∀ t ∈ ts, ∃ K : Set (Term S), Closed E K ∧ t ∈ K) :
    ∃ C : Set (Term S), PartialClosed E C ∧ ofFactors ts ∈ C := by
  induction ts with
  | nil =>
    refine ⟨{.eps}, ⟨Set.finite_singleton _, ?_, by simp, ?_⟩, rfl⟩
    · rintro t rfl
      exact .eps
    · rintro t rfl e d hd
      exact absurd hd List.not_mem_nil
  | cons t ts ih =>
    obtain ⟨K, hK, ht⟩ := h t (List.mem_cons_self ..)
    obtain ⟨C, hC, hrest⟩ := ih hts.tail fun u hu => h u (List.mem_cons_of_mem t hu)
    obtain ⟨-, heps, hempty, hseq⟩ := hts t (List.mem_cons_self ..)
    refine ⟨(before · ts) '' K ∪ C, partialClosed_before hK hts.tail hC.finite hC.canonical hC.body
      hrest fun u hu e d hd => .inr (hC.partials u hu e d hd), .inl ⟨t, ht, ?_⟩⟩
    show before t ts = _
    rw [before_of_ne hempty, factors_of_ne_seq heps hseq]
    rfl

theorem exists_closed_star (hstar : Canonical (star t)) (hK : Closed E K) (ht : t ∈ K) :
    ∃ L : Set (Term S), Closed E L ∧ star t ∈ L := by
  refine PartialClosed.exists_closed (K := (before · [star t]) '' K ∪ {star t}) ?_ (.inr rfl)
  -- The derivatives of the star are those of its body, with the star behind.
  refine partialClosed_before hK hstar.flat_star (Set.finite_singleton _) ?_ (by simp) rfl ?_
  · rintro u rfl
    exact hstar
  · rintro u rfl e d hd
    rw [partials_of_ne hstar (by simp) (by simp), List.mem_singleton, derivativeAt_star hstar] at hd
    exact .inl ⟨t.derivativeAt e, hK.derivative t ht e, hd.symm⟩

/-! ### Every term -/

theorem exists_closed_literal {a : S} (inhabited : SetAlgebra.isEmpty a = false) :
    ∃ K : Set (Term S), Closed E K ∧ Term.literal a ∈ K := by
  refine ⟨{.literal a, .eps, .empty}, Closed.of_derivative (by simp) ?_ ?_ ?_ ?_, .inl rfl⟩
  · rintro t (rfl | rfl | rfl)
    · exact .literal inhabited
    · exact .eps
    · exact .empty
  · rintro t (h | h | h) <;> contradiction
  · rintro t (rfl | rfl | rfl) e
    · rw [derivativeAt]
      split
      · exact .inr (.inl rfl)
      · exact .inr (.inr rfl)
    · exact .inr (.inr rfl)
    · exact .inr (.inr rfl)
  · rintro us (h | h | h) <;> contradiction

/-- Every canonical term is in a finite set of canonical terms that has all derivatives of its
terms. -/
theorem Canonical.exists_closed (ht : Canonical t) :
    ∃ K : Set (Term S), Closed E K ∧ t ∈ K := by
  induction ht with
  | eps =>
    have hnil : Flat ([] : List (Term S)) := by simp [Flat]
    obtain ⟨C, hC, hmem⟩ := exists_partialClosed_ofFactors (E := E) hnil (by simp)
    exact hC.exists_closed hmem
  | empty => exact ⟨_, closed_empty.complements, .inr (.inr rfl)⟩
  | all => exact ⟨_, closed_empty.complements, .inr (.inl rfl)⟩
  | literal inhabited => exact exists_closed_literal inhabited
  | @alt ts members two shape ih =>
    obtain ⟨K, hK, hts⟩ := exists_closed_of_forall ih
    refine ⟨Term.sums K, hK.toPartialClosed.sums, ts, hts, ?_⟩
    rw [shape.oneOf_eq members, ofAlternatives_of_two_le two]
  | @seq ts members two flat ih =>
    obtain ⟨C, hC, hmem⟩ := exists_partialClosed_ofFactors
      (Canonical.seq members two flat).flat_of_seq ih
    rw [ofFactors_of_two_le two] at hmem
    exact hC.exists_closed hmem
  | @inter ts members two shape ih =>
    obtain ⟨K, hK, hts⟩ := exists_closed_of_forall ih
    refine ⟨Term.meets K, hK.meets, ts, hts, ?_⟩
    rw [shape.allOf_eq members, ofConjuncts_of_two_le two]
  | @compl t body flat ih =>
    obtain ⟨K, hK, ht⟩ := ih
    exact ⟨_, hK.complements, .inl (.inr ⟨t, ht, complement_of_ne flat⟩)⟩
  | star body flat proper epsilon ih =>
    obtain ⟨K, hK, ht⟩ := ih
    exact exists_closed_star (.star body flat proper epsilon) hK ht

end ExtendedRegex.Term
