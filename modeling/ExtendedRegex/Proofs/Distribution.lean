/-
Derivatives of canonical terms distribute over the building functions.

* `canonical_derivativeAt`: derivatives are canonical again, so that none of them is
  ever pruned;
* `derivativeAt_oneOf`, `derivativeAt_allOf`: the derivative of an alternation is
  built from the derivatives of the terms that it was built from, and so is that of
  an intersection;
* `plain_derivativeAt`: derivatives bring in no intersection and no complement.

Design notes: the members of an intersection can collapse when their first sets have
no symbol in common.  A member that excludes a symbol has the derivative `empty` by
it, and so the derivatives of the members collapse in the same way.
-/
import ExtendedRegex.Proofs.Grouping
import ExtendedRegex.Proofs.Quotient

universe u v

namespace ExtendedRegex.Term

open SetAlgebra (interAll)

variable {S : Type u} [SetAlgebra S] [Ord S] [DecidableEq S]

/-- The terms that a sequence can be made of as they are. -/
def Flat (ts : List (Term S)) : Prop :=
  ∀ t ∈ ts, Canonical t ∧ t ≠ eps ∧ t ≠ empty ∧ ∀ us, t ≠ seq us

section Flat

variable {t : Term S} {ts us vs : List (Term S)}

theorem Flat.tail (h : Flat (t :: ts)) : Flat ts := fun u hu => h u (List.mem_cons_of_mem t hu)

theorem Flat.append (hus : Flat us) (hvs : Flat vs) : Flat (us ++ vs) := fun t ht =>
  (List.mem_append.mp ht).elim (hus t) (hvs t)

theorem Canonical.flat_factors (ht : Canonical t) (hne : t ≠ .empty) : Flat t.factors := by
  intro p hp
  obtain ⟨hc, heps, hempty, hseq⟩ := ht.of_mem_factors p hp
  exact ⟨hc, heps, fun h => hne (hempty h), hseq⟩

theorem Canonical.flat_of_seq (h : Canonical (.seq ts)) : Flat ts := by
  cases h with
  | seq members two flat => exact fun t ht => ⟨members t ht, flat t ht⟩

theorem Canonical.flat_star (h : Canonical (.star t)) : Flat [Term.star t] := by
  intro u hu
  rw [List.mem_singleton.mp hu]
  exact ⟨h, by simp⟩

theorem Flat.canonical_before (ht : Canonical t) (h : Flat ts) : Canonical (before t ts) :=
  Term.canonical_before ht (fun u hu => (h u hu).1) fun u hu => (h u hu).2

theorem Flat.factors_ofFactors (h : Flat ts) : (ofFactors ts).factors = ts :=
  Term.factors_ofFactors fun t ht => ⟨(h t ht).2.1, (h t ht).2.2.2⟩

theorem Canonical.ofFactors_factors (ht : Canonical t) : ofFactors t.factors = t := by
  cases ht with
  | seq members two flat => exact ofFactors_of_two_le two
  | _ => rfl

theorem Canonical.before_nil (ht : Canonical t) : before t [] = t := by
  by_cases hempty : t = .empty
  · rw [hempty, before_empty]
  · rw [before_of_ne hempty, List.append_nil, ht.ofFactors_factors]

theorem before_ne_empty (ht : Canonical t) (hne : t ≠ empty) (h : Flat ts) :
    before t ts ≠ empty := by
  have hflat := (ht.flat_factors hne).append h
  rw [before_of_ne hne]
  intro hempty
  have hfactors := hflat.factors_ofFactors
  rw [hempty] at hfactors
  exact (hflat empty (hfactors ▸ List.mem_singleton_self _)).2.2.1 rfl

theorem factors_before (ht : Canonical t) (hne : t ≠ empty) (h : Flat ts) :
    (before t ts).factors = t.factors ++ ts := by
  rw [before_of_ne hne, ((ht.flat_factors hne).append h).factors_ofFactors]

/-- A sequence that is a complement has a single factor, in front or behind. -/
theorem eq_of_before_eq_compl {u : Term S} (hu : Canonical u) (hts : Flat ts)
    (heq : before u ts = compl t) : ofFactors ts = compl t ∨ u = compl t ∧ ts = [] := by
  have hne : u ≠ .empty := by
    rintro rfl
    contradiction
  have hfactors : u.factors ++ ts = [.compl t] := by
    rw [← factors_before hu hne hts, heq]
    rfl
  rcases List.append_eq_singleton_iff.mp hfactors with ⟨-, hts⟩ | ⟨hu', hts⟩
  · rw [hts]
    exact .inl rfl
  · rw [← hu.ofFactors_factors, hu']
    exact .inr ⟨rfl, hts⟩

/-- Factors can be put in front of others one group after another. -/
theorem before_before (ht : Canonical t) (hus : Flat us) :
    before (before t us) vs = before t (us ++ vs) := by
  by_cases hne : t = empty
  · rw [hne, before_empty, before_empty, before_empty]
  · rw [before_of_ne (before_ne_empty ht hne hus), factors_before ht hne hus, before_of_ne hne,
      List.append_assoc]

end Flat

/-! ### Derivatives are canonical -/

section Derivatives

variable {E : Type v} [Membership E S] {e : E} {t : Term S} {ts us vs : List (Term S)}

theorem canonical_derivativeAtSeq (h : Flat ts) (hd : ∀ t ∈ ts, Canonical (t.derivativeAt e)) :
    ∀ d ∈ derivativeAtSeq e ts, Canonical d := by
  induction ts with
  | nil => exact fun d hd => absurd hd List.not_mem_nil
  | cons t ts ih =>
    intro d hmem
    rw [derivativeAtSeq] at hmem
    rcases List.mem_cons.mp hmem with rfl | hmem
    · exact h.tail.canonical_before (hd t (List.mem_cons_self ..))
    · split at hmem
      · exact ih h.tail (fun u hu => hd u (List.mem_cons_of_mem t hu)) d hmem
      · contradiction

variable [Std.TransOrd S] [Std.LawfulEqOrd S] [LawfulSetAlgebra S E]

/-- The derivative of a canonical term is canonical. -/
theorem canonical_derivativeAt (ht : Canonical t) : Canonical (t.derivativeAt e) := by
  induction ht with
  | eps => exact .empty
  | empty => exact .empty
  | all => exact .all
  | literal inhabited =>
    rw [derivativeAt]
    split
    · exact .eps
    · exact .empty
  | alt members two shape ih =>
    rw [derivativeAt, derivativeAtEach_eq_map]
    exact (canonical_oneOf (List.forall_mem_map.mpr ih)).prune
  | seq members two flat ih =>
    have hflat := (Canonical.seq members two flat).flat_of_seq
    rw [derivativeAt]
    exact (canonical_oneOf (canonical_derivativeAtSeq hflat ih)).prune
  | inter members two shape ih =>
    rw [derivativeAt, derivativeAtEach_eq_map]
    exact (canonical_allOf (List.forall_mem_map.mpr ih)).prune
  | compl body flat ih =>
    rw [derivativeAt]
    exact (canonical_complement ih).prune
  | star body flat proper epsilon ih =>
    -- The star itself is the only factor behind the derivative of its body.
    have hflat := (Canonical.star body flat proper epsilon).flat_star
    rw [derivativeAt]
    exact (hflat.canonical_before ih).prune

theorem canonical_derivativeAlong (ht : Canonical t) (w : List E) :
    Canonical (t.derivativeAlong w) := by
  induction w generalizing t with
  | nil => exact ht
  | cons e w ih => exact ih (canonical_derivativeAt ht)

/-! ### Without pruning -/

theorem derivativeAt_alt (h : Canonical (alt ts)) :
    (alt ts).derivativeAt e = oneOf (ts.map (derivativeAt e)) := by
  cases h with
  | alt members two shape =>
    have hc : Canonical (oneOf (ts.map (derivativeAt e))) :=
      canonical_oneOf (List.forall_mem_map.mpr fun t ht => canonical_derivativeAt (members t ht))
    rw [derivativeAt, derivativeAtEach_eq_map, hc.prune_eq_self]

theorem derivativeAt_seq (h : Canonical (seq ts)) :
    (seq ts).derivativeAt e = oneOf (derivativeAtSeq e ts) := by
  have hc : Canonical (oneOf (derivativeAtSeq e ts)) :=
    canonical_oneOf (canonical_derivativeAtSeq h.flat_of_seq fun t ht =>
      canonical_derivativeAt (h.flat_of_seq t ht).1)
  rw [derivativeAt, hc.prune_eq_self]

theorem derivativeAt_inter (h : Canonical (inter ts)) :
    (inter ts).derivativeAt e = allOf (ts.map (derivativeAt e)) := by
  cases h with
  | inter members two shape =>
    have hc : Canonical (allOf (ts.map (derivativeAt e))) :=
      canonical_allOf (List.forall_mem_map.mpr fun t ht => canonical_derivativeAt (members t ht))
    rw [derivativeAt, derivativeAtEach_eq_map, hc.prune_eq_self]

theorem derivativeAt_compl (h : Canonical (compl t)) :
    (compl t).derivativeAt e = complement (t.derivativeAt e) := by
  cases h with
  | compl body flat =>
    rw [derivativeAt, (canonical_complement (canonical_derivativeAt body)).prune_eq_self]

theorem derivativeAt_star (h : Canonical (star t)) :
    (star t).derivativeAt e = before (t.derivativeAt e) [star t] := by
  have hbody : Canonical t := by
    cases h with
    | star body flat proper epsilon => exact body
  rw [derivativeAt, (h.flat_star.canonical_before (canonical_derivativeAt hbody)).prune_eq_self]

end Derivatives

/-! ### Alternations and intersections -/

section Plain

variable {E : Type v} [Membership E S] {e : E} {t : Term S} {ts : List (Term S)}

theorem plain_of_mem_unionMembers (h : ∀ t ∈ ts, t.plain = true) :
    ∀ t ∈ unionMembers ts, t.plain = true := by
  intro t ht
  rcases mem_unionMembers.mp ht with ⟨rfl, -⟩ | ⟨set, rfl, -⟩ | ⟨-, ht⟩
  · exact plain_eps
  · exact plain_literal
  · exact h t ht

theorem plain_oneOf (h : ∀ t ∈ ts, t.plain = true) : (oneOf ts).plain = true := by
  by_cases hall : all ∈ ts.flatMap alternatives
  · rw [oneOf_of_all_mem hall, plain_all]
  · rw [oneOf_of_all_not_mem hall]
    refine plain_ofAlternatives (plain_of_mem_unionMembers fun p hp => ?_)
    obtain ⟨t, ht, hp⟩ := List.mem_flatMap.mp hp
    exact plain_of_mem_alternatives (h t ht) p hp

theorem plain_derivativeAtSeq (hd : ∀ t ∈ ts, (t.derivativeAt e).plain = true)
    (h : ∀ t ∈ ts, t.plain = true) : ∀ d ∈ derivativeAtSeq e ts, d.plain = true := by
  induction ts with
  | nil => exact fun d hd => absurd hd List.not_mem_nil
  | cons t ts ih =>
    have h' : ∀ u ∈ ts, u.plain = true := fun u hu => h u (List.mem_cons_of_mem t hu)
    intro d hmem
    rw [derivativeAtSeq] at hmem
    rcases List.mem_cons.mp hmem with rfl | hmem
    · exact plain_before (hd t (List.mem_cons_self ..)) h'
    · split at hmem
      · exact ih (fun u hu => hd u (List.mem_cons_of_mem t hu)) h' d hmem
      · contradiction

/-- Derivatives bring in no intersection and no complement. -/
theorem plain_derivativeAt (h : t.plain = true) : (t.derivativeAt e).plain = true := by
  induction t using memberInduction with
  | eps => exact plain_empty
  | empty => exact plain_empty
  | all => exact plain_all
  | literal set =>
    rw [derivativeAt]
    split
    · exact plain_eps
    · exact plain_empty
  | alt ts ih =>
    rw [plain_alt, List.all_eq_true] at h
    rw [derivativeAt, derivativeAtEach_eq_map]
    exact plain_prune (plain_oneOf (List.forall_mem_map.mpr fun t ht => ih t ht (h t ht)))
  | seq ts ih =>
    rw [plain_seq, List.all_eq_true] at h
    rw [derivativeAt]
    exact plain_prune (plain_oneOf (plain_derivativeAtSeq (fun t ht => ih t ht (h t ht)) h))
  | inter ts ih => simp at h
  | compl t ih => simp at h
  | star t ih =>
    rw [derivativeAt]
    refine plain_prune (plain_before (ih (plain_star ▸ h)) fun u hu => ?_)
    rw [List.mem_singleton.mp hu]
    exact h

end Plain

section Distribution

variable {E : Type v} [Membership E S] [LawfulSetAlgebra S E] {e : E} {t : Term S}
  {ts us : List (Term S)}

/-- Literals that are joined into one have the same derivatives as before, and the empty word has
none. -/
theorem mem_map_derivativeAt_unionMembers {parts : List (Term S)} (hall : all ∉ parts)
    {d : Term S} (hd : d ≠ empty) :
    d ∈ (unionMembers parts).map (derivativeAt e) ↔ d ∈ parts.map (derivativeAt e) := by
  rw [List.mem_map, List.mem_map]
  constructor
  · rintro ⟨t, ht, rfl⟩
    rcases mem_unionMembers.mp ht with ⟨rfl, -⟩ | ⟨set, rfl, hset, -⟩ | ⟨-, ht⟩
    · exact absurd rfl hd
    · rw [derivativeAt] at hd ⊢
      by_cases he : e ∈ set
      · obtain ⟨a, ha, hea⟩ := mem_unionAll_literals.mp (hset ▸ he)
        exact ⟨_, ha, by rw [derivativeAt, if_pos hea, if_pos he]⟩
      · exact absurd (if_neg he) hd
    · exact ⟨t, ht, rfl⟩
  · rintro ⟨p, hp, rfl⟩
    by_cases hc : p.isCompound = true
    · exact ⟨p, (mem_unionMembers_of_isCompound hc).mpr hp, rfl⟩
    rcases cases_of_not_isCompound (Bool.not_eq_true _ ▸ hc) with rfl | rfl | rfl | ⟨a, rfl⟩
    · exact absurd rfl hd
    · exact absurd rfl hd
    · exact absurd hp hall
    · rw [derivativeAt] at hd ⊢
      by_cases he : e ∈ a
      · have hmem := mem_unionAll_literals.mpr ⟨a, hp, he⟩
        refine ⟨_, literal_mem_unionMembers hmem, ?_⟩
        rw [derivativeAt, if_pos hmem, if_pos he]
      · exact absurd (if_neg he) hd

variable [Std.TransOrd S] [Std.LawfulEqOrd S]

/-- The derivative by a symbol that the first set excludes is `empty`. -/
theorem derivativeAt_of_not_admits (ht : Canonical t) (h : ¬ t.Admits e) :
    t.derivativeAt e = empty := by
  rw [admits_iff, Classical.not_imp] at h
  obtain ⟨hplain, he⟩ := h
  -- A plain derivative other than `empty` would match some word.
  by_contra hne
  obtain ⟨w, hw⟩ := (canonical_derivativeAt (e := e) ht).exists_mem_language (E := E)
    (plain_derivativeAt hplain) hne
  exact he (mem_firstBound (mem_language_derivativeAt.mp hw))

theorem derivativeAt_ofAlternatives (h : ∀ t ∈ ts, Canonical t) (shape : UnionShape ts) :
    (ofAlternatives ts).derivativeAt e = oneOf (ts.map (derivativeAt e)) := by
  have hc := canonical_ofAlternatives h shape
  match ts with
  | [] => exact oneOf_nil.symm
  | [t] => exact (canonical_derivativeAt hc).oneOf_singleton.symm
  | t :: u :: ts => exact derivativeAt_alt hc

theorem derivativeAt_eq_oneOf (ht : Canonical t) :
    t.derivativeAt e = oneOf (t.alternatives.map (derivativeAt e)) := by
  by_cases halt : ∃ us, t = alt us
  · obtain ⟨us, rfl⟩ := halt
    exact derivativeAt_alt ht
  · rw [alternatives_of_ne_alt fun us hus => halt ⟨us, hus⟩]
    exact (canonical_derivativeAt ht).oneOf_singleton.symm

/-- The derivative of an alternation is that of the terms that it was built from. -/
theorem derivativeAt_oneOf (h : ∀ t ∈ ts, Canonical t) :
    (oneOf ts).derivativeAt e = oneOf (ts.map (derivativeAt e)) := by
  have hparts := canonical_of_mem_flatMap_alternatives h
  -- The derivative of a term is made of those of its alternatives.
  have hgroup : oneOf (ts.map (derivativeAt e)) =
      oneOf ((ts.flatMap alternatives).map (derivativeAt e)) := by
    have hd : ∀ us ∈ ts.map fun t => t.alternatives.map (derivativeAt e), ∀ u ∈ us, Canonical u := by
      simp only [List.forall_mem_map]
      exact fun t ht p hp => canonical_derivativeAt ((h t ht).of_mem_alternatives p hp).1
    rw [List.map_flatMap, List.flatMap_def, ← oneOf_map_oneOf hd, List.map_map]
    exact congrArg oneOf (List.map_congr_left fun t ht => derivativeAt_eq_oneOf (h t ht))
  rw [hgroup]
  by_cases hall : all ∈ ts.flatMap alternatives
  · -- The part `all` is its own derivative.
    rw [oneOf_of_all_mem hall, oneOf_of_all_mem]
    · rfl
    · exact List.mem_flatMap.mpr ⟨all, List.mem_map.mpr ⟨all, hall, rfl⟩, List.mem_singleton_self _⟩
  · have shape : UnionShape (unionMembers (ts.flatMap alternatives)) :=
      unionShape_unionMembers fun p hp => (hparts p hp).2
    rw [oneOf_of_all_not_mem hall, derivativeAt_ofAlternatives ?_ shape]
    · exact oneOf_congr fun d hd => mem_map_derivativeAt_unionMembers hall hd
    · exact canonical_of_mem_unionMembers fun p hp => (hparts p hp).1

theorem derivativeAt_ofConjuncts (h : ∀ t ∈ ts, Canonical t) (shape : MeetShape ts) :
    (ofConjuncts ts).derivativeAt e = allOf (ts.map (derivativeAt e)) := by
  have hc := canonical_ofConjuncts h shape
  match ts with
  | [] => exact allOf_nil.symm
  | [t] => exact (canonical_derivativeAt hc).allOf_singleton.symm
  | t :: u :: ts => exact derivativeAt_inter hc

theorem derivativeAt_eq_allOf (ht : Canonical t) :
    t.derivativeAt e = allOf (t.conjuncts.map (derivativeAt e)) := by
  by_cases hall : t = all
  · rw [hall]
    exact allOf_nil.symm
  by_cases hinter : ∃ us, t = inter us
  · obtain ⟨us, rfl⟩ := hinter
    exact derivativeAt_inter ht
  · rw [conjuncts_of_ne_inter hall fun us hus => hinter ⟨us, hus⟩]
    exact (canonical_derivativeAt ht).allOf_singleton.symm

/-- The derivatives of the members of an intersection meet in the same term as those of the parts.
-/
theorem allOf_map_derivativeAt_meetMembers {parts : List (Term S)}
    (h : ∃ f : E, ∀ p ∈ parts, p.Admits f) (hall : all ∉ parts) :
    allOf ((meetMembers parts).map (derivativeAt e)) = allOf (parts.map (derivativeAt e)) := by
  obtain ⟨f, hf⟩ := h
  by_cases he : e ∈ interAll (parts.filterMap literal?)
  · -- Every literal has the symbol, and so has the joined one.
    refine allOf_congr fun d => ?_
    rw [List.mem_map, List.mem_map]
    constructor
    · rintro ⟨t, ht, rfl⟩
      rcases mem_meetMembers.mp ht with ⟨set, rfl, rfl, ⟨a, ha⟩, -⟩ | ⟨-, ht⟩
      · refine ⟨_, ha, ?_⟩
        rw [derivativeAt, derivativeAt, if_pos he, if_pos (mem_interAll_literals.mp he a ha)]
      · exact ⟨t, ht, rfl⟩
    · rintro ⟨p, hp, rfl⟩
      rcases (hf p hp).cases with hc | rfl | ⟨a, rfl⟩
      · exact ⟨p, (mem_meetMembers_of_isCompound hc).mpr hp, rfl⟩
      · exact absurd hp hall
      · refine ⟨_, literal_mem_meetMembers hf hp, ?_⟩
        rw [derivativeAt, derivativeAt, if_pos he, if_pos (mem_interAll_literals.mp he a hp)]
  · -- Some literal has the derivative `empty`, and so has the joined one.
    obtain ⟨a, ha, hea⟩ : ∃ a, literal a ∈ parts ∧ e ∉ a := by
      rw [mem_interAll_literals] at he
      push Not at he
      exact he
    rw [allOf_of_empty_mem, allOf_of_empty_mem]
    · refine List.mem_map.mpr ⟨_, ha, ?_⟩
      rw [derivativeAt, if_neg hea]
    · refine List.mem_map.mpr ⟨_, literal_mem_meetMembers hf ha, ?_⟩
      rw [derivativeAt, if_neg he]

/-- The derivative of an intersection is that of the terms that it was built from. -/
theorem derivativeAt_allOf (h : ∀ t ∈ ts, Canonical t) :
    (allOf ts).derivativeAt e = allOf (ts.map (derivativeAt e)) := by
  have hparts := canonical_of_mem_flatMap_conjuncts h
  -- The derivative of a term is made of those of its conjuncts.
  have hgroup : allOf (ts.map (derivativeAt e)) =
      allOf ((ts.flatMap conjuncts).map (derivativeAt e)) := by
    have hd : ∀ us ∈ ts.map fun t => t.conjuncts.map (derivativeAt e), ∀ u ∈ us, Canonical u := by
      simp only [List.forall_mem_map]
      exact fun t ht p hp => canonical_derivativeAt ((h t ht).of_mem_conjuncts p hp).1
    rw [List.map_flatMap, List.flatMap_def, ← allOf_map_allOf hd, List.map_map]
    exact congrArg allOf (List.map_congr_left fun t ht => derivativeAt_eq_allOf (h t ht))
  rw [hgroup]
  by_cases hfirst : ∃ f : E, ∀ p ∈ ts.flatMap conjuncts, p.Admits f
  · have shape : MeetShape (meetMembers (ts.flatMap conjuncts)) :=
      meetShape_meetMembers (fun p hp => (hparts p hp).2) hfirst
    have hall : all ∉ ts.flatMap conjuncts := fun hall => (hparts _ hall).2.1 rfl
    rw [allOf_of_admits hfirst, derivativeAt_ofConjuncts ?_ shape]
    · exact allOf_map_derivativeAt_meetMembers hfirst hall
    · exact canonical_of_mem_meetMembers fun p hp => (hparts p hp).1
  · -- Some part excludes the symbol.
    obtain ⟨p, hp, hpe⟩ : ∃ p ∈ ts.flatMap conjuncts, ¬ p.Admits e := by
      by_contra hnone
      push Not at hnone
      exact hfirst ⟨e, hnone⟩
    rw [allOf_of_not_admits hfirst, allOf_of_empty_mem]
    · split <;> rfl
    · exact List.mem_map.mpr ⟨p, hp, derivativeAt_of_not_admits (hparts p hp).1 hpe⟩

end Distribution

end ExtendedRegex.Term
