/-
Canonical terms, and the building functions that make them.

`Canonical` describes the terms that nothing simplifies any further.  Members of
alternations and intersections are strictly increasing, with at most one literal, and
nothing is nested that could be flattened.

* `Built` is the closure of nothing under the building functions;
* `Built.canonical`: every built term is canonical;
* `UnionShape.oneOf_eq`, `MeetShape.allOf_eq`: building an alternation or an intersection again
  from its members changes nothing.

Design notes: `UnionShape` and `MeetShape` are the conditions on a list of members as
such.  The members that `oneOf` and `allOf` choose always meet them, also when there
are fewer than two.
-/
import ExtendedRegex.Proofs.Operations
import ExtendedRegex.Proofs.Order

universe u v

namespace ExtendedRegex.Term

open SetAlgebra (unionAll interAll mem_unionAll mem_interAll isEmpty_eq_false_iff)

variable {S : Type u} [SetAlgebra S] [Ord S] [DecidableEq S]

/-- The form of the members of an alternation. -/
structure UnionShape (ts : List (Term S)) : Prop where
  increasing : Increasing ts
  flat : ∀ t ∈ ts, t ≠ empty ∧ t ≠ all ∧ ∀ us, t ≠ alt us
  literals : ∀ a b, literal a ∈ ts → literal b ∈ ts → a = b
  epsilon : eps ∈ ts → ∀ t ∈ ts, t.nullable = true → t = eps

/-- The form of the members of an intersection. -/
structure MeetShape (ts : List (Term S)) : Prop where
  increasing : Increasing ts
  flat : ∀ t ∈ ts, t ≠ all ∧ ∀ us, t ≠ inter us
  literals : ∀ a b, literal a ∈ ts → literal b ∈ ts → a = b
  first : SetAlgebra.isEmpty (interAll (ts.filterMap firstSet?)) = false

/-- Terms in canonical form. -/
inductive Canonical : Term S → Prop where
  | eps : Canonical eps
  | empty : Canonical empty
  | all : Canonical all
  | literal {set : S} (inhabited : SetAlgebra.isEmpty set = false) : Canonical (literal set)
  | alt {ts : List (Term S)} (members : ∀ t ∈ ts, Canonical t) (two : 2 ≤ ts.length)
      (shape : UnionShape ts) : Canonical (alt ts)
  | seq {ts : List (Term S)} (members : ∀ t ∈ ts, Canonical t) (two : 2 ≤ ts.length)
      (flat : ∀ t ∈ ts, t ≠ .eps ∧ t ≠ .empty ∧ ∀ us, t ≠ .seq us) : Canonical (seq ts)
  | inter {ts : List (Term S)} (members : ∀ t ∈ ts, Canonical t) (two : 2 ≤ ts.length)
      (shape : MeetShape ts) : Canonical (inter ts)
  | compl {t : Term S} (body : Canonical t)
      (flat : t ≠ .eps ∧ t ≠ .empty ∧ t ≠ .all ∧ ∀ u, t ≠ .compl u) : Canonical (compl t)
  | star {t : Term S} (body : Canonical t)
      (flat : t ≠ .eps ∧ t ≠ .empty ∧ t ≠ .all ∧ ∀ u, t ≠ .star u)
      (proper : ∀ a, t = .literal a → SetAlgebra.isEmpty (SetAlgebra.compl a) = false)
      (epsilon : ∀ us, t = .alt us → .eps ∉ us) : Canonical (star t)

/-- Terms that the building functions make. -/
inductive Built : Term S → Prop where
  | eps : Built eps
  | empty : Built empty
  | all : Built all
  | ofSet (set : S) : Built (ofSet set)
  | concat {ts : List (Term S)} (h : ∀ t ∈ ts, Built t) : Built (concat ts)
  | oneOf {ts : List (Term S)} (h : ∀ t ∈ ts, Built t) : Built (oneOf ts)
  | allOf {ts : List (Term S)} (h : ∀ t ∈ ts, Built t) : Built (allOf ts)
  | complement {t : Term S} (h : Built t) : Built (complement t)
  | closure {t : Term S} (h : Built t) : Built (closure t)
  | plus {t : Term S} (h : Built t) : Built (plus t)
  | opt {t : Term S} (h : Built t) : Built (opt t)
  | rep {t : Term S} (h : Built t) (min : Nat) (max : Option Nat) : Built (rep t min max)
  | word (sets : List S) : Built (word sets)

/-! ### Alternations -/

section Alternations

variable {t : Term S} {ts parts : List (Term S)}

theorem Canonical.of_mem_alternatives (ht : Canonical t) :
    ∀ p ∈ t.alternatives, Canonical p ∧ ∀ us, p ≠ .alt us := by
  by_cases h : ∃ us, t = .alt us
  · obtain ⟨us, rfl⟩ := h
    cases ht with
    | alt members two shape => exact fun p hp => ⟨members p hp, (shape.flat p hp).2.2⟩
  · have hne : ∀ us, t ≠ .alt us := fun us hus => h ⟨us, hus⟩
    rw [alternatives_of_ne_alt hne]
    intro p hp
    rw [List.mem_singleton.mp hp]
    exact ⟨ht, hne⟩

theorem Canonical.flatMap_alternatives (ht : Canonical t) :
    t.alternatives.flatMap alternatives = t.alternatives :=
  flatMap_eq_self fun p hp => alternatives_of_ne_alt (ht.of_mem_alternatives p hp).2

theorem Canonical.ofAlternatives_alternatives (ht : Canonical t) :
    ofAlternatives t.alternatives = t := by
  cases ht with
  | alt members two shape => exact ofAlternatives_of_two_le two
  | _ => rfl

theorem Canonical.unionShape_alternatives (ht : Canonical t) (hempty : t ≠ .empty)
    (hall : t ≠ .all) : UnionShape t.alternatives := by
  by_cases h : ∃ us, t = .alt us
  · obtain ⟨us, rfl⟩ := h
    cases ht with
    | alt members two shape => exact shape
  · have hne : ∀ us, t ≠ .alt us := fun us hus => h ⟨us, hus⟩
    rw [alternatives_of_ne_alt hne]
    exact {
      increasing := List.pairwise_singleton ..
      flat := List.forall_mem_singleton.mpr ⟨hempty, hall, hne⟩
      literals := fun a b ha hb =>
        literal.inj ((List.mem_singleton.mp ha).trans (List.mem_singleton.mp hb).symm)
      epsilon := fun heps u hu _ =>
        (List.mem_singleton.mp hu).trans (List.mem_singleton.mp heps).symm }

theorem canonical_of_mem_flatMap_alternatives (h : ∀ t ∈ ts, Canonical t) :
    ∀ p ∈ ts.flatMap alternatives, Canonical p ∧ ∀ us, p ≠ .alt us := by
  intro p hp
  obtain ⟨t, ht, hp⟩ := List.mem_flatMap.mp hp
  exact (h t ht).of_mem_alternatives p hp

theorem canonical_ofAlternatives (h : ∀ t ∈ ts, Canonical t) (shape : UnionShape ts) :
    Canonical (ofAlternatives ts) := by
  match ts with
  | [] => exact .empty
  | [t] => exact h t (List.mem_singleton_self t)
  | t :: u :: ts => exact .alt h (by simp) shape

theorem canonical_of_mem_unionMembers (h : ∀ p ∈ parts, Canonical p) :
    ∀ t ∈ unionMembers parts, Canonical t := by
  intro t ht
  rcases mem_unionMembers.mp ht with ⟨rfl, -⟩ | ⟨set, rfl, -, hset⟩ | ⟨-, hp⟩
  · exact .eps
  · exact .literal hset
  · exact h t hp

variable [Std.TransOrd S] [Std.LawfulEqOrd S]

theorem increasing_unionMembers : Increasing (unionMembers parts) := by
  -- By their kinds, `eps` comes before a literal, and a literal before compound members.
  have hcompound : ∀ t ∈ sortMembers (parts.filter isCompound), 3 < t.kind := fun t ht =>
    kind_of_isCompound (List.mem_filter.mp (mem_sortMembers.mp ht)).2
  have hliteral : ∀ t ∈ literalMember (unionAll (parts.filterMap literal?)), t.kind = 3 := by
    intro t ht
    rw [(mem_literalMember.mp ht).1]
    rfl
  rw [unionMembers, Increasing, List.pairwise_append, List.pairwise_append]
  refine ⟨⟨?_, ?_, ?_⟩, increasing_sortMembers _, ?_⟩
  · split <;> simp
  · rw [literalMember]
    split <;> simp
  · intro t ht u hu
    refine compare_eq_lt_of_kind_lt ?_
    rw [hliteral u hu]
    split at ht
    · rw [List.mem_singleton.mp ht]
      exact Nat.zero_lt_succ 2
    · contradiction
  · intro t ht u hu
    refine compare_eq_lt_of_kind_lt (Nat.lt_of_le_of_lt ?_ (hcompound u hu))
    rcases List.mem_append.mp ht with ht | ht
    · split at ht
      · rw [List.mem_singleton.mp ht]
        exact Nat.zero_le 3
      · contradiction
    · exact Nat.le_of_eq (hliteral t ht)

theorem unionShape_unionMembers (h : ∀ p ∈ parts, ∀ us, p ≠ .alt us) :
    UnionShape (unionMembers parts) where
  increasing := increasing_unionMembers
  flat := by
    intro t ht
    rcases mem_unionMembers.mp ht with ⟨rfl, -⟩ | ⟨set, rfl, -⟩ | ⟨hc, hp⟩
    · simp
    · simp
    · refine ⟨?_, ?_, h t hp⟩ <;> rintro rfl <;> contradiction
  literals := by
    intro a b ha hb
    rw [eq_of_literal_mem_unionMembers ha, eq_of_literal_mem_unionMembers hb]
  epsilon := by
    -- The member `eps` is there only if no compound part is nullable.
    intro heps t ht hnull
    have hnone : ∀ p ∈ parts, p.isCompound = true → p.nullable = false := by
      rcases mem_unionMembers.mp heps with ⟨-, -, h⟩ | ⟨_, h, -⟩ | ⟨h, -⟩
      · exact h
      · contradiction
      · contradiction
    rcases mem_unionMembers.mp ht with ⟨rfl, -⟩ | ⟨set, rfl, -⟩ | ⟨hc, hp⟩
    · rfl
    · rw [nullable_literal] at hnull
      contradiction
    · rw [hnone t hp hc] at hnull
      contradiction

theorem canonical_oneOf (h : ∀ t ∈ ts, Canonical t) : Canonical (oneOf ts) := by
  have hparts := canonical_of_mem_flatMap_alternatives h
  by_cases hall : all ∈ ts.flatMap alternatives
  · rw [oneOf_of_all_mem hall]
    exact .all
  · rw [oneOf_of_all_not_mem hall]
    exact canonical_ofAlternatives (canonical_of_mem_unionMembers fun p hp => (hparts p hp).1)
      (unionShape_unionMembers fun p hp => (hparts p hp).2)

end Alternations

/-! ### Intersections -/

section Intersections

variable {t : Term S} {ts parts : List (Term S)}

theorem Canonical.of_mem_conjuncts (ht : Canonical t) :
    ∀ p ∈ t.conjuncts, Canonical p ∧ p ≠ .all ∧ ∀ us, p ≠ .inter us := by
  by_cases hall : t = .all
  · subst hall
    exact fun p hp => absurd hp List.not_mem_nil
  by_cases h : ∃ us, t = .inter us
  · obtain ⟨us, rfl⟩ := h
    cases ht with
    | inter members two shape => exact fun p hp => ⟨members p hp, shape.flat p hp⟩
  · have hne : ∀ us, t ≠ .inter us := fun us hus => h ⟨us, hus⟩
    rw [conjuncts_of_ne_inter hall hne]
    intro p hp
    rw [List.mem_singleton.mp hp]
    exact ⟨ht, hall, hne⟩

theorem canonical_of_mem_flatMap_conjuncts (h : ∀ t ∈ ts, Canonical t) :
    ∀ p ∈ ts.flatMap conjuncts, Canonical p ∧ p ≠ .all ∧ ∀ us, p ≠ .inter us := by
  intro p hp
  obtain ⟨t, ht, hp⟩ := List.mem_flatMap.mp hp
  exact (h t ht).of_mem_conjuncts p hp

theorem canonical_ofConjuncts (h : ∀ t ∈ ts, Canonical t) (shape : MeetShape ts) :
    Canonical (ofConjuncts ts) := by
  match ts with
  | [] => exact .all
  | [t] => exact h t (List.mem_singleton_self t)
  | t :: u :: ts => exact .inter h (by simp) shape

theorem canonical_of_mem_meetMembers (h : ∀ p ∈ parts, Canonical p) :
    ∀ t ∈ meetMembers parts, Canonical t := by
  intro t ht
  rcases mem_meetMembers.mp ht with ⟨set, rfl, -, -, hset⟩ | ⟨-, hp⟩
  · exact .literal hset
  · exact h t hp

variable {E : Type v} [Membership E S]

/-- A symbol that the parts of an intersection admit is admitted by its members. -/
theorem admits_meetMembers [LawfulSetAlgebra S E] {e : E} (he : ∀ p ∈ parts, p.Admits e) :
    ∀ t ∈ meetMembers parts, t.Admits e := by
  intro t ht
  rcases mem_meetMembers.mp ht with ⟨set, rfl, rfl, -⟩ | ⟨-, hp⟩
  · rw [admits_literal, mem_interAll]
    exact fun a ha => admits_literal.mp (he _ (mem_filterMap_literal?.mp ha))
  · exact he t hp

variable [Std.TransOrd S] [Std.LawfulEqOrd S]

theorem increasing_meetMembers : Increasing (meetMembers parts) := by
  rw [meetMembers, Increasing, List.pairwise_append]
  refine ⟨?_, increasing_sortMembers _, ?_⟩
  · rw [literalMember]
    split
    · exact .nil
    · split <;> simp
  · intro t ht u hu
    have hkind : 3 < u.kind :=
      kind_of_isCompound (List.mem_filter.mp (mem_sortMembers.mp hu)).2
    refine compare_eq_lt_of_kind_lt (Nat.lt_of_le_of_lt (Nat.le_of_eq ?_) hkind)
    split at ht
    · contradiction
    · rw [(mem_literalMember.mp ht).1]
      rfl

theorem meetShape_meetMembers [LawfulSetAlgebra S E] (h : ∀ p ∈ parts, p ≠ .all ∧ ∀ us, p ≠ .inter us)
    (hfirst : ∃ e : E, ∀ p ∈ parts, p.Admits e) : MeetShape (meetMembers parts) where
  increasing := increasing_meetMembers
  flat := by
    intro t ht
    rcases mem_meetMembers.mp ht with ⟨set, rfl, -⟩ | ⟨-, hp⟩
    · simp
    · exact h t hp
  literals := by
    intro a b ha hb
    rw [(of_literal_mem_meetMembers ha).1, (of_literal_mem_meetMembers hb).1]
  first := by
    obtain ⟨e, he⟩ := hfirst
    exact isEmpty_interAll_firstSet?.mpr ⟨e, admits_meetMembers he⟩

theorem canonical_allOf [LawfulSetAlgebra S E] (h : ∀ t ∈ ts, Canonical t) :
    Canonical (allOf ts) := by
  have hparts := canonical_of_mem_flatMap_conjuncts h
  by_cases hfirst : ∃ e : E, ∀ p ∈ ts.flatMap conjuncts, p.Admits e
  · rw [allOf_of_admits hfirst]
    exact canonical_ofConjuncts (canonical_of_mem_meetMembers fun p hp => (hparts p hp).1)
      (meetShape_meetMembers (fun p hp => (hparts p hp).2) hfirst)
  · rw [allOf_of_not_admits hfirst]
    split
    · exact .eps
    · exact .empty

end Intersections

/-! ### Sequences -/

section Sequences

variable {t : Term S} {ts : List (Term S)}

theorem Canonical.of_mem_factors (ht : Canonical t) :
    ∀ p ∈ t.factors, Canonical p ∧ p ≠ .eps ∧ (p = .empty → t = .empty) ∧ ∀ us, p ≠ .seq us := by
  by_cases heps : t = .eps
  · subst heps
    exact fun p hp => absurd hp List.not_mem_nil
  by_cases h : ∃ us, t = .seq us
  · obtain ⟨us, rfl⟩ := h
    cases ht with
    | seq members two flat =>
      intro p hp
      obtain ⟨hpeps, hpempty, hpseq⟩ := flat p hp
      exact ⟨members p hp, hpeps, fun h => absurd h hpempty, hpseq⟩
  · have hne : ∀ us, t ≠ .seq us := fun us hus => h ⟨us, hus⟩
    rw [factors_of_ne_seq heps hne]
    intro p hp
    rw [List.mem_singleton.mp hp]
    exact ⟨ht, heps, id, hne⟩

theorem canonical_ofFactors (h : ∀ t ∈ ts, Canonical t)
    (flat : ∀ t ∈ ts, t ≠ .eps ∧ t ≠ .empty ∧ ∀ us, t ≠ .seq us) : Canonical (ofFactors ts) := by
  match ts with
  | [] => exact .eps
  | [t] => exact h t (List.mem_singleton_self t)
  | t :: u :: ts => exact .seq h (by simp) flat

theorem canonical_concat (h : ∀ t ∈ ts, Canonical t) : Canonical (concat ts) := by
  by_cases hempty : Term.empty ∈ ts.flatMap factors
  · rw [concat_of_empty_mem hempty]
    exact .empty
  · rw [concat_of_empty_not_mem hempty]
    have hparts : ∀ p ∈ ts.flatMap factors, Canonical p ∧ p ≠ .eps ∧ ∀ us, p ≠ .seq us := by
      intro p hp
      obtain ⟨t, ht, hp⟩ := List.mem_flatMap.mp hp
      obtain ⟨hc, heps, -, hseq⟩ := (h t ht).of_mem_factors p hp
      exact ⟨hc, heps, hseq⟩
    refine canonical_ofFactors (fun p hp => (hparts p hp).1) fun p hp => ?_
    exact ⟨(hparts p hp).2.1, fun h => hempty (h ▸ hp), (hparts p hp).2.2⟩

theorem canonical_concat_pair {u : Term S} (ht : Canonical t) (hu : Canonical u) :
    Canonical (concat [t, u]) := by
  refine canonical_concat fun p hp => ?_
  rcases List.mem_cons.mp hp with rfl | hp
  · exact ht
  · rw [List.mem_singleton.mp hp]
    exact hu

theorem canonical_before (ht : Canonical t) (h : ∀ t ∈ ts, Canonical t)
    (flat : ∀ t ∈ ts, t ≠ .eps ∧ t ≠ .empty ∧ ∀ us, t ≠ .seq us) : Canonical (before t ts) := by
  rw [before]
  by_cases hempty : t.isEmpty = true
  · rw [if_pos hempty]
    exact .empty
  · rw [if_neg hempty]
    rw [isEmpty_iff] at hempty
    refine canonical_ofFactors (fun p hp => ?_) fun p hp => ?_
    · rcases List.mem_append.mp hp with hp | hp
      · exact (ht.of_mem_factors p hp).1
      · exact h p hp
    · rcases List.mem_append.mp hp with hp | hp
      · obtain ⟨-, heps, hpe, hseq⟩ := ht.of_mem_factors p hp
        exact ⟨heps, fun h => hempty (hpe h), hseq⟩
      · exact flat p hp

theorem canonical_power (ht : Canonical t) (n : Nat) : Canonical (power t n) := by
  by_cases hn : n = 0
  · rw [hn, power_zero]
    exact .eps
  by_cases heps : t = .eps
  · rw [heps, power_eps]
    exact .eps
  by_cases hempty : t = .empty
  · rw [hempty, power_empty hn]
    exact .empty
  rw [power_of_ne heps hempty hn]
  refine canonical_ofFactors (fun p hp => ?_) fun p hp => ?_
  · exact (ht.of_mem_factors p (mem_factors_of_mem_replicate hp)).1
  · obtain ⟨-, hpeps, hpe, hseq⟩ := ht.of_mem_factors p (mem_factors_of_mem_replicate hp)
    exact ⟨hpeps, fun h => hempty (hpe h), hseq⟩

end Sequences

/-! ### Operations on one term -/

section Unary

variable {t : Term S} {ts : List (Term S)}

theorem canonical_ofSet (set : S) : Canonical (ofSet set) := by
  rw [ofSet]
  by_cases h : SetAlgebra.isEmpty set = true
  · rw [if_pos h]
    exact .empty
  · rw [if_neg h]
    exact .literal (Bool.eq_false_iff.mpr h)

/-- The complement of a canonical term is a new node, unless the term is one of four kinds. -/
theorem complement_cases (ht : Canonical t) : t = eps ∨ t = empty ∨ t = all ∨ (∃ u, t = compl u) ∨
    complement t = compl t ∧ Canonical (compl t) := by
  by_cases heps : t = .eps
  · exact .inl heps
  by_cases hempty : t = .empty
  · exact .inr (.inl hempty)
  by_cases hall : t = .all
  · exact .inr (.inr (.inl hall))
  by_cases hcompl : ∃ u, t = .compl u
  · exact .inr (.inr (.inr (.inl hcompl)))
  · have flat : t ≠ .eps ∧ t ≠ .empty ∧ t ≠ .all ∧ ∀ u, t ≠ .compl u :=
      ⟨heps, hempty, hall, fun u hu => hcompl ⟨u, hu⟩⟩
    exact .inr (.inr (.inr (.inr ⟨complement_of_ne flat, .compl ht flat⟩)))

theorem canonical_complement (ht : Canonical t) : Canonical (complement t) := by
  rcases complement_cases ht with rfl | rfl | rfl | ⟨u, rfl⟩ | ⟨h, hc⟩
  · exact canonical_concat_pair (canonical_ofSet _) .all
  · exact .all
  · exact .empty
  · cases ht with
    | compl body flat => exact body
  · rw [h]
    exact hc

theorem canonical_starOf (ht : Canonical t) (halt : ∀ us, t = .alt us → .eps ∉ us) :
    Canonical (starOf t) := by
  cases t with
  | eps => exact .eps
  | empty => exact .eps
  | all => exact .all
  | star t => exact ht
  | literal set =>
    rw [starOf]
    by_cases h : SetAlgebra.isEmpty (SetAlgebra.compl set) = true
    · rw [if_pos h]
      exact .all
    · rw [if_neg h]
      refine .star ht (by simp) (fun a ha => ?_) (by simp)
      rw [← literal.inj ha]
      exact Bool.eq_false_iff.mpr h
  | alt ts => exact .star ht (by simp) (by simp) halt
  | seq ts => exact .star ht (by simp) (by simp) (by simp)
  | inter ts => exact .star ht (by simp) (by simp) (by simp)
  | compl t => exact .star ht (by simp) (by simp) (by simp)

end Unary

/-! ### Building again from the members -/

section Again

variable {ts : List (Term S)} {E : Type v} [Membership E S] [Std.TransOrd S]
  [Std.LawfulEqOrd S]

theorem UnionShape.unionMembers_eq [LawfulSetAlgebra S E] (shape : UnionShape ts)
    (h : ∀ t ∈ ts, Canonical t) : unionMembers ts = ts := by
  refine increasing_unionMembers.ext shape.increasing fun t => ?_
  -- There is at most one literal, which is then the union of all of them.
  have hunion : ∀ a, literal a ∈ ts → unionAll (ts.filterMap literal?) = a := by
    intro a ha
    refine LawfulSetAlgebra.ext fun e : E => ?_
    rw [mem_unionAll]
    constructor
    · rintro ⟨b, hb, he⟩
      rwa [shape.literals a b ha (mem_filterMap_literal?.mp hb)]
    · exact fun he => ⟨a, mem_filterMap_literal?.mpr ha, he⟩
  rw [mem_unionMembers]
  constructor
  · rintro (⟨rfl, heps, -⟩ | ⟨set, rfl, rfl, hset⟩ | ⟨-, ht⟩)
    · exact heps
    · obtain ⟨e, he⟩ := isEmpty_eq_false_iff.mp hset
      obtain ⟨a, ha, -⟩ := mem_unionAll.mp he
      rw [mem_filterMap_literal?] at ha
      rwa [hunion a ha]
    · exact ht
  · intro ht
    by_cases hc : t.isCompound = true
    · exact .inr (.inr ⟨hc, ht⟩)
    · obtain ⟨hempty, hall, -⟩ := shape.flat t ht
      rcases cases_of_not_isCompound (Bool.not_eq_true _ ▸ hc) with rfl | rfl | rfl | ⟨a, rfl⟩
      · refine .inl ⟨rfl, ht, fun p hp hpc => ?_⟩
        rw [Bool.eq_false_iff]
        intro hnull
        rw [shape.epsilon ht p hp hnull] at hpc
        contradiction
      · contradiction
      · contradiction
      · refine .inr (.inl ⟨a, rfl, (hunion a ht).symm, ?_⟩)
        cases h _ ht with
        | literal inhabited => exact inhabited

theorem UnionShape.oneOf_eq [LawfulSetAlgebra S E] (shape : UnionShape ts)
    (h : ∀ t ∈ ts, Canonical t) : oneOf ts = ofAlternatives ts := by
  have hflat : ts.flatMap alternatives = ts :=
    flatMap_eq_self fun t ht => alternatives_of_ne_alt (shape.flat t ht).2.2
  have hall : all ∉ ts.flatMap alternatives := by
    rw [hflat]
    exact fun hall => (shape.flat _ hall).2.1 rfl
  rw [oneOf_of_all_not_mem hall, hflat, shape.unionMembers_eq h]

theorem MeetShape.meetMembers_eq [LawfulSetAlgebra S E] (shape : MeetShape ts)
    (h : ∀ t ∈ ts, Canonical t) : meetMembers ts = ts := by
  refine increasing_meetMembers.ext shape.increasing fun t => ?_
  -- There is at most one literal, which is then what all of them have in common.
  have hinter : ∀ a, literal a ∈ ts → interAll (ts.filterMap literal?) = a := by
    intro a ha
    refine LawfulSetAlgebra.ext fun e : E => ?_
    rw [mem_interAll]
    constructor
    · exact fun he => he a (mem_filterMap_literal?.mpr ha)
    · intro he b hb
      rwa [shape.literals b a (mem_filterMap_literal?.mp hb) ha]
  obtain ⟨e, he⟩ := isEmpty_interAll_firstSet?.mp shape.first
  rw [mem_meetMembers]
  constructor
  · rintro (⟨set, rfl, rfl, ⟨a, ha⟩, -⟩ | ⟨-, ht⟩)
    · rwa [hinter a ha]
    · exact ht
  · intro ht
    rcases (he t ht).cases with hc | rfl | ⟨a, rfl⟩
    · exact .inr ⟨hc, ht⟩
    · exact absurd rfl (shape.flat _ ht).1
    · refine .inl ⟨a, rfl, (hinter a ht).symm, ⟨a, ht⟩, ?_⟩
      cases h _ ht with
      | literal inhabited => exact inhabited

theorem MeetShape.allOf_eq [LawfulSetAlgebra S E] (shape : MeetShape ts)
    (h : ∀ t ∈ ts, Canonical t) : allOf ts = ofConjuncts ts := by
  have hflat : ts.flatMap conjuncts = ts :=
    flatMap_eq_self fun t ht => conjuncts_of_ne_inter (shape.flat t ht).1 (shape.flat t ht).2
  have hfirst := isEmpty_interAll_firstSet?.mp shape.first
  rw [← hflat] at hfirst
  rw [allOf_of_admits hfirst, hflat, shape.meetMembers_eq h]

/-- An alternation without its `eps` can be put under a star. -/
theorem UnionShape.canonical_starOf_rest [LawfulSetAlgebra S E] (shape : UnionShape ts)
    (members : ∀ t ∈ ts, Canonical t) :
    Canonical (starOf (oneOf (ts.filter fun t => !t.isEps))) := by
  have hrest : ∀ t ∈ ts.filter (fun t => !t.isEps), t ∈ ts ∧ t ≠ .eps := by
    intro t ht
    obtain ⟨ht, hne⟩ := List.mem_filter.mp ht
    exact ⟨ht, fun heps => by simp [heps, isEps] at hne⟩
  have hmembers : ∀ t ∈ ts.filter (fun t => !t.isEps), Canonical t := fun t ht =>
    members t (hrest t ht).1
  have hshape : UnionShape (ts.filter fun t => !t.isEps) :=
    { increasing := shape.increasing.filter _
      flat := fun t ht => shape.flat t (hrest t ht).1
      literals := fun a b ha hb => shape.literals a b (hrest _ ha).1 (hrest _ hb).1
      epsilon := fun h => absurd rfl (hrest _ h).2 }
  refine canonical_starOf (canonical_oneOf hmembers) fun us hus heps => ?_
  rw [hshape.oneOf_eq hmembers] at hus
  -- The members of the smaller alternation are those that are left, without `eps`.
  have hne : ts.filter (fun t => !t.isEps) ≠ [] := fun hnil => by
    rw [hnil] at hus
    contradiction
  have halternatives := alternatives_ofAlternatives (fun t ht => (hshape.flat t ht).2.2) hne
  rw [hus] at halternatives
  rw [show us = _ from halternatives] at heps
  exact (hrest _ heps).2 rfl

theorem canonical_closure [LawfulSetAlgebra S E] {t : Term S} (ht : Canonical t) :
    Canonical (closure t) := by
  rcases closure_cases t with ⟨hne, heq⟩ | ⟨us, rfl, -, heq⟩
  · rw [heq]
    exact canonical_starOf ht hne
  · rw [heq]
    cases ht with
    | alt members two shape => exact shape.canonical_starOf_rest members

theorem canonical_plus [LawfulSetAlgebra S E] {t : Term S} (ht : Canonical t) :
    Canonical (plus t) := by
  have hconcat : Canonical (concat [t, closure t]) :=
    canonical_concat_pair ht (canonical_closure ht)
  cases t <;> first | exact ht | exact hconcat

theorem canonical_opt {t : Term S} (ht : Canonical t) : Canonical (opt t) := by
  have honeOf : Canonical (oneOf [t, .eps]) := canonical_oneOf fun u hu => by
    rcases List.mem_cons.mp hu with rfl | hu
    · exact ht
    · rw [List.mem_singleton.mp hu]
      exact .eps
  cases t <;> first | exact ht | exact .eps | exact honeOf

theorem canonical_rep [LawfulSetAlgebra S E] {t : Term S} (ht : Canonical t) (min : Nat)
    (max : Option Nat) : Canonical (rep t min max) := by
  cases max with
  | none => exact canonical_concat_pair (canonical_power ht min) (canonical_closure ht)
  | some max =>
    rw [rep]
    split
    · exact .empty
    · exact canonical_concat_pair (canonical_power ht min)
        (canonical_power (canonical_opt ht) (max - min))

/-- Every term that the building functions make is canonical. -/
theorem Built.canonical [LawfulSetAlgebra S E] {t : Term S} (ht : Built t) : Canonical t := by
  induction ht with
  | eps => exact .eps
  | empty => exact .empty
  | all => exact .all
  | ofSet set => exact canonical_ofSet set
  | concat _ ih => exact canonical_concat ih
  | oneOf _ ih => exact canonical_oneOf ih
  | allOf _ ih => exact canonical_allOf ih
  | complement _ ih => exact canonical_complement ih
  | closure _ ih => exact canonical_closure ih
  | plus _ ih => exact canonical_plus ih
  | opt _ ih => exact canonical_opt ih
  | rep _ min max ih => exact canonical_rep ih min max
  | word sets =>
    refine canonical_concat fun t ht => ?_
    obtain ⟨set, -, rfl⟩ := List.mem_map.mp ht
    exact canonical_ofSet set

end Again

end ExtendedRegex.Term
