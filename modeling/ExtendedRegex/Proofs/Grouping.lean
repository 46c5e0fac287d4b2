/-
Alternations and intersections do not depend on how their members are grouped.

What `oneOf` makes is determined by a few facts about its parts, and so is what
`allOf` makes.  Lists of parts for which these facts agree are `SameUnion` and
`SameMeet`.

* `oneOf_congr`, `allOf_congr`: only the set of the terms matters;
* `oneOf_map_oneOf`, `allOf_map_allOf`: terms can be joined in groups first;
* `Canonical.oneOf_singleton`, `Canonical.allOf_singleton`: a single term is left
  as it is.

Design notes: both relations are kept by joining lists of parts, so that each group
can be looked at on its own.  As soon as one of the parts is `all`, nothing else
matters to an alternation, and if the first sets have no symbol in common, nothing
but nullability matters to an intersection.
-/
import ExtendedRegex.Proofs.FirstSet

universe u v

namespace ExtendedRegex.Term

open SetAlgebra (unionAll interAll mem_unionAll mem_interAll isEmpty_eq_false_iff)

variable {S : Type u} [SetAlgebra S]

/-! ### Alternations -/


/-- Parts that make the same alternation. -/
structure SameUnion (ps qs : List (Term S)) : Prop where
  all_mem : all ∈ ps ↔ all ∈ qs
  compounds : all ∉ ps → ∀ t : Term S, t.isCompound = true → (t ∈ ps ↔ t ∈ qs)
  symbols : all ∉ ps → unionAll (ps.filterMap literal?) = unionAll (qs.filterMap literal?)
  nullable : all ∉ ps → ((∃ p ∈ ps, p.nullable = true) ↔ ∃ q ∈ qs, q.nullable = true)

section Alternations

variable {ps qs rs : List (Term S)}

theorem SameUnion.refl (ps : List (Term S)) : SameUnion ps ps :=
  ⟨Iff.rfl, fun _ _ _ => Iff.rfl, fun _ => rfl, fun _ => Iff.rfl⟩

theorem SameUnion.trans (h : SameUnion ps qs) (h' : SameUnion qs rs) : SameUnion ps rs where
  all_mem := h.all_mem.trans h'.all_mem
  compounds hall t ht := (h.compounds hall t ht).trans (h'.compounds (mt h.all_mem.mpr hall) t ht)
  symbols hall := (h.symbols hall).trans (h'.symbols (mt h.all_mem.mpr hall))
  nullable hall := (h.nullable hall).trans (h'.nullable (mt h.all_mem.mpr hall))

variable {E : Type v} [Membership E S]

theorem SameUnion.flatMap [LawfulSetAlgebra S E] {α : Type*} {f g : α → List (Term S)}
    {xs : List α} (h : ∀ x ∈ xs, SameUnion (f x) (g x)) :
    SameUnion (xs.flatMap f) (xs.flatMap g) := by
  -- The conditions on each group are available, because no group has the part `all`.
  have hall_of : all ∉ xs.flatMap f → ∀ x ∈ xs, all ∉ f x := fun hall x hx hx' =>
    hall (List.mem_flatMap.mpr ⟨x, hx, hx'⟩)
  refine ⟨?_, fun hall t ht => ?_, fun hall => ?_, fun hall => ?_⟩
  · rw [List.mem_flatMap, List.mem_flatMap]
    exact exists_congr fun x => and_congr_right fun hx => (h x hx).all_mem
  · rw [List.mem_flatMap, List.mem_flatMap]
    exact exists_congr fun x => and_congr_right fun hx =>
      (h x hx).compounds (hall_of hall x hx) t ht
  · refine LawfulSetAlgebra.ext fun e : E => ?_
    rw [mem_unionAll, mem_unionAll, List.filterMap_flatMap, List.filterMap_flatMap,
      exists_mem_flatMap, exists_mem_flatMap]
    refine exists_congr fun x => and_congr_right fun hx => ?_
    rw [← mem_unionAll, (h x hx).symbols (hall_of hall x hx), mem_unionAll]
  · rw [exists_mem_flatMap, exists_mem_flatMap]
    exact exists_congr fun x => and_congr_right fun hx =>
      (h x hx).nullable (hall_of hall x hx)

/-- Of the parts of an alternation, `empty` does not matter. -/
theorem SameUnion.of_mem_iff [LawfulSetAlgebra S E]
    (h : ∀ t : Term S, t ≠ empty → (t ∈ ps ↔ t ∈ qs)) : SameUnion ps qs where
  all_mem := h all (by simp)
  compounds _ t ht := h t fun hempty => by
    rw [hempty] at ht
    contradiction
  symbols _ := LawfulSetAlgebra.ext fun e : E => by
    rw [mem_unionAll_literals, mem_unionAll_literals]
    exact exists_congr fun a => and_congr_left' (h _ (by simp))
  nullable _ := by
    refine exists_congr fun p => and_congr_left fun hnull => h p fun hempty => ?_
    rw [hempty, nullable_empty] at hnull
    contradiction

theorem sameUnion_ofAlternatives [LawfulSetAlgebra S E] (h : ∀ p ∈ ps, ∀ us, p ≠ alt us) :
    SameUnion (ofAlternatives ps).alternatives ps := by
  by_cases hnil : ps = []
  · rw [hnil]
    refine SameUnion.of_mem_iff fun t ht => iff_of_false (fun hmem => ?_) List.not_mem_nil
    exact ht (List.mem_singleton.mp hmem)
  · rw [alternatives_ofAlternatives h hnil]
    exact SameUnion.refl ps

variable [Ord S] [DecidableEq S]

/-- The members of an alternation are as good as its parts. -/
theorem sameUnion_unionMembers [LawfulSetAlgebra S E] (hall : all ∉ ps) :
    SameUnion (unionMembers ps) ps := by
  refine ⟨iff_of_false (fun h => ?_) hall, fun _ t => mem_unionMembers_of_isCompound, fun _ => ?_,
    fun _ => ?_⟩
  · rcases mem_unionMembers.mp h with ⟨h, -⟩ | ⟨set, h, -⟩ | ⟨h, -⟩ <;> contradiction
  · refine LawfulSetAlgebra.ext fun e : E => ?_
    rw [mem_unionAll_literals]
    constructor
    · rintro ⟨a, ha, he⟩
      rwa [← eq_of_literal_mem_unionMembers ha]
    · exact fun he => ⟨_, literal_mem_unionMembers he, he⟩
  · constructor
    · rintro ⟨p, hp, hnull⟩
      rcases mem_unionMembers.mp hp with ⟨rfl, heps, -⟩ | ⟨set, rfl, -⟩ | ⟨-, hp⟩
      · exact ⟨eps, heps, hnull⟩
      · rw [nullable_literal] at hnull
        contradiction
      · exact ⟨p, hp, hnull⟩
    · rintro ⟨p, hp, hnull⟩
      rcases cases_of_nullable hnull fun h => hall (h ▸ hp) with rfl | hc
      · exact exists_nullable_mem_unionMembers hp
      · exact ⟨p, (mem_unionMembers_of_isCompound hc).mpr hp, hnull⟩

/-- An alternation among the terms leaves no compound member on its own. -/
theorem exists_mem_unionMembers_ne [LawfulSetAlgebra S E] [Std.LawfulEqOrd S] {c : Term S}
    (halt : Canonical (alt qs)) (hsub : ∀ q ∈ qs, q ∈ ps) (hcq : c ∈ qs)
    (hc : c.isCompound = true) : ∃ t ∈ unionMembers ps, t ≠ c := by
  cases halt with
  | alt members two shape =>
    obtain ⟨u, hu, hne⟩ := shape.increasing.exists_ne two c
    by_cases huc : u.isCompound = true
    · exact ⟨u, (mem_unionMembers_of_isCompound huc).mpr (hsub u hu), hne⟩
    rcases cases_of_not_isCompound (Bool.not_eq_true _ ▸ huc) with rfl | rfl | rfl | ⟨a, rfl⟩
    · -- Next to `eps` the term `c` is not nullable, but the member that stands for `eps` is.
      obtain ⟨t, ht, hnull⟩ := exists_nullable_mem_unionMembers (hsub _ hu)
      refine ⟨t, ht, ?_⟩
      rintro rfl
      exact hne (shape.epsilon hu t hcq hnull).symm
    · exact absurd rfl (shape.flat _ hu).1
    · exact absurd rfl (shape.flat _ hu).2.1
    · cases members _ hu with
      | literal inhabited =>
        obtain ⟨e, he⟩ := (isEmpty_eq_false_iff (E := E)).mp inhabited
        have hmem := mem_unionAll_literals.mpr ⟨a, hsub _ hu, he⟩
        refine ⟨_, literal_mem_unionMembers hmem, ?_⟩
        rintro rfl
        contradiction

/-- A compound term that is no alternation comes out of `oneOf` only if it was put in. -/
theorem mem_of_oneOf_eq [LawfulSetAlgebra S E] [Std.LawfulEqOrd S] {c : Term S}
    {ts : List (Term S)} (h : ∀ t ∈ ts, Canonical t) (hc : c.isCompound = true)
    (halt : ∀ us, c ≠ alt us) (heq : oneOf ts = c) : c ∈ ts := by
  have hall : all ∉ ts.flatMap alternatives := by
    intro hall
    rw [oneOf_of_all_mem hall] at heq
    rw [← heq] at hc
    contradiction
  -- The result is no alternation, and so it is the only member.
  have hmembers : unionMembers (ts.flatMap alternatives) = [c] := by
    rw [oneOf_of_all_not_mem hall] at heq
    match unionMembers (ts.flatMap alternatives), heq with
    | [], heq =>
      rw [← show empty = c from heq] at hc
      contradiction
    | [t], heq => rw [show t = c from heq]
    | t :: u :: ts, heq => exact absurd heq.symm (halt _)
  have hparts : c ∈ ts.flatMap alternatives := by
    rw [← mem_unionMembers_of_isCompound hc, hmembers]
    exact List.mem_singleton_self c
  obtain ⟨t, ht, hct⟩ := List.mem_flatMap.mp hparts
  by_cases htalt : ∃ us, t = alt us
  · obtain ⟨us, rfl⟩ := htalt
    have hsub : ∀ q ∈ us, q ∈ ts.flatMap alternatives := fun q hq =>
      List.mem_flatMap.mpr ⟨_, ht, hq⟩
    obtain ⟨u, hu, hne⟩ := exists_mem_unionMembers_ne (E := E) (h _ ht) hsub hct hc
    rw [hmembers] at hu
    exact absurd (List.mem_singleton.mp hu) hne
  · rw [alternatives_of_ne_alt fun us hus => htalt ⟨us, hus⟩] at hct
    rwa [List.mem_singleton.mp hct]

variable [Std.TransOrd S] [Std.LawfulEqOrd S] {ts us : List (Term S)}

theorem SameUnion.unionMembers_eq (h : SameUnion ps qs) (hall : all ∉ ps) :
    unionMembers ps = unionMembers qs := by
  have hallq : all ∉ qs := mt h.all_mem.mpr hall
  have hcompounds : sortMembers (ps.filter isCompound) = sortMembers (qs.filter isCompound) := by
    refine sortMembers_congr fun t => ?_
    rw [List.mem_filter, List.mem_filter]
    exact and_congr_left fun ht => h.compounds hall t ht
  -- Unless a compound part is nullable, a nullable part is `eps`.
  have hmem : ∀ rs : List (Term S), all ∉ rs → ((eps ∈ rs ∧
      ∀ p ∈ rs, p.isCompound = true → p.nullable = false) ↔
      (∃ p ∈ rs, p.nullable = true) ∧ ∀ p ∈ rs, p.isCompound = true → p.nullable = false) := by
    intro rs hrs
    refine and_congr_left fun hnone => ⟨fun heps => ⟨eps, heps, nullable_eps⟩, ?_⟩
    rintro ⟨p, hp, hnull⟩
    rcases cases_of_nullable hnull fun h => hrs (h ▸ hp) with rfl | hc
    · exact hp
    · rw [hnone p hp hc] at hnull
      contradiction
  have hnone : (∀ p ∈ ps, p.isCompound = true → p.nullable = false) ↔
      ∀ p ∈ qs, p.isCompound = true → p.nullable = false :=
    forall_congr' fun p => ⟨fun hp hq hc => hp ((h.compounds hall p hc).mpr hq) hc,
      fun hq hp hc => hq ((h.compounds hall p hc).mp hp) hc⟩
  refine increasing_unionMembers.ext increasing_unionMembers fun t => ?_
  rw [mem_unionMembers, mem_unionMembers, h.symbols hall]
  refine or_congr (and_congr_right fun _ => ?_) (or_congr Iff.rfl (and_congr_right fun hc => ?_))
  · rw [hmem ps hall, hmem qs hallq, h.nullable hall, hnone]
  · exact h.compounds hall t hc

theorem SameUnion.oneOf_eq (h : SameUnion (ts.flatMap alternatives) (us.flatMap alternatives)) :
    oneOf ts = oneOf us := by
  by_cases hall : all ∈ ts.flatMap alternatives
  · rw [oneOf_of_all_mem hall, oneOf_of_all_mem (h.all_mem.mp hall)]
  · rw [oneOf_of_all_not_mem hall, oneOf_of_all_not_mem (mt h.all_mem.mpr hall),
      h.unionMembers_eq hall]

/-- An alternation stands for its parts. -/
theorem sameUnion_oneOf [LawfulSetAlgebra S E] (h : ∀ t ∈ ts, Canonical t) :
    SameUnion (oneOf ts).alternatives (ts.flatMap alternatives) := by
  have hflat : ∀ p ∈ ts.flatMap alternatives, ∀ us, p ≠ alt us := fun p hp =>
    (canonical_of_mem_flatMap_alternatives h p hp).2
  by_cases hall : all ∈ ts.flatMap alternatives
  · rw [oneOf_of_all_mem hall]
    -- With the part `all` on both sides, the other conditions are void.
    have hself : all ∈ (all : Term S).alternatives := List.mem_singleton_self _
    exact ⟨iff_of_true hself hall, fun h => absurd hself h, fun h => absurd hself h,
      fun h => absurd hself h⟩
  · rw [oneOf_of_all_not_mem hall]
    have hmembers := (unionShape_unionMembers hflat).flat
    exact (sameUnion_ofAlternatives fun p hp => (hmembers p hp).2.2).trans
      (sameUnion_unionMembers hall)

/-- Only the set of the terms matters, and `empty` does not. -/
theorem oneOf_congr [LawfulSetAlgebra S E] (h : ∀ t : Term S, t ≠ empty → (t ∈ ts ↔ t ∈ us)) :
    oneOf ts = oneOf us := by
  refine SameUnion.oneOf_eq (SameUnion.of_mem_iff fun p hp => ?_)
  rw [List.mem_flatMap, List.mem_flatMap]
  refine exists_congr fun t => and_congr_left fun hpt => h t fun hempty => ?_
  rw [hempty] at hpt
  exact hp (List.mem_singleton.mp hpt)

theorem oneOf_nil [LawfulSetAlgebra S E] : oneOf [] = (empty : Term S) :=
  UnionShape.oneOf_eq ⟨.nil, nofun, nofun, nofun⟩ nofun

/-- Terms can be joined in groups first. -/
theorem oneOf_map_oneOf [LawfulSetAlgebra S E] {tss : List (List (Term S))}
    (h : ∀ ts ∈ tss, ∀ t ∈ ts, Canonical t) : oneOf (tss.map oneOf) = oneOf tss.flatten := by
  refine SameUnion.oneOf_eq ?_
  rw [List.flatMap_map, List.flatten_eq_flatMap, List.flatMap_assoc]
  exact SameUnion.flatMap fun ts hts => sameUnion_oneOf (h ts hts)

theorem Canonical.oneOf_alternatives [LawfulSetAlgebra S E] {t : Term S} (ht : Canonical t) :
    oneOf t.alternatives = t := by
  by_cases hempty : t = .empty
  · have hnone : oneOf [Term.empty] = oneOf ([] : List (Term S)) := oneOf_congr fun u hu =>
      iff_of_false (fun h => hu (List.mem_singleton.mp h)) List.not_mem_nil
    rw [hempty]
    exact hnone.trans oneOf_nil
  by_cases hall : t = .all
  · rw [hall]
    exact oneOf_of_all_mem (List.mem_singleton_self _)
  · rw [(ht.unionShape_alternatives hempty hall).oneOf_eq fun u hu => (ht.of_mem_alternatives u hu).1]
    exact ht.ofAlternatives_alternatives

theorem Canonical.oneOf_singleton [LawfulSetAlgebra S E] {t : Term S} (ht : Canonical t) :
    oneOf [t] = t := by
  have hflat : oneOf [t] = oneOf t.alternatives := by
    refine SameUnion.oneOf_eq ?_
    rw [List.flatMap_singleton, ht.flatMap_alternatives]
    exact SameUnion.refl _
  exact hflat.trans ht.oneOf_alternatives

end Alternations

/-! ### Intersections -/

/-- Parts that make the same intersection. -/
structure SameMeet (ps qs : List (Term S)) : Prop where
  first : interAll (ps.filterMap firstSet?) = interAll (qs.filterMap firstSet?)
  nullable : ps.all Term.nullable = qs.all Term.nullable
  compounds : SetAlgebra.isEmpty (interAll (ps.filterMap firstSet?)) = false →
    ∀ t : Term S, t.isCompound = true → (t ∈ ps ↔ t ∈ qs)
  literals : SetAlgebra.isEmpty (interAll (ps.filterMap firstSet?)) = false →
    ((∃ a, literal a ∈ ps) ↔ ∃ a, literal a ∈ qs)
  symbols : SetAlgebra.isEmpty (interAll (ps.filterMap firstSet?)) = false →
    interAll (ps.filterMap literal?) = interAll (qs.filterMap literal?)

section Intersections

variable {ps qs rs : List (Term S)} {E : Type v} [Membership E S]

theorem SameMeet.refl (ps : List (Term S)) : SameMeet ps ps :=
  ⟨rfl, rfl, fun _ _ _ => Iff.rfl, fun _ => Iff.rfl, fun _ => rfl⟩

theorem SameMeet.admits_iff [LawfulSetAlgebra S E] (h : SameMeet ps qs) {e : E} :
    (∀ p ∈ ps, p.Admits e) ↔ ∀ q ∈ qs, q.Admits e := by
  rw [← mem_interAll_firstSet?, h.first, mem_interAll_firstSet?]

theorem SameMeet.flatMap [LawfulSetAlgebra S E] {α : Type*} {f g : α → List (Term S)}
    {xs : List α} (h : ∀ x ∈ xs, SameMeet (f x) (g x)) :
    SameMeet (xs.flatMap f) (xs.flatMap g) := by
  -- A symbol that all parts admit is admitted in each group.
  have hfirst : SetAlgebra.isEmpty (interAll ((xs.flatMap f).filterMap firstSet?)) = false →
      ∀ x ∈ xs, SetAlgebra.isEmpty (interAll ((f x).filterMap firstSet?)) = false := by
    intro hne x hx
    obtain ⟨e, he⟩ := (isEmpty_interAll_firstSet? (E := E)).mp hne
    exact isEmpty_interAll_firstSet?.mpr
      ⟨e, fun p hp => he p (List.mem_flatMap.mpr ⟨x, hx, hp⟩)⟩
  refine ⟨?_, ?_, fun hne t ht => ?_, fun hne => ?_, fun hne => ?_⟩
  · refine LawfulSetAlgebra.ext fun e : E => ?_
    rw [mem_interAll_firstSet?, mem_interAll_firstSet?, List.forall_mem_flatMap,
      List.forall_mem_flatMap]
    exact forall₂_congr fun x hx => (h x hx).admits_iff
  · rw [Bool.eq_iff_iff, List.all_eq_true, List.all_eq_true, List.forall_mem_flatMap,
      List.forall_mem_flatMap]
    refine forall₂_congr fun x hx => ?_
    rw [← List.all_eq_true, (h x hx).nullable, List.all_eq_true]
  · rw [List.mem_flatMap, List.mem_flatMap]
    exact exists_congr fun x => and_congr_right fun hx => (h x hx).compounds (hfirst hne x hx) t ht
  · simp only [List.mem_flatMap]
    constructor
    · rintro ⟨a, x, hx, ha⟩
      obtain ⟨b, hb⟩ := ((h x hx).literals (hfirst hne x hx)).mp ⟨a, ha⟩
      exact ⟨b, x, hx, hb⟩
    · rintro ⟨b, x, hx, hb⟩
      obtain ⟨a, ha⟩ := ((h x hx).literals (hfirst hne x hx)).mpr ⟨b, hb⟩
      exact ⟨a, x, hx, ha⟩
  · refine LawfulSetAlgebra.ext fun e : E => ?_
    rw [mem_interAll, mem_interAll, List.filterMap_flatMap, List.filterMap_flatMap,
      List.forall_mem_flatMap, List.forall_mem_flatMap]
    refine forall₂_congr fun x hx => ?_
    rw [← mem_interAll, (h x hx).symbols (hfirst hne x hx), mem_interAll]

variable [Ord S] [DecidableEq S]

/-- The members of an intersection are as good as its parts, if these admit a common symbol. -/
theorem sameMeet_meetMembers [LawfulSetAlgebra S E] (h : ∃ e : E, ∀ p ∈ ps, p.Admits e) :
    SameMeet (meetMembers ps) ps := by
  obtain ⟨f, hf⟩ := h
  refine ⟨?_, ?_, fun _ t => mem_meetMembers_of_isCompound, fun _ => ?_, fun _ => ?_⟩
  · refine LawfulSetAlgebra.ext fun e : E => ?_
    rw [mem_interAll_firstSet?, mem_interAll_firstSet?]
    refine ⟨fun he p hp => ?_, admits_meetMembers⟩
    rcases (hf p hp).cases with hc | rfl | ⟨a, rfl⟩
    · exact he p ((mem_meetMembers_of_isCompound hc).mpr hp)
    · exact admits_all
    · have hjoined := admits_literal.mp (he _ (literal_mem_meetMembers hf hp))
      exact admits_literal.mpr (mem_interAll_literals.mp hjoined a hp)
  · rw [Bool.eq_iff_iff, List.all_eq_true, List.all_eq_true]
    constructor
    · intro hnull p hp
      rcases (hf p hp).cases with hc | rfl | ⟨a, rfl⟩
      · exact hnull p ((mem_meetMembers_of_isCompound hc).mpr hp)
      · exact nullable_all
      · have := hnull _ (literal_mem_meetMembers hf hp)
        rw [nullable_literal] at this
        contradiction
    · intro hnull t ht
      rcases mem_meetMembers.mp ht with ⟨set, rfl, -, ⟨a, ha⟩, -⟩ | ⟨-, ht⟩
      · have := hnull _ ha
        rw [nullable_literal] at this
        contradiction
      · exact hnull t ht
  · constructor
    · rintro ⟨a, ha⟩
      exact (of_literal_mem_meetMembers ha).2
    · rintro ⟨a, ha⟩
      exact ⟨_, literal_mem_meetMembers hf ha⟩
  · refine LawfulSetAlgebra.ext fun e : E => ?_
    rw [mem_interAll_literals]
    constructor
    · intro he
      by_cases ha : ∃ a, literal a ∈ ps
      · obtain ⟨a, ha⟩ := ha
        exact he _ (literal_mem_meetMembers hf ha)
      · exact mem_interAll_literals.mpr fun a h => absurd ⟨a, h⟩ ha
    · intro he a ha
      rwa [(of_literal_mem_meetMembers ha).1]

variable {ts us : List (Term S)}

/-- An intersection among the terms leaves no compound member on its own. -/
theorem exists_mem_meetMembers_ne [LawfulSetAlgebra S E] [Std.LawfulEqOrd S] {c : Term S}
    (h : ∃ e : E, ∀ p ∈ ps, p.Admits e) (hinter : Canonical (inter qs)) (hsub : ∀ q ∈ qs, q ∈ ps)
    (hc : c.isCompound = true) : ∃ t ∈ meetMembers ps, t ≠ c := by
  obtain ⟨f, hf⟩ := h
  cases hinter with
  | inter members two shape =>
    obtain ⟨u, hu, hne⟩ := shape.increasing.exists_ne two c
    rcases (hf u (hsub u hu)).cases with huc | rfl | ⟨a, rfl⟩
    · exact ⟨u, (mem_meetMembers_of_isCompound huc).mpr (hsub u hu), hne⟩
    · exact absurd rfl (shape.flat _ hu).1
    · refine ⟨_, literal_mem_meetMembers hf (hsub _ hu), ?_⟩
      rintro rfl
      contradiction

/-- A compound term that is no intersection comes out of `allOf` only if it was put in. -/
theorem mem_of_allOf_eq [LawfulSetAlgebra S E] [Std.LawfulEqOrd S] {c : Term S}
    (h : ∀ t ∈ ts, Canonical t) (hc : c.isCompound = true) (hinter : ∀ us, c ≠ inter us)
    (heq : allOf ts = c) : c ∈ ts := by
  have hfirst : ∃ e : E, ∀ p ∈ ts.flatMap conjuncts, p.Admits e := by
    by_contra hfirst
    rw [allOf_of_not_admits hfirst] at heq
    rw [← heq] at hc
    split at hc <;> contradiction
  -- The result is no intersection, and so it is the only member.
  have hmembers : meetMembers (ts.flatMap conjuncts) = [c] := by
    rw [allOf_of_admits hfirst] at heq
    match meetMembers (ts.flatMap conjuncts), heq with
    | [], heq =>
      rw [← show all = c from heq] at hc
      contradiction
    | [t], heq => rw [show t = c from heq]
    | t :: u :: ts, heq => exact absurd heq.symm (hinter _)
  have hparts : c ∈ ts.flatMap conjuncts := by
    rw [← mem_meetMembers_of_isCompound hc, hmembers]
    exact List.mem_singleton_self c
  obtain ⟨t, ht, hct⟩ := List.mem_flatMap.mp hparts
  by_cases htinter : ∃ us, t = inter us
  · obtain ⟨us, rfl⟩ := htinter
    have hsub : ∀ q ∈ us, q ∈ ts.flatMap conjuncts := fun q hq =>
      List.mem_flatMap.mpr ⟨_, ht, hq⟩
    obtain ⟨u, hu, hne⟩ := exists_mem_meetMembers_ne hfirst (h _ ht) hsub hc
    rw [hmembers] at hu
    exact absurd (List.mem_singleton.mp hu) hne
  · have hall : t ≠ all := by
      rintro rfl
      exact List.not_mem_nil hct
    rw [conjuncts_of_ne_inter hall fun us hus => htinter ⟨us, hus⟩] at hct
    rwa [List.mem_singleton.mp hct]

theorem allOf_of_empty_mem (h : empty ∈ ts) : allOf ts = empty := by
  refine if_pos (List.any_eq_true.mpr ⟨empty, List.mem_flatMap.mpr ⟨empty, h, ?_⟩, rfl⟩)
  exact List.mem_singleton_self _

variable [Std.TransOrd S] [Std.LawfulEqOrd S]

theorem SameMeet.meetMembers_eq (h : SameMeet ps qs)
    (hne : SetAlgebra.isEmpty (interAll (ps.filterMap firstSet?)) = false) :
    meetMembers ps = meetMembers qs := by
  refine increasing_meetMembers.ext increasing_meetMembers fun t => ?_
  rw [mem_meetMembers, mem_meetMembers, h.symbols hne, h.literals hne]
  exact or_congr Iff.rfl (and_congr_right fun hc => h.compounds hne t hc)

theorem SameMeet.allOf_eq [LawfulSetAlgebra S E]
    (h : SameMeet (ts.flatMap conjuncts) (us.flatMap conjuncts)) : allOf ts = allOf us := by
  by_cases hfirst : ∃ e : E, ∀ p ∈ ts.flatMap conjuncts, p.Admits e
  · have hfirst' : ∃ e : E, ∀ p ∈ us.flatMap conjuncts, p.Admits e :=
      hfirst.imp fun e => h.admits_iff.mp
    rw [allOf_of_admits hfirst, allOf_of_admits hfirst',
      h.meetMembers_eq (isEmpty_interAll_firstSet?.mpr hfirst)]
  · have hfirst' : ¬ ∃ e : E, ∀ p ∈ us.flatMap conjuncts, p.Admits e :=
      mt (Exists.imp fun e => h.admits_iff.mpr) hfirst
    rw [allOf_of_not_admits hfirst, allOf_of_not_admits hfirst', h.nullable]

/-- An intersection stands for its parts. -/
theorem sameMeet_allOf [LawfulSetAlgebra S E] (h : ∀ t ∈ ts, Canonical t) :
    SameMeet (allOf ts).conjuncts (ts.flatMap conjuncts) := by
  have hflat : ∀ p ∈ ts.flatMap conjuncts, p ≠ all ∧ ∀ us, p ≠ inter us := fun p hp =>
    (canonical_of_mem_flatMap_conjuncts h p hp).2
  by_cases hfirst : ∃ e : E, ∀ p ∈ ts.flatMap conjuncts, p.Admits e
  · rw [allOf_of_admits hfirst,
      conjuncts_ofConjuncts (meetShape_meetMembers hflat hfirst).flat]
    exact sameMeet_meetMembers hfirst
  · -- Neither side admits a symbol, and both are nullable or not.
    have hcollapse : ∀ t : Term S, t.conjuncts = [t] → (∀ e : E, ¬ t.Admits e) →
        t.nullable = (ts.flatMap conjuncts).all nullable →
        SameMeet t.conjuncts (ts.flatMap conjuncts) := by
      intro t ht hadmits hnull
      have hnone : ¬ ∃ e : E, ∀ p ∈ t.conjuncts, p.Admits e := by
        rintro ⟨e, he⟩
        exact hadmits e (he t (by rw [ht]; exact List.mem_singleton_self t))
      have hne : SetAlgebra.isEmpty (interAll (t.conjuncts.filterMap firstSet?)) ≠ false :=
        mt isEmpty_interAll_firstSet?.mp hnone
      refine ⟨LawfulSetAlgebra.ext fun e : E => ?_, ?_, fun h => absurd h hne,
        fun h => absurd h hne, fun h => absurd h hne⟩
      · rw [mem_interAll_firstSet?, mem_interAll_firstSet?]
        exact iff_of_false (fun he => hnone ⟨e, he⟩) fun he => hfirst ⟨e, he⟩
      · rw [ht, ← hnull, List.all_cons, List.all_nil, Bool.and_true]
    rw [allOf_of_not_admits hfirst]
    by_cases hall : (ts.flatMap conjuncts).all nullable = true
    · rw [if_pos hall]
      exact hcollapse eps rfl (fun e => not_admits_eps) (by rw [hall, nullable_eps])
    · rw [if_neg hall]
      refine hcollapse empty rfl (fun e => not_admits_empty) ?_
      rw [nullable_empty, Bool.eq_false_iff.mpr hall]

/-- Only the set of the terms matters. -/
theorem allOf_congr [LawfulSetAlgebra S E] (h : ∀ t : Term S, t ∈ ts ↔ t ∈ us) :
    allOf ts = allOf us := by
  have hparts : ∀ p : Term S, p ∈ ts.flatMap conjuncts ↔ p ∈ us.flatMap conjuncts := by
    intro p
    rw [List.mem_flatMap, List.mem_flatMap]
    exact exists_congr fun t => and_congr_left' (h t)
  refine SameMeet.allOf_eq (E := E) ⟨?_, ?_, fun _ t _ => hparts t, fun _ => ?_, fun _ => ?_⟩
  · refine LawfulSetAlgebra.ext fun e : E => ?_
    rw [mem_interAll_firstSet?, mem_interAll_firstSet?]
    exact forall_congr' fun p => imp_congr (hparts p) Iff.rfl
  · rw [Bool.eq_iff_iff, List.all_eq_true, List.all_eq_true]
    exact forall_congr' fun p => imp_congr (hparts p) Iff.rfl
  · exact exists_congr fun a => hparts _
  · refine LawfulSetAlgebra.ext fun e : E => ?_
    rw [mem_interAll_literals, mem_interAll_literals]
    exact forall_congr' fun a => imp_congr (hparts _) Iff.rfl

/-- Terms can be intersected in groups first. -/
theorem allOf_map_allOf [LawfulSetAlgebra S E] {tss : List (List (Term S))}
    (h : ∀ ts ∈ tss, ∀ t ∈ ts, Canonical t) : allOf (tss.map allOf) = allOf tss.flatten := by
  refine SameMeet.allOf_eq (E := E) ?_
  rw [List.flatMap_map, List.flatten_eq_flatMap, List.flatMap_assoc]
  exact SameMeet.flatMap fun ts hts => sameMeet_allOf (h ts hts)

theorem allOf_nil [LawfulSetAlgebra S E] : allOf [] = (all : Term S) := by
  obtain ⟨e⟩ := LawfulSetAlgebra.nonempty (S := S) (E := E)
  have shape : MeetShape ([] : List (Term S)) :=
    ⟨.nil, nofun, nofun, isEmpty_interAll_firstSet?.mpr ⟨e, nofun⟩⟩
  exact shape.allOf_eq nofun

theorem Canonical.allOf_singleton [LawfulSetAlgebra S E] {t : Term S} (ht : Canonical t) :
    allOf [t] = t := by
  by_cases hinter : ∃ us, t = .inter us
  · obtain ⟨us, rfl⟩ := hinter
    cases ht with
    | inter members two shape =>
      have hflat : us.flatMap conjuncts = us :=
        flatMap_eq_self fun t ht => conjuncts_of_ne_inter (shape.flat t ht).1 (shape.flat t ht).2
      -- The members of the intersection are its parts, and they make it up again.
      rw [← ofConjuncts_of_two_le two, ← shape.allOf_eq members]
      refine SameMeet.allOf_eq (E := E) ?_
      rw [List.flatMap_singleton, shape.allOf_eq members, ofConjuncts_of_two_le two, hflat]
      exact SameMeet.refl us
  have hne : ∀ us, t ≠ .inter us := fun us hus => hinter ⟨us, hus⟩
  by_cases hall : t = .all
  · rw [hall]
    exact allOf_nil
  by_cases hempty : t = .empty
  · rw [hempty]
    exact allOf_of_empty_mem (List.mem_singleton_self _)
  by_cases heps : t = .eps
  · rw [heps, allOf_of_not_admits (E := E)]
    · exact if_pos (by simp [conjuncts])
    · rintro ⟨e, he⟩
      exact not_admits_eps (he _ (List.mem_singleton_self _))
  · have shape : MeetShape [t] :=
      { increasing := List.pairwise_singleton ..
        flat := by
          intro u hu
          rw [List.mem_singleton.mp hu]
          exact ⟨hall, hne⟩
        literals := by
          intro a b ha hb
          exact literal.inj ((List.mem_singleton.mp ha).trans (List.mem_singleton.mp hb).symm)
        first := by
          obtain ⟨e, he⟩ := ht.exists_admits (E := E) heps hempty
          exact isEmpty_interAll_firstSet?.mpr ⟨e, fun u hu => List.mem_singleton.mp hu ▸ he⟩ }
    rw [shape.allOf_eq fun u hu => List.mem_singleton.mp hu ▸ ht]
    rfl

end Intersections

end ExtendedRegex.Term
