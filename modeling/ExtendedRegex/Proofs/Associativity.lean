/-
Building from a list of terms does not depend on how the list is grouped.

* `concat_map_concat`: factors can be put together in groups first, as `oneOf_map_oneOf` and
  `allOf_map_allOf` say of alternatives and conjuncts;
* `append_group`: what can be made of groups can be made with a single group inside a longer list;
* `grouping_of_built`: sequences, alternations and intersections with one of the same kind among
  their terms; and for the last two, terms in another order or given twice.

Design notes: the order of the factors matters to a sequence, and so does how often each of them is
there, but an alternation or an intersection is determined by the set of its terms.
-/
import ExtendedRegex.Mask
import ExtendedRegex.Proofs.Grouping

universe u v

namespace ExtendedRegex.Term

variable {S : Type u}

/-- What can be made of groups can be made with a group among other terms. -/
theorem append_group {f : List (Term S) → Term S} {P : Term S → Prop}
    (hgroups : ∀ tss : List (List (Term S)), (∀ ts ∈ tss, ∀ t ∈ ts, P t) →
      f (tss.map f) = f tss.flatten)
    (hsingle : ∀ t, P t → f [t] = t) {xs ys zs : List (Term S)}
    (h : ∀ t ∈ xs ++ ys ++ zs, P t) : f (xs ++ [f ys] ++ zs) = f (xs ++ ys ++ zs) := by
  have hxs : ∀ t ∈ xs, P t := fun t ht => h t (by simp [ht])
  have hys : ∀ t ∈ ys, P t := fun t ht => h t (by simp [ht])
  have hzs : ∀ t ∈ zs, P t := fun t ht => h t (by simp [ht])
  have halone : ∀ ts : List (Term S), (∀ t ∈ ts, P t) → ts.map (fun t => f [t]) = ts := by
    intro ts hts
    rw [List.map_congr_left fun t ht => hsingle t (hts t ht), List.map_id']
  -- Every other term is a group of its own.
  have hmap : (xs.map (fun t => [t]) ++ [ys] ++ zs.map fun t => [t]).map f =
      xs ++ [f ys] ++ zs := by
    simp only [List.map_append, List.map_map, Function.comp_def, List.map_singleton, halone xs hxs,
      halone zs hzs]
  have hflatten : (xs.map (fun t => [t]) ++ [ys] ++ zs.map fun t => [t]).flatten =
      xs ++ ys ++ zs := by
    rw [List.flatten_append, List.flatten_append, List.flatten_singleton, ← List.flatMap_def,
      ← List.flatMap_def, List.flatMap_singleton', List.flatMap_singleton']
  rw [← hmap, ← hflatten]
  refine hgroups _ fun ts hts => ?_
  rcases List.mem_append.mp hts with hts | hts
  · rcases List.mem_append.mp hts with hts | hts
    · obtain ⟨t, ht, rfl⟩ := List.mem_map.mp hts
      exact List.forall_mem_singleton.mpr (hxs t ht)
    · rwa [List.mem_singleton.mp hts]
  · obtain ⟨t, ht, rfl⟩ := List.mem_map.mp hts
    exact List.forall_mem_singleton.mpr (hzs t ht)

/-! ### Sequences -/

section Sequences

variable [SetAlgebra S] [Ord S] [DecidableEq S] {t : Term S} {ts : List (Term S)}

/-- The factors of a sequence are those of its terms, unless one of them is `empty`. -/
theorem factors_concat (h : ∀ t ∈ ts, Canonical t) (hempty : empty ∉ ts.flatMap factors) :
    (concat ts).factors = ts.flatMap factors := by
  rw [concat_of_empty_not_mem hempty]
  refine factors_ofFactors fun p hp => ?_
  obtain ⟨t, ht, hp⟩ := List.mem_flatMap.mp hp
  obtain ⟨-, heps, -, hseq⟩ := (h t ht).of_mem_factors p hp
  exact ⟨heps, hseq⟩

/-- Terms can be put one after another in groups first. -/
theorem concat_map_concat {tss : List (List (Term S))} (h : ∀ ts ∈ tss, ∀ t ∈ ts, Canonical t) :
    concat (tss.map concat) = concat tss.flatten := by
  by_cases hempty : ∃ ts ∈ tss, empty ∈ ts.flatMap factors
  · -- A group with `empty` is `empty`, and so are both sides.
    obtain ⟨ts, hts, hempty⟩ := hempty
    obtain ⟨t, ht, hp⟩ := List.mem_flatMap.mp hempty
    have hgroup : empty ∈ (tss.map concat).flatMap factors := by
      refine List.mem_flatMap.mpr ⟨concat ts, List.mem_map_of_mem hts, ?_⟩
      rw [concat_of_empty_mem hempty]
      exact List.mem_singleton_self _
    have hflat : empty ∈ tss.flatten.flatMap factors :=
      List.mem_flatMap.mpr ⟨t, List.mem_flatten.mpr ⟨ts, hts, ht⟩, hp⟩
    rw [concat_of_empty_mem hgroup, concat_of_empty_mem hflat]
  · have hparts : (tss.map concat).flatMap factors = tss.flatten.flatMap factors := by
      rw [List.flatMap_map, List.flatten_eq_flatMap, List.flatMap_assoc, List.flatMap_def,
        List.flatMap_def]
      refine congrArg _ (List.map_congr_left fun ts hts => ?_)
      exact factors_concat (h ts hts) fun h => hempty ⟨ts, hts, h⟩
    rw [concat, hparts, concat]

theorem Canonical.concat_singleton (ht : Canonical t) : concat [t] = t := by
  by_cases hempty : t = .empty
  · rw [hempty]
    exact concat_of_empty_mem (List.mem_singleton_self _)
  · have hparts : [t].flatMap factors = t.factors := List.flatMap_singleton ..
    rw [concat_of_empty_not_mem, hparts]
    · cases ht with
      | seq members two flat => exact ofFactors_of_two_le two
      | _ => rfl
    · rw [hparts]
      exact fun h => hempty ((ht.of_mem_factors _ h).2.2.1 rfl)

end Sequences

/-! ### All three -/

/-- A sequence, alternation or intersection among the terms of another one of its kind can be
replaced by the terms that it was built from.  Alternations and intersections do not depend on the
order of their terms, nor on whether one of them is given again; and a single term is left as it is.
-/
theorem grouping_of_built (E : Type v) [SetAlgebra S] [Membership E S] [LawfulSetAlgebra S E]
    [Ord S] [DecidableEq S] [Std.TransOrd S] [Std.LawfulEqOrd S] :
    (∀ xs ys zs : List (Term S), (∀ t ∈ xs ++ ys ++ zs, Built t) →
      oneOf (xs ++ [oneOf ys] ++ zs) = oneOf (xs ++ ys ++ zs) ∧
      allOf (xs ++ [allOf ys] ++ zs) = allOf (xs ++ ys ++ zs) ∧
      concat (xs ++ [concat ys] ++ zs) = concat (xs ++ ys ++ zs)) ∧
    (∀ ts us : List (Term S), ts.Perm us → oneOf ts = oneOf us ∧ allOf ts = allOf us) ∧
    (∀ xs zs : List (Term S), ∀ t ∈ xs ++ zs, oneOf (xs ++ [t] ++ zs) = oneOf (xs ++ zs) ∧
      allOf (xs ++ [t] ++ zs) = allOf (xs ++ zs)) ∧
    ∀ t : Term S, Built t → oneOf [t] = t ∧ allOf [t] = t ∧ concat [t] = t := by
  refine ⟨fun xs ys zs h => ?_, fun ts us h => ?_, fun xs zs t ht => ?_, fun t ht => ?_⟩
  · have hc : ∀ t ∈ xs ++ ys ++ zs, Canonical t := fun t ht => (h t ht).canonical (E := E)
    refine ⟨append_group (fun tss => oneOf_map_oneOf (E := E)) (fun t ht => ?_) hc,
      append_group (fun tss => allOf_map_allOf (E := E)) (fun t ht => ?_) hc,
      append_group (fun tss => concat_map_concat) (fun t ht => ?_) hc⟩
    · exact ht.oneOf_singleton (E := E)
    · exact ht.allOf_singleton (E := E)
    · exact ht.concat_singleton
  · exact ⟨oneOf_congr (E := E) fun t _ => h.mem_iff, allOf_congr (E := E) fun t => h.mem_iff⟩
  · have hmem : ∀ u, u ∈ xs ++ [t] ++ zs ↔ u ∈ xs ++ zs := by
      intro u
      simp only [List.mem_append, List.mem_singleton] at ht ⊢
      constructor
      · rintro ((hu | rfl) | hu)
        · exact .inl hu
        · exact ht
        · exact .inr hu
      · exact fun hu => hu.imp_left .inl
    exact ⟨oneOf_congr (E := E) fun u _ => hmem u, allOf_congr (E := E) hmem⟩
  · have hc : Canonical t := ht.canonical (E := E)
    exact ⟨hc.oneOf_singleton (E := E), hc.allOf_singleton (E := E), hc.concat_singleton⟩

/-- Two stars with no first symbol in common collapse before a complement is intersected with them,
and it makes no difference. -/
theorem grouping_of_built_allOf :
    allOf [closure (ofSet (⟨1#8⟩ : Mask)), closure (ofSet ⟨2#8⟩)] = eps ∧
    allOf [complement (ofSet (⟨4#8⟩ : Mask)), eps] =
      allOf [complement (ofSet (⟨4#8⟩ : Mask)), closure (ofSet ⟨1#8⟩), closure (ofSet ⟨2#8⟩)] ∧
    allOf [closure (ofSet (⟨2#8⟩ : Mask)), closure (ofSet ⟨1#8⟩)] = eps := by
  obtain ⟨hgroup, horder, -, -⟩ := grouping_of_built (S := Mask) (Fin 8)
  have hcollapse : allOf [closure (ofSet (⟨1#8⟩ : Mask)), closure (ofSet ⟨2#8⟩)] = eps := by
    have hnone : ¬ ∃ e : Fin 8, ∀ p ∈ [star (literal (⟨1#8⟩ : Mask)), star (literal ⟨2#8⟩)],
        p.Admits e := by
      simp only [List.forall_mem_cons, admits_iff, firstBound, plain_star, plain_literal,
        Mask.mem_iff]
      decide
    have hnull : [star (literal (⟨1#8⟩ : Mask)), star (literal ⟨2#8⟩)].all nullable = true := by
      simp
    exact (allOf_of_not_admits hnone).trans (if_pos hnull)
  have hbuilt : ∀ t ∈ [complement (ofSet (⟨4#8⟩ : Mask))] ++
      [closure (ofSet ⟨1#8⟩), closure (ofSet ⟨2#8⟩)] ++ [], Built t := by
    simp [Built.ofSet, Built.closure, Built.complement]
  refine ⟨hcollapse, ?_, ?_⟩
  · have hinner := (hgroup _ _ _ hbuilt).2.1
    rw [hcollapse] at hinner
    exact hinner
  · rw [← hcollapse]
    exact (horder _ _ (.swap ..)).2

end ExtendedRegex.Term
