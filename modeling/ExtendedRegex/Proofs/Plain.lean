/-
Terms without intersections and complements, and what the shape of a built term shows.

* `Extended`: an intersection or a complement occurs somewhere in the term;
* `plain_eq_true_iff`: the plain terms are those that are not extended;
* `plain_concat`, `plain_closure`, `plain_rep` and others: all building functions but `allOf` and
  `complement` keep terms plain, and so every pattern has a plain term (`Pattern.plain_term`);
* `firstSet?_emptiness_of_built`: the first set of a built term is known exactly if the term is not
  extended, and then it is exact; and what the verdict on emptiness means.

Design notes: `plain` is kept in every node, while `Extended` looks for a part of the term.  Only
the verdict `unknown` depends on whether a term is plain, since a built term that is plain and not
`empty` matches some word.
-/
import ExtendedRegex.Proofs.NormalForm

universe u v

namespace ExtendedRegex

namespace Term

variable {S : Type u}

/-! ### Parts of a term -/

section Parts

variable {s t u : Term S} {ts : List (Term S)}

/-- A part of a part is a part. -/
theorem Subterm.trans (h : Subterm s t) (h' : Subterm t u) : Subterm s u := by
  induction h' with
  | refl => exact h
  | alt hu _ ih => exact .alt hu ih
  | seq hu _ ih => exact .seq hu ih
  | inter hu _ ih => exact .inter hu ih
  | compl _ ih => exact .compl ih
  | star _ ih => exact .star ih

/-- An intersection or a complement is a part of the term. -/
def Extended (t : Term S) : Prop :=
  (∃ us, Subterm (inter us) t) ∨ ∃ u, Subterm (compl u) t

theorem Extended.of_subterm (ht : t.Extended) (h : Subterm t u) : u.Extended :=
  ht.imp (fun ⟨us, hus⟩ => ⟨us, hus.trans h⟩) fun ⟨v, hv⟩ => ⟨v, hv.trans h⟩

theorem plain_of_subterm (ht : t.plain = true) (h : Subterm u t) : u.plain = true := by
  induction h with
  | refl => exact ht
  | alt hu _ ih =>
    rw [plain_alt, List.all_eq_true] at ht
    exact ih (ht _ hu)
  | seq hu _ ih =>
    rw [plain_seq, List.all_eq_true] at ht
    exact ih (ht _ hu)
  | inter hu _ ih => simp at ht
  | compl _ ih => simp at ht
  | star _ ih =>
    rw [plain_star] at ht
    exact ih ht

theorem exists_not_plain (h : ts.all plain = false) : ∃ t ∈ ts, t.plain = false := by
  obtain ⟨t, ht, hplain⟩ := List.all_eq_false.mp h
  exact ⟨t, ht, Bool.not_eq_true _ ▸ hplain⟩

theorem extended_of_not_plain (h : t.plain = false) : t.Extended := by
  induction t using memberInduction with
  | eps => simp at h
  | empty => simp at h
  | all => simp at h
  | literal set => simp at h
  | alt ts ih =>
    rw [plain_alt] at h
    obtain ⟨u, hu, hplain⟩ := exists_not_plain h
    exact (ih u hu hplain).of_subterm (.alt hu .refl)
  | seq ts ih =>
    rw [plain_seq] at h
    obtain ⟨u, hu, hplain⟩ := exists_not_plain h
    exact (ih u hu hplain).of_subterm (.seq hu .refl)
  | inter ts _ => exact .inl ⟨ts, .refl⟩
  | compl t _ => exact .inr ⟨t, .refl⟩
  | star t ih =>
    rw [plain_star] at h
    exact (ih h).of_subterm (.star .refl)

/-- The plain terms are those in which neither an intersection nor a complement occurs. -/
theorem plain_eq_true_iff : t.plain = true ↔ ¬ t.Extended := by
  constructor
  · rintro h (⟨us, hus⟩ | ⟨u, hu⟩)
    · simpa using plain_of_subterm h hus
    · simpa using plain_of_subterm h hu
  · intro h
    by_contra hplain
    exact h (extended_of_not_plain (Bool.not_eq_true _ ▸ hplain))

theorem plain_eq_false_iff : t.plain = false ↔ t.Extended := by
  rw [← Bool.not_eq_true, plain_eq_true_iff, Classical.not_not]

end Parts

/-! ### Building functions that keep terms plain -/

section Building

variable {t : Term S} {ts : List (Term S)}

theorem plain_concat (h : ∀ t ∈ ts, t.plain = true) : (concat ts).plain = true := by
  by_cases hempty : empty ∈ ts.flatMap factors
  · rw [concat_of_empty_mem hempty, plain_empty]
  · rw [concat_of_empty_not_mem hempty]
    refine plain_ofFactors fun p hp => ?_
    obtain ⟨t, ht, hp⟩ := List.mem_flatMap.mp hp
    exact plain_of_mem_factors (h t ht) p hp

theorem plain_concat_pair {u : Term S} (ht : t.plain = true) (hu : u.plain = true) :
    (concat [t, u]).plain = true :=
  plain_concat (List.forall_mem_cons.mpr ⟨ht, List.forall_mem_singleton.mpr hu⟩)

theorem plain_power (ht : t.plain = true) (n : Nat) : (power t n).plain = true := by
  by_cases hn : n = 0
  · rw [hn, power_zero, plain_eps]
  by_cases heps : t = eps
  · rw [heps, power_eps, plain_eps]
  by_cases hempty : t = empty
  · rw [hempty, power_empty hn, plain_empty]
  · rw [power_of_ne heps hempty hn]
    exact plain_ofFactors fun p hp => plain_of_mem_factors ht p (mem_factors_of_mem_replicate hp)

variable [SetAlgebra S]

theorem plain_ofSet (set : S) : (ofSet set).plain = true := by
  rw [ofSet]
  split
  · exact plain_empty
  · exact plain_literal

theorem plain_starOf (ht : t.plain = true) : (starOf t).plain = true := by
  have hstar : (star t).plain = true := plain_star.trans ht
  cases t with
  | eps => exact plain_eps
  | empty => exact plain_eps
  | all => exact plain_all
  | star t => exact ht
  | literal set =>
    rw [starOf]
    split
    · exact plain_all
    · exact hstar
  | alt ts => exact hstar
  | seq ts => exact hstar
  | inter ts => exact hstar
  | compl t => exact hstar

variable [Ord S] [DecidableEq S]

theorem plain_closure (ht : t.plain = true) : (closure t).plain = true := by
  rcases closure_cases t with ⟨-, heq⟩ | ⟨us, rfl, -, heq⟩
  · rw [heq]
    exact plain_starOf ht
  · rw [plain_alt, List.all_eq_true] at ht
    rw [heq]
    exact plain_starOf (plain_oneOf fun u hu => ht u (List.mem_filter.mp hu).1)

theorem plain_plus (ht : t.plain = true) : (plus t).plain = true := by
  have hconcat : (concat [t, closure t]).plain = true := plain_concat_pair ht (plain_closure ht)
  cases t <;> first | exact ht | exact hconcat

theorem plain_opt (ht : t.plain = true) : (opt t).plain = true := by
  have honeOf : (oneOf [t, eps]).plain = true :=
    plain_oneOf (List.forall_mem_cons.mpr ⟨ht, List.forall_mem_singleton.mpr plain_eps⟩)
  cases t <;> first | exact ht | exact plain_eps | exact honeOf

theorem plain_rep (ht : t.plain = true) (min : Nat) (max : Option Nat) :
    (rep t min max).plain = true := by
  cases max with
  | none => exact plain_concat_pair (plain_power ht min) (plain_closure ht)
  | some max =>
    rw [rep]
    split
    · exact plain_empty
    · exact plain_concat_pair (plain_power ht min) (plain_power (plain_opt ht) (max - min))

theorem regularClosed_plain : RegularClosed fun t : Term S => t.plain = true where
  empty := plain_empty
  eps := plain_eps
  ofSet := plain_ofSet
  concat _ _ := plain_concat_pair
  oneOf _ _ ht hu := plain_oneOf (List.forall_mem_cons.mpr ⟨ht, List.forall_mem_singleton.mpr hu⟩)
  closure _ := plain_closure

end Building

end Term

/-! ### Terms of patterns -/

theorem Quantifier.plain_apply {t : CharTerm} (ht : t.plain = true) (q : Quantifier) :
    (q.apply t).plain = true := by
  cases q with
  | star => exact Term.plain_closure ht
  | plus => exact Term.plain_plus ht
  | opt => exact Term.plain_opt ht
  | rep min max => exact Term.plain_rep ht min max

namespace Pattern

mutual

theorem plain_term : (p : Pattern) → p.term.plain = true
  | char _ => Term.plain_ofSet _
  | any => Term.plain_ofSet _
  | digit => Term.plain_ofSet _
  | bracket _ _ => Term.plain_ofSet _
  | quantified item quantifier => quantifier.plain_apply (plain_term item)
  | seq items => Term.plain_concat (plain_terms items)
  | alt branches => Term.plain_oneOf (plain_terms branches)

theorem plain_terms : (ps : List Pattern) → ∀ t ∈ terms ps, t.plain = true
  | [] => nofun
  | p :: ps => List.forall_mem_cons.mpr ⟨plain_term p, plain_terms ps⟩

end

end Pattern

theorem Term.plain_of_parse {input : String} {t : CharTerm} (h : Term.parse input = .ok t) :
    t.plain = true := by
  obtain ⟨p, -, rfl⟩ := Term.parse_eq_ok_iff.mp h
  exact p.plain_term

namespace Term

/-! ### What the shape shows -/

section Shape

variable {S : Type u} [SetAlgebra S] {t : Term S}

theorem firstSet?_isSome_iff : t.firstSet?.isSome = true ↔ t.plain = true := by
  rw [firstSet?]
  split <;> simp_all

end Shape

/-- The first set of a built term is known exactly if neither an intersection nor a complement
occurs in the term.  Then it is the set of the symbols that matching words start with, and some word
matches unless the term is `empty`.  The verdict on emptiness is `empty` for `empty` alone, the
verdict `inhabited` is right, and there is none for the terms with an intersection or a complement
that do not match the empty word.  A pattern matches some word unless its term is `empty`. -/
theorem firstSet?_emptiness_of_built {S : Type u} {E : Type v} [SetAlgebra S] [Membership E S]
    [LawfulSetAlgebra S E] [Ord S] [DecidableEq S] [Std.TransOrd S] [Std.LawfulEqOrd S] :
    (∀ t : Term S, Built t →
      (t.firstSet?.isSome = true ↔ ¬ t.Extended) ∧
      (∀ first, t.firstSet? = some first → ∀ e : E, e ∈ first ↔ ∃ w, e :: w ∈ t.language) ∧
      (¬ t.Extended → (∀ w : List E, w ∉ t.language) → t = empty) ∧
      (t.emptiness = .empty ↔ t = empty) ∧
      (t.emptiness = .inhabited → ∃ w : List E, w ∈ t.language) ∧
      (t.emptiness = .unknown ↔ t.nullable = false ∧ t.Extended)) ∧
    ∀ (input : String) (t : CharTerm), Term.parse input = .ok t → t ≠ empty →
      ∃ w : List Char, w ∈ t.language := by
  constructor
  · intro t ht
    have hc : Canonical t := ht.canonical (E := E)
    refine ⟨?_, fun first hfirst e => hc.mem_of_firstSet?_iff hfirst, fun hplain hnone => ?_,
      hc.emptiness_eq_empty_iff (E := E), hc.exists_mem_of_emptiness, ?_⟩
    · rw [firstSet?_isSome_iff, plain_eq_true_iff]
    · by_contra hne
      obtain ⟨w, hw⟩ := hc.exists_mem_language (E := E) (plain_eq_true_iff.mpr hplain) hne
      exact hnone w hw
    · rw [emptiness_eq_unknown_iff, plain_eq_false_iff]
  · intro input t h hne
    exact ((built_of_parse h).canonical (E := Char)).exists_mem_language (plain_of_parse h) hne

/-- A complement at the start of a sequence leaves its first set and the verdict open.  The pattern
of a single character matches some word. -/
theorem firstSet?_emptiness_of_built_concat :
    Built (concat [complement (ofSet (⟨3#8⟩ : Mask)), ofSet ⟨1#8⟩]) ∧
    (concat [complement (ofSet (⟨3#8⟩ : Mask)), ofSet ⟨1#8⟩]).firstSet? = none ∧
    (concat [complement (ofSet (⟨3#8⟩ : Mask)), ofSet ⟨1#8⟩]).emptiness = .unknown ∧
    ∃ t, Term.parse "a" = .ok t ∧ t ≠ empty ∧ ∃ w : List Char, w ∈ t.language := by
  set t : Term Mask := concat [complement (ofSet ⟨3#8⟩), ofSet ⟨1#8⟩] with ht
  have hshape : t = seq [compl (literal ⟨3#8⟩), literal ⟨1#8⟩] := rfl
  have hbuilt : Built t := .concat (by simp [Built.complement, Built.ofSet])
  have hextended : t.Extended := .inr ⟨literal ⟨3#8⟩, hshape ▸ .seq List.mem_cons_self .refl⟩
  have hnull : t.nullable = false := by simp [hshape]
  have hread : Term.parse "a" = .ok (Pattern.alt [.seq [.char 'a']]).term := rfl
  have hne : (Pattern.alt [.seq [.char 'a']]).term ≠ empty := by
    have hterm : (Pattern.alt [.seq [.char 'a']]).term = (Pattern.seq [.char 'a']).term :=
      ((Pattern.built_term (.seq [.char 'a'])).canonical (E := Char)).oneOf_singleton (E := Char)
    have hbranch : (Pattern.seq [.char 'a']).term = literal (.single 'a') := rfl
    rw [hterm, hbranch]
    intro h
    contradiction
  obtain ⟨hterms, hpatterns⟩ := firstSet?_emptiness_of_built (S := Mask) (E := Fin 8)
  obtain ⟨hknown, -, -, -, -, hunknown⟩ := hterms t hbuilt
  refine ⟨hbuilt, ?_, hunknown.mpr ⟨hnull, hextended⟩, _, hread, hne, hpatterns _ _ hread hne⟩
  rw [← Option.not_isSome_iff_eq_none, hknown]
  exact not_not_intro hextended

end Term

end ExtendedRegex
