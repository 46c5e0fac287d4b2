/-
The language of a term: the words that it denotes.

`Term.language` reads each constructor as the operation on languages that its
name says: sums, products, intersections, complements and Kleene stars.

* `mem_language_star`: a word in a star is empty, or splits off a word of the
  body that is not empty;
* `nullable_iff` and `mem_firstBound`: what `nullable` and `firstBound` say of
  the language;
* `emptiness_cases`: what the verdicts on emptiness go by;
* `not_mem_of_emptiness`: the verdict `empty` is right.

Design notes: nothing here needs a term to be in canonical form.  Lists of
terms are handled through `memberInduction`, whose hypothesis for an alternation
(or a sequence, or an intersection) is about all its members.
-/
import ExtendedRegex.Term.Basic
import Mathlib.Computability.Language
import Mathlib.Order.ConditionallyCompleteLattice.Basic

universe u v

namespace ExtendedRegex.Term

open scoped Computability

variable {S : Type u} {E : Type v}

/-- Induction on terms, with the hypothesis for every member of a list of members. -/
@[elab_as_elim]
theorem memberInduction {P : Term S → Prop} (t : Term S) (eps : P eps) (empty : P empty)
    (all : P all) (literal : ∀ set, P (literal set))
    (alt : ∀ ts, (∀ t ∈ ts, P t) → P (alt ts)) (seq : ∀ ts, (∀ t ∈ ts, P t) → P (seq ts))
    (inter : ∀ ts, (∀ t ∈ ts, P t) → P (inter ts)) (compl : ∀ t, P t → P (compl t))
    (star : ∀ t, P t → P (star t)) : P t :=
  @Term.rec S P (fun ts => ∀ t ∈ ts, P t) eps empty all literal alt seq inter compl star
    (fun _ h => absurd h List.not_mem_nil)
    (fun _ _ ht hts => List.forall_mem_cons.mpr ⟨ht, hts⟩) t

section Definition

variable [Membership E S]

mutual

/-- The words that a term denotes. -/
def language : Term S → Language E
  | eps => 1
  | empty => 0
  | all => ⊤
  | literal set => {w | ∃ e ∈ set, w = [e]}
  | alt ts => (languages ts).sum
  | seq ts => (languages ts).prod
  | inter ts => (languages ts).foldr (· ⊓ ·) ⊤
  | compl t => (language t)ᶜ
  | star t => (language t)∗

/-- The languages of some terms. -/
def languages : List (Term S) → List (Language E)
  | [] => []
  | t :: ts => language t :: languages ts

end

theorem languages_eq_map (ts : List (Term S)) : languages ts = ts.map language := by
  induction ts with
  | nil => rfl
  | cons t ts ih => rw [languages, ih, List.map_cons]

end Definition

section Membership

variable [Membership E S] {w : List E} {t : Term S} {ts : List (Term S)}

theorem language_seq : (seq ts).language = (ts.map language).prod := by
  rw [language, languages_eq_map]

@[simp] theorem mem_language_eps : w ∈ (eps : Term S).language ↔ w = [] := Iff.rfl

@[simp] theorem mem_language_empty : w ∉ (empty : Term S).language := id

@[simp] theorem mem_language_all : w ∈ (all : Term S).language := trivial

theorem mem_language_literal {set : S} : w ∈ (literal set).language ↔ ∃ e ∈ set, w = [e] := Iff.rfl

theorem mem_language_alt : w ∈ (alt ts).language ↔ ∃ t ∈ ts, w ∈ t.language := by
  rw [language, languages_eq_map]
  induction ts with
  | nil => simp
  | cons t ts ih => rw [List.map_cons, List.sum_cons, Language.mem_add, ih, List.exists_mem_cons_iff]

theorem mem_language_inter : w ∈ (inter ts).language ↔ ∀ t ∈ ts, w ∈ t.language := by
  rw [language, languages_eq_map]
  induction ts with
  | nil => exact ⟨fun _ t ht => absurd ht List.not_mem_nil, fun _ => trivial⟩
  | cons t ts ih => rw [List.map_cons, List.foldr_cons, Language.mem_inf, ih, List.forall_mem_cons]

theorem mem_language_compl : w ∈ (compl t).language ↔ w ∉ t.language := Iff.rfl

theorem language_star : (star t).language = t.language∗ := rfl

theorem mem_language_seq_cons :
    w ∈ (seq (t :: ts)).language ↔ ∃ u ∈ t.language, ∃ v ∈ (seq ts).language, u ++ v = w := by
  rw [language_seq, language_seq, List.map_cons, List.prod_cons, Language.mem_mul]

/-- A word of a star is empty, or starts with a word of the body that is not empty. -/
theorem mem_language_star : w ∈ (star t).language ↔
    w = [] ∨ ∃ u ∈ t.language, u ≠ [] ∧ ∃ v ∈ (star t).language, u ++ v = w := by
  rw [language_star]
  constructor
  · -- The words that a word of the star is made of can be taken to be non-empty.
    intro h
    obtain ⟨us, rfl, hus⟩ := Language.mem_kstar_iff_exists_nonempty.mp h
    cases us with
    | nil => exact .inl rfl
    | cons u us =>
      obtain ⟨hu, hu'⟩ := hus u (List.mem_cons_self ..)
      have hrest : us.flatten ∈ t.language∗ :=
        Language.join_mem_kstar fun y hy => (hus y (List.mem_cons_of_mem _ hy)).1
      exact .inr ⟨u, hu, hu', us.flatten, hrest, rfl⟩
  · rintro (rfl | ⟨u, hu, -, v, hv, rfl⟩)
    · exact Language.nil_mem_kstar _
    · rw [← Language.one_add_self_mul_kstar_eq_kstar]
      exact .inr (Language.append_mem_mul hu hv)

end Membership

section Nullable

variable [Membership E S]

theorem nil_mem_language_seq {ts : List (Term S)} :
    [] ∈ (seq ts).language ↔ ∀ t ∈ ts, [] ∈ t.language := by
  induction ts with
  | nil => simp [language_seq]
  | cons t ts ih =>
    rw [mem_language_seq_cons, List.forall_mem_cons, ← ih]
    constructor
    · rintro ⟨u, hu, v, hv, huv⟩
      obtain ⟨rfl, rfl⟩ := List.append_eq_nil_iff.mp huv
      exact ⟨hu, hv⟩
    · rintro ⟨hu, hv⟩
      exact ⟨[], hu, [], hv, rfl⟩

theorem exists_mem_language_seq {ts : List (Term S)} (h : ∀ t ∈ ts, ∃ w : List E, w ∈ t.language) :
    ∃ w : List E, w ∈ (seq ts).language := by
  induction ts with
  | nil => exact ⟨[], by simp [language_seq]⟩
  | cons t ts ih =>
    obtain ⟨u, hu⟩ := h t (List.mem_cons_self ..)
    obtain ⟨v, hv⟩ := ih fun t ht => h t (List.mem_cons_of_mem _ ht)
    exact ⟨u ++ v, mem_language_seq_cons.mpr ⟨u, hu, v, hv, rfl⟩⟩

/-- `nullable` says whether the empty word matches. -/
theorem nullable_iff {t : Term S} : t.nullable = true ↔ [] ∈ t.language := by
  induction t using memberInduction with
  | eps => simp
  | empty => simp
  | all => simp
  | literal set => simp [mem_language_literal]
  | alt ts ih =>
    rw [nullable_alt, List.any_eq_true, mem_language_alt]
    exact exists_congr fun t => and_congr_right fun ht => ih t ht
  | seq ts ih =>
    rw [nullable_seq, List.all_eq_true, nil_mem_language_seq]
    exact forall₂_congr ih
  | inter ts ih =>
    rw [nullable_inter, List.all_eq_true, mem_language_inter]
    exact forall₂_congr ih
  | compl t ih => rw [nullable_compl, mem_language_compl, ← ih, Bool.not_eq_true', Bool.not_eq_true]
  | star t _ => simp [language_star, Language.nil_mem_kstar]

/-- A word of a product takes its first symbol from the left factor, or from the right one after
the empty word. -/
theorem cons_mem_mul {l m : Language E} {e : E} {w : List E} :
    e :: w ∈ l * m ↔
      (∃ u, e :: u ∈ l ∧ ∃ v ∈ m, u ++ v = w) ∨ [] ∈ l ∧ e :: w ∈ m := by
  rw [Language.mem_mul]
  constructor
  · -- The symbol is in the left part of the word, unless that part is empty.
    rintro ⟨u, hu, v, hv, huv⟩
    cases u with
    | nil => exact .inr ⟨hu, huv ▸ hv⟩
    | cons f u =>
      obtain ⟨rfl, rfl⟩ := List.cons.inj huv
      exact .inl ⟨u, hu, v, hv, rfl⟩
  · rintro (⟨u, hu, v, hv, rfl⟩ | ⟨hl, hm⟩)
    · exact ⟨e :: u, hu, v, hv, rfl⟩
    · exact ⟨[], hl, e :: w, hm, rfl⟩

theorem cons_mem_language_star {t : Term S} {e : E} {w : List E} :
    e :: w ∈ (star t).language ↔
      ∃ u, e :: u ∈ t.language ∧ ∃ v ∈ (star t).language, u ++ v = w := by
  rw [mem_language_star]
  constructor
  · rintro (h | ⟨u, hu, hne, v, hv, huv⟩)
    · exact absurd h (List.cons_ne_nil e w)
    · cases u with
      | nil => exact absurd rfl hne
      | cons f u =>
        obtain ⟨rfl, rfl⟩ := List.cons.inj huv
        exact ⟨u, hu, v, hv, rfl⟩
  · rintro ⟨u, hu, v, hv, rfl⟩
    exact .inr ⟨e :: u, hu, List.cons_ne_nil e u, v, hv, rfl⟩

end Nullable

theorem firstSet?_eq_some_iff [SetAlgebra S] {t : Term S} {first : S} :
    t.firstSet? = some first ↔ t.plain = true ∧ t.firstBound = first := by
  rw [firstSet?]
  by_cases h : t.plain = true
  · rw [if_pos h, Option.some.injEq, and_iff_right h]
  · rw [if_neg h]
    exact iff_of_false nofun fun h' => h h'.1

/-- What the verdicts on emptiness go by. -/
theorem emptiness_cases [SetAlgebra S] (t : Term S) :
    (t.emptiness = .empty ∧ (t = empty ∨ t.nullable = false ∧
      ∃ first, t.firstSet? = some first ∧ SetAlgebra.isEmpty first = true)) ∨
    (t.emptiness = .inhabited ∧ (t.nullable = true ∨ t ≠ empty ∧ t.plain = true)) ∨
    (t.emptiness = .unknown ∧ t.nullable = false ∧ t.plain = false) := by
  rw [emptiness]
  by_cases hempty : t.isEmpty = true
  · have ht : t = empty := by
      cases t with
      | empty => rfl
      | _ => contradiction
    exact .inl ⟨if_pos hempty, .inl ht⟩
  · rw [if_neg hempty]
    by_cases hnull : t.nullable = true
    · exact .inr (.inl ⟨if_pos hnull, .inl hnull⟩)
    · rw [if_neg hnull]
      rw [Bool.not_eq_true] at hnull
      rcases hfirst : t.firstSet? with _ | first
      · refine .inr (.inr ⟨rfl, hnull, Bool.eq_false_iff.mpr fun hplain => ?_⟩)
        rw [firstSet?, if_pos hplain] at hfirst
        contradiction
      · dsimp only
        by_cases hnone : SetAlgebra.isEmpty first = true
        · exact .inl ⟨if_pos hnone, .inr ⟨hnull, first, rfl, hnone⟩⟩
        · have hne : t ≠ empty := by
            rintro rfl
            exact hempty rfl
          exact .inr (.inl ⟨if_neg hnone, .inr ⟨hne, (firstSet?_eq_some_iff.mp hfirst).1⟩⟩)

theorem emptiness_eq_unknown_iff [SetAlgebra S] {t : Term S} :
    t.emptiness = .unknown ↔ t.nullable = false ∧ t.plain = false := by
  constructor
  · intro ht
    rcases emptiness_cases t with ⟨h, -⟩ | ⟨h, -⟩ | ⟨-, hneither⟩
    · rw [h] at ht
      contradiction
    · rw [h] at ht
      contradiction
    · exact hneither
  · rintro ⟨hnull, hplain⟩
    rcases emptiness_cases t with
      ⟨-, rfl | ⟨-, first, hfirst, -⟩⟩ | ⟨-, hnull' | ⟨-, hplain'⟩⟩ | ⟨h, -⟩
    · rw [plain_empty] at hplain
      contradiction
    · rw [(firstSet?_eq_some_iff.mp hfirst).1] at hplain
      contradiction
    · rw [hnull'] at hnull
      contradiction
    · rw [hplain'] at hplain
      contradiction
    · exact h

theorem nullable_of_emptiness [SetAlgebra S] {t : Term S} (h : t.emptiness = .unknown) :
    t.nullable = false :=
  (emptiness_eq_unknown_iff.mp h).1

section First

variable [SetAlgebra S] [Membership E S] [LawfulSetAlgebra S E]

open LawfulSetAlgebra (mem_union mem_full not_mem_empty isEmpty_iff)

theorem mem_firstBoundAlt {e : E} {ts : List (Term S)} :
    e ∈ firstBoundAlt ts ↔ ∃ t ∈ ts, e ∈ t.firstBound := by
  induction ts with
  | nil => simp [firstBoundAlt, not_mem_empty]
  | cons t ts ih => rw [firstBoundAlt, mem_union, ih, List.exists_mem_cons_iff]

theorem mem_firstBoundSeq_cons {e : E} {t : Term S} {ts : List (Term S)} :
    e ∈ firstBoundSeq (t :: ts) ↔
      e ∈ t.firstBound ∨ t.nullable = true ∧ e ∈ firstBoundSeq ts := by
  rw [firstBoundSeq]
  by_cases h : t.nullable = true
  · rw [if_pos h, mem_union]
    simp only [h, true_and]
  · rw [if_neg h]
    simp [h]

/-- Every word that is not empty starts with a symbol of `firstBound`. -/
theorem mem_firstBound {t : Term S} {e : E} {w : List E} (h : e :: w ∈ t.language) :
    e ∈ t.firstBound := by
  induction t using memberInduction generalizing w with
  | eps => exact absurd h (List.cons_ne_nil e w)
  | empty => exact absurd h mem_language_empty
  | all => exact mem_full e
  | literal set =>
    obtain ⟨f, hf, hw⟩ := mem_language_literal.mp h
    rw [(List.cons.inj hw).1]
    exact hf
  | alt ts ih =>
    obtain ⟨t, ht, hw⟩ := mem_language_alt.mp h
    exact mem_firstBoundAlt.mpr ⟨t, ht, ih t ht hw⟩
  | seq ts ih =>
    -- A second induction, since the symbol may come from any member behind nullable ones.
    rw [firstBound]
    induction ts with
    | nil => exact absurd h (by simp [language_seq])
    | cons t ts ihts =>
      rw [mem_firstBoundSeq_cons]
      rw [language_seq, List.map_cons, List.prod_cons, cons_mem_mul, ← language_seq] at h
      rcases h with ⟨u, hu, -⟩ | ⟨hnil, hw⟩
      · exact .inl (ih t (List.mem_cons_self ..) hu)
      · exact .inr ⟨nullable_iff.mpr hnil,
          ihts (fun u hu => ih u (List.mem_cons_of_mem _ hu)) hw⟩
  | inter ts _ => exact mem_full e
  | compl t _ => exact mem_full e
  | star t ih =>
    obtain ⟨u, hu, -⟩ := cons_mem_language_star.mp h
    exact ih hu

theorem mem_of_firstSet? {t : Term S} {first : S} (hfirst : t.firstSet? = some first) {e : E}
    {w : List E} (h : e :: w ∈ t.language) : e ∈ first := by
  obtain ⟨-, rfl⟩ := firstSet?_eq_some_iff.mp hfirst
  exact mem_firstBound h

/-- A term with the verdict `empty` matches nothing. -/
theorem not_mem_of_emptiness {t : Term S} (ht : t.emptiness = .empty) (w : List E) :
    w ∉ t.language := by
  intro hw
  rcases emptiness_cases t with ⟨-, rfl | ⟨hnull, first, hfirst, hnone⟩⟩ | ⟨h, -⟩ | ⟨h, -⟩
  · exact mem_language_empty hw
  · -- There is no symbol to start with, and the term is not nullable either.
    cases w with
    | nil => exact Bool.eq_false_iff.mp hnull (nullable_iff.mpr hw)
    | cons e w => exact isEmpty_iff.mp hnone e (mem_of_firstSet? hfirst hw)
  · rw [h] at ht
    contradiction
  · rw [h] at ht
    contradiction

end First

end ExtendedRegex.Term
