/-
What the shape of a canonical term shows of its language.

Without intersections and complements, a canonical term that is not `empty` matches
some word, because no part of it is `empty` either.  So the first set of such a term
is exact, and no canonical term but `empty` is evidently empty:

* `Canonical.exists_mem_language`, `Canonical.mem_firstBound_iff`;
* `Canonical.exists_admits`: a term other than `eps` and `empty` admits some symbol;
* `Canonical.emptiness_eq_empty_iff`: the verdict `empty` is for `empty` alone;
* `Canonical.prune_eq_self`: there is nothing to prune.
-/
import ExtendedRegex.Proofs.Canonical
import ExtendedRegex.Term.Derivative

universe u v

namespace ExtendedRegex.Term

open SetAlgebra (isEmpty_eq_false_iff)
open LawfulSetAlgebra (not_mem_empty)

variable {S : Type u} {E : Type v} [SetAlgebra S] [Membership E S]

section Exact

variable [LawfulSetAlgebra S E]

/-- A symbol that a member of a sequence can start with starts a word of the sequence, if the
members before are nullable and those after match something. -/
theorem exists_cons_mem_language_seq {ts : List (Term S)} {e : E} (he : e ∈ firstBoundSeq ts)
    (hmem : ∀ t ∈ ts, ∃ w : List E, w ∈ t.language)
    (hfirst : ∀ t ∈ ts, e ∈ t.firstBound → ∃ w, e :: w ∈ t.language) :
    ∃ w, e :: w ∈ (seq ts).language := by
  induction ts with
  | nil => exact absurd he (not_mem_empty e)
  | cons t ts ih =>
    have hmem' : ∀ u ∈ ts, ∃ w : List E, w ∈ u.language := fun u hu =>
      hmem u (List.mem_cons_of_mem _ hu)
    rw [mem_firstBoundSeq_cons] at he
    rcases he with he | ⟨hnull, he⟩
    · obtain ⟨u, hu⟩ := hfirst t (List.mem_cons_self ..) he
      obtain ⟨v, hv⟩ := exists_mem_language_seq hmem'
      exact ⟨u ++ v, mem_language_seq_cons.mpr ⟨e :: u, hu, v, hv, rfl⟩⟩
    · obtain ⟨w, hw⟩ := ih he hmem' fun u hu => hfirst u (List.mem_cons_of_mem _ hu)
      exact ⟨w, mem_language_seq_cons.mpr ⟨[], nullable_iff.mp hnull, e :: w, hw, rfl⟩⟩

variable [Ord S] [DecidableEq S] {t : Term S}

/-- A canonical term without intersections and complements matches something, unless it is `empty`.
-/
theorem Canonical.exists_mem_language (ht : Canonical t) (hplain : t.plain = true)
    (hne : t ≠ .empty) : ∃ w : List E, w ∈ t.language := by
  induction ht with
  | eps => exact ⟨[], rfl⟩
  | empty => contradiction
  | all => exact ⟨[], mem_language_all⟩
  | literal inhabited =>
    obtain ⟨e, he⟩ := isEmpty_eq_false_iff.mp inhabited
    exact ⟨[e], e, he, rfl⟩
  | @alt ts members two shape ih =>
    rw [plain_alt, List.all_eq_true] at hplain
    obtain ⟨t, ht⟩ := List.exists_mem_of_length_pos (Nat.lt_of_lt_of_le Nat.zero_lt_two two)
    obtain ⟨w, hw⟩ := ih t ht (hplain t ht) (shape.flat t ht).1
    exact ⟨w, mem_language_alt.mpr ⟨t, ht, hw⟩⟩
  | seq members two flat ih =>
    rw [plain_seq, List.all_eq_true] at hplain
    exact exists_mem_language_seq fun t ht => ih t ht (hplain t ht) (flat t ht).2.1
  | inter members two shape ih => simp at hplain
  | compl body flat ih => simp at hplain
  | star body flat proper epsilon ih => exact ⟨[], mem_language_star.mpr (.inl rfl)⟩

/-- The first set of a canonical term without intersections and complements is exact. -/
theorem Canonical.mem_firstBound_iff (ht : Canonical t) (hplain : t.plain = true) {e : E} :
    e ∈ t.firstBound ↔ ∃ w, e :: w ∈ t.language := by
  constructor
  · intro he
    induction ht with
    | eps => exact absurd he (not_mem_empty e)
    | empty => exact absurd he (not_mem_empty e)
    | all => exact ⟨[], mem_language_all⟩
    | literal inhabited => exact ⟨[], e, he, rfl⟩
    | alt members two shape ih =>
      rw [plain_alt, List.all_eq_true] at hplain
      rw [firstBound] at he
      obtain ⟨t, ht, he⟩ := mem_firstBoundAlt.mp he
      obtain ⟨w, hw⟩ := ih t ht (hplain t ht) he
      exact ⟨w, mem_language_alt.mpr ⟨t, ht, hw⟩⟩
    | seq members two flat ih =>
      -- No member is `empty`, and so there is always a word to complete the sequence with.
      rw [plain_seq, List.all_eq_true] at hplain
      rw [firstBound] at he
      refine exists_cons_mem_language_seq he (fun t ht => ?_) fun t ht => ih t ht (hplain t ht)
      exact (members t ht).exists_mem_language (hplain t ht) (flat t ht).2.1
    | inter members two shape ih => simp at hplain
    | compl body flat ih => simp at hplain
    | star body flat proper epsilon ih =>
      rw [plain_star] at hplain
      rw [firstBound] at he
      obtain ⟨w, hw⟩ := ih hplain he
      exact ⟨w, cons_mem_language_star.mpr ⟨w, hw, [], mem_language_star.mpr (.inl rfl), by simp⟩⟩
  · rintro ⟨w, hw⟩
    exact mem_firstBound hw

theorem Canonical.mem_of_firstSet?_iff (ht : Canonical t) {first : S}
    (hfirst : t.firstSet? = some first) {e : E} : e ∈ first ↔ ∃ w, e :: w ∈ t.language := by
  obtain ⟨hplain, rfl⟩ := firstSet?_eq_some_iff.mp hfirst
  exact ht.mem_firstBound_iff hplain

/-- First sets that are known are contained in each other as the languages are. -/
theorem Canonical.containsAll_firstSet? {a b : Term S} (ha : Canonical a) (hb : Canonical b)
    {fa fb : S} (hfa : a.firstSet? = some fa) (hfb : b.firstSet? = some fb)
    (h : ∀ w : List E, w ∈ b.language → w ∈ a.language) : SetAlgebra.containsAll fa fb = true := by
  refine LawfulSetAlgebra.containsAll_iff.mpr fun e he => ?_
  obtain ⟨w, hw⟩ := (hb.mem_of_firstSet?_iff hfb).mp he
  exact (ha.mem_of_firstSet?_iff hfa).mpr ⟨w, h _ hw⟩

/-- First sets that are known are the same for the same language. -/
theorem Canonical.firstSet?_congr {a b : Term S} (ha : Canonical a) (hb : Canonical b)
    {fa fb : S} (hfa : a.firstSet? = some fa) (hfb : b.firstSet? = some fb)
    (h : (a.language : Language E) = b.language) : fa = fb := by
  refine LawfulSetAlgebra.ext fun e : E => ?_
  rw [ha.mem_of_firstSet?_iff hfa, hb.mem_of_firstSet?_iff hfb, h]

theorem Canonical.exists_mem_of_emptiness (ht : Canonical t) (h : t.emptiness = .inhabited) :
    ∃ w : List E, w ∈ t.language := by
  rcases emptiness_cases t with ⟨h', -⟩ | ⟨-, hnull | ⟨hne, hplain⟩⟩ | ⟨h', -⟩
  · rw [h'] at h
    contradiction
  · exact ⟨[], nullable_iff.mp hnull⟩
  · exact ht.exists_mem_language hplain hne
  · rw [h'] at h
    contradiction

variable [Std.LawfulEqOrd S]

/-- A canonical term without intersections and complements matches a word other than the empty one,
unless it is `eps` or `empty`. -/
theorem Canonical.exists_cons_mem_language (ht : Canonical t) (hplain : t.plain = true)
    (heps : t ≠ .eps) (hempty : t ≠ .empty) : ∃ (e : E) (w : List E), e :: w ∈ t.language := by
  obtain ⟨f⟩ := LawfulSetAlgebra.nonempty (S := S) (E := E)
  induction ht with
  | eps => contradiction
  | empty => contradiction
  | all => exact ⟨f, [], mem_language_all⟩
  | literal inhabited =>
    obtain ⟨e, he⟩ := isEmpty_eq_false_iff.mp inhabited
    exact ⟨e, [], e, he, rfl⟩
  | @alt ts members two shape ih =>
    rw [plain_alt, List.all_eq_true] at hplain
    -- Of two distinct members, one is not `eps`.
    obtain ⟨t, ht, hne⟩ := shape.increasing.exists_ne two .eps
    obtain ⟨e, w, hw⟩ := ih t ht (hplain t ht) hne (shape.flat t ht).1
    exact ⟨e, w, mem_language_alt.mpr ⟨t, ht, hw⟩⟩
  | @seq ts members two flat ih =>
    rw [plain_seq, List.all_eq_true] at hplain
    match ts with
    | t :: us =>
      -- The first member starts with a symbol, and the others match something behind it.
      have ht : t ∈ t :: us := List.mem_cons_self ..
      obtain ⟨e, w, hw⟩ := ih t ht (hplain t ht) (flat t ht).1 (flat t ht).2.1
      obtain ⟨v, hv⟩ : ∃ v : List E, v ∈ (Term.seq us).language :=
        exists_mem_language_seq fun u hu =>
          have hu := List.mem_cons_of_mem t hu
          (members u hu).exists_mem_language (hplain u hu) (flat u hu).2.1
      exact ⟨e, w ++ v, mem_language_seq_cons.mpr ⟨e :: w, hw, v, hv, rfl⟩⟩
  | inter members two shape ih => simp at hplain
  | compl body flat ih => simp at hplain
  | star body flat proper epsilon ih =>
    rw [plain_star] at hplain
    obtain ⟨e, w, hw⟩ := ih hplain flat.1 flat.2.1
    exact ⟨e, w, cons_mem_language_star.mpr ⟨w, hw, [], mem_language_star.mpr (.inl rfl), by simp⟩⟩

theorem Canonical.exists_admits (ht : Canonical t) (heps : t ≠ .eps) (hempty : t ≠ .empty) :
    ∃ e : E, t.Admits e := by
  by_cases hplain : t.plain = true
  · obtain ⟨e, w, hw⟩ := ht.exists_cons_mem_language (E := E) hplain heps hempty
    exact ⟨e, admits_iff.mpr fun _ => mem_firstBound hw⟩
  · obtain ⟨e⟩ := LawfulSetAlgebra.nonempty (S := S) (E := E)
    exact ⟨e, admits_iff.mpr fun h => absurd h hplain⟩

end Exact

variable [Ord S] [DecidableEq S] {t : Term S}

/-- Only `empty` is evidently empty. -/
theorem Canonical.emptiness_eq_empty_iff [LawfulSetAlgebra S E] (ht : Canonical t) :
    t.emptiness = .empty ↔ t = .empty := by
  constructor
  · intro h
    rcases emptiness_cases t with ⟨-, heq | ⟨-, first, hfirst, -⟩⟩ | ⟨h', -⟩ | ⟨h', -⟩
    · exact heq
    · -- A plain term that is not `empty` matches something.
      by_contra hne
      obtain ⟨hplain, -⟩ := firstSet?_eq_some_iff.mp hfirst
      obtain ⟨w, hw⟩ := ht.exists_mem_language (E := E) hplain hne
      exact not_mem_of_emptiness h w hw
    · rw [h'] at h
      contradiction
    · rw [h'] at h
      contradiction
  · rintro rfl
    rfl

theorem Canonical.prune_eq_self [LawfulSetAlgebra S E] (ht : Canonical t) : t.prune = t := by
  rw [prune]
  cases h : t.emptiness with
  | empty => exact (ht.emptiness_eq_empty_iff.mp h).symm
  | inhabited => rfl
  | unknown => rfl

theorem Canonical.prune [LawfulSetAlgebra S E] (ht : Canonical t) : Canonical t.prune := by
  rw [ht.prune_eq_self]
  exact ht

end ExtendedRegex.Term
