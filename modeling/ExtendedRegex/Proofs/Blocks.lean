/-
Derivatives by blocks of any number of symbols.

* `exists_derivative_eq`: for every block there is a derivative, unless the block straddles one of
  the literals that the derivative meets;
* `derivative_quotient_or_straddle`: a derivative by a block is the quotient by each symbol of the
  block, and without a derivative there is a literal of the term that the block straddles;
* `derivative_eq_of_subset`: a smaller block has the very same derivative.

Design notes: a block without symbols has a derivative too, and straddles nothing.  Since it has no
symbol to take the derivative at, `exists_derivative_eq` goes through the term once more, for any
block, and uses no law of the set algebra.
-/
import ExtendedRegex.Proofs.NormalForm

universe u v

namespace ExtendedRegex.Term

open SetAlgebra (straddles straddles_iff straddles_of_subset)

variable {S : Type u}

/-! ### Literals in the way -/

section Met

variable {set : S} {t : Term S} {ts : List (Term S)}

theorem metLiteralsEach_eq_flatMap (ts : List (Term S)) :
    metLiteralsEach ts = ts.flatMap metLiterals := by
  induction ts with
  | nil => rfl
  | cons t ts ih => rw [metLiteralsEach, ih, List.flatMap_cons]

/-- A sequence meets no more than the literals that its members meet. -/
theorem mem_metLiteralsEach_of_seq (h : set ∈ metLiteralsSeq ts) : set ∈ metLiteralsEach ts := by
  induction ts with
  | nil => exact h
  | cons t ts ih =>
    rw [metLiteralsSeq, List.mem_append] at h
    rw [metLiteralsEach, List.mem_append]
    refine h.imp_right fun h => ?_
    split at h
    · exact ih h
    · contradiction

theorem exists_mem_of_mem_metLiteralsEach (h : set ∈ metLiteralsEach ts) :
    ∃ t ∈ ts, set ∈ t.metLiterals := by
  rwa [metLiteralsEach_eq_flatMap, List.mem_flatMap] at h

/-- The literals that a derivative meets occur in the term. -/
theorem subterm_of_mem_metLiterals (h : set ∈ t.metLiterals) : Subterm (literal set) t := by
  induction t using memberInduction with
  | eps => contradiction
  | empty => contradiction
  | all => contradiction
  | literal a =>
    rw [List.mem_singleton.mp h]
    exact .refl
  | alt ts ih =>
    obtain ⟨u, hu, h⟩ := exists_mem_of_mem_metLiteralsEach h
    exact .alt hu (ih u hu h)
  | seq ts ih =>
    obtain ⟨u, hu, h⟩ := exists_mem_of_mem_metLiteralsEach (mem_metLiteralsEach_of_seq h)
    exact .seq hu (ih u hu h)
  | inter ts ih =>
    obtain ⟨u, hu, h⟩ := exists_mem_of_mem_metLiteralsEach h
    exact .inter hu (ih u hu h)
  | compl t ih => exact .compl (ih h)
  | star t ih => exact .star (ih h)

end Met

variable [SetAlgebra S]

/-! ### Derivatives by any block -/

section Exists

theorem exists_derivativeLiteral_eq (block set : S) :
    ∃ d, derivativeLiteral block set = unlessStraddled block [set] d := by
  rw [derivativeLiteral]
  cases h : SetAlgebra.overlap block set with
  | disjoint => exact ⟨empty, by simp [unlessStraddled, straddles, h]⟩
  | equal => exact ⟨eps, by simp [unlessStraddled, straddles, h]⟩
  | secondContainsFirst => exact ⟨eps, by simp [unlessStraddled, straddles, h]⟩
  | firstContainsSecond => exact ⟨empty, by simp [unlessStraddled, straddles, h]⟩
  | crossing => exact ⟨empty, by simp [unlessStraddled, straddles, h]⟩

variable [Ord S] [DecidableEq S]

/-- There is a derivative, unless the block straddles a literal that it meets. -/
theorem exists_derivative_eq (block : S) (t : Term S) :
    ∃ d, t.derivative block = unlessStraddled block t.metLiterals d := by
  induction t using memberInduction with
  | eps => exact ⟨empty, rfl⟩
  | empty => exact ⟨empty, rfl⟩
  | all => exact ⟨all, rfl⟩
  | literal set => exact exists_derivativeLiteral_eq block set
  | alt ts ih =>
    choose! result hresult using ih
    refine ⟨prune (oneOf (ts.map result)), ?_⟩
    rw [derivative, derivativeEach_eq hresult]
    exact unlessStraddled_map _
  | seq ts ih =>
    choose! result hresult using ih
    refine ⟨prune (oneOf (seqAlternatives result ts)), ?_⟩
    rw [derivative, derivativeSeq_eq hresult]
    exact unlessStraddled_map _
  | inter ts ih =>
    choose! result hresult using ih
    refine ⟨prune (allOf (ts.map result)), ?_⟩
    rw [derivative, derivativeEach_eq hresult]
    exact unlessStraddled_map _
  | compl t ih =>
    obtain ⟨d, hd⟩ := ih
    refine ⟨prune (complement d), ?_⟩
    rw [derivative, hd]
    exact unlessStraddled_map _
  | star t ih =>
    obtain ⟨d, hd⟩ := ih
    refine ⟨prune (before d [star t]), ?_⟩
    rw [derivative, hd]
    exact unlessStraddled_map _

end Exists

section Quotient

variable [Ord S] [DecidableEq S] {E : Type v} [Membership E S] [LawfulSetAlgebra S E]

/-- A derivative by a block stands for every symbol of the block; if there is none, that is because
of a literal of the term of which the block has some symbols and not only such; and unless there is
such a literal, there is a derivative. -/
theorem derivative_quotient_or_straddle (t : Term S) (block : S) :
    (∀ d, t.derivative block = .ok d →
      ∀ e ∈ block, ∀ w : List E, w ∈ d.language ↔ e :: w ∈ t.language) ∧
    (∀ s, t.derivative block = .error s → s.block = block ∧ Subterm (literal s.set) t ∧
      (∃ e : E, e ∈ block ∧ e ∈ s.set) ∧ ∃ e : E, e ∈ block ∧ e ∉ s.set) ∧
    ((∀ set, Subterm (literal set) t →
      ¬ ((∃ e : E, e ∈ block ∧ e ∈ set) ∧ ∃ e : E, e ∈ block ∧ e ∉ set)) →
      ∃ d, t.derivative block = .ok d) := by
  obtain ⟨d', hd'⟩ := exists_derivative_eq block t
  refine ⟨fun d hd e he w => ?_, fun s hs => ?_, fun h => ?_⟩
  · rw [eq_derivativeAt_of_derivative he hd]
    exact mem_language_derivativeAt
  · rw [hd'] at hs
    obtain ⟨hblock, hset, hstraddles⟩ := of_unlessStraddled_eq_error hs
    exact ⟨hblock, subterm_of_mem_metLiterals hset, straddles_iff.mp hstraddles⟩
  · refine ⟨d', ?_⟩
    rw [hd', unlessStraddled_eq_ok]
    refine ⟨fun set hset => Bool.eq_false_iff.mpr fun hstraddles => ?_, rfl⟩
    exact h set (subterm_of_mem_metLiterals hset) (straddles_iff.mp hstraddles)

/-- One symbol is read by the star as well as by the literal behind it.  The block of both symbols of
the star is stopped by the literal, which has only one of them. -/
theorem derivative_quotient_or_straddle_seq :
    (∃ d, (seq [star (literal (⟨3#8⟩ : Mask)), literal ⟨1#8⟩]).derivative ⟨1#8⟩ = .ok d ∧
      ([] : List (Fin 8)) ∈ d.language ∧ [0] ∈ d.language) ∧
    ∃ s, (seq [star (literal (⟨3#8⟩ : Mask)), literal ⟨1#8⟩]).derivative ⟨3#8⟩ = .error s ∧
      Subterm (literal s.set) (seq [star (literal (⟨3#8⟩ : Mask)), literal ⟨1#8⟩]) ∧
      ∃ e : Fin 8, e ∈ (⟨3#8⟩ : Mask) ∧ e ∉ s.set := by
  set t : Term Mask := seq [star (literal (⟨3#8⟩ : Mask)), literal ⟨1#8⟩] with ht
  obtain ⟨hquotient, -, hexists⟩ := derivative_quotient_or_straddle (E := Fin 8) t ⟨1#8⟩
  obtain ⟨-, hstraddle, -⟩ := derivative_quotient_or_straddle (E := Fin 8) t ⟨3#8⟩
  have hsymbol : ∀ e : Fin 8, e ∈ (⟨1#8⟩ : Mask) → e = 0 := by
    simp only [Mask.mem_iff]
    decide
  have hzero : (0 : Fin 8) ∈ (⟨1#8⟩ : Mask) := rfl
  have hlast : [(0 : Fin 8)] ∈ (literal (⟨1#8⟩ : Mask)).language := ⟨0, hzero, rfl⟩
  have hstar : ∀ w : List (Fin 8), w ∈ (star (literal (⟨3#8⟩ : Mask))).language →
      w ++ [0] ∈ t.language := by
    intro w hw
    rw [ht, mem_language_seq_cons]
    exact ⟨w, hw, [0], by simpa [language_seq] using hlast, rfl⟩
  constructor
  · obtain ⟨d, hd⟩ := hexists fun set _ => by
      rintro ⟨⟨e, he, hes⟩, f, hf, hfs⟩
      rw [hsymbol e he] at hes
      rw [hsymbol f hf] at hfs
      exact hfs hes
    refine ⟨d, hd, (hquotient d hd 0 hzero []).mpr ?_, (hquotient d hd 0 hzero [0]).mpr ?_⟩
    · exact hstar [] (mem_language_star.mpr (.inl rfl))
    · refine hstar [0] (mem_language_star.mpr (.inr ⟨[0], ⟨0, rfl, rfl⟩, by simp, [], ?_, rfl⟩))
      exact mem_language_star.mpr (.inl rfl)
  · have hfirst : derivativeLiteral (⟨3#8⟩ : Mask) ⟨3#8⟩ = .ok eps := rfl
    have hsecond : derivativeLiteral (⟨3#8⟩ : Mask) ⟨1#8⟩ = .error ⟨⟨3#8⟩, ⟨1#8⟩⟩ := rfl
    have herror : t.derivative ⟨3#8⟩ = .error ⟨⟨3#8⟩, ⟨1#8⟩⟩ := by
      simp [ht, derivative, derivativeSeq, hfirst, hsecond, bind, Except.bind, pure, Except.pure]
    obtain ⟨-, hsub, -, hout⟩ := hstraddle _ herror
    exact ⟨_, herror, hsub, hout⟩

/-- A block with some of the symbols has the same derivative, and so has each symbol alone. -/
theorem derivative_eq_of_subset {t d : Term S} {block : S} (h : t.derivative block = .ok d) :
    (∀ part : S, (∃ e : E, e ∈ part) → (∀ e : E, e ∈ part → e ∈ block) →
      t.derivative part = .ok d) ∧
    ∀ single : E → S, (∀ e f, f ∈ single e ↔ f = e) →
      ∀ e ∈ block, t.derivative (single e) = .ok d := by
  have hpart : ∀ part : S, (∃ e : E, e ∈ part) → (∀ e : E, e ∈ part → e ∈ block) →
      t.derivative part = .ok d := by
    rintro part ⟨e, he⟩ hsub
    -- Both are the derivative at the same symbol, and the larger block is the one to straddle more.
    have hd : d = t.derivativeAt e := eq_derivativeAt_of_derivative (hsub e he) h
    rw [derivative_eq (hsub e he)] at h
    rw [derivative_eq he, unlessStraddled_eq_ok]
    refine ⟨fun set hset => Bool.eq_false_iff.mpr fun hstraddles => ?_, hd⟩
    have := (unlessStraddled_eq_ok.mp h).1 set hset
    rw [straddles_of_subset hsub hstraddles] at this
    contradiction
  refine ⟨hpart, fun single hsingle e he => hpart (single e) ⟨e, (hsingle e e).mpr rfl⟩ ?_⟩
  intro f hf
  rwa [(hsingle e f).mp hf]

/-- The block of both symbols has a derivative, and so each of them has the same. -/
theorem derivative_eq_of_subset_star :
    (star (literal (⟨3#8⟩ : Mask))).derivative ⟨3#8⟩ = .ok (star (literal ⟨3#8⟩)) ∧
    (star (literal (⟨3#8⟩ : Mask))).derivative ⟨2#8⟩ = .ok (star (literal ⟨3#8⟩)) ∧
    (star (literal (⟨3#8⟩ : Mask))).derivative (Mask.single 0) = .ok (star (literal ⟨3#8⟩)) := by
  have hbody : derivativeLiteral (⟨3#8⟩ : Mask) ⟨3#8⟩ = .ok eps := rfl
  have hwhole : (star (literal (⟨3#8⟩ : Mask))).derivative ⟨3#8⟩ = .ok (star (literal ⟨3#8⟩)) := by
    simp [derivative, hbody, before, factors, ofFactors, prune, emptiness, isEmpty, bind,
      Except.bind, pure, Except.pure]
  obtain ⟨hpart, hsingle⟩ := derivative_eq_of_subset (E := Fin 8) hwhole
  refine ⟨hwhole, hpart _ ⟨1, rfl⟩ ?_, hsingle Mask.single (fun _ _ => Mask.mem_single) 0 rfl⟩
  simp only [Mask.mem_iff]
  decide

end Quotient

end ExtendedRegex.Term
