/-
Derivatives and languages.

`Term.derivativeAt e t` is the derivative of `t` by the single symbol `e`.  It
always exists, and taking the derivative by a block either gives the derivative at
every symbol of the block, or stops at the first literal that the block straddles:

* `metLiterals` lists the sets of the literals that a derivative meets, in order;
* `derivative_eq`: `t.derivative block` fails on the first of them that the block
  straddles, and otherwise is `t.derivativeAt e`, for any `e` in the block;
* `mem_language_derivativeAt`: `w` matches the derivative at `e` exactly when
  `e :: w` matches the term.

Design notes: which literals are met does not depend on the block, and the
derivative at a symbol has no failure to pass on.  So the language of a
derivative, and everything that follows about words and searches, is proved of
`derivativeAt` alone.
-/
import ExtendedRegex.Proofs.Operations
import ExtendedRegex.Term.Derivative

universe u v w

namespace ExtendedRegex

variable {S : Type u} [SetAlgebra S]

namespace SetAlgebra

/-- Whether a block has some symbols of a set, and some that are not in it. -/
def straddles (block set : S) : Bool :=
  match overlap block set with
  | .disjoint | .equal | .secondContainsFirst => false
  | .firstContainsSecond | .crossing => true

variable {E : Type v} [Membership E S] [LawfulSetAlgebra S E] {block set : S}

theorem straddles_iff : straddles block set = true ↔
    (∃ e ∈ block, e ∈ set) ∧ ∃ e ∈ block, e ∉ set := by
  have hinter : isEmpty (block ∩ set) = true ↔ ∀ e ∈ block, e ∉ set := by
    rw [LawfulSetAlgebra.isEmpty_iff]
    simp only [LawfulSetAlgebra.mem_inter, not_and]
  have hsub : containsAll set block = true ↔ ∀ e ∈ block, e ∈ set :=
    LawfulSetAlgebra.containsAll_iff
  rw [straddles, overlap]
  by_cases hempty : isEmpty (block ∩ set) = true
  · rw [if_pos hempty]
    have := hinter.mp hempty
    simp only [Bool.false_eq_true, false_iff, not_and]
    rintro ⟨e, he, he'⟩
    exact absurd he' (this e he)
  · -- The two intersect, and then all depends on whether the set has the whole block.
    rw [if_neg hempty]
    rw [hinter] at hempty
    push Not at hempty
    rw [and_iff_right hempty]
    have hexists : (∃ e ∈ block, e ∉ set) ↔ containsAll set block = false := by
      rw [← Bool.not_eq_true, hsub]
      push Not
      rfl
    rw [hexists]
    cases containsAll block set <;> cases containsAll set block <;> simp

/-- What a part of a block straddles, the block straddles. -/
theorem straddles_of_subset {part : S} (hsub : ∀ e : E, e ∈ part → e ∈ block)
    (h : straddles part set = true) : straddles block set = true := by
  obtain ⟨⟨e, he, hes⟩, f, hf, hfs⟩ := straddles_iff.mp h
  exact straddles_iff.mpr ⟨⟨e, hsub e he, hes⟩, f, hsub f hf, hfs⟩

/-- A block of one symbol straddles nothing. -/
theorem straddles_eq_false_of_single {e : E} (h : ∀ f : E, f ∈ block → f = e) :
    straddles block set = false := by
  rw [Bool.eq_false_iff, Ne, straddles_iff]
  rintro ⟨⟨f, hf, hfs⟩, g, hg, hgs⟩
  rw [h f hf] at hfs
  rw [h g hg] at hgs
  exact hgs hfs

end SetAlgebra

open SetAlgebra (straddles straddles_iff)

/-- A result that exists unless the block straddles one of some sets. -/
def unlessStraddled {β : Type w} (block : S) (sets : List S) (result : β) :
    Except (Straddle S) β :=
  match sets.find? (straddles block) with
  | none => .ok result
  | some set => .error ⟨block, set⟩

theorem unlessStraddled_bind {β γ : Type w} {block : S} {sets sets' : List S} {a : β}
    {f : β → Except (Straddle S) γ} {c : γ} (h : f a = unlessStraddled block sets' c) :
    (unlessStraddled block sets a >>= f) = unlessStraddled block (sets ++ sets') c := by
  rw [unlessStraddled, unlessStraddled, List.find?_append]
  cases hfind : sets.find? (straddles block) with
  | none =>
    show f a = _
    rw [h, Option.none_or]
    rfl
  | some set => rfl

theorem unlessStraddled_map {β γ : Type w} {block : S} {sets : List S} {a : β} (f : β → γ) :
    (unlessStraddled block sets a >>= fun b => pure (f b)) =
      unlessStraddled block sets (f a) := by
  rw [unlessStraddled, unlessStraddled]
  cases sets.find? (straddles block) <;> rfl

theorem unlessStraddled_eq_ok {β : Type w} {block : S} {sets : List S} {a b : β} :
    unlessStraddled block sets a = .ok b ↔
      (∀ set ∈ sets, straddles block set = false) ∧ b = a := by
  rw [unlessStraddled]
  cases hfind : sets.find? (straddles block) with
  | none =>
    have hnone := List.find?_eq_none.mp hfind
    simp only [Bool.not_eq_true] at hnone
    constructor
    · intro h
      exact ⟨hnone, (Except.ok.inj h).symm⟩
    · rintro ⟨-, rfl⟩
      rfl
  | some set =>
    refine iff_of_false nofun ?_
    rintro ⟨h, -⟩
    have := h set (List.mem_of_find?_eq_some hfind)
    rw [List.find?_some hfind] at this
    contradiction

theorem of_unlessStraddled_eq_error {β : Type w} {block : S} {sets : List S} {a : β}
    {s : Straddle S} (h : unlessStraddled block sets a = .error s) :
    s.block = block ∧ s.set ∈ sets ∧ straddles block s.set = true := by
  rw [unlessStraddled] at h
  rcases hfind : sets.find? (straddles block) with _ | set
  · rw [hfind] at h
    contradiction
  · rw [hfind] at h
    obtain rfl := Except.error.inj h
    exact ⟨rfl, List.mem_of_find?_eq_some hfind, List.find?_some hfind⟩

namespace Term

mutual

/-- The sets of the literals that a derivative meets, in the order in which it meets them. -/
def metLiterals : Term S → List S
  | eps => []
  | empty => []
  | all => []
  | literal set => [set]
  | alt ts => metLiteralsEach ts
  | seq ts => metLiteralsSeq ts
  | inter ts => metLiteralsEach ts
  | compl t => metLiterals t
  | star t => metLiterals t

def metLiteralsEach : List (Term S) → List S
  | [] => []
  | t :: ts => metLiterals t ++ metLiteralsEach ts

/-- Members after one that is not nullable are not met. -/
def metLiteralsSeq : List (Term S) → List S
  | [] => []
  | t :: ts => metLiterals t ++ if t.nullable then metLiteralsSeq ts else []

end

theorem plain_prune {t : Term S} (h : t.plain = true) : t.prune.plain = true := by
  rw [prune]
  split
  · exact plain_empty
  · exact h

variable {E : Type v} [Membership E S]

theorem mem_language_prune [LawfulSetAlgebra S E] {t : Term S} {w : List E} :
    w ∈ t.prune.language ↔ w ∈ t.language := by
  rw [prune]
  cases h : t.emptiness with
  | empty => exact iff_of_false mem_language_empty (not_mem_of_emptiness h w)
  | inhabited => rfl
  | unknown => rfl

variable [Ord S] [DecidableEq S]

open Classical in
mutual

/-- The derivative by a single symbol. -/
noncomputable def derivativeAt (e : E) : Term S → Term S
  | eps => empty
  | empty => empty
  | all => all
  | literal set => if e ∈ set then eps else empty
  | alt ts => prune (oneOf (derivativeAtEach e ts))
  | seq ts => prune (oneOf (derivativeAtSeq e ts))
  | inter ts => prune (allOf (derivativeAtEach e ts))
  | compl t => prune (complement (derivativeAt e t))
  | star t => prune (before (derivativeAt e t) [star t])

noncomputable def derivativeAtEach (e : E) : List (Term S) → List (Term S)
  | [] => []
  | t :: ts => derivativeAt e t :: derivativeAtEach e ts

/-- The alternatives of the derivative of a sequence. -/
noncomputable def derivativeAtSeq (e : E) : List (Term S) → List (Term S)
  | [] => []
  | t :: ts => before (derivativeAt e t) ts :: if t.nullable then derivativeAtSeq e ts else []

end

/-- The derivative by each symbol of a word in turn. -/
noncomputable def derivativeAlong (t : Term S) (word : List E) : Term S :=
  word.foldl (fun t e => t.derivativeAt e) t

theorem derivativeAlong_cons (t : Term S) (e : E) (w : List E) :
    t.derivativeAlong (e :: w) = (t.derivativeAt e).derivativeAlong w := rfl

theorem derivativeAlong_empty (w : List E) : (empty : Term S).derivativeAlong w = empty := by
  induction w with
  | nil => rfl
  | cons e w ih =>
    rw [derivativeAlong_cons, derivativeAt]
    exact ih

theorem derivativeAtEach_eq_map (e : E) (ts : List (Term S)) :
    derivativeAtEach e ts = ts.map (derivativeAt e) := by
  induction ts with
  | nil => rfl
  | cons t ts ih => rw [derivativeAtEach, ih, List.map_cons]

/-- The alternatives of the derivative of a sequence, given the derivatives of its members. -/
def seqAlternatives (result : Term S → Term S) : List (Term S) → List (Term S)
  | [] => []
  | t :: ts => before (result t) ts :: if t.nullable then seqAlternatives result ts else []

theorem derivativeAtSeq_eq_seqAlternatives (e : E) (ts : List (Term S)) :
    derivativeAtSeq e ts = seqAlternatives (derivativeAt e) ts := by
  induction ts with
  | nil => rfl
  | cons t ts ih => rw [derivativeAtSeq, ih, seqAlternatives]

section Blocks

variable {block : S} {e : E}

theorem derivativeLiteral_eq [LawfulSetAlgebra S E] (he : e ∈ block) (set : S) :
    derivativeLiteral block set = unlessStraddled block [set] ((literal set).derivativeAt e) := by
  have hinter : SetAlgebra.isEmpty (block ∩ set) = true → e ∉ set := fun h hset =>
    LawfulSetAlgebra.isEmpty_iff.mp h e (LawfulSetAlgebra.mem_inter.mpr ⟨he, hset⟩)
  have hsub : SetAlgebra.containsAll set block = true → e ∈ set := fun h =>
    LawfulSetAlgebra.containsAll_iff.mp h e he
  rw [derivativeLiteral, unlessStraddled, List.find?_singleton, straddles, derivativeAt]
  rw [SetAlgebra.overlap]
  by_cases hempty : SetAlgebra.isEmpty (block ∩ set) = true
  · simp [hempty, hinter hempty]
  · cases hb : SetAlgebra.containsAll block set <;> cases hs : SetAlgebra.containsAll set block <;>
      simp_all

section Members

variable {result : Term S → Term S} {ts : List (Term S)}

theorem derivativeEach_eq
    (h : ∀ t ∈ ts, t.derivative block = unlessStraddled block t.metLiterals (result t)) :
    derivativeEach block ts = unlessStraddled block (metLiteralsEach ts) (ts.map result) := by
  induction ts with
  | nil => rfl
  | cons t ts ih =>
    rw [derivativeEach, h t (List.mem_cons_self ..), metLiteralsEach]
    refine unlessStraddled_bind ?_
    rw [ih fun u hu => h u (List.mem_cons_of_mem _ hu)]
    exact unlessStraddled_map _

theorem derivativeSeq_eq
    (h : ∀ t ∈ ts, t.derivative block = unlessStraddled block t.metLiterals (result t)) :
    derivativeSeq block ts =
      unlessStraddled block (metLiteralsSeq ts) (seqAlternatives result ts) := by
  induction ts with
  | nil => rfl
  | cons t ts ih =>
    rw [derivativeSeq, h t (List.mem_cons_self ..), metLiteralsSeq]
    refine unlessStraddled_bind ?_
    -- Members behind one that is not nullable are not met, and so cannot be in the way.
    by_cases hnull : t.nullable = true
    · simp only [hnull, if_true]
      rw [ih fun u hu => h u (List.mem_cons_of_mem _ hu), seqAlternatives, if_pos hnull]
      exact unlessStraddled_map _
    · simp only [hnull]
      rw [seqAlternatives, if_neg hnull]
      rfl

end Members

/-- The derivative by a block fails on the first literal that it meets and that the block
straddles; if there is none, it is the derivative at any symbol of the block. -/
theorem derivative_eq [LawfulSetAlgebra S E] (he : e ∈ block) (t : Term S) :
    t.derivative block = unlessStraddled block t.metLiterals (t.derivativeAt e) := by
  induction t using memberInduction with
  | eps => rfl
  | empty => rfl
  | all => rfl
  | literal set => exact derivativeLiteral_eq he set
  | alt ts ih =>
    rw [derivative, derivativeEach_eq ih, ← derivativeAtEach_eq_map]
    exact unlessStraddled_map _
  | seq ts ih =>
    rw [derivative, derivativeSeq_eq ih, ← derivativeAtSeq_eq_seqAlternatives]
    exact unlessStraddled_map _
  | inter ts ih =>
    rw [derivative, derivativeEach_eq ih, ← derivativeAtEach_eq_map]
    exact unlessStraddled_map _
  | compl t ih =>
    rw [derivative, ih]
    exact unlessStraddled_map _
  | star t ih =>
    rw [derivative, ih]
    exact unlessStraddled_map _

theorem eq_derivativeAt_of_derivative [LawfulSetAlgebra S E] {t d : Term S} (he : e ∈ block)
    (h : t.derivative block = .ok d) : d = t.derivativeAt e := by
  rw [derivative_eq he] at h
  exact (unlessStraddled_eq_ok.mp h).2

end Blocks

/-! ### The language of a derivative -/

section Language

variable {e : E} {w : List E}

theorem exists_mem_derivativeAtSeq {ts : List (Term S)}
    (h : ∀ t ∈ ts, ∀ w, w ∈ (t.derivativeAt e).language ↔ e :: w ∈ t.language) :
    (∃ d ∈ derivativeAtSeq e ts, w ∈ d.language) ↔ e :: w ∈ (seq ts).language := by
  induction ts with
  | nil => simp [derivativeAtSeq, language_seq]
  | cons t ts ih =>
    have hhead : w ∈ (before (derivativeAt e t) ts).language ↔
        ∃ u, e :: u ∈ t.language ∧ ∃ v ∈ (seq ts).language, u ++ v = w := by
      rw [language_before, ← language_seq, Language.mem_mul]
      exact exists_congr fun u => and_congr_left' (h t (List.mem_cons_self ..) u)
    have htail := ih fun u hu => h u (List.mem_cons_of_mem _ hu)
    -- Either the head reads the symbol, or it is nullable and the tail reads it.
    rw [language_seq, List.map_cons, List.prod_cons, cons_mem_mul, ← language_seq]
    rw [derivativeAtSeq, List.exists_mem_cons_iff, hhead, ← nullable_iff, ← htail]
    by_cases hnull : t.nullable = true
    · rw [if_pos hnull, and_iff_right hnull]
    · rw [if_neg hnull]
      simp [hnull]

variable [LawfulSetAlgebra S E]

/-- The derivative at a symbol matches the rest of a word that starts with the symbol. -/
theorem mem_language_derivativeAt {t : Term S} :
    w ∈ (t.derivativeAt e).language ↔ e :: w ∈ t.language := by
  induction t using memberInduction generalizing w with
  | eps => exact iff_of_false mem_language_empty (List.cons_ne_nil e w)
  | empty => exact iff_of_false mem_language_empty mem_language_empty
  | all => exact iff_of_true mem_language_all mem_language_all
  | literal set =>
    -- Nothing can follow the symbol of a literal.
    have hcons : e :: w ∈ (literal set).language ↔ e ∈ set ∧ w = [] := by
      rw [mem_language_literal]
      constructor
      · rintro ⟨f, hf, hw⟩
        obtain ⟨rfl, rfl⟩ := List.cons.inj hw
        exact ⟨hf, rfl⟩
      · rintro ⟨he, rfl⟩
        exact ⟨e, he, rfl⟩
    rw [hcons, derivativeAt]
    by_cases he : e ∈ set
    · rw [if_pos he, and_iff_right he, mem_language_eps]
    · rw [if_neg he]
      exact iff_of_false mem_language_empty fun h => he h.1
  | alt ts ih =>
    rw [derivativeAt, mem_language_prune, mem_language_oneOf, derivativeAtEach_eq_map,
      mem_language_alt]
    simp only [List.mem_map, exists_exists_and_eq_and]
    exact exists_congr fun t => and_congr_right fun ht => ih t ht
  | seq ts ih =>
    rw [derivativeAt, mem_language_prune, mem_language_oneOf]
    exact exists_mem_derivativeAtSeq fun t ht w => ih t ht
  | inter ts ih =>
    rw [derivativeAt, mem_language_prune, mem_language_allOf, derivativeAtEach_eq_map,
      List.forall_mem_map, mem_language_inter]
    exact forall₂_congr fun t ht => ih t ht
  | compl t ih =>
    rw [derivativeAt, mem_language_prune, mem_language_complement, ih, mem_language_compl]
  | star t ih =>
    rw [derivativeAt, mem_language_prune, language_before, List.map_singleton,
      List.prod_singleton, Language.mem_mul, cons_mem_language_star]
    exact exists_congr fun u => and_congr_left' ih

theorem mem_language_derivativeAlong {t : Term S} {v : List E} :
    v ∈ (t.derivativeAlong w).language ↔ w ++ v ∈ t.language := by
  induction w generalizing t with
  | nil => rfl
  | cons e w ih => rw [derivativeAlong_cons, ih, mem_language_derivativeAt, List.cons_append]

theorem nullable_derivativeAlong {t : Term S} :
    (t.derivativeAlong w).nullable = true ↔ w ∈ t.language := by
  rw [nullable_iff, mem_language_derivativeAlong, List.append_nil]

theorem derivativeWord_eq_derivativeAlong {t d : Term S} {word : List S}
    (h : t.derivativeWord word = .ok d) (hw : List.Forall₂ (· ∈ ·) w word) :
    d = t.derivativeAlong w := by
  induction hw generalizing t with
  | nil => exact (Except.ok.inj h).symm
  | @cons e block w word he _ ih =>
    rw [derivativeWord, List.foldlM_cons] at h
    cases hd : t.derivative block with
    | error s =>
      rw [hd] at h
      contradiction
    | ok d' =>
      rw [hd] at h
      rw [derivativeAlong_cons, ← eq_derivativeAt_of_derivative he hd]
      exact ih h

/-- A word of blocks that are read without a literal in the way matches as a whole or not at all. -/
theorem accepts_iff_of_forall₂ {t : Term S} {word : List S} {b : Bool}
    (h : t.accepts word = .ok b) (hw : List.Forall₂ (· ∈ ·) w word) :
    b = true ↔ w ∈ t.language := by
  rw [accepts] at h
  cases hd : t.derivativeWord word with
  | error s =>
    rw [hd] at h
    contradiction
  | ok d =>
    rw [hd] at h
    obtain rfl := Except.ok.inj h
    rw [derivativeWord_eq_derivativeAlong hd hw, nullable_derivativeAlong]

/-- No literal stands in the way of a single symbol. -/
theorem derivative_single {single : E → S} (hsingle : ∀ e f : E, f ∈ single e ↔ f = e)
    (t : Term S) (e : E) : t.derivative (single e) = .ok (t.derivativeAt e) := by
  rw [derivative_eq ((hsingle e e).mpr rfl), unlessStraddled_eq_ok]
  exact ⟨fun set _ => SetAlgebra.straddles_eq_false_of_single fun f hf => (hsingle e f).mp hf, rfl⟩

/-- A word of single symbols is never in the way of a literal. -/
theorem derivativeWord_single {single : E → S} (hsingle : ∀ e f : E, f ∈ single e ↔ f = e)
    (t : Term S) : t.derivativeWord (w.map single) = .ok (t.derivativeAlong w) := by
  induction w generalizing t with
  | nil => rfl
  | cons e w ih =>
    rw [List.map_cons, derivativeWord, List.foldlM_cons, derivative_single hsingle]
    exact ih (t.derivativeAt e)

end Language

end Term

end ExtendedRegex
