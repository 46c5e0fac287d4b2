/-
Words and repetitions, and what all of the building functions denote.

* `mem_language_word`: a sequence of sets is matched by the words with one symbol of
  each set in turn;
* `language_power`, `language_plus`, `language_opt`, `mem_language_rep`: repetitions are
  powers of a language, and unions of powers;
* `language_operations`: every building function denotes the operation that it is
  named after, whatever terms it is applied to.

Design notes: a bounded repetition is a power of the term, and after it a power of the
term or the empty word.  The latter has the words of all powers up to its exponent, so
both kinds of repetition are a power followed by a union of powers.
-/
import ExtendedRegex.Alphabet.Letter
import ExtendedRegex.Proofs.Operations
import ExtendedRegex.RangeSet
import Mathlib.Algebra.BigOperators.Group.List.Basic

universe u v

namespace ExtendedRegex.Term

open scoped Computability

variable {S : Type u} {E : Type v}

/-! ### Powers of a language -/

section Powers

variable {l m : Language E} {w : List E} {n : Nat}

/-- Some of `n` words may be left out. -/
theorem mem_one_add_pow : w ∈ (1 + l) ^ n ↔ ∃ k ≤ n, w ∈ l ^ k := by
  induction n generalizing w with
  | zero => simp
  | succ n ih =>
    rw [pow_succ', add_mul, one_mul, Language.mem_add, ih]
    constructor
    · rintro (⟨k, hk, hw⟩ | hw)
      · exact ⟨k, Nat.le_succ_of_le hk, hw⟩
      · obtain ⟨u, hu, v, hv, rfl⟩ := Language.mem_mul.mp hw
        obtain ⟨k, hk, hv⟩ := ih.mp hv
        exact ⟨k + 1, Nat.succ_le_succ hk, pow_succ' l k ▸ Language.append_mem_mul hu hv⟩
    · rintro ⟨k, hk, hw⟩
      cases k with
      | zero => exact .inl ⟨0, Nat.zero_le n, hw⟩
      | succ k =>
        rw [pow_succ'] at hw
        obtain ⟨u, hu, v, hv, rfl⟩ := Language.mem_mul.mp hw
        exact .inr (Language.append_mem_mul hu (ih.mpr ⟨k, Nat.le_of_succ_le_succ hk, hv⟩))

/-- A power before a union of powers adds its exponent to each of theirs. -/
theorem mem_pow_mul {P : Nat → Prop} (hm : ∀ w, w ∈ m ↔ ∃ k, P k ∧ w ∈ l ^ k) :
    w ∈ l ^ n * m ↔ ∃ k, n ≤ k ∧ P (k - n) ∧ w ∈ l ^ k := by
  constructor
  · intro hw
    obtain ⟨u, hu, v, hv, rfl⟩ := Language.mem_mul.mp hw
    obtain ⟨k, hk, hv⟩ := (hm v).mp hv
    refine ⟨n + k, Nat.le_add_right n k, ?_, pow_add l n k ▸ Language.append_mem_mul hu hv⟩
    rwa [Nat.add_sub_cancel_left]
  · rintro ⟨k, hnk, hk, hw⟩
    rw [← Nat.add_sub_cancel' hnk, pow_add] at hw
    obtain ⟨u, hu, v, hv, rfl⟩ := Language.mem_mul.mp hw
    exact Language.append_mem_mul hu ((hm v).mpr ⟨k - n, hk, hv⟩)

/-- Any number of words after `n` words. -/
theorem mem_pow_mul_kstar : w ∈ l ^ n * l∗ ↔ ∃ k ≥ n, w ∈ l ^ k := by
  have hstar : ∀ w : List E, w ∈ l∗ ↔ ∃ k, True ∧ w ∈ l ^ k := fun w => by
    rw [Language.kstar_eq_iSup_pow, Language.mem_iSup]
    simp
  rw [mem_pow_mul hstar]
  simp

end Powers

variable [Membership E S] {t : Term S}

/-! ### Words -/

section Words

variable [SetAlgebra S] [LawfulSetAlgebra S E] {sets : List S} {w : List E}

/-- A sequence of sets is matched by the words with one symbol of each of them in turn. -/
theorem mem_language_word : w ∈ (word sets).language ↔ List.Forall₂ (· ∈ ·) w sets := by
  rw [word, language_concat]
  induction sets generalizing w with
  | nil => simp
  | cons set sets ih =>
    rw [List.map_cons, List.map_cons, List.prod_cons, Language.mem_mul, List.forall₂_cons_right_iff]
    constructor
    · rintro ⟨u, hu, v, hv, rfl⟩
      obtain ⟨e, he, rfl⟩ := mem_language_ofSet.mp hu
      exact ⟨e, v, he, ih.mp hv, rfl⟩
    · rintro ⟨e, v, he, hv, rfl⟩
      exact ⟨[e], mem_language_ofSet.mpr ⟨e, he, rfl⟩, v, ih.mpr hv, rfl⟩

/-- A word of single symbols is matched by nothing else. -/
theorem language_word_single {single : E → S} (hsingle : ∀ e f : E, f ∈ single e ↔ f = e) :
    (word (w.map single)).language = {w} := by
  refine Language.ext fun v => ?_
  rw [mem_language_word, List.forall₂_map_right_iff]
  simp only [hsingle]
  rw [List.forall₂_eq_eq_eq]
  rfl

end Words

/-! ### Repetitions -/

section Repetitions

theorem language_power (n : Nat) : (power t n).language = (t.language : Language E) ^ n := by
  by_cases hn : n = 0
  · rw [hn, power_zero, pow_zero]
    rfl
  by_cases heps : t = eps
  · rw [heps, power_eps]
    exact (one_pow n).symm
  by_cases hempty : t = empty
  · rw [hempty, power_empty hn]
    exact (zero_pow hn).symm
  · -- The factors of the term follow each other as often as the exponent says.
    rw [power_of_ne heps hempty hn, language_ofFactors, List.map_flatten, List.prod_flatten,
      List.map_replicate, List.map_replicate, List.prod_replicate, prod_language_factors]

variable [SetAlgebra S] [LawfulSetAlgebra S E] [Ord S] [DecidableEq S]

theorem language_plus : (plus t).language = (t.language : Language E) * t.language∗ := by
  have hconcat : (concat [t, closure t]).language = (t.language : Language E) * t.language∗ := by
    rw [language_concat_pair, language_closure]
  cases t with
  | eps =>
    show (1 : Language E) = 1 * 1∗
    rw [kstar_one, one_mul]
  | empty => exact (zero_mul _).symm
  | all =>
    refine Language.ext fun w => iff_of_true mem_language_all ?_
    exact Language.mem_mul.mpr ⟨w, mem_language_all, [], Language.nil_mem_kstar _, by simp⟩
  | star t => rw [plus, language_star, kstar_idem, kstar_mul_kstar]
  | literal set => exact hconcat
  | alt ts => exact hconcat
  | seq ts => exact hconcat
  | inter ts => exact hconcat
  | compl t => exact hconcat

theorem mem_language_plus {w : List E} : w ∈ (plus t).language ↔ ∃ k ≥ 1, w ∈ t.language ^ k := by
  have hpow := mem_pow_mul_kstar (l := t.language) (w := w) (n := 1)
  rw [language_plus]
  rwa [pow_one] at hpow

theorem language_opt : (opt t).language = 1 + (t.language : Language E) := by
  have honeOf : (oneOf [t, eps]).language = 1 + (t.language : Language E) := by
    rw [language_oneOf_pair, add_comm]
    rfl
  cases t with
  | eps => exact (Language.add_self 1).symm
  | empty => exact (add_zero 1).symm
  | all => exact Language.ext fun w => iff_of_true mem_language_all (.inr mem_language_all)
  | literal set => exact honeOf
  | alt ts => exact honeOf
  | seq ts => exact honeOf
  | inter ts => exact honeOf
  | compl t => exact honeOf
  | star t => exact honeOf

theorem mem_language_rep {min : Nat} {max : Option Nat} {w : List E} :
    w ∈ (rep t min max).language ↔ ∃ k, min ≤ k ∧ (∀ m ∈ max, k ≤ m) ∧ w ∈ t.language ^ k := by
  cases max with
  | none =>
    rw [rep, language_concat_pair, language_power, language_closure, mem_pow_mul_kstar]
    simp
  | some max =>
    rw [rep]
    by_cases hlt : max < min
    · -- No number is at least `min` and at most `max`.
      rw [if_pos hlt]
      refine iff_of_false mem_language_empty ?_
      rintro ⟨k, hmin, hmax, -⟩
      have hk := hmax max rfl
      omega
    · rw [if_neg hlt, language_concat_pair, language_power, language_power, language_opt,
        mem_pow_mul (P := (· ≤ max - min)) fun w => mem_one_add_pow]
      refine exists_congr fun k => and_congr_right fun hmin => and_congr_left fun _ => ?_
      simp only [Option.mem_some_iff, forall_eq']
      omega

end Repetitions

/-! ### All building functions -/

section Operations

variable [SetAlgebra S] [LawfulSetAlgebra S E] [Ord S] [DecidableEq S]

/-- Every building function denotes the operation that it is named after: concatenation, union,
intersection, complement, repetition, words of single symbols, and the symbols of a set. -/
theorem language_operations (t : Term S) (ts : List (Term S)) (set : S) (min : Nat)
    (max : Option Nat) :
    (concat ts).language = (ts.map (language (E := E))).prod ∧
    (∀ w : List E, w ∈ (oneOf ts).language ↔ ∃ t ∈ ts, w ∈ t.language) ∧
    (∀ w : List E, w ∈ (allOf ts).language ↔ ∀ t ∈ ts, w ∈ t.language) ∧
    (complement t).language = (t.language : Language E)ᶜ ∧
    (closure t).language = (t.language : Language E)∗ ∧
    (∀ w : List E, w ∈ (plus t).language ↔ ∃ k ≥ 1, w ∈ t.language ^ k) ∧
    (opt t).language = 1 + (t.language : Language E) ∧
    (∀ w : List E, w ∈ (rep t min max).language ↔
      ∃ k, min ≤ k ∧ (∀ m ∈ max, k ≤ m) ∧ w ∈ t.language ^ k) ∧
    (∀ w : List E, w ∈ (ofSet set).language ↔ ∃ e ∈ set, w = [e]) ∧
    ∀ single : E → S, (∀ e f, f ∈ single e ↔ f = e) →
      ∀ w, (word (w.map single)).language = {w} :=
  ⟨language_concat, fun _ => mem_language_oneOf, fun _ => mem_language_allOf,
    Language.ext fun _ => mem_language_complement, language_closure, fun _ => mem_language_plus,
    language_opt, fun _ => mem_language_rep, fun _ => mem_language_ofSet,
    fun _ hsingle _ => language_word_single hsingle⟩

/-- Two letters, two or three times; and no number is at least three and at most two. -/
theorem language_operations_rep :
    (∀ x y : Letter, y ∈ RangeSet.single x ↔ y = x) ∧
    (word ([Letter.a, Letter.b].map RangeSet.single)).language = {[Letter.a, Letter.b]} ∧
    [Letter.a, Letter.b, Letter.a, Letter.b] ∈
      (rep (word ([Letter.a, Letter.b].map RangeSet.single)) 2 (some 3)).language ∧
    ∀ w : List Letter,
      w ∉ (rep (word ([Letter.a, Letter.b].map RangeSet.single)) 3 (some 2)).language := by
  have hsingle : ∀ x y : Letter, y ∈ RangeSet.single x ↔ y = x := fun _ _ => RangeSet.mem_single
  obtain ⟨-, -, -, -, -, -, -, htwo, -, hword⟩ := language_operations (E := Letter)
    (word ([Letter.a, Letter.b].map RangeSet.single)) [] ∅ 2 (some 3)
  obtain ⟨-, -, -, -, -, -, -, hnone, -, -⟩ := language_operations (E := Letter)
    (word ([Letter.a, Letter.b].map RangeSet.single)) [] ∅ 3 (some 2)
  have hab := hword RangeSet.single hsingle [Letter.a, Letter.b]
  have hmem : [Letter.a, Letter.b] ∈ ({[Letter.a, Letter.b]} : Language Letter) := rfl
  refine ⟨hsingle, hab, (htwo _).mpr ⟨2, by omega, by simp, ?_⟩, fun w hw => ?_⟩
  · rw [hab, pow_two]
    exact Language.append_mem_mul hmem hmem
  · obtain ⟨k, hmin, hmax, -⟩ := (hnone w).mp hw
    have hk := hmax 2 rfl
    omega

end Operations

end ExtendedRegex.Term
