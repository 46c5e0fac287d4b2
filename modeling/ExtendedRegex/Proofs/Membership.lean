/-
Reading a word decides membership.

* `accepts_iff_mem_language`: over range sets a word is read symbol by symbol without
  ever being refused, and the answer is whether it is in the language of the term.
  Over masks, where a single symbol of the word stands for several, an answer
  speaks for all the words that the masks stand for.
-/
import ExtendedRegex.Alphabet.Letter
import ExtendedRegex.Mask
import ExtendedRegex.Proofs.Quotient
import ExtendedRegex.RangeSet

universe u

namespace ExtendedRegex.Term

/-- A word over an alphabet is always read to its end, and the term that is left says whether the
word is in the language.  An answer to a word of masks holds for all words with a symbol of each. -/
theorem accepts_iff_mem_language (α : Type u) [Alphabet α] [LawfulAlphabet α] :
    (∀ (t : Term (RangeSet α)) (w : List α), ∃ d : Term (RangeSet α),
      t.derivativeWord (w.map RangeSet.single) = .ok d ∧
      t.accepts (w.map RangeSet.single) = .ok d.nullable ∧
      (d.nullable = true ↔ w ∈ t.language)) ∧
    ∀ (t : Term Mask) (word : List Mask) (answer : Bool), t.accepts word = .ok answer →
      ∀ w : List (Fin 8), List.Forall₂ (· ∈ ·) w word → (answer = true ↔ w ∈ t.language) := by
  constructor
  · intro t w
    have hword := derivativeWord_single (fun _ _ => RangeSet.mem_single) t (w := w)
    refine ⟨t.derivativeAlong w, hword, ?_, nullable_derivativeAlong⟩
    rw [accepts, hword]
    rfl
  · intro t word answer h w hw
    exact accepts_iff_of_forall₂ h hw

/-- Masks are read as a whole: the second one stands for two symbols. -/
theorem accepts_iff_mem_language_star :
    (star (literal (⟨3#8⟩ : Mask))).accepts [⟨1#8⟩, ⟨3#8⟩] = .ok true ∧
    List.Forall₂ (· ∈ ·) [(0 : Fin 8), 1] [(⟨1#8⟩ : Mask), ⟨3#8⟩] ∧
    [(0 : Fin 8), 1] ∈ (star (literal (⟨3#8⟩ : Mask))).language := by
  have h13 : derivativeLiteral (⟨1#8⟩ : Mask) ⟨3#8⟩ = .ok eps := rfl
  have h33 : derivativeLiteral (⟨3#8⟩ : Mask) ⟨3#8⟩ = .ok eps := rfl
  have hprune : (star (literal (⟨3#8⟩ : Mask))).prune = star (literal ⟨3#8⟩) := by
    simp [prune, emptiness, isEmpty]
  have hstep : ∀ block : Mask, derivativeLiteral block ⟨3#8⟩ = .ok eps →
      (star (literal (⟨3#8⟩ : Mask))).derivative block = .ok (star (literal ⟨3#8⟩)) := by
    intro block h
    rw [derivative, derivative, h]
    show Except.ok (before eps [star (literal (⟨3#8⟩ : Mask))]).prune = _
    rw [show before eps [star (literal (⟨3#8⟩ : Mask))] = star (literal ⟨3#8⟩) from rfl, hprune]
  have haccepts : (star (literal (⟨3#8⟩ : Mask))).accepts [⟨1#8⟩, ⟨3#8⟩] = .ok true := by
    simp [accepts, derivativeWord, hstep _ h13, hstep _ h33, bind, Except.bind, Except.map, pure,
      Except.pure]
  have hmem : List.Forall₂ (· ∈ ·) [(0 : Fin 8), 1] [(⟨1#8⟩ : Mask), ⟨3#8⟩] :=
    .cons rfl (.cons rfl .nil)
  exact ⟨haccepts, hmem, ((accepts_iff_mem_language Letter).2 _ _ _ haccepts _ hmem).mp rfl⟩

end ExtendedRegex.Term
