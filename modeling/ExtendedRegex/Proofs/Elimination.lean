/-
One step of the elimination keeps the least solution.

* `Solution`: the unknowns stand for just what their equations give;
* `value_leastSolution`: the languages in all solutions are such a solution;
* `isLeast_leastSolution`: and the least one;
* `leastSolution_of_eliminate`: after a step no equation refers to the unknown that was eliminated,
  and the least solution for the others is the same.

Design notes: in `Solves` an unknown may stand for more than its equation gives, which is what is
kept by substitution.  The least of those solutions gives no more than it has to, because what the
equations give for it is a solution once more.
-/
import ExtendedRegex.Mask
import ExtendedRegex.Proofs.Equations

universe u v

namespace ExtendedRegex.Equation

open scoped Computability
open ExtendedRegex.Term

variable {S : Type u} {E : Type v} [Membership E S] {e : Equation S} {es : List (Equation S)}
  {X : Nat → Language E} {n : Nat}

/-- The unknowns stand for what their equations give.  The equations are listed from the last unknown
to the first. -/
def Solution (X : Nat → Language E) (es : List (Equation S)) : Prop :=
  ∀ n e, es.reverse[n]? = some e → X n = e.value X

theorem Solution.solves (h : Solution X es) : Solves X es :=
  solves_iff.mpr fun n e hn => (h n e hn).ge

/-- In the least solution, the unknowns have no more than what their equations give. -/
theorem value_leastSolution (hn : es.reverse[n]? = some e) :
    leastSolution E es n = e.value (leastSolution E es) := by
  have hleast : Solves (leastSolution E es) es := solves_leastSolution
  have hsolves := solves_iff.mp hleast
  refine le_antisymm ?_ (hsolves n e hn)
  -- If the unknown had only that, it would be a solution still.
  let Y : Nat → Language E :=
    Function.update (leastSolution E es) n (e.value (leastSolution E es))
  have hself : Y n = e.value (leastSolution E es) := Function.update_self ..
  have hother : ∀ m, m ≠ n → Y m = leastSolution E es m := fun m hm => Function.update_of_ne hm ..
  have hle : ∀ m, Y m ≤ leastSolution E es m := by
    intro m
    by_cases hm : m = n
    · rw [hm, hself]
      exact hsolves n e hn
    · exact (hother m hm).le
  have hY : Solves Y es := by
    refine solves_iff.mpr fun m e' hm => ?_
    by_cases hmn : m = n
    · subst hmn
      obtain rfl := Option.some.inj (hn.symm.trans hm)
      rw [hself]
      exact value_mono hle
    · rw [hother m hmn]
      exact (value_mono hle).trans (hsolves m e' hm)
  intro w hw
  rw [← hself]
  exact hw Y hY

theorem isLeast_leastSolution : IsLeast {X | Solution X es} (leastSolution E es) :=
  ⟨fun _ _ hn => value_leastSolution hn, fun X hX _ _ hw => hw X (Solution.solves hX)⟩

variable [SetAlgebra S] [LawfulSetAlgebra S E] [Ord S] [DecidableEq S]

/-- **One step of the elimination.**  The equations have a least solution before it and after it.  If
they referred to their own unknowns only, with one coefficient for each, then they do so again, now
without the last one, and the least solution for these is the same. -/
theorem leastSolution_of_eliminate
    (h : ∀ e' ∈ e :: es, Tidy (fun n => n < (e :: es).length) e'.coefficients) :
    (eliminate es.length e es).length = es.length ∧
    (∀ e' ∈ eliminate es.length e es, Tidy (fun n => n < es.length) e'.coefficients) ∧
    IsLeast {X | Solution X (e :: es)} (leastSolution E (e :: es)) ∧
    IsLeast {X | Solution X (eliminate es.length e es)}
      (leastSolution E (eliminate es.length e es)) ∧
    ∀ n < es.length, leastSolution E (eliminate es.length e es) n = leastSolution E (e :: es) n := by
  refine ⟨length_eliminate .., fun e' he' => ?_, isLeast_leastSolution, isLeast_leastSolution,
    fun n hn => leastSolution_eliminate h hn⟩
  refine (tidy_eliminate h e' he').imp fun n hn => ?_
  rw [List.length_cons] at hn
  omega

/-- An unknown that may come after itself with nothing in between still has no more than `a* b`. -/
theorem leastSolution_of_eliminate_nullable :
    let a : Term Mask := ofSet ⟨1#8⟩
    let b : Term Mask := ofSet ⟨2#8⟩
    let last : Equation Mask := ⟨b, [(1, closure a)]⟩
    let first : Equation Mask := ⟨.empty, [(1, .eps)]⟩
    (∀ e ∈ [last, first], Tidy (fun n => n < 2) e.coefficients) ∧
    (∀ e ∈ eliminate 1 last [first], e.coefficients = []) ∧
    leastSolution (Fin 8) [last, first] 0 = a.language∗ * b.language := by
  intro a b last first
  have htidy : ∀ e ∈ [last, first], Tidy (fun n => n < 2) e.coefficients := by
    refine List.forall_mem_cons.mpr ⟨?_, List.forall_mem_singleton.mpr ?_⟩ <;>
      exact ⟨by simp [last, first], by simp [last, first]⟩
  have hstep : eliminate 1 last [first] =
      [⟨oneOf [concat [eps, concat [closure (closure a), b]], .empty], []⟩] := rfl
  obtain ⟨-, -, -, hleast, hagree⟩ := leastSolution_of_eliminate (E := Fin 8) htidy
  have hzero := hleast.1 0 _ (congrArg (fun es => es.reverse[0]?) hstep)
  rw [value, combination_nil, add_zero] at hzero
  refine ⟨htidy, ?_, ?_⟩
  · rw [hstep]
    exact List.forall_mem_singleton.mpr rfl
  · have hempty : (Term.empty : Term Mask).language = (0 : Language (Fin 8)) := rfl
    have heps : (Term.eps : Term Mask).language = (1 : Language (Fin 8)) := rfl
    rw [← hagree 0 Nat.zero_lt_one, hzero, language_oneOf_pair, language_concat_pair,
      language_concat_pair, language_closure, language_closure, kstar_idem, hempty, heps, one_mul,
      add_zero]

end ExtendedRegex.Equation
