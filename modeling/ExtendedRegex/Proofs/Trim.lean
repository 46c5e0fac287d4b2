/-
The automaton of a term without intersections and complements is trim.

* `Trim`: every state is reached from the start, and an accepting state from every state;
* `Follows.exists_run?_eq`: every state is reached by some word, whatever the term;
* `Follows.exists_accepting_iff`: a word leads from a state to an accepting one exactly if some word
  matches there;
* `trim_of_not_extended`: the automaton of a term without extended operators is trim, unless the
  term is `empty`, and so are the automata of patterns.

Design notes: what is left of a plain term is plain, and a canonical plain term matches some word
unless it is `empty`.  No state behind the start has the term `empty`, so there is nothing to trim.
With an intersection or a complement in the term, a state may be dead although its term is not
`empty`.
-/
import ExtendedRegex.Proofs.Discovery
import ExtendedRegex.Proofs.Plain

universe u v

namespace ExtendedRegex

namespace Term

variable {S : Type u} [SetAlgebra S] [Ord S] [DecidableEq S] {E : Type v} [Membership E S]

theorem plain_derivativeAlong {t : Term S} (h : t.plain = true) (w : List E) :
    (t.derivativeAlong w).plain = true := by
  induction w generalizing t with
  | nil => exact h
  | cons e w ih => exact ih (plain_derivativeAt h)

end Term

namespace Automaton

variable {S : Type u} {E : Type v} [SetAlgebra S] {a : Automaton S} {s : State S} {t : Term S}
  {n : Nat}

/-- No state is listed twice, every state is reached from the start, and an accepting state is
reached from every state. -/
structure Trim (single : E → S) (a : Automaton S) : Prop where
  distinct : ∀ (m n : Nat) (s : State S), a.states[m]? = some s → a.states[n]? = some s → m = n
  reached : ∀ s ∈ a.states, ∃ w : List E, a.run? (w.map single) = some s
  live : ∀ (n : Nat) (s : State S), a.states[n]? = some s →
    ∃ (w : List E) (s' : State S), a.runFrom? n (w.map single) = some s' ∧ s'.accepting = true

variable [Membership E S] [LawfulSetAlgebra S E] [Ord S] [DecidableEq S] {single : E → S}

/-- The word that a state is the derivative by leads there from the start. -/
theorem Follows.exists_run?_eq (h : a.Follows E t)
    (hdiscovered : Discovered E a.states.size a.states)
    (hdistinct : ∀ {m n : Nat} {s s' : State S}, a.states[m]? = some s → a.states[n]? = some s' →
      s.term = s'.term → m = n)
    (hsingle : ∀ e f : E, f ∈ single e ↔ f = e) (hs : s ∈ a.states) :
    ∃ w : List E, a.run? (w.map single) = some s := by
  obtain ⟨start, hstart, rfl⟩ := h.start
  obtain ⟨n, hn, rfl⟩ := Array.getElem_of_mem hs
  have hs : a.states[n]? = some a.states[n] := Array.getElem?_eq_getElem hn
  cases Nat.eq_zero_or_pos n with
  | inl hzero =>
    subst hzero
    exact ⟨[], hs⟩
  | inr hpos =>
    obtain ⟨w, hw, hne⟩ := h.exists_derivativeAlong hdiscovered hs
    obtain ⟨hnone, hsome⟩ := h.runFrom?_spec hsingle hstart w
    refine ⟨w, ?_⟩
    cases hrun : a.runFrom? 0 (w.map single) with
    | none => exact absurd (hw.trans (hnone.mp hrun).1) (hne hpos)
    | some s' =>
      -- Reading the word ends in a state with the same term, and there is only one.
      obtain ⟨m, hm, rfl⟩ := Array.getElem_of_mem (mem_of_runFrom? hrun)
      have hs' : a.states[m]? = some a.states[m] := Array.getElem?_eq_getElem hm
      obtain rfl := hdistinct hs' hs ((hsome _ hrun).trans hw.symm)
      exact hrun

/-- A state is live exactly if its term matches some word. -/
theorem Follows.exists_accepting_iff (h : a.Follows E t)
    (hsingle : ∀ e f : E, f ∈ single e ↔ f = e) (hs : a.states[n]? = some s) :
    (∃ (w : List E) (s' : State S),
      a.runFrom? n (w.map single) = some s' ∧ s'.accepting = true) ↔
      ∃ w : List E, w ∈ s.term.language := by
  refine exists_congr fun w => ?_
  obtain ⟨hnone, hsome⟩ := h.runFrom?_spec hsingle hs w
  rw [← Term.nullable_derivativeAlong]
  constructor
  · rintro ⟨s', hrun, haccepting⟩
    rw [← hsome s' hrun]
    exact haccepting
  · intro hnull
    cases hrun : a.runFrom? n (w.map single) with
    | none =>
      rw [(hnone.mp hrun).1, Term.nullable_empty] at hnull
      contradiction
    | some s' =>
      refine ⟨s', rfl, ?_⟩
      rw [← hsome s' hrun] at hnull
      exact hnull

variable [Std.TransOrd S] [Std.LawfulEqOrd S] [Hashable S]

/-- In the automaton of a plain term other than `empty`, no state is dead. -/
theorem trim_of_plain {fuel : Nat} {limit : Option Nat}
    (hsingle : ∀ e f : E, f ∈ single e ↔ f = e) (ht : t.Canonical) (hplain : t.plain = true)
    (hne : t ≠ .empty) (ha : ofTerm? fuel limit t = some (.ok a)) : a.Trim single := by
  have hfollows : a.Follows E t := follows_of_ofTerm? ht ha
  have hdiscovered : Discovered E a.states.size a.states := discovered_of_ofTerm? ht ha
  refine ⟨fun m n s hm hn => eq_of_term_eq E ht ha hm hn rfl, fun s hs => ?_, fun n s hs => ?_⟩
  · exact hfollows.exists_run?_eq hdiscovered (eq_of_term_eq E ht ha) hsingle hs
  · rw [hfollows.exists_accepting_iff hsingle hs]
    obtain ⟨w, hw, hpos⟩ := hfollows.exists_derivativeAlong hdiscovered hs
    have hcanonical : s.term.Canonical := hw ▸ Term.canonical_derivativeAlong ht w
    refine hcanonical.exists_mem_language (hw ▸ Term.plain_derivativeAlong hplain w) ?_
    cases Nat.eq_zero_or_pos n with
    | inr hn => exact hpos hn
    | inl hzero =>
      subst hzero
      rw [hfollows.term_eq hs]
      exact hne

/-- A built term in which neither an intersection nor a complement occurs has an automaton, and
whatever the limit, its automaton is trim, unless the term is `empty`.  This holds of the terms of all
patterns. -/
theorem trim_of_not_extended {S : Type u} {E : Type v} [SetAlgebra S] [Membership E S]
    [LawfulSetAlgebra S E] [Ord S] [DecidableEq S] [Std.TransOrd S] [Std.LawfulEqOrd S] [Hashable S] :
    (∀ single : E → S, (∀ e f : E, f ∈ single e ↔ f = e) →
      ∀ t : Term S, t.Built → ¬ t.Extended → t ≠ .empty →
        (∃ bound, ∀ fuel ≥ bound, ∃ a, ofTerm? fuel none t = some (.ok a)) ∧
        ∀ fuel limit a, ofTerm? fuel limit t = some (.ok a) → a.Trim single) ∧
    ∀ [Hashable Char] (input : String) (t : CharTerm), Term.parse input = .ok t → t ≠ .empty →
      (∃ bound, ∀ fuel ≥ bound, ∃ a, ofTerm? fuel none t = some (.ok a)) ∧
      ∀ fuel limit a, ofTerm? fuel limit t = some (.ok a) → a.Trim RangeSet.single := by
  constructor
  · intro single hsingle t ht hextended hne
    have hcanonical : t.Canonical := ht.canonical (E := E)
    exact ⟨exists_bound_ofTerm? E hcanonical, fun fuel limit a ha =>
      trim_of_plain hsingle hcanonical (Term.plain_eq_true_iff.mpr hextended) hne ha⟩
  · intro _ input t hparse hne
    have hcanonical : t.Canonical := (Term.built_of_parse hparse).canonical (E := Char)
    have hsingle : ∀ c d : Char, d ∈ RangeSet.single c ↔ d = c := fun _ _ => RangeSet.mem_single
    exact ⟨exists_bound_ofTerm? Char hcanonical, fun fuel limit a ha =>
      trim_of_plain hsingle hcanonical (Term.plain_of_parse hparse) hne ha⟩

/-- A star before a symbol that it can read as well, and the pattern of a single character. -/
theorem trim_of_not_extended_concat :
    (∀ i j : Fin 8, j ∈ Mask.single i ↔ j = i) ∧
    (Term.concat [.closure (.ofSet (⟨3#8⟩ : Mask)), .ofSet ⟨1#8⟩]).Built ∧
    ¬ (Term.concat [.closure (.ofSet (⟨3#8⟩ : Mask)), .ofSet ⟨1#8⟩]).Extended ∧
    Term.concat [.closure (.ofSet (⟨3#8⟩ : Mask)), .ofSet ⟨1#8⟩] ≠ .empty ∧
    (∃ bound, ∀ fuel ≥ bound, ∃ a,
      ofTerm? fuel none (.concat [.closure (.ofSet (⟨3#8⟩ : Mask)), .ofSet ⟨1#8⟩]) = some (.ok a) ∧
      a.Trim Mask.single) ∧
    ∀ [Hashable Char], ∃ t, Term.parse "a" = .ok t ∧ t ≠ .empty ∧
      ∃ bound, ∀ fuel ≥ bound, ∃ a, ofTerm? fuel none t = some (.ok a) ∧ a.Trim RangeSet.single := by
  set t : Term Mask := .concat [.closure (.ofSet ⟨3#8⟩), .ofSet ⟨1#8⟩] with ht
  have hshape : t = .seq [.star (.literal ⟨3#8⟩), .literal ⟨1#8⟩] := rfl
  have hsingle : ∀ i j : Fin 8, j ∈ Mask.single i ↔ j = i := fun _ _ => Mask.mem_single
  have hbuilt : t.Built := .concat (by simp [Term.Built.closure, Term.Built.ofSet])
  have hextended : ¬ t.Extended := Term.plain_eq_true_iff.mp (by simp [hshape])
  have hne : t ≠ .empty := by simp [hshape]
  obtain ⟨hterms, hpatterns⟩ := trim_of_not_extended (S := Mask) (E := Fin 8)
  refine ⟨hsingle, hbuilt, hextended, hne, ?_, ?_⟩
  · obtain ⟨⟨bound, hbound⟩, htrim⟩ := hterms _ hsingle t hbuilt hextended hne
    refine ⟨bound, fun fuel hfuel => ?_⟩
    obtain ⟨a, ha⟩ := hbound fuel hfuel
    exact ⟨a, ha, htrim fuel none a ha⟩
  · intro _
    have hread : Term.parse "a" = .ok (Pattern.alt [.seq [.char 'a']]).term := rfl
    have hliteral : (Pattern.alt [.seq [.char 'a']]).term = .literal (.single 'a') :=
      ((Pattern.built_term (.seq [.char 'a'])).canonical (E := Char)).oneOf_singleton (E := Char)
    have hne : (Pattern.alt [.seq [.char 'a']]).term ≠ .empty := by simp [hliteral]
    obtain ⟨⟨bound, hbound⟩, htrim⟩ := hpatterns _ _ hread hne
    refine ⟨_, hread, hne, bound, fun fuel hfuel => ?_⟩
    obtain ⟨a, ha⟩ := hbound fuel hfuel
    exact ⟨a, ha, htrim fuel none a ha⟩

end Automaton

end ExtendedRegex
