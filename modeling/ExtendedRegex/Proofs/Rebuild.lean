/-
Going to an automaton and back keeps the language of a term.

* `Follows.leastSolution_ofAutomaton`: in the least solution of its equations, an unknown stands
  for what matches at its state;
* `language_rebuild?`: the term that is built again denotes the language of the term;
* `not_extended_rebuild?`: it has neither an intersection nor a complement in it, and it is `empty`
  exactly if no word matches.

Design notes: the languages of the terms of the states solve the equations.  They are the
least solution since a word that matches at a state is read by the transitions, and so it
is in every solution, by induction on the word.  An automaton may have states at which nothing
matches.  They leave no trace in the term that is built again, because it is plain, and a plain term
that matches nothing is `empty`.
-/
import ExtendedRegex.Proofs.Automaton
import ExtendedRegex.Proofs.Equations
import ExtendedRegex.Proofs.Plain

universe u v

namespace ExtendedRegex

open Equation (value combination Tidy Solves leastSolution mem_combination solves_iff)

variable {S : Type u} {E : Type v} [Membership E S] {a : Automaton S} {s : State S} {t : Term S}
  {X : Nat → Language E} {w : List E} {n : Nat}

/-! ### The equations of an automaton -/

namespace Equation

variable [SetAlgebra S]

/-- A state gives the empty word if it accepts, and the words that a transition can start with. -/
theorem mem_value_ofState [LawfulSetAlgebra S E] : w ∈ (ofState s).value X ↔
    (w = [] ∧ s.accepting = true) ∨
      ∃ e v n, w = e :: v ∧ Leads s.transitions e n ∧ v ∈ X (n + 1) := by
  have hconstant : w ∈ (ofState s).constant.language ↔ w = [] ∧ s.accepting = true := by
    rw [ofState]
    dsimp only
    by_cases h : s.accepting = true
    · rw [if_pos h, Term.mem_language_eps, and_iff_left h]
    · rw [if_neg h]
      exact iff_of_false Term.mem_language_empty fun h' => h h'.2
  rw [value, Language.mem_add, hconstant, mem_combination]
  refine or_congr_right ?_
  constructor
  · rintro ⟨c, hc, hw⟩
    obtain ⟨⟨n, label⟩, hmem, rfl⟩ := List.mem_map.mp hc
    obtain ⟨u, hu, v, hv, rfl⟩ := Language.mem_mul.mp hw
    obtain ⟨e, he, rfl⟩ := Term.mem_language_ofSet.mp hu
    exact ⟨e, v, n, rfl, ⟨label, hmem, he⟩, hv⟩
  · rintro ⟨e, v, n, rfl, ⟨label, hmem, he⟩, hv⟩
    refine ⟨_, List.mem_map_of_mem hmem, ?_⟩
    exact Language.mem_mul.mpr ⟨[e], Term.mem_language_ofSet.mpr ⟨e, he, rfl⟩, v, hv, rfl⟩

/-- Unknown 0 is for the start state, and each other unknown for the state before it. -/
theorem solves_ofAutomaton : Solves X (ofAutomaton a) ↔
    X 1 ≤ X 0 ∧ ∀ n s, a.states[n]? = some s → (ofState s).value X ≤ X (n + 1) := by
  have hstart : value X (⟨.empty, [(1, .eps)]⟩ : Equation S) = X 1 := by
    show (0 : Language E) + (1 * X 1 + 0) = X 1
    rw [zero_add, add_zero, one_mul]
  rw [solves_iff, ofAutomaton, List.reverse_reverse]
  constructor
  · intro h
    refine ⟨hstart ▸ h 0 _ rfl, fun n s hs => h (n + 1) _ ?_⟩
    rw [List.getElem?_cons_succ, List.getElem?_map, Array.getElem?_toList, hs]
    rfl
  · rintro ⟨hzero, hstates⟩ n e hn
    cases n with
    | zero =>
      obtain rfl := Option.some.inj hn
      exact hstart ▸ hzero
    | succ n =>
      rw [List.getElem?_cons_succ, List.getElem?_map, Array.getElem?_toList] at hn
      obtain ⟨s, hs, rfl⟩ := Option.map_eq_some_iff.mp hn
      exact hstates n s hs

variable [Ord S] [DecidableEq S]

theorem tidy_ofAutomaton (h : a.Follows E t) :
    ∀ e ∈ ofAutomaton a, Tidy (fun n => 0 < n ∧ n < (ofAutomaton a).length) e.coefficients := by
  obtain ⟨start, hstart, -⟩ := h.start
  have hsize : 0 < a.states.size := (Array.getElem?_eq_some_iff.mp hstart).1
  have hlen : (ofAutomaton a).length = a.states.size + 1 := by simp [ofAutomaton]
  rw [hlen]
  intro e he
  rcases List.mem_cons.mp (List.mem_reverse.mp he) with rfl | he
  · refine ⟨List.nodup_singleton 1, fun n hn => ?_⟩
    obtain rfl := List.mem_singleton.mp hn
    omega
  · obtain ⟨s, hs, rfl⟩ := List.mem_map.mp he
    have hfaithful := h.faithful s (Array.mem_toList_iff.mp hs)
    have hkeys : (ofState s).coefficients.map Prod.fst = s.transitions.map fun tr => tr.1 + 1 := by
      rw [ofState, List.map_map]
      rfl
    refine ⟨?_, fun n hn => ?_⟩
    · rw [hkeys]
      refine List.Pairwise.map _ (fun tr tr' hlt => ?_) hfaithful.increasing
      omega
    · rw [hkeys] at hn
      obtain ⟨tr, htr, rfl⟩ := List.mem_map.mp hn
      have hlt := hfaithful.target_lt tr htr
      rw [Array.size_map] at hlt
      omega

end Equation

/-! ### Their least solution -/

namespace Automaton

/-- What matches at the state that an unknown is for. -/
def atState (E : Type v) [Membership E S] (a : Automaton S) (n : Nat) : Language E :=
  {w | ∃ s, a.states[n - 1]? = some s ∧ w ∈ s.term.language}

theorem mem_atState : w ∈ a.atState E n ↔ ∃ s, a.states[n - 1]? = some s ∧ w ∈ s.term.language :=
  Iff.rfl

variable [SetAlgebra S] [LawfulSetAlgebra S E] [Ord S] [DecidableEq S]

/-- What matches at the states solves the equations. -/
theorem Follows.solves_atState (h : a.Follows E t) : Solves (a.atState E) (Equation.ofAutomaton a) := by
  refine Equation.solves_ofAutomaton.mpr ⟨le_rfl, fun n s hs w hw => ?_⟩
  refine mem_atState.mpr ⟨s, hs, ?_⟩
  rcases Equation.mem_value_ofState.mp hw with ⟨rfl, haccepting⟩ | ⟨e, v, m, rfl, hleads, hv⟩
  · exact Term.nullable_iff.mp haccepting
  · obtain ⟨s', hs', hterm⟩ := h.exists_target (Array.mem_of_getElem? hs) hleads
    obtain ⟨s'', hs'', hv⟩ := mem_atState.mp hv
    obtain rfl := Option.some.inj (hs'.symm.trans hs'')
    exact Term.mem_language_derivativeAt.mp (hterm ▸ hv)

/-- A word that matches at a state is in every solution. -/
theorem Follows.mem_of_solves (h : a.Follows E t) (hX : Solves X (Equation.ofAutomaton a))
    (hs : a.states[n]? = some s) (hw : w ∈ s.term.language) : w ∈ X (n + 1) := by
  have hstates := (Equation.solves_ofAutomaton.mp hX).2
  induction w generalizing n s with
  | nil =>
    have haccepting : s.accepting = true := Term.nullable_iff.mpr hw
    exact hstates n s hs (Equation.mem_value_ofState.mpr (.inl ⟨rfl, haccepting⟩))
  | cons e v ih =>
    have hmem : s ∈ a.states := Array.mem_of_getElem? hs
    have hv : v ∈ (s.term.derivativeAt e).language := Term.mem_language_derivativeAt.mpr hw
    have hne : s.term.derivativeAt e ≠ .empty := by
      intro hempty
      rw [hempty] at hv
      exact Term.mem_language_empty hv
    obtain ⟨m, hleads⟩ := ((h.faithful s hmem).live e).mpr hne
    obtain ⟨s', hs', hterm⟩ := h.exists_target hmem hleads
    refine hstates n s hs (Equation.mem_value_ofState.mpr (.inr ⟨e, v, m, rfl, hleads, ?_⟩))
    exact ih hs' (hterm ▸ hv)

theorem Follows.leastSolution_ofAutomaton (h : a.Follows E t) :
    leastSolution E (Equation.ofAutomaton a) n = a.atState E n := by
  refine Language.ext fun w => ⟨fun hw => hw _ h.solves_atState, fun hw X hX => ?_⟩
  obtain ⟨s, hs, hw⟩ := mem_atState.mp hw
  have hmem := h.mem_of_solves hX hs hw
  cases n with
  | zero => exact (Equation.solves_ofAutomaton.mp hX).1 hmem
  | succ n => exact hmem

theorem Follows.language_toTerm (h : a.Follows E t) :
    (a.toTerm.language : Language E) = t.language := by
  obtain ⟨s, hs, hterm⟩ := h.start
  rw [toTerm, Equation.language_solve (Equation.tidy_ofAutomaton h), h.leastSolution_ofAutomaton]
  refine Language.ext fun w => mem_atState.trans ⟨?_, fun hw => ⟨s, hs, hterm ▸ hw⟩⟩
  rintro ⟨s', hs', hw⟩
  exact h.term_eq hs' ▸ hw

end Automaton

/-! ### There and back -/

namespace Term

variable [SetAlgebra S] [LawfulSetAlgebra S E] [Ord S] [DecidableEq S] [Std.TransOrd S]
  [Std.LawfulEqOrd S] [Hashable S]

/-- Every built term can be built again from its automaton, and then it denotes the same language. -/
theorem language_rebuild? (ht : Built t) :
    (∃ bound, ∀ fuel ≥ bound, (rebuild? fuel t).isSome = true) ∧
    ∀ fuel d, rebuild? fuel t = some d → (d.language : Language E) = t.language := by
  have hcanonical := ht.canonical (E := E)
  refine ⟨?_, fun fuel d h => ?_⟩
  · obtain ⟨bound, hbound⟩ := Automaton.exists_bound_ofTerm? E hcanonical
    refine ⟨bound, fun fuel hfuel => ?_⟩
    obtain ⟨a, ha⟩ := hbound fuel hfuel
    rw [rebuild?, ha]
    rfl
  · obtain ⟨a, ha, rfl⟩ := exists_of_rebuild? h
    have hfollows : a.Follows E t := Automaton.follows_of_ofTerm? hcanonical ha
    exact hfollows.language_toTerm

/-- The words that are not a certain symbol are described again without a complement. -/
theorem language_rebuild?_complement :
    Built (complement (ofSet (⟨1#8⟩ : Mask))) ∧
    ∃ bound, ∀ fuel ≥ bound, ∃ d, rebuild? fuel (complement (ofSet (⟨1#8⟩ : Mask))) = some d ∧
      ∀ w : List (Fin 8), w ∈ d.language ↔ w ≠ [0] := by
  have ht : Built (complement (ofSet (⟨1#8⟩ : Mask))) := (Built.ofSet _).complement
  obtain ⟨⟨bound, hsome⟩, hlanguage⟩ := language_rebuild? (E := Fin 8) ht
  refine ⟨ht, bound, fun fuel hfuel => ?_⟩
  obtain ⟨d, hd⟩ := Option.isSome_iff_exists.mp (hsome fuel hfuel)
  refine ⟨d, hd, fun w => ?_⟩
  have hsymbol : ∀ i : Fin 8, i ∈ (⟨1#8⟩ : Mask) ↔ i = 0 := by
    simp only [Mask.mem_iff]
    decide
  rw [hlanguage fuel d hd, mem_language_complement, mem_language_ofSet]
  simp [hsymbol]

/-- A built term can be built again without intersections and complements.  What that gives is
`empty` exactly if no word matches the term, which is what the search for such a word finds out. -/
theorem not_extended_rebuild? (ht : Built t) :
    (∃ bound, ∀ fuel ≥ bound, (rebuild? fuel t).isSome = true ∧
      (matchesNothing? fuel t).isSome = true) ∧
    ∀ fuel d, rebuild? fuel t = some d → ¬ d.Extended ∧
      (d.isEmpty = true ↔ ∀ w : List E, w ∉ t.language) ∧
      ∀ fuel' dead, matchesNothing? fuel' t = some dead → d.isEmpty = dead := by
  have hcanonical : Canonical t := ht.canonical (E := E)
  refine ⟨?_, fun fuel d h => ?_⟩
  · obtain ⟨K, hK, htK⟩ := hcanonical.exists_closed (E := E)
    obtain ⟨search, hsearch⟩ := matchesNothing?_isSome hK
    obtain ⟨states, hstates⟩ := Automaton.exists_bound_ofTerm? E hcanonical
    refine ⟨search + states, fun fuel hfuel => ⟨?_, hsearch fuel (by omega) t htK⟩⟩
    obtain ⟨a, ha⟩ := hstates fuel (by omega)
    rw [rebuild?, ha]
    rfl
  · have hplain : d.plain = true := regularClosed_plain.of_rebuild? h
    have hd : Canonical d := (regularClosed_canonical (E := E)).of_rebuild? h
    obtain ⟨a, ha, rfl⟩ := exists_of_rebuild? h
    have hlanguage : (a.toTerm.language : Language E) = t.language :=
      (Automaton.follows_of_ofTerm? hcanonical ha).language_toTerm
    have hempty : a.toTerm.isEmpty = true ↔ ∀ w : List E, w ∉ t.language := by
      rw [isEmpty_iff, ← hlanguage]
      constructor
      · intro hempty w
        rw [hempty]
        exact mem_language_empty
      · intro hnone
        by_contra hne
        obtain ⟨w, hw⟩ := hd.exists_mem_language (E := E) hplain hne
        exact hnone w hw
    refine ⟨plain_eq_true_iff.mp hplain, hempty, fun fuel' dead hdead => ?_⟩
    rw [Bool.eq_iff_iff, hempty, matchesNothing?_iff (E := E) hcanonical hdead]

/-- No word is both over two symbols and not over them, but the shape of the term does not show it. -/
theorem not_extended_rebuild?_allOf :
    Built (allOf [complement (closure (ofSet (⟨3#8⟩ : Mask))), closure (ofSet ⟨3#8⟩)]) ∧
    (allOf [complement (closure (ofSet (⟨3#8⟩ : Mask))), closure (ofSet ⟨3#8⟩)]).emptiness =
      .unknown ∧
    ∃ bound, ∀ fuel ≥ bound, rebuild? fuel
      (allOf [complement (closure (ofSet (⟨3#8⟩ : Mask))), closure (ofSet ⟨3#8⟩)]) = some empty := by
  have hstar : Built (closure (ofSet (⟨3#8⟩ : Mask))) := (Built.ofSet _).closure
  have hbuilt : ∀ t ∈ [complement (closure (ofSet (⟨3#8⟩ : Mask))), closure (ofSet ⟨3#8⟩)],
      Built t := List.forall_mem_cons.mpr ⟨hstar.complement, List.forall_mem_singleton.mpr hstar⟩
  refine ⟨.allOf hbuilt, ?_, ?_⟩
  · have hshape : MeetShape [compl (star (literal (⟨3#8⟩ : Mask))), star (literal ⟨3#8⟩)] := by
      refine ⟨List.pairwise_pair.mpr (compare_eq_lt_of_kind_lt (by decide)), by simp, by simp, ?_⟩
      refine (isEmpty_interAll_firstSet? (E := Fin 8)).mpr ⟨0, List.forall_mem_cons.mpr ⟨?_, ?_⟩⟩
      · exact admits_iff.mpr (by simp)
      · exact List.forall_mem_singleton.mpr (admits_iff.mpr fun _ => rfl)
    have hallOf : allOf [complement (closure (ofSet (⟨3#8⟩ : Mask))), closure (ofSet ⟨3#8⟩)] =
        inter [compl (star (literal ⟨3#8⟩)), star (literal ⟨3#8⟩)] :=
      hshape.allOf_eq (E := Fin 8) fun t ht => (hbuilt t ht).canonical (E := Fin 8)
    rw [hallOf]
    exact emptiness_eq_unknown_iff.mpr ⟨by simp, by simp⟩
  · obtain ⟨⟨bound, hbound⟩, hrebuild⟩ := not_extended_rebuild? (E := Fin 8) (.allOf hbuilt)
    refine ⟨bound, fun fuel hfuel => ?_⟩
    obtain ⟨d, hd⟩ := Option.isSome_iff_exists.mp (hbound fuel hfuel).1
    obtain ⟨-, hempty, -⟩ := hrebuild fuel d hd
    rw [hd, isEmpty_iff.mp (hempty.mpr fun w hw => ?_)]
    obtain ⟨hcompl, hword⟩ := List.forall_mem_cons.mp (mem_language_allOf.mp hw)
    exact mem_language_complement.mp hcompl (hword _ (List.mem_singleton_self _))

end Term

end ExtendedRegex
