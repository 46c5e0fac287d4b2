/-
A limit on the number of states only decides whether there is an automaton.

* `ofTerm?_mono`: more fuel changes no automaton;
* `explore?_limit`: as long as all states fit, an exploration with a limit does what the one
  without a limit does, and it fails as soon as a state does not fit;
* `ofTerm?_limit_eq`: there is an automaton within a limit exactly if the one without a limit has no
  more states, and then it is the same.

Design notes: a number is refused before it is given away, so the terms that are known always fit.
Numbers are never given away again.  So the first one that does not fit is that of a new term, and
then the automaton without a limit has too many states as well.
-/
import ExtendedRegex.Mask
import ExtendedRegex.Proofs.Automaton

universe u v

namespace ExtendedRegex

namespace Numbering

variable {α : Type u} [BEq α] [Hashable α] {s s' : Numbering α}

theorem Extends.size_le (h : s.Extends s') : s.items.size ≤ s'.items.size := by
  by_contra hlt
  have hlast : s.items[s'.items.size]? = some s.items[s'.items.size] :=
    Array.getElem?_eq_getElem (Nat.lt_of_not_le hlt)
  exact Nat.lt_irrefl _ (Array.getElem?_eq_some_iff.mp (h _ _ hlast)).1

/-- If the items fit, they fit with one more exactly if its number does. -/
theorem register_lt_iff [LawfulBEq α] {a : α} {limit : Nat} (hfits : s.items.size ≤ limit) :
    (s.register a).2 < limit ↔ (s.register a).1.items.size ≤ limit := by
  rcases register_cases s a with ⟨n, hn, heq⟩ | ⟨-, hitems, hnumber⟩
  · have hlt : n < s.items.size := (Array.getElem?_eq_some_iff.mp (place?_eq_some_iff.mp hn)).1
    rw [heq]
    exact iff_of_true (hlt.trans_le hfits) hfits
  · rw [hitems, hnumber, Array.size_push, Nat.succ_le_iff]

end Numbering

theorem Term.branches?_mono {S : Type u} [SetAlgebra S] [Ord S] [DecidableEq S] {t : Term S}
    {p : Partition S} {r : Partition S × List (Term S × S)} {fuel fuel' : Nat} (hle : fuel ≤ fuel')
    (h : t.branches? fuel p = some r) : t.branches? fuel' p = some r := by
  rw [branches?] at h ⊢
  obtain ⟨⟨q, derived⟩, hover, h⟩ := Option.bind_eq_some_iff.mp h
  exact Option.bind_eq_some_iff.mpr ⟨(q, derived), Partition.overBlocks?_mono hle hover, h⟩

namespace Automaton

variable {S : Type u} [DecidableEq S] [Hashable S] {known known' : Numbering (Term S)}
  {limit : Nat} {t : Term S} {branches : List (Term S × S)} {numbered : List (Nat × S)}

/-! ### Numbers within a limit -/

theorem registerState_none : registerState none known t = .ok (known.register t) := rfl

/-- A term gets the number that it would get without a limit, if it then fits. -/
theorem registerState_limit (hfits : known.items.size ≤ limit) :
    registerState (some limit) known t =
      if (known.register t).1.items.size ≤ limit then .ok (known.register t)
      else .error ⟨limit⟩ := by
  have hlt := Numbering.register_lt_iff (a := t) hfits
  rw [registerState]
  dsimp only
  by_cases h : (known.register t).1.items.size ≤ limit
  · rw [if_pos h, if_neg (Nat.not_le_of_lt (hlt.mpr h))]
  · rw [if_neg h, if_pos (Nat.le_of_not_lt (mt hlt.mp h))]

theorem registerBranches_limit (h : registerBranches none known branches = .ok (known', numbered))
    (hfits : known.items.size ≤ limit) :
    registerBranches (some limit) known branches =
      if known'.items.size ≤ limit then .ok (known', numbered) else .error ⟨limit⟩ := by
  induction branches generalizing known numbered with
  | nil =>
    obtain ⟨rfl, rfl⟩ := Prod.mk.inj (Except.ok.inj h)
    rw [if_pos hfits]
    rfl
  | cons b branches ih =>
    obtain ⟨t, block⟩ := b
    obtain ⟨known'', n, rest, hstate, hrest, rfl⟩ := registerBranches_cons_eq_ok h
    rw [registerState_none] at hstate
    rw [registerBranches, registerState_limit hfits, Except.ok.inj hstate]
    by_cases hnew : known''.items.size ≤ limit
    · rw [if_pos hnew]
      dsimp only
      rw [ih hrest hnew]
      split <;> rfl
    · -- The new term is still known in the end, and so the limit is exceeded then.
      have hsize := (registerBranches_spec hrest).1.size_le
      rw [if_neg hnew, if_neg fun h => hnew (hsize.trans h)]

/-! ### Explorations -/

variable [SetAlgebra S] [Ord S] {p : Partition S} {finished : Array (State S)} {fuel fuel' : Nat}
  {a : Automaton S}

theorem explore?_mono {limit : Option Nat} {r : Except TooManyStates (Automaton S)}
    (hle : fuel ≤ fuel') (h : explore? limit fuel p known finished = some r) :
    explore? limit fuel' p known finished = some r := by
  induction fuel generalizing fuel' p known finished with
  | zero => contradiction
  | succ fuel ih =>
    obtain ⟨fuel', rfl⟩ := Nat.exists_eq_add_one_of_ne_zero (show fuel' ≠ 0 by omega)
    rw [explore?] at h ⊢
    cases hitem : known.items[finished.size]? with
    | none =>
      rw [hitem] at h
      exact h
    | some t =>
      rw [hitem] at h
      dsimp only at h ⊢
      cases hbranches : t.branches? fuel p with
      | none =>
        rw [hbranches] at h
        contradiction
      | some r =>
        rw [hbranches] at h
        rw [Term.branches?_mono (show fuel ≤ fuel' by omega) hbranches]
        dsimp only at h ⊢
        split at h
        · exact h
        · exact ih (by omega) h

theorem ofTerm?_mono {limit : Option Nat} {r : Except TooManyStates (Automaton S)}
    (hle : fuel ≤ fuel') (h : ofTerm? fuel limit t = some r) : ofTerm? fuel' limit t = some r := by
  rw [ofTerm?] at h ⊢
  rcases hstate : registerState limit .empty t with e | ⟨known, n⟩
  · rw [hstate] at h
    exact h
  · rw [hstate] at h
    exact explore?_mono hle h

/-- Every term that is known in between has a state in the end. -/
theorem size_le_of_explore? {limit : Option Nat}
    (h : explore? limit fuel p known finished = some (.ok a)) : known.items.size ≤ a.states.size := by
  obtain ⟨-, known', hle, hsize⟩ := explore?_invariant
    (I := fun _ known' _ => known.items.size ≤ known'.items.size)
    (fun hle _ _ hregister => hle.trans (registerBranches_spec hregister).1.size_le) le_rfl h
  exact hle.trans hsize

/-- In step with an exploration without a limit, until a state does not fit. -/
theorem explore?_limit (h : explore? none fuel p known finished = some (.ok a))
    (hfits : known.items.size ≤ limit) (hfinished : finished.size ≤ known.items.size) :
    explore? (some limit) fuel p known finished =
      some (if a.states.size ≤ limit then .ok a else .error ⟨limit⟩) := by
  induction fuel generalizing p known finished with
  | zero => contradiction
  | succ fuel ih =>
    rw [explore?] at h ⊢
    cases hitem : known.items[finished.size]? with
    | none =>
      rw [hitem] at h
      obtain rfl := Except.ok.inj (Option.some.inj h)
      rw [if_pos (hfinished.trans hfits)]
    | some t =>
      rw [hitem] at h
      dsimp only at h ⊢
      cases hbranches : t.branches? fuel p with
      | none =>
        rw [hbranches] at h
        contradiction
      | some r =>
        obtain ⟨q, branches⟩ := r
        rw [hbranches] at h
        dsimp only at h ⊢
        obtain ⟨⟨known', numbered⟩, hregister⟩ := exists_registerBranches known branches
        rw [hregister] at h
        rw [registerBranches_limit hregister hfits]
        by_cases hnew : known'.items.size ≤ limit
        · have hlt : finished.size < known.items.size := (Array.getElem?_eq_some_iff.mp hitem).1
          have hsize := (registerBranches_spec hregister).1.size_le
          rw [if_pos hnew]
          refine ih h hnew ?_
          rw [Array.size_push]
          omega
        · -- The automaton without a limit has a state for each term that is known now.
          rw [if_neg hnew, if_neg fun hle => hnew ((size_le_of_explore? h).trans hle)]

/-- Within a limit a term has the automaton that it has without one, unless that is too large. -/
theorem ofTerm?_limit (h : ofTerm? fuel none t = some (.ok a)) :
    ofTerm? fuel (some limit) t =
      some (if a.states.size ≤ limit then .ok a else .error ⟨limit⟩) := by
  have hexplore : explore? none fuel .trivial (Numbering.empty.register t).1 #[] = some (.ok a) := h
  rw [ofTerm?, registerState_limit (Nat.zero_le limit)]
  by_cases hstart : (Numbering.empty.register t).1.items.size ≤ limit
  · rw [if_pos hstart]
    exact explore?_limit hexplore hstart (Nat.zero_le _)
  · rw [if_neg hstart, if_neg fun hle => hstart ((size_le_of_explore? hexplore).trans hle)]

/-- With enough fuel, every built term has an automaton if there is no limit, and a result for every
limit.  That is the same automaton if its states are no more than the limit, and otherwise the error
with the limit. -/
theorem ofTerm?_limit_eq (E : Type v) [Membership E S] [LawfulSetAlgebra S E] [Std.TransOrd S]
    [Std.LawfulEqOrd S] (ht : t.Built) :
    (∃ bound, ∀ fuel ≥ bound, (∃ a, ofTerm? fuel none t = some (.ok a)) ∧
      ∀ limit : Nat, (ofTerm? fuel (some limit) t).isSome = true) ∧
    ∀ fuel a, ofTerm? fuel none t = some (.ok a) →
      ∀ (fuel' limit : Nat) (r : Except TooManyStates (Automaton S)),
        ofTerm? fuel' (some limit) t = some r →
          r = if a.states.size ≤ limit then .ok a else .error ⟨limit⟩ := by
  constructor
  · obtain ⟨bound, hbound⟩ := exists_bound_ofTerm? E (ht.canonical (E := E))
    refine ⟨bound, fun fuel hfuel => ?_⟩
    obtain ⟨a, ha⟩ := hbound fuel hfuel
    refine ⟨⟨a, ha⟩, fun limit => ?_⟩
    rw [ofTerm?_limit ha]
    rfl
  · intro fuel a ha fuel' limit r hr
    -- With the larger of both amounts of fuel, both results are still there.
    have ha' := ofTerm?_mono (Nat.le_max_left fuel fuel') ha
    have hr' := ofTerm?_mono (Nat.le_max_right fuel fuel') hr
    rw [ofTerm?_limit ha'] at hr'
    exact (Option.some.inj hr').symm

/-- The automaton of an intersection with a complement fits as many states as it has, but no fewer. -/
theorem ofTerm?_limit_eq_allOf :
    (Term.allOf [.closure (.ofSet (⟨3#8⟩ : Mask)), .complement (.ofSet ⟨1#8⟩)]).Built ∧
    ∃ bound, ∀ fuel ≥ bound, ∃ a, 0 < a.states.size ∧
      ofTerm? fuel none
        (.allOf [.closure (.ofSet (⟨3#8⟩ : Mask)), .complement (.ofSet ⟨1#8⟩)]) = some (.ok a) ∧
      ofTerm? fuel (some a.states.size)
        (.allOf [.closure (.ofSet (⟨3#8⟩ : Mask)), .complement (.ofSet ⟨1#8⟩)]) = some (.ok a) ∧
      ofTerm? fuel (some (a.states.size - 1))
        (.allOf [.closure (.ofSet (⟨3#8⟩ : Mask)), .complement (.ofSet ⟨1#8⟩)]) =
          some (.error ⟨a.states.size - 1⟩) := by
  have ht : (Term.allOf [.closure (.ofSet (⟨3#8⟩ : Mask)), .complement (.ofSet ⟨1#8⟩)]).Built :=
    .allOf (by simp [Term.Built.closure, Term.Built.complement, Term.Built.ofSet])
  obtain ⟨⟨bound, hbound⟩, hlimit⟩ := ofTerm?_limit_eq (Fin 8) ht
  refine ⟨ht, bound, fun fuel hfuel => ?_⟩
  obtain ⟨⟨a, ha⟩, hsome⟩ := hbound fuel hfuel
  obtain ⟨r, hr⟩ := Option.isSome_iff_exists.mp (hsome a.states.size)
  obtain ⟨r', hr'⟩ := Option.isSome_iff_exists.mp (hsome (a.states.size - 1))
  have hfollows : a.Follows (Fin 8) _ := follows_of_ofTerm? (ht.canonical (E := Fin 8)) ha
  obtain ⟨s, hs, -⟩ := hfollows.start
  have hpos : 0 < a.states.size := (Array.getElem?_eq_some_iff.mp hs).1
  refine ⟨a, hpos, ha, ?_, ?_⟩
  · rw [hr, hlimit fuel a ha fuel _ r hr, if_pos (Nat.le_refl _)]
  · rw [hr', hlimit fuel a ha fuel _ r' hr', if_neg (by omega)]

end Automaton

end ExtendedRegex
