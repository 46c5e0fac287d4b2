/-
Everything that explores derivatives comes to an end.

* `Derives`: the terms that are left after any number of derivatives by blocks that are
  not empty;
* `finite_derives`: a built term derives finitely many terms, and with enough fuel the
  decisions, the sets of symbols and the automaton are there for all built terms.

Design notes: one finite set of terms and the literals that its terms meet bound all of
the explorations.  The terms of an automaton are distinct, so there are no more states
than terms in the set.  The fuel that is enough does not depend on the number of places
that symbols are asked for, nor on the limit on the number of states.
-/
import ExtendedRegex.Automaton
import ExtendedRegex.FirstSymbols
import ExtendedRegex.Mask
import ExtendedRegex.Proofs.Decision

universe u v

namespace ExtendedRegex

namespace Numbering

variable {α : Type u} [BEq α] [Hashable α] {s : Numbering α}

theorem mem_register [LawfulBEq α] {a b : α} (h : b ∈ (s.register a).1.items) : b ∈ s.items ∨ b = a := by
  rcases register_cases s a with ⟨n, -, heq⟩ | ⟨-, hitems, -⟩
  · rw [heq] at h
    exact .inl h
  · rw [hitems] at h
    exact Array.mem_push.mp h

/-- An item is at one place only. -/
theorem eq_of_getElem? {a : α} {m n : Nat} (hm : s.items[m]? = some a)
    (hn : s.items[n]? = some a) : m = n := by
  have hplace := (s.consistent a n).mpr hn
  rw [(s.consistent a m).mpr hm] at hplace
  exact Option.some.inj hplace

/-- No item is listed twice. -/
theorem nodup_items (s : Numbering α) : s.items.toList.Nodup := by
  rw [List.nodup_iff_getElem?_ne_getElem?]
  intro m n hmn hn heq
  have hn' : s.items[n]? = some s.items[n] := Array.getElem?_eq_getElem hn
  have hm' : s.items[m]? = some s.items[n] := by
    rw [← hn', ← Array.getElem?_toList, heq, Array.getElem?_toList]
  exact Nat.ne_of_lt hmn (eq_of_getElem? hm' hn')

theorem size_le_card {K : Finset α} (h : ∀ a ∈ s.items, a ∈ K) : s.items.size ≤ K.card := by
  classical
  rw [← Array.length_toList, ← List.toFinset_card_of_nodup s.nodup_items]
  refine Finset.card_le_card fun a ha => h a ?_
  exact Array.mem_toList_iff.mp (List.mem_toFinset.mp ha)

end Numbering

namespace Term

open ExtendedRegex.Partition (Proper cost)

variable {S : Type u} {E : Type v} [SetAlgebra S] [Membership E S] [LawfulSetAlgebra S E] [Ord S]
  [DecidableEq S] {K : Set (Term S)} {sets : List S} {p : Partition S} {fuel n : Nat}
  {t : Term S} {ts : List (Term S)}

/-! ### Branches -/

/-- A proper partition that some fuel is enough for. -/
structure Affordable (E : Type v) [Membership E S] (sets : List S) (n : Nat) (p : Partition S) :
    Prop where
  proper : Proper E p
  cost_le : cost sets p.blocks ≤ n

/-- The literals that the terms of a finite set meet are finitely many. -/
theorem Closed.exists_affordable (hK : Closed E K) :
    ∃ sets n, (∀ t ∈ K, ∀ a ∈ t.metLiterals, a ∈ sets) ∧
      Affordable E sets n (.trivial : Partition S) := by
  refine ⟨hK.finite.toFinset.toList.flatMap metLiterals, _, fun t ht a ha => ?_,
    Partition.proper_trivial, Nat.le_refl _⟩
  exact List.mem_flatMap.mpr ⟨t, Finset.mem_toList.mpr (hK.finite.mem_toFinset.mpr ht), ha⟩

/-- With enough fuel a term has branches, which lead to its derivatives. -/
theorem branches?_spec (hp : Affordable E sets n p) (hsets : ∀ a ∈ t.metLiterals, a ∈ sets)
    (hfuel : n ≤ fuel) : ∃ q branches, t.branches? fuel p = some (q, branches) ∧
      Affordable E sets n q ∧ ∀ b ∈ branches, ∃ e : E, b.1 = t.derivativeAt e := by
  have hfails := (emptinessQuestion_stepsBy (E := E)).failsOn (x := t) hsets
  have hsome := Partition.overBlocks?_isSome hfails hp.proper (hp.cost_le.trans hfuel)
  obtain ⟨⟨q, derived⟩, hover⟩ := Option.isSome_iff_exists.mp hsome
  have hover' : p.overBlocks? t.derivative fuel = some (q, derived) := hover
  refine ⟨q, (derived.filter fun r => r.2.emptiness ≠ .empty).map Prod.swap, ?_,
    ⟨(Partition.overBlocks?_spec hp.proper hover).1, ?_⟩, fun b hb => ?_⟩
  · rw [branches?, hover']
    rfl
  · exact (Partition.cost_overBlocks?_le hfails hp.proper hover).trans hp.cost_le
  · obtain ⟨r, hr, rfl⟩ := List.mem_map.mp hb
    refine (Question.mem_derived_iff (E := E) emptinessQuestion_stepsBy hp.proper hover).mp ?_
    exact List.mem_map_of_mem (List.mem_filter.mp hr).1

theorem allBranches?_spec (hK : Closed E K) (hsets : ∀ t ∈ K, ∀ a ∈ t.metLiterals, a ∈ sets)
    (hp : Affordable E sets n p) (hfuel : n ≤ fuel) (hts : ∀ t ∈ ts, t ∈ K) :
    ∃ q branches, allBranches? fuel p ts = some (q, branches) ∧ Affordable E sets n q ∧
      ∀ b ∈ branches, b.1 ∈ K := by
  induction ts generalizing p with
  | nil => exact ⟨p, [], rfl, hp, nofun⟩
  | cons t ts ih =>
    have ht := hts t (List.mem_cons_self ..)
    obtain ⟨q, branches, hbranches, hq, hmem⟩ := branches?_spec hp (hsets t ht) hfuel
    obtain ⟨q', others, hothers, hq', hmem'⟩ := ih hq fun u hu => hts u (List.mem_cons_of_mem t hu)
    refine ⟨q', branches ++ others, ?_, hq', fun b hb => ?_⟩
    · simp only [allBranches?, hbranches, hothers, Option.bind_eq_bind, Option.bind_some,
        Option.pure_def]
    · rcases List.mem_append.mp hb with hb | hb
      · obtain ⟨e, he⟩ := hmem b hb
        rw [he]
        exact hK.derivative t ht e
      · exact hmem' b hb

/-! ### Symbols at the places of a word -/

section Symbols

variable [Hashable S] {branches live : List (Term S × S)} {known known' : Verdicts S}

theorem verdict?_spec (hsome : (t.matchesNothing? fuel).isSome = true) (known : Verdicts S) :
    ∃ answer, verdict? fuel known t = some answer := by
  rw [verdict?]
  split
  · exact ⟨_, rfl⟩
  · obtain ⟨dead, hdead⟩ := Option.isSome_iff_exists.mp hsome
    rw [hdead]
    exact ⟨_, rfl⟩

/-- The branches that are kept are branches. -/
theorem mem_of_liveBranches? (h : liveBranches? fuel known branches = some (live, known')) :
    ∀ b ∈ live, b ∈ branches := by
  induction branches generalizing known known' live with
  | nil =>
    obtain ⟨rfl, -⟩ := Prod.mk.inj (Option.some.inj h)
    exact nofun
  | cons b branches ih =>
    rw [liveBranches?] at h
    obtain ⟨⟨dead, known''⟩, -, h⟩ := Option.bind_eq_some_iff.mp h
    obtain ⟨⟨rest, last⟩, hrest, h⟩ := Option.bind_eq_some_iff.mp h
    obtain ⟨rfl, -⟩ := Prod.mk.inj (Option.some.inj h)
    have hmem : ∀ c ∈ rest, c ∈ b :: branches := fun c hc => List.mem_cons_of_mem b (ih hrest c hc)
    split
    · exact hmem
    · exact List.forall_mem_cons.mpr ⟨List.mem_cons_self .., hmem⟩

theorem exists_liveBranches?
    (hsome : ∀ b ∈ branches, (b.1.matchesNothing? fuel).isSome = true) (known : Verdicts S) :
    ∃ live known', liveBranches? fuel known branches = some (live, known') := by
  induction branches generalizing known with
  | nil => exact ⟨[], known, rfl⟩
  | cons b branches ih =>
    obtain ⟨hb, hbranches⟩ := List.forall_mem_cons.mp hsome
    obtain ⟨⟨dead, known'⟩, hverdict⟩ := verdict?_spec hb known
    obtain ⟨live, known'', hlive⟩ := ih hbranches known'
    refine ⟨if dead then live else b :: live, known'', ?_⟩
    simp only [liveBranches?, hverdict, hlive, Option.bind_eq_bind, Option.bind_some,
      Option.pure_def]

theorem symbolsFrom?_isSome (hK : Closed E K) (hsets : ∀ t ∈ K, ∀ a ∈ t.metLiterals, a ∈ sets)
    (hsome : ∀ t ∈ K, (t.matchesNothing? fuel).isSome = true) (hp : Affordable E sets n p)
    (hfuel : n ≤ fuel) (hts : ∀ t ∈ ts, t ∈ K) (count : Nat) (known : Verdicts S) :
    (symbolsFrom? fuel count p known ts).isSome = true := by
  -- The partition only gets finer, so that the same fuel is enough at every place.
  induction count generalizing p known ts with
  | zero => rfl
  | succ count ih =>
    obtain ⟨q, branches, hbranches, hq, hmem⟩ := allBranches?_spec hK hsets hp hfuel hts
    obtain ⟨live, known', hlive⟩ := exists_liveBranches? (fun b hb => hsome b.1 (hmem b hb)) known
    have hnext : ∀ t ∈ (Question.fresh Std.HashSet.emptyWithCapacity (live.map Prod.fst)).1,
        t ∈ K := by
      intro t ht
      obtain ⟨b, hb, rfl⟩ := List.mem_map.mp (Question.mem_fresh_fst.mp ht).1
      exact hmem b (mem_of_liveBranches? hlive b hb)
    obtain ⟨later, hlater⟩ := Option.isSome_iff_exists.mp (ih hq hnext known')
    simp only [symbolsFrom?, hbranches, hlive, hlater, Option.bind_eq_bind, Option.bind_some,
      Option.pure_def, Option.isSome_some]

end Symbols

end Term

/-! ### Automata -/

namespace Automaton

open Term (Closed Affordable)

variable {S : Type u} {E : Type v} [DecidableEq S] [Hashable S] {K : Set (Term S)}
  {known known' : Numbering (Term S)} {limit : Option Nat}

/-- A term gets its number unless the limit leaves no room for it. -/
theorem registerState_eq_ok {t : Term S} {r : Numbering (Term S) × Nat} :
    registerState limit known t = .ok r ↔
      known.register t = r ∧ ∀ l, limit = some l → r.2 < l := by
  rw [registerState]
  cases limit with
  | none =>
    refine ⟨fun h => ⟨Except.ok.inj h, nofun⟩, ?_⟩
    rintro ⟨rfl, -⟩
    rfl
  | some l =>
    dsimp only
    by_cases hle : l ≤ (known.register t).2
    · rw [if_pos hle]
      refine ⟨nofun, ?_⟩
      rintro ⟨rfl, hlt⟩
      exact absurd hle (Nat.not_le_of_lt (hlt l rfl))
    · rw [if_neg hle]
      refine ⟨fun h => ?_, fun h => congrArg _ h.1⟩
      obtain rfl := Except.ok.inj h
      refine ⟨rfl, fun l' hl => ?_⟩
      rw [← Option.some.inj hl]
      exact Nat.lt_of_not_le hle

theorem mem_of_registerState {t u : Term S} {m : Nat}
    (h : registerState limit known t = .ok (known', m)) (hu : u ∈ known'.items) :
    u ∈ known.items ∨ u = t := by
  have hknown := (registerState_eq_ok.mp h).1
  refine Numbering.mem_register ?_
  rwa [hknown]

/-- The first branch gets its number before the others. -/
theorem registerBranches_cons_eq_ok {t : Term S} {label : S} {branches : List (Term S × S)}
    {numbered : List (Nat × S)}
    (h : registerBranches limit known ((t, label) :: branches) = .ok (known', numbered)) :
    ∃ known'' n rest, registerState limit known t = .ok (known'', n) ∧
      registerBranches limit known'' branches = .ok (known', rest) ∧
      numbered = (n, label) :: rest := by
  rw [registerBranches] at h
  rcases hstate : registerState limit known t with e | ⟨known'', n⟩
  · simp only [hstate] at h
    contradiction
  · simp only [hstate] at h
    rcases hrest : registerBranches limit known'' branches with e | r
    · rw [hrest] at h
      contradiction
    · rw [hrest] at h
      obtain ⟨rfl, rfl⟩ := Prod.mk.inj (Except.ok.inj h)
      exact ⟨known'', n, r.2, rfl, hrest, rfl⟩

theorem mem_of_registerBranches {branches : List (Term S × S)} {numbered : List (Nat × S)}
    (h : registerBranches limit known branches = .ok (known', numbered)) {u : Term S}
    (hu : u ∈ known'.items) : u ∈ known.items ∨ ∃ b ∈ branches, u = b.1 := by
  induction branches generalizing known numbered with
  | nil =>
    obtain ⟨rfl, -⟩ := Prod.mk.inj (Except.ok.inj h)
    exact .inl hu
  | cons b branches ih =>
    obtain ⟨known'', n, rest, hstate, hrest, -⟩ := registerBranches_cons_eq_ok h
    rcases ih hrest with hu | ⟨c, hc, hu⟩
    · exact (mem_of_registerState hstate hu).imp id fun hu => ⟨b, List.mem_cons_self .., hu⟩
    · exact .inr ⟨c, List.mem_cons_of_mem b hc, hu⟩

variable [SetAlgebra S] [Membership E S] [LawfulSetAlgebra S E] [Ord S]

theorem explore?_isSome {sets : List S} {n fuel : Nat} {p : Partition S}
    {finished : Array (State S)} (hK : Closed E K)
    (hsets : ∀ t ∈ K, ∀ a ∈ t.metLiterals, a ∈ sets) (hp : Affordable E sets n p)
    (hknown : ∀ t ∈ known.items, t ∈ K)
    (hfuel : hK.finite.toFinset.card - finished.size + n < fuel) :
    (explore? limit fuel p known finished).isSome = true := by
  induction fuel generalizing p known finished with
  | zero => omega
  | succ fuel ih =>
    rw [explore?]
    rcases ht : known.items[finished.size]? with _ | t
    · rfl
    · have htK : t ∈ K := hknown t (Array.mem_of_getElem? ht)
      -- The state that is looked at is one of the distinct terms.
      have hsize : finished.size < known.items.size := (Array.getElem?_eq_some_iff.mp ht).1
      have hcard : known.items.size ≤ hK.finite.toFinset.card :=
        Numbering.size_le_card fun u hu => hK.finite.mem_toFinset.mpr (hknown u hu)
      obtain ⟨q, branches, hbranches, hq, hmem⟩ :=
        Term.branches?_spec hp (hsets t htK) (show n ≤ fuel by omega)
      dsimp only
      rw [hbranches]
      dsimp only
      rcases hregister : registerBranches limit known branches with e | ⟨known', numbered⟩
      · rfl
      · refine ih hq (fun u hu => ?_) ?_
        · rcases mem_of_registerBranches hregister hu with hu | ⟨b, hb, rfl⟩
          · exact hknown u hu
          · obtain ⟨e, he⟩ := hmem b hb
            rw [he]
            exact hK.derivative t htK e
        · rw [Array.size_push]
          omega

theorem ofTerm?_isSome {sets : List S} {n fuel : Nat} (hK : Closed E K)
    (hsets : ∀ t ∈ K, ∀ a ∈ t.metLiterals, a ∈ sets) (hp : Affordable E sets n .trivial)
    (hfuel : hK.finite.toFinset.card + n < fuel) {t : Term S} (ht : t ∈ K) :
    (ofTerm? fuel limit t).isSome = true := by
  rw [ofTerm?]
  rcases hstate : registerState limit .empty t with e | ⟨known, m⟩
  · rfl
  · refine explore?_isSome hK hsets hp (fun u hu => ?_) ?_
    · rcases mem_of_registerState hstate hu with hu | rfl
      · exact absurd hu (Array.not_mem_empty u)
      · exact ht
    · rw [Array.size_empty]
      omega

end Automaton

/-! ### All explorations -/

namespace Term

variable {S : Type u} [SetAlgebra S] [Ord S] [DecidableEq S]

/-- What is left of a term after any number of derivatives by blocks that are not empty. -/
inductive Derives (t : Term S) : Term S → Prop where
  | refl : Derives t t
  | step {d d' : Term S} {block : S} (h : Derives t d) (inhabited : SetAlgebra.isEmpty block = false)
      (derivative : d.derivative block = .ok d') : Derives t d'

variable {E : Type v} [Membership E S] {a b : Term S}

theorem Closed.of_derives [LawfulSetAlgebra S E] {K : Set (Term S)} (hK : Closed E K) {t d : Term S}
    (ht : t ∈ K) (h : Derives t d) : d ∈ K := by
  induction h with
  | refl => exact ht
  | step h inhabited derivative ih =>
    obtain ⟨e, he⟩ := (SetAlgebra.isEmpty_eq_false_iff (E := E)).mp inhabited
    rw [eq_derivativeAt_of_derivative he derivative]
    exact hK.derivative _ ih e

variable [Std.TransOrd S] [Std.LawfulEqOrd S] [Hashable S]

/-- A built term derives finitely many terms, and so every exploration of built terms comes to an
end. -/
theorem finite_derives [LawfulSetAlgebra S E] (ha : Built a) (hb : Built b) :
    {d | Derives a d}.Finite ∧ ∃ bound, ∀ fuel ≥ bound,
      (matchesNothing? fuel a).isSome = true ∧ (equivalent? fuel a b).isSome = true ∧
      (includes? fuel a b).isSome = true ∧ (meets? fuel a b).isSome = true ∧
      (∀ count, (symbolsAt? fuel count a).isSome = true) ∧
      (firstSymbols? fuel a).isSome = true ∧
      ∀ limit, (Automaton.ofTerm? fuel limit a).isSome = true := by
  obtain ⟨K, hK, haK, hbK⟩ := exists_closed_pair (E := E) ha.canonical hb.canonical
  -- Two terms meet if their intersection matches something, which has derivatives of its own.
  have hallOf : Built (allOf [a, b]) := .allOf (by simp [ha, hb])
  obtain ⟨L, hL, hmeet⟩ := (hallOf.canonical (E := E)).exists_closed (E := E)
  obtain ⟨empty, hempty⟩ := matchesNothing?_isSome hK
  obtain ⟨equivalent, hequivalent⟩ := holds?_pair_isSome (E := E) equivalenceQuestion_stepsBy hK haK hbK
  obtain ⟨includes, hincludes⟩ := holds?_pair_isSome (E := E) inclusionQuestion_stepsBy hK haK hbK
  obtain ⟨meets, hmeets⟩ := matchesNothing?_isSome hL
  obtain ⟨sets, n, hsets, htrivial⟩ := hK.exists_affordable
  refine ⟨hK.finite.subset fun d hd => hK.of_derives haK hd,
    empty + equivalent + includes + meets + hK.finite.toFinset.card + n + 1, fun fuel hfuel => ?_⟩
  have hsymbols : ∀ count, (symbolsAt? fuel count a).isSome = true := fun count =>
    symbolsFrom?_isSome hK hsets (hempty fuel (by omega)) htrivial (by omega)
      (fun t ht => List.mem_singleton.mp ht ▸ haK) count _
  refine ⟨hempty fuel (by omega) a haK, hequivalent fuel (by omega), hincludes fuel (by omega), ?_,
    hsymbols, ?_, fun limit => ?_⟩
  · rw [meets?, Option.isSome_map]
    exact hmeets fuel (by omega) _ hmeet
  · rw [firstSymbols?, Option.isSome_map]
    exact hsymbols 1
  · exact Automaton.ofTerm?_isSome hK hsets htrivial (by omega) haK

/-- A term with a complement and a star in an intersection. -/
theorem finite_derives_allOf :
    Built (allOf [closure (ofSet (⟨3#8⟩ : Mask)), complement (ofSet ⟨1#8⟩)]) ∧
    Built (plus (ofSet (⟨5#8⟩ : Mask))) ∧
    {d | Derives (allOf [closure (ofSet (⟨3#8⟩ : Mask)), complement (ofSet ⟨1#8⟩)]) d}.Finite ∧
    ∃ bound, ∀ fuel ≥ bound, (meets? fuel (allOf [closure (ofSet (⟨3#8⟩ : Mask)),
      complement (ofSet ⟨1#8⟩)]) (plus (ofSet ⟨5#8⟩))).isSome = true := by
  have hmeet : Built (allOf [closure (ofSet (⟨3#8⟩ : Mask)), complement (ofSet ⟨1#8⟩)]) :=
    .allOf (by simp [Built.closure, Built.complement, Built.ofSet])
  have hplus : Built (plus (ofSet (⟨5#8⟩ : Mask))) := .plus (.ofSet _)
  obtain ⟨hfinite, bound, h⟩ := finite_derives (E := Fin 8) hmeet hplus
  exact ⟨hmeet, hplus, hfinite, bound, fun fuel hfuel => (h fuel hfuel).2.2.2.1⟩

end Term

end ExtendedRegex
