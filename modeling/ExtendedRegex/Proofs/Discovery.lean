/-
The states of an automaton are the derivatives of its term, each found once and in turn.

* `Discovered`: every number but the first is the target of an earlier state, and no label is
  without symbols;
* `Discovered.push`: one more finished state accounts for all numbers that it gives away;
* `Follows.exists_term_eq_iff`: the terms of the states are the derivatives by words that are not
  `empty`, and the term itself;
* `derivativeGraph_of_ofTerm?`: states, transitions and labels are all as `DerivativeGraph` says.

Design notes: a number is given away while a state is looked at, and a transition of that very state
goes to it.  So the state that a number came from is always one of the finished states, and it has
a smaller number because finished states were numbered before.  Being a derivative needs no
invariant of its own: it follows from the transitions by induction on the number.
-/
import ExtendedRegex.Proofs.Automaton

universe u v

namespace ExtendedRegex.Automaton

variable {S : Type u} {E : Type v} [SetAlgebra S] [Membership E S]

/-! ### Where numbers come from -/

section Numbers

/-- Each of the first `size` numbers but 0 is the target of a finished state with a smaller number,
and every label of a finished state has a symbol. -/
structure Discovered (E : Type v) [Membership E S] (size : Nat) (finished : Array (State S)) :
    Prop where
  source : ∀ n, 0 < n → n < size → ∃ (m : Nat) (s : State S), m < n ∧ finished[m]? = some s ∧
    ∃ e : E, Leads s.transitions e n
  inhabited : ∀ s ∈ finished, ∀ tr ∈ s.transitions, ∃ e : E, e ∈ tr.2

/-- Joining labels leaves none without symbols. -/
theorem inhabited_ofBranches [LawfulSetAlgebra S E] {bs : List (Nat × S)}
    (h : ∀ b ∈ bs, ∃ e : E, e ∈ b.2) : ∀ b ∈ ofBranches bs, ∃ e : E, e ∈ b.2 := by
  refine forall_mem_ofBranches (P := fun label => ∃ e : E, e ∈ label) (fun a b ha _ => ?_) h
  obtain ⟨e, he⟩ := ha
  exact ⟨e, LawfulSetAlgebra.mem_union.mpr (.inl he)⟩

variable [Ord S] [DecidableEq S] [Hashable S] [LawfulSetAlgebra S E] [Std.TransOrd S]
  [Std.LawfulEqOrd S] {known known' : Numbering (Term S)} {finished : Array (State S)}
  {limit : Option Nat} {fuel : Nat} {p q : Partition S} {t : Term S}
  {branches : List (Term S × S)} {numbered : List (Nat × S)} {a : Automaton S}

/-- One more state is finished, and it is where all new numbers come from. -/
theorem Discovered.push (h : Discovered E known.items.size finished) (htc : t.Canonical)
    (hp : Partition.Proper E p) (hsize : finished.size < known.items.size)
    (hbranches : t.branches? fuel p = some (q, branches))
    (hregister : registerBranches limit known branches = .ok (known', numbered)) :
    Discovered E known'.items.size (finished.push ⟨t, ofBranches numbered⟩) := by
  obtain ⟨-, hderivative, -⟩ := Term.of_branches?_eq_some htc hp hbranches
  obtain ⟨hextends, -, hmem⟩ := registerBranches_spec hregister
  refine ⟨fun n hn hlt => ?_, fun s hs => ?_⟩
  · by_cases hold : n < known.items.size
    · obtain ⟨m, s, hmn, hs, hleads⟩ := h.source n hn hold
      have hm : m < finished.size := (Array.getElem?_eq_some_iff.mp hs).1
      refine ⟨m, s, hmn, ?_, hleads⟩
      rw [Array.getElem?_push, if_neg (Nat.ne_of_lt hm)]
      exact hs
    · -- The number is new, so that it belongs to the term of a branch.
      have hitem : known'.items[n]? = some known'.items[n] := Array.getElem?_eq_getElem hlt
      have hnew : ∃ b ∈ branches, known'.items[n] = b.1 := by
        refine (mem_of_registerBranches hregister (Array.getElem_mem hlt)).resolve_left fun hmem => ?_
        obtain ⟨m, hm, heq⟩ := Array.getElem_of_mem hmem
        have hm' := hextends m _ (heq ▸ Array.getElem?_eq_getElem hm)
        exact hold (Numbering.eq_of_getElem? hm' hitem ▸ hm)
      obtain ⟨⟨d, block⟩, hb, hd⟩ := hnew
      have hd : known'.items[n]? = some d := hitem.trans (congrArg some hd)
      obtain ⟨⟨e, he⟩, -⟩ := hderivative _ hb
      refine ⟨finished.size, _, by omega, Array.getElem?_push_size, e, leads_ofBranches.mpr ?_⟩
      exact ⟨block, (hmem n block).mpr ⟨d, hb, hd⟩, he⟩
  · rcases Array.mem_push.mp hs with hs | rfl
    · exact h.inhabited s hs
    · refine inhabited_ofBranches fun b hb => ?_
      obtain ⟨d, hd, -⟩ := (hmem b.1 b.2).mp hb
      exact (hderivative _ hd).1

/-- When an exploration ends, every state was discovered from an earlier one. -/
theorem discovered_of_explore? (h : explore? limit fuel p known finished = some (.ok a))
    (hp : Partition.Proper E p) (hexplored : Explored E known finished)
    (hdiscovered : Discovered E known.items.size finished) :
    Discovered E a.states.size a.states := by
  obtain ⟨-, known', ⟨-, hexplored', hdiscovered'⟩, hsize⟩ := explore?_invariant
    (I := fun p known finished => Partition.Proper E p ∧ Explored E known finished ∧
      Discovered E known.items.size finished)
    (fun ⟨hp, hexplored, hdiscovered⟩ ht hbranches hregister =>
      have htc := hexplored.canonical _ (Array.mem_of_getElem? ht)
      have hlt := (Array.getElem?_eq_some_iff.mp ht).1
      ⟨(Term.of_branches?_eq_some htc hp hbranches).1, hexplored.push hp ht hbranches hregister,
        hdiscovered.push htc hp hlt hbranches hregister⟩)
    ⟨hp, hexplored, hdiscovered⟩ h
  have hterms := hexplored'.map_term hsize
  rwa [← hterms, Array.size_map] at hdiscovered'

theorem discovered_of_ofTerm? (ht : t.Canonical) (h : ofTerm? fuel limit t = some (.ok a)) :
    Discovered E a.states.size a.states := by
  obtain ⟨known, hitems, hexplored, hexplore⟩ := exists_explored (E := E) ht h
  refine discovered_of_explore? hexplore Partition.proper_trivial hexplored ⟨?_, ?_⟩
  · intro n hn hlt
    rw [hitems, List.size_toArray, List.length_singleton] at hlt
    omega
  · exact fun s hs => absurd hs (Array.not_mem_empty s)

end Numbers

/-! ### States and derivatives -/

section Graph

variable {single : E → S} {a : Automaton S} {s s' : State S} {t d : Term S} {m n : Nat}

theorem mem_of_runFrom? {word : List S} (h : a.runFrom? n word = some s) : s ∈ a.states := by
  induction word generalizing n with
  | nil => exact Array.mem_of_getElem? h
  | cons block word ih =>
    obtain ⟨s', -, h⟩ := Option.bind_eq_some_iff.mp h
    obtain ⟨m, -, h⟩ := Option.bind_eq_some_iff.mp h
    exact ih h

variable [Ord S] [DecidableEq S]

/-- The term of a state behind the start is a derivative of that of an earlier state. -/
theorem Follows.exists_source (h : a.Follows E t)
    (hdiscovered : Discovered E a.states.size a.states) (hs : a.states[n]? = some s)
    (hpos : 0 < n) :
    ∃ (m : Nat) (s' : State S) (e : E), m < n ∧ a.states[m]? = some s' ∧
      s.term = s'.term.derivativeAt e ∧ s.term ≠ .empty := by
  have hn : n < a.states.size := (Array.getElem?_eq_some_iff.mp hs).1
  obtain ⟨m, s', hmn, hs', e, hleads⟩ := hdiscovered.source n hpos hn
  have hs'mem := Array.mem_of_getElem? hs'
  obtain ⟨s'', hs'', hterm⟩ := h.exists_target hs'mem hleads
  obtain rfl := Option.some.inj (hs''.symm.trans hs)
  refine ⟨m, s', e, hmn, hs', hterm, ?_⟩
  rw [hterm]
  exact ((h.faithful s' hs'mem).live e).mp ⟨n, hleads⟩

/-- The term of a state is a derivative of the start, and behind the start it is not `empty`. -/
theorem Follows.exists_derivativeAlong (h : a.Follows E t)
    (hdiscovered : Discovered E a.states.size a.states) (hs : a.states[n]? = some s) :
    ∃ w : List E, s.term = t.derivativeAlong w ∧ (0 < n → s.term ≠ .empty) := by
  induction n using Nat.strong_induction_on generalizing s with
  | _ n ih =>
    cases Nat.eq_zero_or_pos n with
    | inl hzero =>
      subst hzero
      exact ⟨[], h.term_eq hs, fun h => absurd h (Nat.lt_irrefl 0)⟩
    | inr hpos =>
      obtain ⟨m, s', e, hmn, hs', hterm, hne⟩ := h.exists_source hdiscovered hs hpos
      obtain ⟨w, hw, -⟩ := ih m hmn hs'
      refine ⟨w ++ [e], ?_, fun _ => hne⟩
      rw [hterm, hw, Term.derivativeAlong, Term.derivativeAlong, List.foldl_append]
      rfl

variable [LawfulSetAlgebra S E]

/-- The terms of the states are those that are left behind the words, `empty` apart. -/
theorem Follows.exists_term_eq_iff (h : a.Follows E t)
    (hdiscovered : Discovered E a.states.size a.states)
    (hsingle : ∀ e f : E, f ∈ single e ↔ f = e) :
    (∃ s ∈ a.states, s.term = d) ↔
      d = t ∨ d ≠ .empty ∧ ∃ w : List E, t.derivativeWord (w.map single) = .ok d := by
  obtain ⟨start, hstart, hterm⟩ := h.start
  constructor
  · rintro ⟨s, hs, rfl⟩
    obtain ⟨n, hn, rfl⟩ := Array.getElem_of_mem hs
    obtain ⟨w, hw, hne⟩ := h.exists_derivativeAlong hdiscovered (Array.getElem?_eq_getElem hn)
    cases Nat.eq_zero_or_pos n with
    | inl hzero =>
      subst hzero
      exact .inl (h.term_eq (Array.getElem?_eq_getElem hn))
    | inr hpos => exact .inr ⟨hne hpos, w, hw ▸ Term.derivativeWord_single hsingle t⟩
  · rintro (rfl | ⟨hne, w, hw⟩)
    · exact ⟨start, Array.mem_of_getElem? hstart, hterm⟩
    · -- The word is read to its end, since no derivative on the way can be `empty`.
      rw [Term.derivativeWord_single hsingle] at hw
      obtain rfl := Except.ok.inj hw
      obtain ⟨hnone, hsome⟩ := h.runFrom?_spec hsingle hstart w
      rw [hterm] at hnone hsome
      cases hrun : a.runFrom? 0 (w.map single) with
      | none => exact absurd (hnone.mp hrun).1 hne
      | some s => exact ⟨s, mem_of_runFrom? hrun, hsome s hrun⟩

/-- Two transitions share no symbol, since it would lead to two states of one term. -/
theorem Follows.disjoint_labels (h : a.Follows E t)
    (hdistinct : ∀ {m n : Nat} {s s' : State S}, a.states[m]? = some s → a.states[n]? = some s' →
      s.term = s'.term → m = n) (hs : s ∈ a.states) :
    s.transitions.Pairwise fun tr tr' => SetAlgebra.isEmpty (tr.2 ∩ tr'.2) = true := by
  refine (h.faithful s hs).increasing.imp_of_mem fun {tr tr'} htr htr' hlt => ?_
  refine LawfulSetAlgebra.isEmpty_iff.mpr fun e he => ?_
  obtain ⟨he, he'⟩ := LawfulSetAlgebra.mem_inter.mp he
  obtain ⟨u, hu, hterm⟩ := h.exists_target hs ⟨tr.2, htr, he⟩
  obtain ⟨u', hu', hterm'⟩ := h.exists_target hs ⟨tr'.2, htr', he'⟩
  exact Nat.ne_of_lt hlt (hdistinct hu hu' (hterm.trans hterm'.symm))

/-- A symbol has no transition just if nothing is left behind it. -/
theorem Follows.no_label_iff (h : a.Follows E t) (hsingle : ∀ e f : E, f ∈ single e ↔ f = e)
    (hs : s ∈ a.states) (e : E) :
    (∀ tr ∈ s.transitions, e ∉ tr.2) ↔ s.term.derivative (single e) = .ok .empty := by
  have hlive := (h.faithful s hs).live e
  rw [Term.derivative_single hsingle, Except.ok.injEq]
  constructor
  · intro hnone
    by_contra hne
    obtain ⟨n, label, hmem, he⟩ := hlive.mpr hne
    exact hnone _ hmem he
  · intro hempty tr htr he
    exact hlive.mp ⟨tr.1, tr.2, htr, he⟩ hempty

/-- The graph of a term and its derivatives by single symbols, with the derivatives that are
`empty` left out. -/
structure DerivativeGraph (single : E → S) (t : Term S) (a : Automaton S) : Prop where
  start : ∃ s, a.states[0]? = some s ∧ s.term = t
  distinct : ∀ (m n : Nat) (s s' : State S), a.states[m]? = some s → a.states[n]? = some s' →
    s.term = s'.term → m = n
  /-- The other states are for the derivatives by words that are not `empty`. -/
  terms : ∀ d, (∃ s ∈ a.states, s.term = d) ↔
    d = t ∨ d ≠ .empty ∧ ∃ w : List E, t.derivativeWord (w.map single) = .ok d
  /-- Every state but the start is the target of an earlier one. -/
  source : ∀ n, 0 < n → n < a.states.size → ∃ (m : Nat) (s : State S) (label : S),
    m < n ∧ a.states[m]? = some s ∧ (n, label) ∈ s.transitions
  target : ∀ s ∈ a.states, ∀ tr ∈ s.transitions, tr.1 < a.states.size
  inhabited : ∀ s ∈ a.states, ∀ tr ∈ s.transitions, SetAlgebra.isEmpty tr.2 = false
  disjoint : ∀ s ∈ a.states,
    s.transitions.Pairwise fun tr tr' => SetAlgebra.isEmpty (tr.2 ∩ tr'.2) = true
  /-- A symbol has no transition just if nothing is left behind it. -/
  dead : ∀ s ∈ a.states, ∀ e : E,
    (∀ tr ∈ s.transitions, e ∉ tr.2) ↔ s.term.derivative (single e) = .ok .empty

variable [Std.TransOrd S] [Std.LawfulEqOrd S] [Hashable S]

/-- No term has two states. -/
theorem eq_of_term_eq {fuel : Nat} {limit : Option Nat} (E : Type v) [Membership E S]
    [LawfulSetAlgebra S E] (ht : t.Canonical) (h : ofTerm? fuel limit t = some (.ok a))
    (hs : a.states[m]? = some s) (hs' : a.states[n]? = some s') (hterm : s.term = s'.term) :
    m = n := by
  obtain ⟨known, -, hexplored, hexplore⟩ := exists_explored (E := E) ht h
  obtain ⟨known', -, hexplored', -⟩ := explore?_spec hexplore Partition.proper_trivial hexplored
  have hm := hexplored'.numbered m s hs
  rw [hterm] at hm
  exact Numbering.eq_of_getElem? hm (hexplored'.numbered n s' hs')

/-- Without a limit there is an automaton, and whatever the limit, it is the graph of the term and
its derivatives. -/
theorem derivativeGraph_of_ofTerm? (ht : t.Built) (hsingle : ∀ e f : E, f ∈ single e ↔ f = e) :
    (∃ bound, ∀ fuel ≥ bound, ∃ a, ofTerm? fuel none t = some (.ok a)) ∧
    ∀ fuel limit a, ofTerm? fuel limit t = some (.ok a) → DerivativeGraph single t a := by
  have hcanonical := ht.canonical (E := E)
  refine ⟨exists_bound_ofTerm? E hcanonical, fun fuel limit a h => ?_⟩
  have hfollows : a.Follows E t := follows_of_ofTerm? hcanonical h
  have hdiscovered : Discovered E a.states.size a.states := discovered_of_ofTerm? hcanonical h
  exact {
    start := hfollows.start
    distinct := fun m n s s' => eq_of_term_eq E hcanonical h
    terms := fun d => hfollows.exists_term_eq_iff hdiscovered hsingle
    source := fun n hpos hn => by
      obtain ⟨m, s, hmn, hs, e, label, hmem, -⟩ := hdiscovered.source n hpos hn
      exact ⟨m, s, label, hmn, hs, hmem⟩
    target := fun s hs tr htr => by
      have hlt := (hfollows.faithful s hs).target_lt tr htr
      rwa [Array.size_map] at hlt
    inhabited := fun s hs tr htr =>
      SetAlgebra.isEmpty_eq_false_iff.mpr (hdiscovered.inhabited s hs tr htr)
    disjoint := fun s hs => hfollows.disjoint_labels (eq_of_term_eq E hcanonical h) hs
    dead := fun s hs => hfollows.no_label_iff hsingle hs }

/-- A term that is not plain, with a state for what is left behind a symbol. -/
theorem derivativeGraph_of_ofTerm?_complement :
    Term.Built (.complement (.ofSet (⟨3#8⟩ : Mask))) ∧
    (∀ i j : Fin 8, j ∈ Mask.single i ↔ j = i) ∧
    ∃ bound, ∀ fuel ≥ bound, ∃ a, ofTerm? fuel none (.complement (.ofSet (⟨3#8⟩ : Mask))) =
        some (.ok a) ∧
      DerivativeGraph Mask.single (.complement (.ofSet (⟨3#8⟩ : Mask))) a ∧
      ∃ s ∈ a.states, s.term = .complement .eps := by
  have ht : Term.Built (.complement (.ofSet (⟨3#8⟩ : Mask))) := (Term.Built.ofSet _).complement
  have hsingle : ∀ i j : Fin 8, j ∈ Mask.single i ↔ j = i := fun _ _ => Mask.mem_single
  obtain ⟨⟨bound, hbound⟩, hgraph⟩ := derivativeGraph_of_ofTerm? ht hsingle
  have hword : (Term.complement (.ofSet (⟨3#8⟩ : Mask))).derivativeWord ([0].map Mask.single) =
      .ok (.complement .eps) := by
    have hsymbol : (0 : Fin 8) ∈ (⟨3#8⟩ : Mask) := rfl
    have hcanonical : (Term.complement (S := Mask) .eps).Canonical :=
      Term.canonical_complement .eps
    rw [Term.derivativeWord_single hsingle, Term.derivativeAlong_cons]
    show Except.ok ((Term.compl (.literal (⟨3#8⟩ : Mask))).derivativeAt (0 : Fin 8)) = _
    rw [Term.derivativeAt, Term.derivativeAt, if_pos hsymbol,
      hcanonical.prune_eq_self (E := Fin 8)]
  have halive : Term.complement (S := Mask) .eps ≠ .empty := by
    simp [Term.complement_eps (E := Fin 8)]
  refine ⟨ht, hsingle, bound, fun fuel hfuel => ?_⟩
  obtain ⟨a, ha⟩ := hbound fuel hfuel
  have ha' := hgraph fuel none a ha
  exact ⟨a, ha, ha', (ha'.terms _).mpr (.inr ⟨halive, [0], hword⟩)⟩

end Graph

end ExtendedRegex.Automaton
