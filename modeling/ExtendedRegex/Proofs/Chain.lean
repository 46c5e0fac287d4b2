/-
The automaton of a word of sets is a chain, and its equations give the word back.

* `derivativeAt_word_cons`: a word of sets loses its first set by the symbols of that set, and
  nothing is left by any other symbol;
* `Chain`: one state more than sets, each with a single transition to the next;
* `chain_of_ofTerm?`: the automaton of a word of sets is a chain;
* `eliminate_inRow`, `solve_inRow`: eliminating the last unknown puts one more set in front of what
  was solved;
* `chain_of_word`: both ways together.

Design notes: what is left behind a state is a shorter word of sets, so that no two states have the
same term, even if a set comes twice.  Which symbols lead to the next state is known without looking
at the blocks of the partition, and a label is the set with these symbols.
-/
import ExtendedRegex.Mask
import ExtendedRegex.Proofs.Associativity
import ExtendedRegex.Proofs.Discovery
import ExtendedRegex.Proofs.NormalForm
import ExtendedRegex.Proofs.Partials

universe u v

namespace ExtendedRegex

/-! ### Words of sets -/

namespace Term

variable {S : Type u} [SetAlgebra S] {a : S} {sets sets' : List S}

@[simp] theorem word_nil : word ([] : List S) = eps := rfl

theorem map_ofSet_eq_map_literal (h : ∀ a ∈ sets, SetAlgebra.isEmpty a = false) :
    sets.map ofSet = sets.map literal :=
  List.map_congr_left fun a ha => if_neg (Bool.eq_false_iff.mp (h a ha))

variable [Ord S] [DecidableEq S]

theorem flat_map_literal (h : ∀ a ∈ sets, SetAlgebra.isEmpty a = false) :
    Flat (sets.map literal) :=
  List.forall_mem_map.mpr fun a ha => ⟨.literal (h a ha), by simp⟩

theorem word_eq_ofFactors (h : ∀ a ∈ sets, SetAlgebra.isEmpty a = false) :
    word sets = ofFactors (sets.map literal) := by
  have hflat : (sets.map literal).flatMap factors = sets.map literal :=
    flatMap_eq_self (List.forall_mem_map.mpr fun _ _ => rfl)
  rw [word, map_ofSet_eq_map_literal h, concat_of_empty_not_mem, hflat]
  rw [hflat]
  exact fun hempty => (flat_map_literal h _ hempty).2.2.1 rfl

theorem factors_word (h : ∀ a ∈ sets, SetAlgebra.isEmpty a = false) :
    (word sets).factors = sets.map literal := by
  rw [word_eq_ofFactors h, (flat_map_literal h).factors_ofFactors]

/-- Words of sets of different lengths differ. -/
theorem length_eq_of_word_eq (h : ∀ a ∈ sets, SetAlgebra.isEmpty a = false)
    (h' : ∀ a ∈ sets', SetAlgebra.isEmpty a = false) (heq : word sets = word sets') :
    sets.length = sets'.length := by
  have hfactors := congrArg factors heq
  rw [factors_word h, factors_word h'] at hfactors
  simpa using congrArg List.length hfactors

theorem word_ne_empty (h : ∀ a ∈ sets, SetAlgebra.isEmpty a = false) : word sets ≠ empty := by
  intro hempty
  have hfactors : sets.map literal = [empty] := by
    rw [← factors_word h, hempty]
    rfl
  exact (flat_map_literal h empty (by simp [hfactors])).2.2.1 rfl

theorem nullable_word (h : ∀ a ∈ sets, SetAlgebra.isEmpty a = false) :
    (word sets).nullable = sets.isEmpty := by
  rw [← all_nullable_factors, factors_word h]
  cases sets <;> simp

variable {E : Type v} [Membership E S] [LawfulSetAlgebra S E] [Std.TransOrd S] [Std.LawfulEqOrd S]

open Classical in
/-- The first set is read, or there is nothing left. -/
theorem derivativeAt_word_cons (h : ∀ b ∈ a :: sets, SetAlgebra.isEmpty b = false) (e : E) :
    (word (a :: sets)).derivativeAt e = if e ∈ a then word sets else empty := by
  have hsets := (List.forall_mem_cons.mp h).2
  have hcanonical : ∀ sets : List S, Canonical (word sets) := fun sets =>
    (Built.word sets).canonical (E := E)
  rw [derivativeAt_eq_oneOf_partials (hcanonical _), partials, factors_word h, List.map_cons,
    derivativeAtSeq, if_neg (by simp), derivativeAt]
  -- The literals behind the first one are what is left of the sequence.
  have hbefore : before eps (sets.map literal) = word sets := (word_eq_ofFactors hsets).symm
  split
  · rw [hbefore, (hcanonical sets).oneOf_singleton (E := E)]
  · exact Canonical.empty.oneOf_singleton (E := E)

open Classical in
theorem derivativeAt_word_drop (h : ∀ b ∈ sets, SetAlgebra.isEmpty b = false) (n : Nat) (e : E) :
    (word (sets.drop n)).derivativeAt e =
      if ∃ set ∈ sets[n]?, e ∈ set then word (sets.drop (n + 1)) else empty := by
  by_cases hn : n < sets.length
  · have hcons : ∀ b ∈ sets[n] :: sets.drop (n + 1), SetAlgebra.isEmpty b = false := by
      rw [← List.drop_eq_getElem_cons hn]
      exact fun b hb => h b (List.mem_of_mem_drop hb)
    rw [List.drop_eq_getElem_cons hn, derivativeAt_word_cons hcons, List.getElem?_eq_getElem hn]
    simp
  · rw [List.drop_eq_nil_of_le (Nat.le_of_not_lt hn), if_neg]
    · rfl
    · rw [List.getElem?_eq_none (Nat.le_of_not_lt hn)]
      rintro ⟨set, hset, -⟩
      exact Option.not_mem_none set hset

end Term

/-! ### States in a row -/

namespace Automaton

variable {S : Type u} {E : Type v} [SetAlgebra S] {a : Automaton S} {s : State S} {t : Term S}
  {sets : List S} {set : S} {m n : Nat}

/-- A state for each set, with a single transition to the next state whose label is the set, and one
more state at the end, which alone accepts. -/
structure Chain (sets : List S) (a : Automaton S) : Prop where
  size : a.states.size = sets.length + 1
  term : ∀ (n : Nat) (s : State S), a.states[n]? = some s → s.term = .word (sets.drop n)
  transition : ∀ (n : Nat) (s : State S) (set : S), a.states[n]? = some s → sets[n]? = some set →
    s.transitions = [(n + 1, set)]
  last : ∀ s, a.states[sets.length]? = some s → s.transitions = []
  accepting : ∀ (n : Nat) (s : State S), a.states[n]? = some s →
    (s.accepting = true ↔ n = sets.length)

variable [Membership E S] [LawfulSetAlgebra S E]

/-- Transitions are determined by where symbols lead, if it is to one number only. -/
theorem eq_singleton_of_leads {ts : List (Nat × S)} (hset : ∃ e : E, e ∈ set)
    (hincreasing : ts.Pairwise fun tr tr' => tr.1 < tr'.1)
    (hinhabited : ∀ tr ∈ ts, ∃ e : E, e ∈ tr.2)
    (hleads : ∀ (e : E) (m : Nat), Leads ts e m ↔ m = n ∧ e ∈ set) : ts = [(n, set)] := by
  have htarget : ∀ tr ∈ ts, tr.1 = n := by
    intro tr htr
    obtain ⟨e, he⟩ := hinhabited tr htr
    exact ((hleads e tr.1).mp ⟨tr.2, htr, he⟩).1
  match ts with
  | [] =>
    obtain ⟨e, he⟩ := hset
    exact absurd ((hleads e n).mpr ⟨rfl, he⟩) leads_nil
  | [tr] =>
    obtain ⟨m, label⟩ := tr
    obtain rfl : m = n := htarget _ (List.mem_singleton_self _)
    obtain rfl : label = set := LawfulSetAlgebra.ext fun e : E => by simpa using hleads e m
    rfl
  | tr :: tr' :: ts =>
    -- Two transitions would go to different numbers.
    have hlt := (List.pairwise_cons.mp hincreasing).1 tr' (List.mem_cons_self ..)
    rw [htarget tr (by simp), htarget tr' (by simp)] at hlt
    exact absurd hlt (Nat.lt_irrefl n)

variable [Ord S] [DecidableEq S] [Std.TransOrd S] [Std.LawfulEqOrd S]

/-- The states in the order of their numbers have ever shorter words of sets. -/
theorem Follows.term_eq_word_drop (h : a.Follows E (.word sets))
    (hsets : ∀ b ∈ sets, SetAlgebra.isEmpty b = false)
    (hdiscovered : Discovered E a.states.size a.states)
    (hdistinct : ∀ {m n : Nat} {s s' : State S}, a.states[m]? = some s → a.states[n]? = some s' →
      s.term = s'.term → m = n)
    (hs : a.states[n]? = some s) : n ≤ sets.length ∧ s.term = .word (sets.drop n) := by
  induction n using Nat.strong_induction_on generalizing s with
  | _ n ih =>
    cases Nat.eq_zero_or_pos n with
    | inl hzero =>
      subst hzero
      exact ⟨Nat.zero_le _, h.term_eq hs⟩
    | inr hpos =>
      obtain ⟨m, s', e, hmn, hs', hterm, hne⟩ := h.exists_source hdiscovered hs hpos
      obtain ⟨hm, hterm'⟩ := ih m hmn hs'
      rw [hterm', Term.derivativeAt_word_drop hsets] at hterm
      by_cases hreads : ∃ set ∈ sets[m]?, e ∈ set
      · rw [if_pos hreads] at hterm
        obtain ⟨set, hset, -⟩ := hreads
        have hlt : m < sets.length := (List.getElem?_eq_some_iff.mp hset).1
        -- If the next number was another one, its state would have the same term.
        have hnext : m + 1 = n := by
          by_contra hother
          have hn : n < a.states.size := (Array.getElem?_eq_some_iff.mp hs).1
          have hlt' : m + 1 < a.states.size := by omega
          have hnext : a.states[m + 1]? = some a.states[m + 1] := Array.getElem?_eq_getElem hlt'
          obtain ⟨-, hterm'⟩ := ih (m + 1) (by omega) hnext
          exact hother (hdistinct hnext hs (hterm'.trans hterm.symm))
        subst hnext
        exact ⟨hlt, hterm⟩
      · rw [if_neg hreads] at hterm
        exact absurd hterm hne

/-- The symbols of the set lead to the next state, and no other symbol leads anywhere. -/
theorem Follows.leads_iff_of_word (h : a.Follows E (.word sets))
    (hsets : ∀ b ∈ sets, SetAlgebra.isEmpty b = false)
    (hterms : ∀ {n : Nat} {s : State S}, a.states[n]? = some s →
      n ≤ sets.length ∧ s.term = .word (sets.drop n))
    (hs : a.states[n]? = some s) (e : E) (m : Nat) :
    Leads s.transitions e m ↔ m = n + 1 ∧ ∃ set ∈ sets[n]?, e ∈ set := by
  have hdrop : ∀ n, ∀ b ∈ sets.drop n, SetAlgebra.isEmpty b = false := fun n b hb =>
    hsets b (List.mem_of_mem_drop hb)
  have hmem : s ∈ a.states := Array.mem_of_getElem? hs
  have hderivative := Term.derivativeAt_word_drop hsets n e
  rw [← (hterms hs).2] at hderivative
  have hreads : (∃ m, Leads s.transitions e m) ↔ ∃ set ∈ sets[n]?, e ∈ set := by
    rw [(h.faithful s hmem).live e, hderivative]
    by_cases hset : ∃ set ∈ sets[n]?, e ∈ set
    · rw [if_pos hset]
      exact iff_of_true (Term.word_ne_empty (hdrop (n + 1))) hset
    · rw [if_neg hset]
      exact iff_of_false (not_not_intro rfl) hset
  have hnext : ∀ m, Leads s.transitions e m → m = n + 1 := by
    intro m hleads
    obtain ⟨s', hs', hterm⟩ := h.exists_target hmem hleads
    have hset := hreads.mp ⟨m, hleads⟩
    rw [hderivative, if_pos hset, (hterms hs').2] at hterm
    -- Words of sets that are equal are of the same length.
    have hlength := Term.length_eq_of_word_eq (hdrop m) (hdrop (n + 1)) hterm
    obtain ⟨set, hset, -⟩ := hset
    have hlt : n < sets.length := (List.getElem?_eq_some_iff.mp hset).1
    have hm := (hterms hs').1
    rw [List.length_drop, List.length_drop] at hlength
    omega
  constructor
  · exact fun hleads => ⟨hnext m hleads, hreads.mp ⟨m, hleads⟩⟩
  · rintro ⟨rfl, hset⟩
    obtain ⟨m, hleads⟩ := hreads.mpr hset
    obtain rfl := hnext m hleads
    exact hleads

theorem Follows.transitions_of_word (h : a.Follows E (.word sets))
    (hsets : ∀ b ∈ sets, SetAlgebra.isEmpty b = false)
    (hdiscovered : Discovered E a.states.size a.states)
    (hterms : ∀ {n : Nat} {s : State S}, a.states[n]? = some s →
      n ≤ sets.length ∧ s.term = .word (sets.drop n))
    (hs : a.states[n]? = some s) (hset : sets[n]? = some set) : s.transitions = [(n + 1, set)] := by
  have hmem : s ∈ a.states := Array.mem_of_getElem? hs
  have hinhabited := hsets set (List.mem_of_getElem? hset)
  refine eq_singleton_of_leads (SetAlgebra.isEmpty_eq_false_iff.mp hinhabited)
    (h.faithful s hmem).increasing (hdiscovered.inhabited s hmem) fun e m => ?_
  rw [h.leads_iff_of_word hsets hterms hs, hset]
  simp

variable [Hashable S]

/-- The automaton of a word of sets is a chain. -/
theorem chain_of_ofTerm? {fuel : Nat} {limit : Option Nat} (E : Type v) [Membership E S]
    [LawfulSetAlgebra S E] (hsets : ∀ b ∈ sets, SetAlgebra.isEmpty b = false)
    (ha : ofTerm? fuel limit (.word sets) = some (.ok a)) : a.Chain sets := by
  have hcanonical : (Term.word sets).Canonical := (Term.Built.word sets).canonical (E := E)
  have hfollows : a.Follows E (.word sets) := follows_of_ofTerm? hcanonical ha
  have hdiscovered : Discovered E a.states.size a.states := discovered_of_ofTerm? hcanonical ha
  have hterms : ∀ {n : Nat} {s : State S}, a.states[n]? = some s →
      n ≤ sets.length ∧ s.term = .word (sets.drop n) := fun hs =>
    hfollows.term_eq_word_drop hsets hdiscovered (eq_of_term_eq E hcanonical ha) hs
  have htransition : ∀ (n : Nat) (s : State S) (set : S), a.states[n]? = some s →
      sets[n]? = some set → s.transitions = [(n + 1, set)] := fun n s set hs hset =>
    hfollows.transitions_of_word hsets hdiscovered hterms hs hset
  -- Each state but the last one leads to one more state.
  have hsize : ∀ n ≤ sets.length, n < a.states.size := by
    intro n hn
    induction n with
    | zero =>
      obtain ⟨start, hstart, -⟩ := hfollows.start
      exact (Array.getElem?_eq_some_iff.mp hstart).1
    | succ n ih =>
      have hlt : n < a.states.size := ih (by omega)
      have hs : a.states[n]? = some a.states[n] := Array.getElem?_eq_getElem hlt
      have htransitions := htransition n _ _ hs (List.getElem?_eq_getElem hn)
      have hnext := (hfollows.faithful _ (Array.mem_of_getElem? hs)).target_lt
        (n + 1, sets[n]) (htransitions ▸ List.mem_singleton_self _)
      rwa [Array.size_map] at hnext
  refine ⟨?_, fun n s hs => (hterms hs).2, htransition, fun s hs => ?_, fun n s hs => ?_⟩
  · have hlast := hsize sets.length le_rfl
    have hle := (hterms (Array.getElem?_eq_getElem (Nat.sub_one_lt_of_lt hlast))).1
    omega
  · refine List.eq_nil_iff_forall_not_mem.mpr fun tr htr => ?_
    obtain ⟨e, he⟩ := hdiscovered.inhabited s (Array.mem_of_getElem? hs) tr htr
    obtain ⟨-, set, hset, -⟩ :=
      (hfollows.leads_iff_of_word hsets hterms hs e tr.1).mp ⟨tr.2, htr, he⟩
    simp at hset
  · have hle := (hterms hs).1
    have hnullable : s.accepting = (sets.drop n).isEmpty := by
      rw [State.accepting, (hterms hs).2, Term.nullable_word fun b hb =>
        hsets b (List.mem_of_mem_drop hb)]
    rw [hnullable, List.isEmpty_iff, List.drop_eq_nil_iff]
    exact ⟨fun hge => Nat.le_antisymm hle hge, fun h => h.ge⟩

end Automaton

/-! ### The equations of a chain -/

namespace Equation

open Term (Canonical concat ofSet oneOf)

variable {S : Type u} [SetAlgebra S] {m n : Nat} {a : S} {sets : List S} {t u : Term S}
  {q e : Equation S}

/-- The equation of a state with a single transition, to the state behind it. -/
def link (n : Nat) (a : S) : Equation S := ⟨.empty, [(n + 2, ofSet a)]⟩

/-- The equations of the states in a row, if what matches at the last of them is known. -/
def inRow (sets : List S) (u : Term S) : List (Equation S) :=
  ⟨u, []⟩ :: ((sets.mapIdx link).reverse ++ [⟨.empty, [(1, .eps)]⟩])

theorem inRow_concat : inRow (sets ++ [a]) u =
    ⟨u, []⟩ :: link sets.length a :: ((sets.mapIdx link).reverse ++ [⟨.empty, [(1, .eps)]⟩]) := by
  rw [inRow, List.mapIdx_concat, List.reverse_concat, List.cons_append]

variable [Ord S] [DecidableEq S]

theorem substitute_eq_self (h : m ∉ e.coefficients.map Prod.fst) : substitute m q e = e := by
  have hnone : e.coefficients.lookup m = none := by
    refine List.lookup_eq_none_iff.mpr fun c hc => bne_iff_ne.mpr ?_
    rintro rfl
    exact h (List.mem_map_of_mem hc)
  rw [substitute, hnone]

theorem substitute_of_singleton {E : Type v} [Membership E S] [LawfulSetAlgebra S E]
    [Std.TransOrd S] [Std.LawfulEqOrd S] (ht : Canonical t) (hu : Canonical u) :
    substitute m ⟨u, []⟩ ⟨.empty, [(m, t)]⟩ = ⟨concat [t, u], []⟩ := by
  have hconcat : Canonical (concat [t, u]) := Term.canonical_concat_pair ht hu
  have hoptional : oneOf [concat [t, u], .empty] = concat [t, u] := by
    refine (Term.oneOf_congr (E := E) fun v hv => ?_).trans (hconcat.oneOf_singleton (E := E))
    simp [hv]
  simp [substitute, without, hoptional]

/-- The state in front of the last one reads its set and then what is left there, and no other
equation refers to the last state. -/
theorem eliminate_inRow {E : Type v} [Membership E S] [LawfulSetAlgebra S E] [Std.TransOrd S]
    [Std.LawfulEqOrd S] (hu : Canonical u) :
    eliminate (sets.length + 2) ⟨u, []⟩
      (link sets.length a :: ((sets.mapIdx link).reverse ++ [⟨.empty, [(1, .eps)]⟩])) =
        inRow sets (concat [ofSet a, u]) := by
  have hothers : ∀ e ∈ (sets.mapIdx link).reverse ++ [⟨.empty, [(1, .eps)]⟩],
      substitute (sets.length + 2) ⟨u, []⟩ e = e := by
    intro e he
    refine substitute_eq_self ?_
    rcases List.mem_append.mp he with he | he
    · obtain ⟨n, hn, rfl⟩ := List.mem_mapIdx.mp (List.mem_reverse.mp he)
      simp [link]
      omega
    · obtain rfl := List.mem_singleton.mp he
      simp
  have hloop : withoutLoop (sets.length + 2) ⟨u, []⟩ = ⟨u, []⟩ := rfl
  rw [eliminate, hloop, List.map_cons, List.map_congr_left hothers, List.map_id', inRow]
  exact congrArg (· :: _) (substitute_of_singleton (E := E) (Term.canonical_ofSet a) hu)

/-- The solution reads the sets and then what is left at the last state. -/
theorem solve_inRow {E : Type v} [Membership E S] [LawfulSetAlgebra S E] [Std.TransOrd S]
    [Std.LawfulEqOrd S] (hu : Canonical u) :
    solve (inRow sets u) = concat (sets.map ofSet ++ [u]) := by
  induction sets using List.reverseRecOn generalizing u with
  | nil =>
    have hlast : inRow [] u = [⟨u, []⟩, ⟨.empty, [(1, .eps)]⟩] := rfl
    rw [hlast, solve, eliminate, List.map_singleton, solve]
    exact congrArg Equation.constant (substitute_of_singleton (E := E) .eps hu)
  | append_singleton sets a ih =>
    have hc : Canonical (concat [ofSet a, u]) :=
      Term.canonical_concat_pair (Term.canonical_ofSet a) hu
    have hall : ∀ t ∈ sets.map ofSet ++ [ofSet a, u] ++ [], Canonical t := by
      simp [Term.canonical_ofSet, hu, or_imp, forall_and]
    have hgroup := Term.append_group (fun _ => Term.concat_map_concat)
      (fun _ ht => ht.concat_singleton) hall
    rw [List.append_nil, List.append_nil] at hgroup
    calc solve (inRow (sets ++ [a]) u)
        = solve (inRow sets (concat [ofSet a, u])) := by
          rw [inRow_concat, solve, List.length_append, List.length_reverse, List.length_mapIdx]
          exact congrArg solve (eliminate_inRow (E := E) hu)
      _ = concat (sets.map ofSet ++ [concat [ofSet a, u]]) := ih hc
      _ = concat ((sets ++ [a]).map ofSet ++ [u]) := by
          rw [hgroup, List.map_append, List.append_assoc]
          rfl

end Equation

/-! ### There and back -/

namespace Automaton

variable {S : Type u} {E : Type v} [SetAlgebra S] [Membership E S] [LawfulSetAlgebra S E]
  {a : Automaton S} {sets : List S}

theorem Chain.ofAutomaton_eq (h : a.Chain sets) :
    Equation.ofAutomaton a = Equation.inRow sets .eps := by
  have hstates : a.states.toList.map Equation.ofState =
      sets.mapIdx Equation.link ++ [⟨.eps, []⟩] := by
    refine List.ext_getElem ?_ fun n hn hn' => ?_
    · simp [h.size]
    · have hsize : n < a.states.size := by simpa using hn
      have hs : a.states[n]? = some a.states[n] := Array.getElem?_eq_getElem hsize
      rw [List.getElem_map, Array.getElem_toList]
      by_cases hlt : n < sets.length
      · have htransitions := h.transition n _ _ hs (List.getElem?_eq_getElem hlt)
        have haccepting := (h.accepting n _ hs).not.mpr (Nat.ne_of_lt hlt)
        rw [List.getElem_append_left (by simpa using hlt), List.getElem_mapIdx, Equation.ofState,
          htransitions, if_neg haccepting]
        rfl
      · have hlast : n = sets.length := by simp at hn'; omega
        subst hlast
        rw [List.getElem_append_right (by simp), Equation.ofState, h.last _ hs,
          if_pos ((h.accepting _ _ hs).mpr rfl)]
        simp
  rw [Equation.ofAutomaton, hstates, Equation.inRow]
  simp

variable [Ord S] [DecidableEq S] [Std.TransOrd S] [Std.LawfulEqOrd S]

/-- The equations of a chain have the word of sets as their solution. -/
theorem Chain.toTerm_eq (E : Type v) [Membership E S] [LawfulSetAlgebra S E] (h : a.Chain sets) :
    a.toTerm = .word sets := by
  rw [toTerm, h.ofAutomaton_eq, Equation.solve_inRow (E := E) .eps, Term.word, Term.concat,
    Term.concat]
  simp [Term.factors]

variable [Hashable S]

/-- The automaton of a word of sets is a chain, and the term for a chain is the word of sets. -/
theorem chain_of_word (E : Type v) [Membership E S] [LawfulSetAlgebra S E]
    (hsets : ∀ b ∈ sets, SetAlgebra.isEmpty b = false) :
    (∃ bound, ∀ fuel ≥ bound, ∃ a, ofTerm? fuel none (.word sets) = some (.ok a) ∧
      a.Chain sets ∧ Term.rebuild? fuel (.word sets) = some (.word sets)) ∧
    (∀ fuel limit a, ofTerm? fuel limit (.word sets) = some (.ok a) → a.Chain sets) ∧
    ∀ fuel d, Term.rebuild? fuel (.word sets) = some d → d = .word sets := by
  have hcanonical : (Term.word sets).Canonical := (Term.Built.word sets).canonical (E := E)
  obtain ⟨bound, hbound⟩ := exists_bound_ofTerm? E hcanonical
  refine ⟨⟨bound, fun fuel hfuel => ?_⟩, fun fuel limit a => chain_of_ofTerm? E hsets,
    fun fuel d h => ?_⟩
  · obtain ⟨a, ha⟩ := hbound fuel hfuel
    have hchain := chain_of_ofTerm? E hsets ha
    refine ⟨a, ha, hchain, ?_⟩
    rw [Term.rebuild?, ha, ← hchain.toTerm_eq E]
  · obtain ⟨a, ha, rfl⟩ := Term.exists_of_rebuild? h
    exact (chain_of_ofTerm? E hsets ha).toTerm_eq E

/-- The first set comes twice, and the set in between has one of its two symbols. -/
theorem chain_of_word_masks :
    (∀ b ∈ [(⟨3#8⟩ : Mask), ⟨1#8⟩, ⟨3#8⟩], SetAlgebra.isEmpty b = false) ∧
    ∃ bound, ∀ fuel ≥ bound, ∃ a : Automaton Mask,
      ofTerm? fuel none (.word [⟨3#8⟩, ⟨1#8⟩, ⟨3#8⟩]) = some (.ok a) ∧ a.states.size = 4 ∧
      Term.rebuild? fuel (.word [(⟨3#8⟩ : Mask), ⟨1#8⟩, ⟨3#8⟩]) =
        some (.seq [.literal ⟨3#8⟩, .literal ⟨1#8⟩, .literal ⟨3#8⟩]) := by
  have hsets : ∀ b ∈ [(⟨3#8⟩ : Mask), ⟨1#8⟩, ⟨3#8⟩], SetAlgebra.isEmpty b = false := by decide
  obtain ⟨⟨bound, hbound⟩, -⟩ := chain_of_word (Fin 8) hsets
  refine ⟨hsets, bound, fun fuel hfuel => ?_⟩
  obtain ⟨a, ha, hchain, hrebuild⟩ := hbound fuel hfuel
  refine ⟨a, ha, hchain.size, hrebuild.trans (congrArg some ?_)⟩
  rw [Term.word_eq_ofFactors hsets]
  rfl

end Automaton

end ExtendedRegex
