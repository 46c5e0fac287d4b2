/-
An automaton walks through the derivatives of its term.

* `Leads`: the transitions that a symbol takes;
* `State.Faithful`: the transitions of a state lead to the numbers of its derivatives,
  and they are there for the derivatives that are not `empty`;
* `explore?_invariant`: what is kept with each state that is finished, is kept by an exploration;
* `Explored`: the finished states of an exploration are faithful;
* `run?_iff_derivativeWord`: reading a word leads to the state of the derivative by the
  word, and to none exactly when the word is not empty and the derivative is.

Design notes: the exploration takes derivatives by blocks of a partition that is shared
by all states and refined from one to the next.  What is said of a state only mentions
single symbols, so it does not matter how fine the partition was when the state was
looked at.  Numbers are never given away again, and what was true of a finished state
stays true as more terms are numbered.
-/
import ExtendedRegex.Proofs.Termination

universe u v

namespace ExtendedRegex

/-! ### Numbers that stay -/

namespace Numbering

variable {α : Type u} [BEq α] [Hashable α] {s s' s'' : Numbering α}

/-- Every item keeps its number. -/
def Extends (s s' : Numbering α) : Prop :=
  ∀ (n : Nat) (a : α), s.items[n]? = some a → s'.items[n]? = some a

theorem Extends.refl (s : Numbering α) : s.Extends s := fun _ _ h => h

theorem Extends.trans (h : s.Extends s') (h' : s'.Extends s'') : s.Extends s'' :=
  fun n a hn => h' n a (h n a hn)

variable [LawfulBEq α]

theorem extends_register (s : Numbering α) (a : α) : s.Extends (s.register a).1 := by
  intro n b hb
  have hn : n < s.items.size := (Array.getElem?_eq_some_iff.mp hb).1
  rcases register_cases s a with ⟨m, -, heq⟩ | ⟨-, hitems, -⟩
  · rw [heq]
    exact hb
  · rw [hitems, Array.getElem?_push, if_neg (Nat.ne_of_lt hn)]
    exact hb

theorem getElem?_register (s : Numbering α) (a : α) :
    (s.register a).1.items[(s.register a).2]? = some a := by
  rcases register_cases s a with ⟨n, hn, heq⟩ | ⟨-, hitems, hnumber⟩
  · rw [heq]
    exact place?_eq_some_iff.mp hn
  · rw [hitems, hnumber]
    exact Array.getElem?_push_size

/-- The first item is the only one. -/
theorem items_register_empty (a : α) : (empty.register a).1.items = #[a] := by
  rcases register_cases empty a with ⟨n, hn, -⟩ | ⟨-, hitems, -⟩
  · have hitem : (empty : Numbering α).items[n]? = some a := place?_eq_some_iff.mp hn
    simp [empty] at hitem
  · rw [hitems]
    rfl

end Numbering

/-! ### Labels that are joined -/

section Labels

variable {S : Type u} {E : Type v} [Membership E S]

/-- Some transition to a number has the symbol in its label. -/
def Leads (ts : List (Nat × S)) (e : E) (n : Nat) : Prop := ∃ label, (n, label) ∈ ts ∧ e ∈ label

variable {ts : List (Nat × S)} {e : E} {n : Nat}

@[simp] theorem leads_nil : ¬ Leads ([] : List (Nat × S)) e n := by
  rintro ⟨label, hmem, -⟩
  exact List.not_mem_nil hmem

@[simp] theorem leads_cons {m : Nat} {label : S} :
    Leads ((m, label) :: ts) e n ↔ n = m ∧ e ∈ label ∨ Leads ts e n := by
  constructor
  · rintro ⟨label', hmem, he⟩
    rcases List.mem_cons.mp hmem with heq | hmem
    · obtain ⟨rfl, rfl⟩ := Prod.mk.inj heq
      exact .inl ⟨rfl, he⟩
    · exact .inr ⟨label', hmem, he⟩
  · rintro (⟨rfl, he⟩ | ⟨label', hmem, he⟩)
    · exact ⟨label, List.mem_cons_self .., he⟩
    · exact ⟨label', List.mem_cons_of_mem _ hmem, he⟩

end Labels

namespace Automaton

section Labels

variable {S : Type u} [SetAlgebra S] {bs : List (Nat × S)} {b : Nat × S}

theorem exists_fst_eq_of_mem_joinLabels (hb : b ∈ joinLabels bs) : ∃ c ∈ bs, c.1 = b.1 := by
  fun_induction joinLabels bs generalizing b with
  | case1 => contradiction
  | case2 n label rest hrest ih =>
    obtain rfl := List.mem_singleton.mp hb
    exact ⟨_, List.mem_cons_self .., rfl⟩
  | case3 label rest n label' rest' hrest ih =>
    rcases List.mem_cons.mp hb with rfl | hb
    · exact ⟨_, List.mem_cons_self .., rfl⟩
    · obtain ⟨c, hc, hcb⟩ := ih (hrest ▸ List.mem_cons_of_mem _ hb)
      exact ⟨c, List.mem_cons_of_mem _ hc, hcb⟩
  | case4 n label rest m label' rest' hrest hne ih =>
    rcases List.mem_cons.mp hb with rfl | hb
    · exact ⟨_, List.mem_cons_self .., rfl⟩
    · obtain ⟨c, hc, hcb⟩ := ih (hrest ▸ hb)
      exact ⟨c, List.mem_cons_of_mem _ hc, hcb⟩

/-- If the targets were in order, each of them is left once. -/
theorem increasing_joinLabels (h : bs.Pairwise fun b c => b.1 ≤ c.1) :
    (joinLabels bs).Pairwise fun b c => b.1 < c.1 := by
  fun_induction joinLabels bs with
  | case1 => exact .nil
  | case2 => exact List.pairwise_singleton ..
  | case3 label rest n label' rest' hrest ih =>
    have hpairwise := ih h.of_cons
    rw [hrest] at hpairwise
    exact List.pairwise_cons.mpr (List.pairwise_cons.mp hpairwise)
  | case4 n label rest m label' rest' hrest hne ih =>
    have hpairwise := ih h.of_cons
    rw [hrest] at hpairwise
    -- The first target that is left is one of those behind the first branch.
    obtain ⟨c, hc, hcm⟩ := exists_fst_eq_of_mem_joinLabels (hrest ▸ List.mem_cons_self ..)
    have hle : n ≤ c.1 := (List.pairwise_cons.mp h).1 c hc
    have hlt : n < m := Nat.lt_of_le_of_ne (hle.trans_eq hcm) hne
    refine List.pairwise_cons.mpr ⟨fun b hb => ?_, hpairwise⟩
    rcases List.mem_cons.mp hb with rfl | hb
    · exact hlt
    · exact hlt.trans ((List.pairwise_cons.mp hpairwise).1 b hb)

theorem increasing_ofBranches : (ofBranches bs).Pairwise fun b c => b.1 < c.1 := by
  refine increasing_joinLabels ?_
  have hsorted : (bs.mergeSort fun b c => b.1 ≤ c.1).Pairwise fun b c =>
      decide (b.1 ≤ c.1) = true :=
    List.pairwise_mergeSort (fun b c d => by simpa using Nat.le_trans)
      (fun b c => by simpa using Nat.le_total _ _) bs
  simpa only [decide_eq_true_eq] using hsorted

theorem exists_fst_eq_of_mem_ofBranches (hb : b ∈ ofBranches bs) : ∃ c ∈ bs, c.1 = b.1 := by
  obtain ⟨c, hc, hcb⟩ := exists_fst_eq_of_mem_joinLabels hb
  exact ⟨c, (List.mergeSort_perm bs _).mem_iff.mp hc, hcb⟩

/-- What unions keep holds of the labels after joining as before. -/
theorem forall_mem_joinLabels {P : S → Prop} (hunion : ∀ a b, P a → P b → P (a ∪ b))
    (h : ∀ b ∈ bs, P b.2) : ∀ b ∈ joinLabels bs, P b.2 := by
  fun_induction joinLabels bs with
  | case1 => exact fun b hb => absurd hb List.not_mem_nil
  | case2 n label rest hrest ih => exact List.forall_mem_singleton.mpr (h _ (List.mem_cons_self ..))
  | case3 label rest n label' rest' hrest ih =>
    have ih := ih fun b hb => h b (List.mem_cons_of_mem _ hb)
    rw [hrest] at ih
    obtain ⟨hlabel', hrest'⟩ := List.forall_mem_cons.mp ih
    exact List.forall_mem_cons.mpr ⟨hunion _ _ (h _ (List.mem_cons_self ..)) hlabel', hrest'⟩
  | case4 n label rest m label' rest' hrest hne ih =>
    have ih := ih fun b hb => h b (List.mem_cons_of_mem _ hb)
    rw [hrest] at ih
    exact List.forall_mem_cons.mpr ⟨h _ (List.mem_cons_self ..), ih⟩

theorem forall_mem_ofBranches {P : S → Prop} (hunion : ∀ a b, P a → P b → P (a ∪ b))
    (h : ∀ b ∈ bs, P b.2) : ∀ b ∈ ofBranches bs, P b.2 :=
  forall_mem_joinLabels hunion fun b hb => h b ((List.mergeSort_perm bs _).mem_iff.mp hb)

variable {E : Type v} [Membership E S] [LawfulSetAlgebra S E] {e : E} {n : Nat}

theorem leads_joinLabels : Leads (joinLabels bs) e n ↔ Leads bs e n := by
  fun_induction joinLabels bs with
  | case1 => rfl
  | case2 m label rest hrest ih => rw [leads_cons, leads_cons, ← ih, hrest]
  | case3 label rest m label' rest' hrest ih =>
    rw [leads_cons, leads_cons, ← ih, hrest, leads_cons, LawfulSetAlgebra.mem_union]
    tauto
  | case4 m label rest m' label' rest' hrest hne ih =>
    rw [leads_cons, ← hrest, ih, ← leads_cons]

theorem leads_ofBranches : Leads (ofBranches bs) e n ↔ Leads bs e n := by
  rw [ofBranches, leads_joinLabels]
  simp only [Leads, (List.mergeSort_perm bs _).mem_iff]

end Labels

end Automaton

/-! ### Reading a word -/

/-- The transitions of a state go to numbers among some terms, each of them once.  A symbol leads to
the number of the derivative, and to none just if the derivative is `empty`. -/
structure State.Faithful {S : Type u} (E : Type v) [SetAlgebra S] [Ord S] [DecidableEq S]
    [Membership E S] (terms : Array (Term S)) (s : State S) : Prop where
  target_lt : ∀ tr ∈ s.transitions, tr.1 < terms.size
  increasing : s.transitions.Pairwise fun tr tr' => tr.1 < tr'.1
  derivative : ∀ (e : E) (n : Nat), Leads s.transitions e n →
    terms[n]? = some (s.term.derivativeAt e)
  live : ∀ e : E, (∃ n, Leads s.transitions e n) ↔ s.term.derivativeAt e ≠ .empty

theorem SetAlgebra.containsAll_single {S : Type u} {E : Type v} [SetAlgebra S] [Membership E S]
    [LawfulSetAlgebra S E] {single : E → S} (hsingle : ∀ e f : E, f ∈ single e ↔ f = e) {label : S}
    {e : E} : containsAll label (single e) = true ↔ e ∈ label := by
  rw [LawfulSetAlgebra.containsAll_iff]
  simp only [hsingle, forall_eq]

namespace State

variable {S : Type u} {E : Type v} [SetAlgebra S] [Membership E S] [LawfulSetAlgebra S E]
  {single : E → S} {s : State S} {e : E} {n : Nat}

theorem target?_single_eq_none (hsingle : ∀ e f : E, f ∈ single e ↔ f = e) :
    s.target? (single e) = none ↔ ¬ ∃ n, Leads s.transitions e n := by
  rw [target?, Option.map_eq_none_iff, List.find?_eq_none]
  constructor
  · rintro h ⟨n, label, hmem, he⟩
    exact h _ hmem ((SetAlgebra.containsAll_single hsingle).mpr he)
  · rintro h ⟨n, label⟩ hmem hcontains
    exact h ⟨n, label, hmem, (SetAlgebra.containsAll_single hsingle).mp hcontains⟩

theorem leads_of_target?_single (hsingle : ∀ e f : E, f ∈ single e ↔ f = e)
    (h : s.target? (single e) = some n) : Leads s.transitions e n := by
  obtain ⟨⟨m, label⟩, hfind, rfl⟩ := Option.map_eq_some_iff.mp h
  have hcontains := List.find?_some hfind
  exact ⟨label, List.mem_of_find?_eq_some hfind, (SetAlgebra.containsAll_single hsingle).mp hcontains⟩

end State

namespace Automaton

variable {S : Type u} {E : Type v} [SetAlgebra S] [Ord S] [DecidableEq S] [Membership E S]
  {single : E → S} {a : Automaton S} {t : Term S} {s : State S} {e : E} {n : Nat}

/-- An automaton that starts with a term and whose states are faithful to each other. -/
structure Follows (E : Type v) [Membership E S] (a : Automaton S) (t : Term S) : Prop where
  start : ∃ s, a.states[0]? = some s ∧ s.term = t
  faithful : ∀ s ∈ a.states, s.Faithful E (a.states.map State.term)

theorem Follows.term_eq (h : a.Follows E t) (hs : a.states[0]? = some s) : s.term = t := by
  obtain ⟨start, hstart, hterm⟩ := h.start
  exact Option.some.inj (hstart.symm.trans hs) ▸ hterm

theorem Follows.exists_target (h : a.Follows E t) (hs : s ∈ a.states)
    (hleads : Leads s.transitions e n) :
    ∃ s', a.states[n]? = some s' ∧ s'.term = s.term.derivativeAt e := by
  rw [← Option.map_eq_some_iff, ← Array.getElem?_map]
  exact (h.faithful s hs).derivative e n hleads

variable [LawfulSetAlgebra S E]

/-- Reading one symbol takes a state to that of the derivative, if it is not `empty`. -/
theorem Follows.step (h : a.Follows E t) (hsingle : ∀ e f : E, f ∈ single e ↔ f = e)
    (hs : s ∈ a.states) :
    (s.target? (single e) = none ∧ s.term.derivativeAt e = .empty) ∨
      ∃ n s', s.target? (single e) = some n ∧ a.states[n]? = some s' ∧
        s'.term = s.term.derivativeAt e ∧ s'.term ≠ .empty := by
  have hlive := (h.faithful s hs).live e
  cases htarget : s.target? (single e) with
  | none =>
    refine .inl ⟨rfl, ?_⟩
    by_contra hne
    exact (State.target?_single_eq_none hsingle).mp htarget (hlive.mpr hne)
  | some n =>
    have hleads := State.leads_of_target?_single hsingle htarget
    obtain ⟨s', hs', hterm⟩ := h.exists_target hs hleads
    refine .inr ⟨n, s', rfl, hs', hterm, ?_⟩
    rw [hterm]
    exact hlive.mp ⟨n, hleads⟩

/-- Reading a word takes a state to that of the derivative by the word. -/
theorem Follows.runFrom?_spec (h : a.Follows E t) (hsingle : ∀ e f : E, f ∈ single e ↔ f = e)
    (hs : a.states[n]? = some s) (w : List E) :
    (a.runFrom? n (w.map single) = none ↔ s.term.derivativeAlong w = .empty ∧ w ≠ []) ∧
      ∀ s', a.runFrom? n (w.map single) = some s' → s'.term = s.term.derivativeAlong w := by
  induction w generalizing n s with
  | nil =>
    rw [List.map_nil, runFrom?, hs]
    refine ⟨by simp, fun s' hs' => ?_⟩
    rw [← Option.some.inj hs']
    rfl
  | cons e w ih =>
    rw [List.map_cons, runFrom?, hs, Option.bind_some, Term.derivativeAlong_cons]
    rcases h.step hsingle (Array.mem_of_getElem? hs) (e := e) with
      ⟨hnone, hempty⟩ | ⟨m, s', htarget, hs', hterm, hne⟩
    · rw [hnone, hempty, Term.derivativeAlong_empty]
      exact ⟨by simp, nofun⟩
    · rw [htarget, Option.bind_some, ← hterm]
      obtain ⟨hnone, hsome⟩ := ih hs'
      refine ⟨hnone.trans ⟨fun hw => ⟨hw.1, List.cons_ne_nil e w⟩, fun hw => ⟨hw.1, ?_⟩⟩, hsome⟩
      -- After a symbol there is still a state, so that there are more symbols to read.
      rintro rfl
      exact hne hw.1

end Automaton

/-! ### Exploration -/

namespace Term

variable {S : Type u} [SetAlgebra S] [Ord S] [DecidableEq S] {t : Term S} {p q : Partition S}
  {branches : List (Term S × S)} {fuel : Nat}

theorem exists_derived_of_branches? (h : t.branches? fuel p = some (q, branches)) :
    ∃ derived, p.overBlocks? t.derivative fuel = some (q, derived) ∧
      ∀ d block, (d, block) ∈ branches ↔ (block, d) ∈ derived ∧ d.emptiness ≠ .empty := by
  rw [branches?] at h
  obtain ⟨⟨p', derived⟩, hover, h⟩ := Option.bind_eq_some_iff.mp h
  obtain ⟨rfl, rfl⟩ := Prod.mk.inj (Option.some.inj h)
  exact ⟨derived, hover, by simp⟩

variable {E : Type v} [Membership E S] [LawfulSetAlgebra S E] [Std.TransOrd S] [Std.LawfulEqOrd S]

/-- The branches are the derivatives by the symbols of their blocks, and they are there for all
symbols that the derivative is not `empty` by. -/
theorem of_branches?_eq_some (ht : Canonical t) (hp : Partition.Proper E p)
    (h : t.branches? fuel p = some (q, branches)) :
    Partition.Proper E q ∧
      (∀ b ∈ branches, (∃ e : E, e ∈ b.2) ∧ ∀ e : E, e ∈ b.2 → b.1 = t.derivativeAt e) ∧
      ∀ e : E, (∃ b ∈ branches, e ∈ b.2) ↔ t.derivativeAt e ≠ empty := by
  obtain ⟨derived, hover, hmem⟩ := exists_derived_of_branches? h
  obtain ⟨hproper, hblocks, hok⟩ := Partition.overBlocks?_spec hp hover
  have hderived : ∀ r ∈ derived, ∀ e : E, e ∈ r.1 → r.2 = t.derivativeAt e := fun r hr e he =>
    eq_derivativeAt_of_derivative he (hok r hr)
  refine ⟨hproper, ?_, fun e => ⟨?_, fun hne => ?_⟩⟩
  · rintro ⟨d, block⟩ hb
    obtain ⟨hr, -⟩ := (hmem d block).mp hb
    refine ⟨SetAlgebra.isEmpty_eq_false_iff.mp (hproper.inhabited block ?_), hderived _ hr⟩
    rw [hblocks]
    exact List.mem_map_of_mem hr
  · rintro ⟨⟨d, block⟩, hb, he⟩ hempty
    obtain ⟨hr, hkept⟩ := (hmem d block).mp hb
    have hd : d = t.derivativeAt e := hderived _ hr e he
    rw [hd, hempty] at hkept
    exact hkept rfl
  · obtain ⟨block, hblock, he⟩ := hproper.total e
    rw [hblocks] at hblock
    obtain ⟨r, hr, rfl⟩ := List.mem_map.mp hblock
    have hcanonical : Canonical (t.derivativeAt e) := canonical_derivativeAt ht
    refine ⟨r.swap, (hmem r.2 r.1).mpr ⟨hr, ?_⟩, he⟩
    rw [hderived r hr e he]
    exact fun hempty => hne ((hcanonical.emptiness_eq_empty_iff (E := E)).mp hempty)

end Term

namespace Automaton

section Registration

variable {S : Type u} [DecidableEq S] [Hashable S] {known known' : Numbering (Term S)}
  {limit : Option Nat} {branches : List (Term S × S)} {numbered : List (Nat × S)}

theorem registerState_spec {t : Term S} {n : Nat}
    (h : registerState limit known t = .ok (known', n)) :
    known.Extends known' ∧ known'.items[n]? = some t := by
  have hextends := known.extends_register t
  have hn := known.getElem?_register t
  rw [(registerState_eq_ok.mp h).1] at hextends hn
  exact ⟨hextends, hn⟩

/-- Terms keep their numbers, and the terms of all branches have theirs. -/
theorem registerBranches_spec (h : registerBranches limit known branches = .ok (known', numbered)) :
    known.Extends known' ∧ (∀ b ∈ branches, ∃ n : Nat, known'.items[n]? = some b.1) ∧
      ∀ (n : Nat) (label : S), (n, label) ∈ numbered ↔
        ∃ t, (t, label) ∈ branches ∧ known'.items[n]? = some t := by
  induction branches generalizing known numbered with
  | nil =>
    obtain ⟨rfl, rfl⟩ := Prod.mk.inj (Except.ok.inj h)
    exact ⟨.refl _, nofun, by simp⟩
  | cons b branches ih =>
    obtain ⟨t, block⟩ := b
    obtain ⟨known'', m, rest, hstate, hrest, rfl⟩ := registerBranches_cons_eq_ok h
    obtain ⟨hextends, hm⟩ := registerState_spec hstate
    obtain ⟨hextends', hnumber, hmem⟩ := ih hrest
    -- The number of the first branch is still its number, and it has no other.
    have hm' : ∀ n : Nat, known'.items[n]? = some t ↔ n = m := fun n => by
      rw [← known'.consistent, (known'.consistent t m).mpr (hextends' m t hm), Option.some.injEq,
        eq_comm]
    refine ⟨hextends.trans hextends', ?_, fun n label => ?_⟩
    · exact List.forall_mem_cons.mpr ⟨⟨m, (hm' m).mpr rfl⟩, hnumber⟩
    · rw [List.mem_cons, hmem, Prod.mk.injEq]
      constructor
      · rintro (⟨rfl, rfl⟩ | ⟨u, hu, hn⟩)
        · exact ⟨t, List.mem_cons_self .., (hm' n).mpr rfl⟩
        · exact ⟨u, List.mem_cons_of_mem _ hu, hn⟩
      · rintro ⟨u, hu, hn⟩
        rcases List.mem_cons.mp hu with heq | hu
        · obtain ⟨rfl, rfl⟩ := Prod.mk.inj heq
          exact .inl ⟨(hm' n).mp hn, rfl⟩
        · exact .inr ⟨u, hu, hn⟩

end Registration

/-! ### States one after another -/

/-- What is kept with each state that is finished still holds when the exploration ends, and then
there is a state for every term that is known. -/
theorem explore?_invariant {S : Type u} [SetAlgebra S] [Ord S] [DecidableEq S] [Hashable S]
    {limit : Option Nat} {fuel : Nat} {p : Partition S} {known : Numbering (Term S)}
    {finished : Array (State S)} {a : Automaton S}
    {I : Partition S → Numbering (Term S) → Array (State S) → Prop}
    (hstep : ∀ {fuel : Nat} {p q : Partition S} {known known' : Numbering (Term S)}
      {finished : Array (State S)} {t : Term S} {branches : List (Term S × S)}
      {numbered : List (Nat × S)}, I p known finished → known.items[finished.size]? = some t →
        t.branches? fuel p = some (q, branches) →
        registerBranches limit known branches = .ok (known', numbered) →
        I q known' (finished.push ⟨t, ofBranches numbered⟩))
    (hstart : I p known finished) (h : explore? limit fuel p known finished = some (.ok a)) :
    ∃ p known, I p known a.states ∧ known.items.size ≤ a.states.size := by
  induction fuel generalizing p known finished with
  | zero => contradiction
  | succ fuel ih =>
    rw [explore?] at h
    rcases ht : known.items[finished.size]? with _ | t
    · simp only [ht] at h
      obtain rfl := Except.ok.inj (Option.some.inj h)
      exact ⟨p, known, hstart, Array.getElem?_eq_none_iff.mp ht⟩
    · rcases hbranches : t.branches? fuel p with _ | ⟨q, branches⟩
      · simp only [ht, hbranches] at h
        contradiction
      · rcases hregister : registerBranches limit known branches with e | ⟨known', numbered⟩
        · simp only [ht, hbranches, hregister] at h
          cases Option.some.inj h
        · simp only [ht, hbranches, hregister] at h
          exact ih (hstep hstart ht hbranches hregister) h

variable {S : Type u} {E : Type v} [SetAlgebra S] [Ord S] [DecidableEq S] [Hashable S]
  [Membership E S] {known known' : Numbering (Term S)} {finished : Array (State S)} {s : State S}

theorem faithful_of_extends (h : s.Faithful E known.items) (hextends : known.Extends known') :
    s.Faithful E known'.items where
  target_lt tr htr := by
    have hn := hextends tr.1 _ (Array.getElem?_eq_getElem (h.target_lt tr htr))
    exact (Array.getElem?_eq_some_iff.mp hn).1
  increasing := h.increasing
  derivative e n hleads := hextends n _ (h.derivative e n hleads)
  live := h.live

/-- The finished states have the first terms, and are faithful to all that are known. -/
structure Explored (E : Type v) [Membership E S] (known : Numbering (Term S))
    (finished : Array (State S)) : Prop where
  canonical : ∀ t ∈ known.items, Term.Canonical t
  numbered : ∀ (n : Nat) (s : State S), finished[n]? = some s → known.items[n]? = some s.term
  faithful : ∀ s ∈ finished, s.Faithful E known.items

/-- When all states are finished, their terms are those that are known. -/
theorem Explored.map_term (h : Explored E known finished)
    (hsize : known.items.size ≤ finished.size) : finished.map State.term = known.items := by
  refine Array.ext_getElem? fun n => ?_
  rw [Array.getElem?_map]
  cases hs : finished[n]? with
  | some s => exact (h.numbered n s hs).symm
  | none =>
    have hn := Array.getElem?_eq_none_iff.mp hs
    exact (Array.getElem?_eq_none_iff.mpr (hsize.trans hn)).symm

/-- An automaton is what an exploration that starts with the term alone ends with. -/
theorem exists_explored {a : Automaton S} {limit : Option Nat} {fuel : Nat} {t : Term S}
    (ht : t.Canonical) (h : ofTerm? fuel limit t = some (.ok a)) :
    ∃ known : Numbering (Term S), known.items = #[t] ∧ Explored E known #[] ∧
      explore? limit fuel .trivial known #[] = some (.ok a) := by
  rw [ofTerm?] at h
  rcases hstate : registerState limit .empty t with e | ⟨known, n⟩
  · rw [hstate] at h
    cases Option.some.inj h
  · rw [hstate] at h
    have hitems : known.items = #[t] := by
      rw [← Numbering.items_register_empty t, (registerState_eq_ok.mp hstate).1]
    refine ⟨known, hitems, ⟨fun u hu => ?_, fun n s hs => ?_, fun s hs => ?_⟩, h⟩
    · rw [hitems] at hu
      rw [Array.mem_singleton.mp hu]
      exact ht
    · rw [Array.getElem?_empty] at hs
      contradiction
    · exact absurd hs (Array.not_mem_empty s)

variable [LawfulSetAlgebra S E] [Std.TransOrd S] [Std.LawfulEqOrd S] {limit : Option Nat}
  {fuel : Nat} {p q : Partition S} {t : Term S} {branches : List (Term S × S)}
  {numbered : List (Nat × S)}

/-- A state is faithful to the numbers that its branches were given. -/
theorem faithful_ofBranches (ht : t.Canonical) (hp : Partition.Proper E p)
    (hbranches : t.branches? fuel p = some (q, branches))
    (hregister : registerBranches limit known branches = .ok (known', numbered)) :
    State.Faithful E known'.items ⟨t, ofBranches numbered⟩ := by
  obtain ⟨-, hderivative, hlive⟩ := Term.of_branches?_eq_some ht hp hbranches
  obtain ⟨-, hnumber, hmem⟩ := registerBranches_spec hregister
  have hleads : ∀ (e : E) (n : Nat), Leads (ofBranches numbered) e n ↔
      ∃ b ∈ branches, e ∈ b.2 ∧ known'.items[n]? = some b.1 := by
    intro e n
    rw [leads_ofBranches]
    constructor
    · rintro ⟨label, hlabel, he⟩
      obtain ⟨d, hd, hn⟩ := (hmem n label).mp hlabel
      exact ⟨_, hd, he, hn⟩
    · rintro ⟨b, hb, he, hn⟩
      exact ⟨b.2, (hmem n b.2).mpr ⟨b.1, hb, hn⟩, he⟩
  refine ⟨fun tr htr => ?_, increasing_ofBranches, fun e n h => ?_, fun e => ?_⟩
  · obtain ⟨c, hc, hctr⟩ := exists_fst_eq_of_mem_ofBranches htr
    obtain ⟨d, -, hn⟩ := (hmem c.1 c.2).mp hc
    rw [← hctr]
    exact (Array.getElem?_eq_some_iff.mp hn).1
  · obtain ⟨b, hb, he, hn⟩ := (hleads e n).mp h
    rw [hn, (hderivative b hb).2 e he]
  · rw [← hlive]
    constructor
    · rintro ⟨n, h⟩
      obtain ⟨b, hb, he, -⟩ := (hleads e n).mp h
      exact ⟨b, hb, he⟩
    · rintro ⟨b, hb, he⟩
      obtain ⟨n, hn⟩ := hnumber b hb
      exact ⟨n, (hleads e n).mpr ⟨b, hb, he, hn⟩⟩

/-- One more state is finished. -/
theorem Explored.push (h : Explored E known finished) (hp : Partition.Proper E p)
    (ht : known.items[finished.size]? = some t)
    (hbranches : t.branches? fuel p = some (q, branches))
    (hregister : registerBranches limit known branches = .ok (known', numbered)) :
    Explored E known' (finished.push ⟨t, ofBranches numbered⟩) := by
  have htc : t.Canonical := h.canonical t (Array.mem_of_getElem? ht)
  have hextends : known.Extends known' := (registerBranches_spec hregister).1
  obtain ⟨-, hderivative, -⟩ := Term.of_branches?_eq_some htc hp hbranches
  refine ⟨fun u hu => ?_, fun n s hs => ?_, fun s hs => ?_⟩
  · rcases mem_of_registerBranches hregister hu with hu | ⟨b, hb, rfl⟩
    · exact h.canonical u hu
    · obtain ⟨⟨e, he⟩, hb⟩ := hderivative b hb
      rw [hb e he]
      exact Term.canonical_derivativeAt htc
  · rw [Array.getElem?_push] at hs
    by_cases hn : n = finished.size
    · rw [if_pos hn] at hs
      obtain rfl := Option.some.inj hs
      rw [hn]
      exact hextends _ _ ht
    · rw [if_neg hn] at hs
      exact hextends n _ (h.numbered n s hs)
  · rcases Array.mem_push.mp hs with hs | rfl
    · exact faithful_of_extends (h.faithful s hs) hextends
    · exact faithful_ofBranches htc hp hbranches hregister

/-- When an exploration ends, the states are those of all terms that are known. -/
theorem explore?_spec {a : Automaton S} (h : explore? limit fuel p known finished = some (.ok a))
    (hp : Partition.Proper E p) (hexplored : Explored E known finished) :
    ∃ known' : Numbering (Term S), known.Extends known' ∧ Explored E known' a.states ∧
      known'.items.size ≤ a.states.size := by
  obtain ⟨-, known', ⟨-, hextends, hexplored'⟩, hsize⟩ := explore?_invariant
    (I := fun p known' finished => Partition.Proper E p ∧ known.Extends known' ∧
      Explored E known' finished)
    (fun ⟨hp, hextends, hexplored⟩ ht hbranches hregister =>
      have htc := hexplored.canonical _ (Array.mem_of_getElem? ht)
      ⟨(Term.of_branches?_eq_some htc hp hbranches).1,
        hextends.trans (registerBranches_spec hregister).1,
        hexplored.push hp ht hbranches hregister⟩)
    ⟨hp, .refl known, hexplored⟩ h
  exact ⟨known', hextends, hexplored', hsize⟩

theorem follows_of_ofTerm? {a : Automaton S} (ht : t.Canonical)
    (h : ofTerm? fuel limit t = some (.ok a)) : a.Follows E t := by
  obtain ⟨known, hitems, hexplored, hexplore⟩ := exists_explored (E := E) ht h
  obtain ⟨known', hextends, hexplored', hsize⟩ :=
    explore?_spec hexplore Partition.proper_trivial hexplored
  have hterms := hexplored'.map_term hsize
  refine ⟨?_, fun s hs => ?_⟩
  · rw [← Option.map_eq_some_iff, ← Array.getElem?_map, hterms]
    refine hextends 0 t ?_
    rw [hitems]
    rfl
  · rw [hterms]
    exact hexplored'.faithful s hs

/-! ### Without a limit -/

section Unlimited

variable {S : Type u} [DecidableEq S] [Hashable S] {t : Term S} {fuel : Nat}

theorem exists_registerBranches (known : Numbering (Term S)) (branches : List (Term S × S)) :
    ∃ r, registerBranches none known branches = .ok r := by
  induction branches generalizing known with
  | nil => exact ⟨_, rfl⟩
  | cons b branches ih =>
    obtain ⟨r, hr⟩ := ih (known.register b.1).1
    refine ⟨(r.1, ((known.register b.1).2, b.2) :: r.2), ?_⟩
    rw [registerBranches, registerState]
    dsimp only
    rw [hr]
    rfl

variable [SetAlgebra S] [Ord S]

theorem explore?_ne_error {p : Partition S} {known : Numbering (Term S)}
    {finished : Array (State S)} {e : TooManyStates} :
    explore? none fuel p known finished ≠ some (.error e) := by
  intro h
  induction fuel generalizing p known finished with
  | zero => contradiction
  | succ fuel ih =>
    rw [explore?] at h
    rcases ht : known.items[finished.size]? with _ | t
    · simp only [ht] at h
      cases Option.some.inj h
    · rcases hbranches : t.branches? fuel p with _ | ⟨q, branches⟩
      · simp only [ht, hbranches] at h
        contradiction
      · obtain ⟨r, hr⟩ := exists_registerBranches known branches
        simp only [ht, hbranches, hr] at h
        exact ih h

theorem exists_ofTerm? (h : (ofTerm? fuel none t).isSome = true) :
    ∃ a, ofTerm? fuel none t = some (.ok a) := by
  obtain ⟨r, hr⟩ := Option.isSome_iff_exists.mp h
  cases r with
  | error e => exact absurd hr explore?_ne_error
  | ok a => exact ⟨a, hr⟩

/-- Without a limit there is an automaton for every term. -/
theorem exists_bound_ofTerm? (E : Type v) [Membership E S] [LawfulSetAlgebra S E] [Std.TransOrd S]
    [Std.LawfulEqOrd S] (ht : t.Canonical) :
    ∃ bound, ∀ fuel ≥ bound, ∃ a, ofTerm? fuel none t = some (.ok a) := by
  obtain ⟨K, hK, htK⟩ := ht.exists_closed (E := E)
  obtain ⟨sets, n, hsets, htrivial⟩ := hK.exists_affordable
  refine ⟨hK.finite.toFinset.card + n + 1, fun fuel hfuel => exists_ofTerm? ?_⟩
  exact ofTerm?_isSome hK hsets htrivial (by omega) htK

end Unlimited

/-- Without a limit there is an automaton.  Whatever the limit, reading a word takes it to the
state of the derivative by the word, unless that is `empty` and the word is not, and the automaton
accepts the words that the term accepts. -/
theorem run?_iff_derivativeWord (ht : t.Built) {single : E → S}
    (hsingle : ∀ e f : E, f ∈ single e ↔ f = e) :
    (∃ bound, ∀ fuel ≥ bound, ∃ a, ofTerm? fuel none t = some (.ok a)) ∧
    ∀ fuel limit a, ofTerm? fuel limit t = some (.ok a) →
      (∀ s ∈ a.states, ∀ tr ∈ s.transitions, tr.1 < a.states.size) ∧
      ∀ w : List E, ∃ d, t.derivativeWord (w.map single) = .ok d ∧
        (a.run? (w.map single) = none ↔ d = .empty ∧ w ≠ []) ∧
        (∀ s, a.run? (w.map single) = some s → s.term = d) ∧
        t.accepts (w.map single) = .ok (a.accepts (w.map single)) := by
  refine ⟨?_, fun fuel limit a h => ?_⟩
  · exact exists_bound_ofTerm? E ht.canonical
  · have hfollows : a.Follows E t := follows_of_ofTerm? ht.canonical h
    obtain ⟨s, hs, rfl⟩ := hfollows.start
    refine ⟨fun s hs tr htr => ?_, fun w => ?_⟩
    · have hlt := (hfollows.faithful s hs).target_lt tr htr
      rwa [Array.size_map] at hlt
    · have hword := Term.derivativeWord_single hsingle s.term (w := w)
      obtain ⟨hnone, hsome⟩ := hfollows.runFrom?_spec hsingle hs w
      refine ⟨_, hword, hnone, hsome, ?_⟩
      rw [Term.accepts, hword, Automaton.accepts, run?]
      cases hrun : a.runFrom? 0 (w.map single) with
      | none =>
        rw [(hnone.mp hrun).1]
        exact congrArg Except.ok Term.nullable_empty
      | some s' =>
        rw [← hsome s' hrun]
        rfl

/-- The words over two symbols, without the word that is only the first of them. -/
theorem run?_iff_derivativeWord_allOf :
    (∀ i j : Fin 8, j ∈ Mask.single i ↔ j = i) ∧
    (Term.allOf [.closure (.ofSet (⟨3#8⟩ : Mask)), .complement (.ofSet ⟨1#8⟩)]).Built ∧
    ∃ bound, ∀ fuel ≥ bound, ∃ a, ofTerm? fuel none
        (.allOf [.closure (.ofSet (⟨3#8⟩ : Mask)), .complement (.ofSet ⟨1#8⟩)]) = some (.ok a) ∧
      a.accepts ([0].map Mask.single) = false ∧ a.accepts ([0, 1].map Mask.single) = true := by
  have hsingle : ∀ i j : Fin 8, j ∈ Mask.single i ↔ j = i := fun _ _ => Mask.mem_single
  have ht : (Term.allOf [.closure (.ofSet (⟨3#8⟩ : Mask)), .complement (.ofSet ⟨1#8⟩)]).Built :=
    .allOf (by simp [Term.Built.closure, Term.Built.complement, Term.Built.ofSet])
  obtain ⟨⟨bound, hbound⟩, hrun⟩ := run?_iff_derivativeWord ht hsingle
  refine ⟨hsingle, ht, bound, fun fuel hfuel => ?_⟩
  obtain ⟨a, ha⟩ := hbound fuel hfuel
  obtain ⟨-, hword⟩ := hrun fuel none a ha
  have haccepts : ∀ w : List (Fin 8), a.accepts (w.map Mask.single) = true ↔
      w ∈ (Term.allOf [.closure (.ofSet (⟨3#8⟩ : Mask)), .complement (.ofSet ⟨1#8⟩)]).language := by
    intro w
    obtain ⟨d, -, -, -, h⟩ := hword w
    refine Term.accepts_iff_of_forall₂ h ?_
    rw [List.forall₂_map_right_iff]
    exact List.forall₂_same.mpr fun i _ => Mask.mem_single.mpr rfl
  have hsymbol : ∀ (m : Mask) (i : Fin 8), i ∈ m → [i] ∈ (Term.ofSet m).language := fun m i hi =>
    Term.mem_language_ofSet.mpr ⟨i, hi, rfl⟩
  refine ⟨a, ha, ?_, ?_⟩
  · rw [← Bool.not_eq_true, haccepts, Term.mem_language_allOf]
    exact fun h => Term.mem_language_complement.mp (h _ (.tail _ (.head _))) (hsymbol _ 0 rfl)
  · rw [haccepts, Term.mem_language_allOf, List.forall_mem_cons, List.forall_mem_singleton,
      Term.language_closure, Term.mem_language_complement, Term.mem_language_ofSet,
      Language.mem_kstar]
    refine ⟨⟨[[0], [1]], rfl, ?_⟩, by simp⟩
    exact List.forall_mem_cons.mpr
      ⟨hsymbol _ 0 rfl, List.forall_mem_singleton.mpr (hsymbol _ 1 rfl)⟩

end Automaton

end ExtendedRegex
