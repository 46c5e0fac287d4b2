/-
Every term that can be obtained is in normal form, in each of its parts.

* `Obtained`: terms made by the building functions, by derivatives, and by going to an automaton and
  back, from no other terms than those that are given;
* `Normal`: the form of a single node, read off its members;
* `again`: a node built a second time, from its own members;
* `RegularClosed`: what the regular operations keep is kept as unknowns are eliminated, and so the
  term for an automaton has it (`RegularClosed.toTerm`);
* `Obtained.canonical`: nothing leads out of the canonical terms;
* `normal_of_obtained`: every part of an obtained term is normal, its `nullable` is right, and
  building it again changes nothing.  Over characters the terms of patterns may be given as well.

Design notes: `Canonical` is closed under all that makes terms, and is what inductions are about;
`Normal` says the same of one node without induction.  A block without symbols also has a
derivative, though no symbol has it, and so derivatives by blocks are looked at here directly.
-/
import ExtendedRegex.Mask
import ExtendedRegex.Pattern.Reader
import ExtendedRegex.Equation
import ExtendedRegex.Proofs.Automaton

universe u v

namespace ExtendedRegex

/-- A computation that succeeds has succeeded at its first part. -/
theorem exists_of_bind_eq_ok {ε : Type u} {α β : Type v} {x : Except ε α} {f : α → Except ε β}
    {b : β} (h : x >>= f = .ok b) : ∃ a, x = .ok a ∧ f a = .ok b := by
  cases x with
  | error e => cases h
  | ok a => exact ⟨a, rfl, h⟩

namespace Term

open SetAlgebra (interAll)

variable {S : Type u}

/-! ### Members that stay as they are -/

section Members

variable {t : Term S} {ts : List (Term S)}

theorem concat_eq_seq (two : 2 ≤ ts.length)
    (flat : ∀ t ∈ ts, t ≠ eps ∧ t ≠ empty ∧ ∀ us, t ≠ seq us) : concat ts = seq ts := by
  have hflat : ts.flatMap factors = ts :=
    flatMap_eq_self fun t ht => factors_of_ne_seq (flat t ht).1 (flat t ht).2.2
  have hempty : empty ∉ ts.flatMap factors := by
    rw [hflat]
    exact fun h => (flat empty h).2.1 rfl
  rw [concat_of_empty_not_mem hempty, hflat, ofFactors_of_two_le two]

/-- The members are a single literal at most, if they are distinct and no two literals are. -/
theorem length_filterMap_literal?_le_one (hnodup : ts.Nodup)
    (h : ∀ a b, literal a ∈ ts → literal b ∈ ts → a = b) : (ts.filterMap literal?).length ≤ 1 := by
  have hsets : (ts.filterMap literal?).Nodup := hnodup.filterMap fun t t' a ha ha' => by
    rw [literal?_eq_some_iff.mp ha, literal?_eq_some_iff.mp ha']
  match hts : ts.filterMap literal? with
  | [] => exact Nat.zero_le 1
  | [_] => exact Nat.le_refl 1
  | a :: b :: sets =>
    have hmem : ∀ c ∈ a :: b :: sets, literal c ∈ ts := fun c hc =>
      mem_filterMap_literal?.mp (hts ▸ hc)
    have hab : a = b := h a b (hmem a (by simp)) (hmem b (by simp))
    rw [hts, hab] at hsets
    exact absurd (List.mem_cons_self ..) (List.nodup_cons.mp hsets).1

theorem closure_eq_star [SetAlgebra S] [Ord S] [DecidableEq S]
    (flat : t ≠ eps ∧ t ≠ empty ∧ t ≠ all ∧ ∀ u, t ≠ star u)
    (proper : ∀ set, t = literal set → SetAlgebra.isEmpty (SetAlgebra.compl set) = false)
    (epsilon : ∀ us, t = alt us → eps ∉ us) : closure t = star t := by
  obtain ⟨heps, hempty, hall, hstar⟩ := flat
  rcases closure_cases t with ⟨-, heq⟩ | ⟨us, hus, hmem, -⟩
  · rw [heq]
    cases t with
    | eps => contradiction
    | empty => contradiction
    | all => contradiction
    | star u => exact absurd rfl (hstar u)
    | literal set => exact if_neg (Bool.eq_false_iff.mp (proper set rfl))
    | _ => rfl
  · exact absurd hmem (epsilon us hus)

end Members

/-! ### Normal nodes -/

section Nodes

variable [SetAlgebra S] [Ord S] [DecidableEq S]

/-- A part of a term: the term itself, or a part of one of its members. -/
inductive Subterm (t : Term S) : Term S → Prop where
  | refl : Subterm t t
  | alt {u : Term S} {us : List (Term S)} (hu : u ∈ us) (h : Subterm t u) : Subterm t (alt us)
  | seq {u : Term S} {us : List (Term S)} (hu : u ∈ us) (h : Subterm t u) : Subterm t (seq us)
  | inter {u : Term S} {us : List (Term S)} (hu : u ∈ us) (h : Subterm t u) : Subterm t (inter us)
  | compl {u : Term S} (h : Subterm t u) : Subterm t (compl u)
  | star {u : Term S} (h : Subterm t u) : Subterm t (star u)

/-- A node that could not be simplified.  Members of alternations and intersections are in order and
each is there once. -/
def Normal : Term S → Prop
  | eps | empty | all => True
  | literal set => SetAlgebra.isEmpty set = false
  | alt ts => 2 ≤ ts.length ∧ Increasing ts ∧ (ts.filterMap literal?).length ≤ 1 ∧
      (∀ t ∈ ts, t ≠ empty ∧ t ≠ all ∧ ∀ us, t ≠ alt us) ∧
      (eps ∈ ts → ∀ t ∈ ts, t.nullable = true → t = eps)
  | seq ts => 2 ≤ ts.length ∧ ∀ t ∈ ts, t ≠ eps ∧ t ≠ empty ∧ ∀ us, t ≠ seq us
  | inter ts => 2 ≤ ts.length ∧ Increasing ts ∧ (ts.filterMap literal?).length ≤ 1 ∧
      (∀ t ∈ ts, t ≠ eps ∧ t ≠ empty ∧ t ≠ all ∧ ∀ us, t ≠ inter us) ∧
      SetAlgebra.isEmpty (interAll (ts.filterMap firstSet?)) = false
  | compl t => t ≠ eps ∧ t ≠ empty ∧ t ≠ all ∧ ∀ u, t ≠ compl u
  | star t => (t ≠ eps ∧ t ≠ empty ∧ t ≠ all ∧ ∀ u, t ≠ star u) ∧
      (∀ set, t = literal set → SetAlgebra.isEmpty (SetAlgebra.compl set) = false) ∧
      ∀ us, t = alt us → eps ∉ us

/-- The same node, built from its members by the function for its kind. -/
def again : Term S → Term S
  | eps => eps
  | empty => empty
  | all => all
  | literal set => ofSet set
  | alt ts => oneOf ts
  | seq ts => concat ts
  | inter ts => allOf ts
  | compl t => complement t
  | star t => closure t

variable {t u : Term S}

theorem Canonical.of_subterm (ht : Canonical t) (h : Subterm u t) : Canonical u := by
  induction h with
  | refl => exact ht
  | alt hu _ ih =>
    cases ht with
    | alt members => exact ih (members _ hu)
  | seq hu _ ih =>
    cases ht with
    | seq members => exact ih (members _ hu)
  | inter hu _ ih =>
    cases ht with
    | inter members => exact ih (members _ hu)
  | compl _ ih =>
    cases ht with
    | compl body => exact ih body
  | star _ ih =>
    cases ht with
    | star body => exact ih body

variable {E : Type v} [Membership E S] [Std.LawfulEqOrd S]

theorem Canonical.normal [LawfulSetAlgebra S E] (ht : Canonical t) : t.Normal := by
  cases ht with
  | eps => trivial
  | empty => trivial
  | all => trivial
  | literal inhabited => exact inhabited
  | alt members two shape =>
    exact ⟨two, shape.increasing,
      length_filterMap_literal?_le_one shape.increasing.nodup shape.literals, shape.flat,
      shape.epsilon⟩
  | seq members two flat => exact ⟨two, flat⟩
  | inter members two shape =>
    refine ⟨two, shape.increasing,
      length_filterMap_literal?_le_one shape.increasing.nodup shape.literals, fun t ht => ?_,
      shape.first⟩
    -- The empty word and `empty` admit no symbol, but all members admit one.
    obtain ⟨e, he⟩ := (isEmpty_interAll_firstSet? (E := E)).mp shape.first
    refine ⟨?_, ?_, shape.flat t ht⟩
    · rintro rfl
      exact not_admits_eps (he _ ht)
    · rintro rfl
      exact not_admits_empty (he _ ht)
  | compl body flat => exact flat
  | star body flat proper epsilon => exact ⟨flat, proper, epsilon⟩

variable [Std.TransOrd S]

theorem Canonical.again_eq [LawfulSetAlgebra S E] (ht : Canonical t) : t.again = t := by
  cases ht with
  | eps => rfl
  | empty => rfl
  | all => rfl
  | literal inhabited => exact if_neg (Bool.eq_false_iff.mp inhabited)
  | alt members two shape =>
    exact (shape.oneOf_eq (E := E) members).trans (ofAlternatives_of_two_le two)
  | seq members two flat => exact concat_eq_seq two flat
  | inter members two shape =>
    exact (shape.allOf_eq (E := E) members).trans (ofConjuncts_of_two_le two)
  | compl body flat => exact complement_of_ne flat
  | star body flat proper epsilon => exact closure_eq_star flat proper epsilon

theorem Canonical.of_part [LawfulSetAlgebra S E] (ht : Canonical t) (h : Subterm u t) :
    Normal u ∧ u.again = u ∧ (u.nullable = true ↔ ([] : List E) ∈ u.language) := by
  have hu := ht.of_subterm h
  exact ⟨hu.normal (E := E), hu.again_eq (E := E), nullable_iff⟩

end Nodes

/-! ### Derivatives by any block -/

section Derivatives

variable [SetAlgebra S] [Ord S] [DecidableEq S] {E : Type v} [Membership E S] {block : S}
  {t d : Term S} {ts ds : List (Term S)}

omit [Ord S] [DecidableEq S] in
theorem eq_of_derivativeLiteral {set : S} (h : derivativeLiteral block set = .ok d) :
    d = empty ∨ d = eps := by
  rw [derivativeLiteral] at h
  split at h
  · exact .inl (Except.ok.inj h).symm
  · exact .inr (Except.ok.inj h).symm
  · exact .inr (Except.ok.inj h).symm
  · contradiction
  · contradiction

/-- What holds of the derivatives of all members holds of each of them together. -/
theorem forall_mem_derivativeEach {P : Term S → Prop}
    (hts : ∀ t ∈ ts, ∀ d, t.derivative block = .ok d → P d) (h : derivativeEach block ts = .ok ds) :
    ∀ d ∈ ds, P d := by
  induction ts generalizing ds with
  | nil =>
    obtain rfl := Except.ok.inj h
    exact nofun
  | cons t ts ih =>
    obtain ⟨d, hd, h⟩ := exists_of_bind_eq_ok h
    obtain ⟨rest, hrest, h⟩ := exists_of_bind_eq_ok h
    obtain rfl := Except.ok.inj h
    obtain ⟨ht, hts⟩ := List.forall_mem_cons.mp hts
    exact List.forall_mem_cons.mpr ⟨ht d hd, ih hts hrest⟩

/-- An alternative of the derivative of a sequence is the derivative of a member before the members
behind it. -/
theorem forall_mem_derivativeSeq {P : Term S → Prop}
    (hts : ∀ t us, t :: us <:+ ts → ∀ d, t.derivative block = .ok d → P (before d us))
    (h : derivativeSeq block ts = .ok ds) : ∀ d ∈ ds, P d := by
  induction ts generalizing ds with
  | nil =>
    obtain rfl := Except.ok.inj h
    exact nofun
  | cons t ts ih =>
    obtain ⟨d, hd, h⟩ := exists_of_bind_eq_ok h
    have hbefore : P (before d ts) := hts t ts (List.suffix_refl _) d hd
    have hrest := fun u us (hus : u :: us <:+ ts) => hts u us (hus.trans (List.suffix_cons t ts))
    dsimp only at h
    split at h
    · obtain ⟨rest, hds, h⟩ := exists_of_bind_eq_ok h
      obtain rfl := Except.ok.inj h
      exact List.forall_mem_cons.mpr ⟨hbefore, ih hrest hds⟩
    · obtain rfl := Except.ok.inj h
      exact List.forall_mem_singleton.mpr hbefore

variable [Std.TransOrd S] [Std.LawfulEqOrd S]

theorem canonical_derivative [LawfulSetAlgebra S E] (ht : Canonical t)
    (h : t.derivative block = .ok d) : Canonical d := by
  induction ht generalizing d with
  | eps => exact Except.ok.inj h ▸ .empty
  | empty => exact Except.ok.inj h ▸ .empty
  | all => exact Except.ok.inj h ▸ .all
  | literal inhabited =>
    rcases eq_of_derivativeLiteral h with rfl | rfl
    · exact .empty
    · exact .eps
  | alt members two shape ih =>
    obtain ⟨ds, hds, h⟩ := exists_of_bind_eq_ok h
    obtain rfl := Except.ok.inj h
    exact (canonical_oneOf (forall_mem_derivativeEach (fun t ht d => ih t ht) hds)).prune (E := E)
  | seq members two flat ih =>
    have hflat := (Canonical.seq members two flat).flat_of_seq
    obtain ⟨ds, hds, h⟩ := exists_of_bind_eq_ok h
    obtain rfl := Except.ok.inj h
    refine (canonical_oneOf (forall_mem_derivativeSeq (fun t us hus d hd => ?_) hds)).prune (E := E)
    have hbehind : Flat us := fun u hu => hflat u (hus.subset (List.mem_cons_of_mem t hu))
    exact hbehind.canonical_before (ih t (hus.subset (List.mem_cons_self ..)) hd)
  | inter members two shape ih =>
    obtain ⟨ds, hds, h⟩ := exists_of_bind_eq_ok h
    obtain rfl := Except.ok.inj h
    have hmembers := forall_mem_derivativeEach (fun t ht d => ih t ht) hds
    exact (canonical_allOf (E := E) hmembers).prune (E := E)
  | compl body flat ih =>
    obtain ⟨d, hd, h⟩ := exists_of_bind_eq_ok h
    obtain rfl := Except.ok.inj h
    exact (canonical_complement (ih hd)).prune (E := E)
  | star body flat proper epsilon ih =>
    -- The star itself is the only factor behind the derivative of its body.
    have hflat := (Canonical.star body flat proper epsilon).flat_star
    obtain ⟨d, hd, h⟩ := exists_of_bind_eq_ok h
    obtain rfl := Except.ok.inj h
    exact (hflat.canonical_before (ih hd)).prune (E := E)

theorem canonical_derivativeWord [LawfulSetAlgebra S E] {word : List S} (ht : Canonical t)
    (h : t.derivativeWord word = .ok d) : Canonical d := by
  induction word generalizing t with
  | nil => exact Except.ok.inj h ▸ ht
  | cons block word ih =>
    rw [derivativeWord, List.foldlM_cons] at h
    obtain ⟨t', ht', h⟩ := exists_of_bind_eq_ok h
    exact ih (canonical_derivative (E := E) ht ht') h

end Derivatives

end Term

/-! ### Solutions of equations -/

/-- A property of terms that the regular operations keep. -/
structure Term.RegularClosed {S : Type u} [SetAlgebra S] [Ord S] [DecidableEq S]
    (P : Term S → Prop) : Prop where
  empty : P .empty
  eps : P .eps
  ofSet : ∀ set, P (.ofSet set)
  concat : ∀ t u, P t → P u → P (.concat [t, u])
  oneOf : ∀ t u, P t → P u → P (.oneOf [t, u])
  closure : ∀ t, P t → P t.closure

namespace Equation

open Term (RegularClosed)

variable {S : Type u} {P : Term S → Prop} {e e' : Equation S} {es : List (Equation S)} {m : Nat}
  {t : Term S} {cs ds : List (Nat × Term S)}

/-- An equation whose constant and coefficients have a property. -/
structure PartsIn (P : Term S → Prop) (e : Equation S) : Prop where
  constant : P e.constant
  coefficients : ∀ c ∈ e.coefficients, P c.2

theorem PartsIn.of_lookup (h : e.PartsIn P) (ht : e.coefficients.lookup m = some t) : P t := by
  obtain ⟨before, after, heq, -⟩ := List.lookup_eq_some_iff.mp ht
  exact h.coefficients (m, t) (heq ▸ List.mem_append_right before (List.mem_cons_self ..))

variable [SetAlgebra S] [Ord S] [DecidableEq S]

theorem forall_mem_addPath (hP : RegularClosed P) (hcs : ∀ c ∈ cs, P c.2) (ht : P t) :
    ∀ c ∈ addPath m t cs, P c.2 := by
  induction cs with
  | nil => exact List.forall_mem_singleton.mpr ht
  | cons c cs ih =>
    obtain ⟨hc, hcs⟩ := List.forall_mem_cons.mp hcs
    rw [addPath]
    split
    · exact List.forall_mem_cons.mpr ⟨hP.oneOf _ _ ht hc, hcs⟩
    · exact List.forall_mem_cons.mpr ⟨hc, ih hcs⟩

theorem forall_mem_foldl_addPath {via : Term S} (hP : RegularClosed P) (hvia : P via)
    (hds : ∀ d ∈ ds, P d.2) (hcs : ∀ c ∈ cs, P c.2) :
    ∀ c ∈ ds.foldl (fun coefficients (k, t) => addPath k (.concat [via, t]) coefficients) cs,
      P c.2 := by
  induction ds generalizing cs with
  | nil => exact hcs
  | cons d ds ih =>
    obtain ⟨hd, hds⟩ := List.forall_mem_cons.mp hds
    exact ih hds (forall_mem_addPath hP hcs (hP.concat _ _ hvia hd))

theorem PartsIn.withoutLoop (hP : RegularClosed P) (h : e.PartsIn P) :
    (e.withoutLoop m).PartsIn P := by
  rw [Equation.withoutLoop]
  rcases hloop : e.coefficients.lookup m with _ | loop
  · exact h
  · have hagain : P loop.closure := hP.closure _ (h.of_lookup hloop)
    refine ⟨hP.concat _ _ hagain h.constant, List.forall_mem_map.mpr fun c hc => ?_⟩
    exact hP.concat _ _ hagain (h.coefficients c (List.mem_filter.mp hc).1)

theorem PartsIn.substitute (hP : RegularClosed P) (h : e.PartsIn P) (he' : e'.PartsIn P) :
    (substitute m e e').PartsIn P := by
  rw [Equation.substitute]
  rcases hlookup : e'.coefficients.lookup m with _ | via
  · exact he'
  · have hvia : P via := he'.of_lookup hlookup
    have hconstant : P (.concat [via, e.constant]) := hP.concat _ _ hvia h.constant
    refine ⟨hP.oneOf _ _ hconstant he'.constant, ?_⟩
    refine forall_mem_foldl_addPath hP hvia h.coefficients fun c hc => ?_
    exact he'.coefficients c (List.mem_filter.mp hc).1

/-- Each unknown that is eliminated leaves equations with the property. -/
theorem forall_solve (hP : RegularClosed P) (h : ∀ e ∈ es, PartsIn P e) : P (solve es) := by
  fun_induction solve es with
  | case1 => exact hP.empty
  | case2 e => exact (h e (List.mem_cons_self ..)).constant
  | case3 e e' es ih =>
    obtain ⟨he, hes⟩ := List.forall_mem_cons.mp h
    refine ih (List.forall_mem_map.mpr fun e' he' => ?_)
    exact (he.withoutLoop hP).substitute hP (hes e' he')

end Equation

namespace Term

variable {S : Type u} [SetAlgebra S] [Ord S] [DecidableEq S] {P : Term S → Prop}

/-- The term for an automaton is made by the regular operations, whatever its states. -/
theorem RegularClosed.toTerm (hP : RegularClosed P) (a : Automaton S) : P a.toTerm := by
  refine Equation.forall_solve hP fun e he => ?_
  rcases List.mem_cons.mp (List.mem_reverse.mp he) with rfl | he
  · exact ⟨hP.empty, List.forall_mem_singleton.mpr hP.eps⟩
  · obtain ⟨s, -, rfl⟩ := List.mem_map.mp he
    refine ⟨?_, List.forall_mem_map.mpr fun tr _ => hP.ofSet tr.2⟩
    rw [Equation.ofState]
    dsimp only
    split
    · exact hP.eps
    · exact hP.empty

theorem exists_of_rebuild? [Hashable S] {t d : Term S} {fuel : Nat}
    (h : rebuild? fuel t = some d) :
    ∃ a, Automaton.ofTerm? fuel none t = some (.ok a) ∧ a.toTerm = d := by
  rw [rebuild?] at h
  rcases ha : Automaton.ofTerm? fuel none t with _ | e | a
  · rw [ha] at h
    contradiction
  · rw [ha] at h
    contradiction
  · rw [ha] at h
    exact ⟨a, rfl, Option.some.inj h⟩

theorem RegularClosed.of_rebuild? [Hashable S] {t d : Term S} {fuel : Nat} (hP : RegularClosed P)
    (h : rebuild? fuel t = some d) : P d := by
  obtain ⟨a, -, rfl⟩ := exists_of_rebuild? h
  exact hP.toTerm a

theorem regularClosed_canonical {E : Type v} [Membership E S] [LawfulSetAlgebra S E]
    [Std.TransOrd S] [Std.LawfulEqOrd S] : RegularClosed (Canonical : Term S → Prop) where
  empty := .empty
  eps := .eps
  ofSet := canonical_ofSet
  concat _ _ := canonical_concat_pair
  oneOf _ _ ht hu := canonical_oneOf (List.forall_mem_cons.mpr ⟨ht, List.forall_mem_singleton.mpr hu⟩)
  closure _ := canonical_closure (E := E)

end Term

/-! ### Terms of patterns -/

theorem Quantifier.built_apply {t : CharTerm} (ht : t.Built) (q : Quantifier) :
    (q.apply t).Built := by
  cases q with
  | star => exact ht.closure
  | plus => exact ht.plus
  | opt => exact ht.opt
  | rep min max => exact ht.rep min max

namespace Pattern

mutual

theorem built_term : (p : Pattern) → p.term.Built
  | char _ => .ofSet _
  | any => .ofSet _
  | digit => .ofSet _
  | bracket _ _ => .ofSet _
  | quantified item quantifier => quantifier.built_apply (built_term item)
  | seq items => .concat (built_terms items)
  | alt branches => .oneOf (built_terms branches)

theorem built_terms : (ps : List Pattern) → ∀ t ∈ terms ps, t.Built
  | [] => nofun
  | p :: ps => List.forall_mem_cons.mpr ⟨built_term p, built_terms ps⟩

end

end Pattern

theorem Term.built_of_parse {input : String} {t : CharTerm} (h : Term.parse input = .ok t) :
    t.Built := by
  obtain ⟨p, -, rfl⟩ := Term.parse_eq_ok_iff.mp h
  exact p.built_term

/-! ### All that can be obtained -/

namespace Term

section Obtained

variable {S : Type u} [SetAlgebra S] [Ord S] [DecidableEq S] [Hashable S]

/-- Terms that can be made from given ones. -/
inductive Obtained (given : Term S → Prop) : Term S → Prop where
  | given {t : Term S} (h : given t) : Obtained given t
  | eps : Obtained given eps
  | empty : Obtained given empty
  | all : Obtained given all
  | ofSet (set : S) : Obtained given (ofSet set)
  | word (sets : List S) : Obtained given (word sets)
  | concat {ts : List (Term S)} (h : ∀ t ∈ ts, Obtained given t) : Obtained given (concat ts)
  | oneOf {ts : List (Term S)} (h : ∀ t ∈ ts, Obtained given t) : Obtained given (oneOf ts)
  | allOf {ts : List (Term S)} (h : ∀ t ∈ ts, Obtained given t) : Obtained given (allOf ts)
  | complement {t : Term S} (h : Obtained given t) : Obtained given (complement t)
  | closure {t : Term S} (h : Obtained given t) : Obtained given (closure t)
  | plus {t : Term S} (h : Obtained given t) : Obtained given (plus t)
  | opt {t : Term S} (h : Obtained given t) : Obtained given (opt t)
  | rep {t : Term S} (h : Obtained given t) (min : Nat) (max : Option Nat) :
      Obtained given (rep t min max)
  | derivative {t d : Term S} {block : S} (h : Obtained given t)
      (hd : t.derivative block = .ok d) : Obtained given d
  | derivativeWord {t d : Term S} {blocks : List S} (h : Obtained given t)
      (hd : t.derivativeWord blocks = .ok d) : Obtained given d
  | rebuild {t d : Term S} {fuel : Nat} (h : Obtained given t) (hd : rebuild? fuel t = some d) :
      Obtained given d

variable {given : Term S → Prop} {E : Type v} [Membership E S] [Std.TransOrd S]
  [Std.LawfulEqOrd S] {t : Term S}

/-- Nothing leads out of the canonical terms. -/
theorem Obtained.canonical [LawfulSetAlgebra S E] (hgiven : ∀ t, given t → Canonical t)
    (ht : Obtained given t) : Canonical t := by
  induction ht with
  | given h => exact hgiven _ h
  | eps => exact .eps
  | empty => exact .empty
  | all => exact .all
  | ofSet set => exact canonical_ofSet set
  | word sets => exact (Built.word sets).canonical (E := E)
  | concat _ ih => exact canonical_concat ih
  | oneOf _ ih => exact canonical_oneOf ih
  | allOf _ ih => exact canonical_allOf (E := E) ih
  | complement _ ih => exact canonical_complement ih
  | closure _ ih => exact canonical_closure (E := E) ih
  | plus _ ih => exact canonical_plus (E := E) ih
  | opt _ ih => exact canonical_opt ih
  | rep _ min max ih => exact canonical_rep (E := E) ih min max
  | derivative _ hd ih => exact canonical_derivative (E := E) ih hd
  | derivativeWord _ hd ih => exact canonical_derivativeWord (E := E) ih hd
  | rebuild _ hd _ => exact (regularClosed_canonical (E := E)).of_rebuild? hd

end Obtained

/-- Every part of an obtained term is normal and is what its members are built to again, and it is
kept of it rightly whether the empty word matches.  Patterns may take part, over characters. -/
theorem normal_of_obtained {S : Type u} {E : Type v} [SetAlgebra S] [Membership E S]
    [LawfulSetAlgebra S E] [Ord S] [DecidableEq S] [Std.TransOrd S] [Std.LawfulEqOrd S]
    [Hashable S] :
    (∀ t : Term S, Obtained (fun _ => False) t → ∀ u, Subterm u t →
      Normal u ∧ u.again = u ∧ (u.nullable = true ↔ ([] : List E) ∈ u.language)) ∧
    ∀ [Hashable Char] (t : CharTerm), Obtained (fun t => ∃ input, Term.parse input = .ok t) t →
      ∀ u, Subterm u t →
        Normal u ∧ u.again = u ∧ (u.nullable = true ↔ ([] : List Char) ∈ u.language) := by
  constructor
  · intro t ht u hu
    exact (ht.canonical (E := E) fun _ h => h.elim).of_part hu
  · intro _ t ht u hu
    refine (ht.canonical (E := Char) ?_).of_part hu
    rintro t ⟨input, h⟩
    exact (built_of_parse h).canonical (E := Char)

/-- What a complement is rebuilt to is normal. -/
theorem normal_of_obtained_complement :
    ∃ bound, ∀ fuel ≥ bound, ∃ d, rebuild? fuel (complement (ofSet (⟨1#8⟩ : Mask))) = some d ∧
      Normal d ∧ d.again = d := by
  have ht : Obtained (fun _ => False) (complement (ofSet (⟨1#8⟩ : Mask))) :=
    (Obtained.ofSet _).complement
  have hcanonical := ht.canonical (E := Fin 8) fun _ h => h.elim
  obtain ⟨bound, hbound⟩ := Automaton.exists_bound_ofTerm? (Fin 8) hcanonical
  refine ⟨bound, fun fuel hfuel => ?_⟩
  obtain ⟨a, ha⟩ := hbound fuel hfuel
  have hd : rebuild? fuel (complement (ofSet (⟨1#8⟩ : Mask))) = some a.toTerm := by
    rw [rebuild?, ha]
  obtain ⟨hnormal, hagain, -⟩ :=
    (normal_of_obtained (S := Mask) (E := Fin 8)).1 _ (ht.rebuild hd) _ .refl
  exact ⟨a.toTerm, hd, hnormal, hagain⟩

end Term

end ExtendedRegex
