/-
The members that alternations and intersections end up with.

`oneOf` and `allOf` flatten their arguments into parts, and keep some of the
parts as members.  Everything that is proved of them goes through two equations:

* `oneOf_eq`: unless a part is `all`, the result is the alternation of
  `unionMembers`;
* `allOf_eq`: if every part admits a common first symbol, the result is the
  intersection of `meetMembers`, and otherwise it is `eps` or `empty`.

Design notes: `Admits t e` says that the first set of `t` does not exclude the
symbol `e`.  Neither `eps` nor `empty` admits a symbol, so the special treatment of
these two in an intersection is the same case as that of disjoint first sets.
-/
import ExtendedRegex.Term.Build

universe u v

namespace ExtendedRegex

theorem exists_mem_flatMap {α : Type u} {β : Type v} {f : α → List β} {xs : List α} {P : β → Prop} :
    (∃ b ∈ xs.flatMap f, P b) ↔ ∃ x ∈ xs, ∃ b ∈ f x, P b := by
  constructor
  · rintro ⟨b, hb, hP⟩
    obtain ⟨x, hx, hb⟩ := List.mem_flatMap.mp hb
    exact ⟨x, hx, b, hb, hP⟩
  · rintro ⟨x, hx, b, hb, hP⟩
    exact ⟨b, List.mem_flatMap.mpr ⟨x, hx, hb⟩, hP⟩

namespace SetAlgebra

variable {S : Type u} {E : Type v} [SetAlgebra S] [Membership E S] [LawfulSetAlgebra S E]

open LawfulSetAlgebra (mem_union mem_inter mem_full not_mem_empty)

theorem mem_unionAll {sets : List S} {e : E} : e ∈ unionAll sets ↔ ∃ set ∈ sets, e ∈ set := by
  induction sets with
  | nil => simp [unionAll, not_mem_empty]
  | cons a sets ih =>
    rw [unionAll, List.foldr_cons, mem_union, ← unionAll, ih]
    simp

theorem mem_interAll {sets : List S} {e : E} : e ∈ interAll sets ↔ ∀ set ∈ sets, e ∈ set := by
  induction sets with
  | nil => simp [interAll, mem_full]
  | cons a sets ih =>
    rw [interAll, List.foldr_cons, mem_inter, ← interAll, ih]
    simp

/-- A set that is not empty has a symbol. -/
theorem isEmpty_eq_false_iff {a : S} : isEmpty a = false ↔ ∃ e : E, e ∈ a := by
  rw [← Bool.not_eq_true, LawfulSetAlgebra.isEmpty_iff, Classical.not_forall]
  exact exists_congr fun e => Classical.not_not

end SetAlgebra

namespace Term

open SetAlgebra (unionAll interAll mem_unionAll mem_interAll isEmpty_eq_false_iff)

variable {S : Type u}

@[simp] theorem isEps_iff {t : Term S} : t.isEps = true ↔ t = eps := by cases t <;> simp [isEps]

@[simp] theorem isEmpty_iff {t : Term S} : t.isEmpty = true ↔ t = empty := by
  cases t <;> simp [isEmpty]

@[simp] theorem isAll_iff {t : Term S} : t.isAll = true ↔ t = all := by cases t <;> simp [isAll]

@[simp] theorem literal?_eq_some_iff {t : Term S} {set : S} :
    t.literal? = some set ↔ t = literal set := by
  cases t <;> simp [literal?]

theorem mem_filterMap_literal? {ts : List (Term S)} {set : S} :
    set ∈ ts.filterMap literal? ↔ literal set ∈ ts := by
  rw [List.mem_filterMap]
  constructor
  · rintro ⟨t, ht, h⟩
    exact literal?_eq_some_iff.mp h ▸ ht
  · exact fun h => ⟨_, h, rfl⟩

/-- A term that is not compound is `eps`, `empty`, `all` or a literal. -/
theorem cases_of_not_isCompound {t : Term S} (h : t.isCompound = false) :
    t = eps ∨ t = empty ∨ t = all ∨ ∃ set, t = literal set := by
  cases t <;> simp_all [isCompound]

/-- The only nullable terms are `eps`, `all` and compound ones. -/
theorem cases_of_nullable {t : Term S} (h : t.nullable = true) (hall : t ≠ all) :
    t = eps ∨ t.isCompound = true := by
  by_cases hc : t.isCompound = true
  · exact .inr hc
  · rcases cases_of_not_isCompound (Bool.not_eq_true _ ▸ hc) with rfl | rfl | rfl | ⟨a, rfl⟩
    · exact .inl rfl
    · simp at h
    · contradiction
    · simp at h

theorem alternatives_of_ne_alt {t : Term S} (h : ∀ ts, t ≠ alt ts) : t.alternatives = [t] := by
  cases t <;> first | rfl | exact absurd rfl (h _)

theorem factors_of_ne_seq {t : Term S} (heps : t ≠ eps) (h : ∀ ts, t ≠ seq ts) :
    t.factors = [t] := by
  cases t <;> first | rfl | exact absurd rfl (h _) | exact absurd rfl heps

theorem conjuncts_of_ne_inter {t : Term S} (hall : t ≠ all) (h : ∀ ts, t ≠ inter ts) :
    t.conjuncts = [t] := by
  cases t <;> first | rfl | exact absurd rfl (h _) | exact absurd rfl hall

theorem ofAlternatives_of_two_le {ts : List (Term S)} (h : 2 ≤ ts.length) :
    ofAlternatives ts = alt ts := by
  match ts with
  | t :: u :: ts => rfl

theorem ofFactors_of_two_le {ts : List (Term S)} (h : 2 ≤ ts.length) :
    ofFactors ts = seq ts := by
  match ts with
  | t :: u :: ts => rfl

theorem ofConjuncts_of_two_le {ts : List (Term S)} (h : 2 ≤ ts.length) :
    ofConjuncts ts = inter ts := by
  match ts with
  | t :: u :: ts => rfl

theorem alternatives_ofAlternatives {ts : List (Term S)} (h : ∀ t ∈ ts, ∀ us, t ≠ alt us)
    (hne : ts ≠ []) : (ofAlternatives ts).alternatives = ts := by
  match ts with
  | [] => contradiction
  | [t] => exact alternatives_of_ne_alt (h t (List.mem_singleton_self t))
  | t :: u :: ts => rfl

theorem factors_ofFactors {ts : List (Term S)} (h : ∀ t ∈ ts, t ≠ eps ∧ ∀ us, t ≠ seq us) :
    (ofFactors ts).factors = ts := by
  match ts with
  | [] => rfl
  | [t] =>
    obtain ⟨heps, hseq⟩ := h t (List.mem_singleton_self t)
    exact factors_of_ne_seq heps hseq
  | t :: u :: ts => rfl

theorem conjuncts_ofConjuncts {ts : List (Term S)} (h : ∀ t ∈ ts, t ≠ all ∧ ∀ us, t ≠ inter us) :
    (ofConjuncts ts).conjuncts = ts := by
  match ts with
  | [] => rfl
  | [t] =>
    obtain ⟨hall, hinter⟩ := h t (List.mem_singleton_self t)
    exact conjuncts_of_ne_inter hall hinter
  | t :: u :: ts => rfl

theorem concat_of_empty_mem {ts : List (Term S)} (h : empty ∈ ts.flatMap factors) :
    concat ts = empty :=
  if_pos (List.any_eq_true.mpr ⟨empty, h, rfl⟩)

theorem concat_of_empty_not_mem {ts : List (Term S)} (h : empty ∉ ts.flatMap factors) :
    concat ts = ofFactors (ts.flatMap factors) := by
  refine if_neg fun h' => ?_
  obtain ⟨t, ht, hempty⟩ := List.any_eq_true.mp h'
  exact h (isEmpty_iff.mp hempty ▸ ht)

theorem power_zero (t : Term S) : power t 0 = eps := by
  cases t <;> exact if_pos rfl

theorem power_eps (n : Nat) : power (eps : Term S) n = eps := by
  rw [power]
  split <;> rfl

theorem power_empty {n : Nat} (hn : n ≠ 0) : power (empty : Term S) n = empty := if_neg hn

theorem power_of_ne {t : Term S} (heps : t ≠ eps) (hempty : t ≠ empty) {n : Nat} (hn : n ≠ 0) :
    power t n = ofFactors (List.replicate n t.factors).flatten := by
  cases t <;> first | exact absurd rfl heps | exact absurd rfl hempty | exact if_neg hn

/-- The factors of a power are those of the term, several times over. -/
theorem mem_factors_of_mem_replicate {t p : Term S} {n : Nat}
    (hp : p ∈ (List.replicate n t.factors).flatten) : p ∈ t.factors := by
  obtain ⟨ps, hps, hp⟩ := List.mem_flatten.mp hp
  rwa [(List.mem_replicate.mp hps).2] at hp

@[simp] theorem before_empty {ts : List (Term S)} : before (empty : Term S) ts = empty := rfl

theorem before_of_ne {t : Term S} {ts : List (Term S)} (h : t ≠ empty) :
    before t ts = ofFactors (t.factors ++ ts) :=
  if_neg (mt isEmpty_iff.mp h)

theorem all_nullable_factors {t : Term S} : t.factors.all nullable = t.nullable := by
  cases t <;> simp [factors]

theorem any_nullable_alternatives {t : Term S} : t.alternatives.any nullable = t.nullable := by
  cases t <;> simp [alternatives]

theorem not_nullable_of_mem_alternatives {t : Term S} (h : t.nullable = false) :
    ∀ u ∈ t.alternatives, u.nullable = false ∧ u ≠ eps := by
  have hnone : ∀ u ∈ t.alternatives, u.nullable = false := by
    simpa using any_nullable_alternatives.trans h
  refine fun u hu => ⟨hnone u hu, ?_⟩
  rintro rfl
  simpa using hnone _ hu

/-! ### Properties that a term shares with its members -/

section Inherited

variable {P : Term S → Prop} {t : Term S} {ts : List (Term S)}

theorem forall_mem_alternatives (halt : ∀ us, P (alt us) → ∀ u ∈ us, P u) (h : P t) :
    ∀ p ∈ t.alternatives, P p := by
  cases t with
  | alt us => exact halt us h
  | _ => exact fun p hp => List.mem_singleton.mp hp ▸ h

theorem forall_mem_factors (hseq : ∀ us, P (seq us) → ∀ u ∈ us, P u) (h : P t) :
    ∀ p ∈ t.factors, P p := by
  cases t with
  | seq us => exact hseq us h
  | eps => exact fun p hp => absurd hp List.not_mem_nil
  | _ => exact fun p hp => List.mem_singleton.mp hp ▸ h

theorem forall_mem_conjuncts (hinter : ∀ us, P (inter us) → ∀ u ∈ us, P u) (h : P t) :
    ∀ p ∈ t.conjuncts, P p := by
  cases t with
  | inter us => exact hinter us h
  | all => exact fun p hp => absurd hp List.not_mem_nil
  | _ => exact fun p hp => List.mem_singleton.mp hp ▸ h

theorem ofAlternatives_of_forall (hempty : P empty) (halt : ∀ us, (∀ u ∈ us, P u) → P (alt us))
    (h : ∀ t ∈ ts, P t) : P (ofAlternatives ts) := by
  match ts with
  | [] => exact hempty
  | [t] => exact h t (List.mem_singleton_self t)
  | t :: u :: ts => exact halt _ h

theorem ofFactors_of_forall (heps : P eps) (hseq : ∀ us, (∀ u ∈ us, P u) → P (seq us))
    (h : ∀ t ∈ ts, P t) : P (ofFactors ts) := by
  match ts with
  | [] => exact heps
  | [t] => exact h t (List.mem_singleton_self t)
  | t :: u :: ts => exact hseq _ h

theorem ofConjuncts_of_forall (hall : P all) (hinter : ∀ us, (∀ u ∈ us, P u) → P (inter us))
    (h : ∀ t ∈ ts, P t) : P (ofConjuncts ts) := by
  match ts with
  | [] => exact hall
  | [t] => exact h t (List.mem_singleton_self t)
  | t :: u :: ts => exact hinter _ h

theorem before_of_forall (hempty : P empty) (heps : P eps)
    (hseq : ∀ us, P (seq us) ↔ ∀ u ∈ us, P u) (ht : P t) (h : ∀ t ∈ ts, P t) :
    P (before t ts) := by
  by_cases hne : t = empty
  · rw [hne, before_empty]
    exact hempty
  · rw [before_of_ne hne]
    refine ofFactors_of_forall heps (fun us => (hseq us).mpr) fun p hp => ?_
    rcases List.mem_append.mp hp with hp | hp
    · exact forall_mem_factors (fun us => (hseq us).mp) ht p hp
    · exact h p hp

end Inherited

section Plain

variable {t : Term S} {ts : List (Term S)}

theorem plain_alt_iff : (alt ts).plain = true ↔ ∀ t ∈ ts, t.plain = true := by
  rw [plain_alt, List.all_eq_true]

theorem plain_seq_iff : (seq ts).plain = true ↔ ∀ t ∈ ts, t.plain = true := by
  rw [plain_seq, List.all_eq_true]

theorem plain_of_mem_alternatives (h : t.plain = true) : ∀ p ∈ t.alternatives, p.plain = true :=
  forall_mem_alternatives (fun _ => plain_alt_iff.mp) h

theorem plain_of_mem_factors (h : t.plain = true) : ∀ p ∈ t.factors, p.plain = true :=
  forall_mem_factors (fun _ => plain_seq_iff.mp) h

theorem plain_ofAlternatives (h : ∀ t ∈ ts, t.plain = true) : (ofAlternatives ts).plain = true :=
  ofAlternatives_of_forall (P := fun t => t.plain = true) plain_empty (fun _ => plain_alt_iff.mpr) h

theorem plain_ofFactors (h : ∀ t ∈ ts, t.plain = true) : (ofFactors ts).plain = true :=
  ofFactors_of_forall (P := fun t => t.plain = true) plain_eps (fun _ => plain_seq_iff.mpr) h

theorem plain_before (ht : t.plain = true) (h : ∀ t ∈ ts, t.plain = true) :
    (before t ts).plain = true :=
  before_of_forall (P := fun t => t.plain = true) plain_empty plain_eps (fun _ => plain_seq_iff) ht h

end Plain

theorem complement_of_ne [SetAlgebra S] {t : Term S}
    (h : t ≠ eps ∧ t ≠ empty ∧ t ≠ all ∧ ∀ u, t ≠ compl u) : complement t = compl t := by
  obtain ⟨heps, hempty, hall, hcompl⟩ := h
  cases t <;> first | rfl | contradiction | exact absurd rfl (hcompl _)

/-- Flattening changes nothing in a list of parts. -/
theorem flatMap_eq_self {f : Term S → List (Term S)} {ts : List (Term S)}
    (h : ∀ t ∈ ts, f t = [t]) : ts.flatMap f = ts := by
  rw [List.flatMap_def, List.map_congr_left h, ← List.flatMap_def, List.flatMap_singleton']

theorem kind_pos {t : Term S} (h : t ≠ eps) : 0 < t.kind := by
  cases t <;> first | contradiction | exact Nat.succ_pos _

/-- In the order of kinds, compound terms come after literals. -/
theorem kind_of_isCompound {t : Term S} (h : t.isCompound = true) : 3 < t.kind := by
  cases t <;> simp_all [isCompound, kind]

/-- Only from an alternation with the member `eps` is anything taken away. -/
theorem closure_cases [SetAlgebra S] [Ord S] [DecidableEq S] (t : Term S) :
    (∀ us, t = alt us → eps ∉ us) ∧ closure t = starOf t ∨
    ∃ us, t = alt us ∧ eps ∈ us ∧ closure t = starOf (oneOf (us.filter fun u => !u.isEps)) := by
  by_cases h : ∃ us, t = alt us ∧ eps ∈ us
  · obtain ⟨us, rfl, heps⟩ := h
    exact .inr ⟨us, rfl, heps, if_pos (List.any_eq_true.mpr ⟨eps, heps, rfl⟩)⟩
  · refine .inl ⟨fun us hus heps => h ⟨us, hus, heps⟩, ?_⟩
    cases t with
    | alt us =>
      refine if_neg fun hany => ?_
      obtain ⟨u, hu, hueps⟩ := List.any_eq_true.mp hany
      exact h ⟨us, rfl, isEps_iff.mp hueps ▸ hu⟩
    | _ => rfl

section Sorted

variable [DecidableEq S]

theorem mem_dropRepeats {t : Term S} {ts : List (Term S)} : t ∈ dropRepeats ts ↔ t ∈ ts := by
  fun_induction dropRepeats ts with
  | case1 => rfl
  | case2 => rfl
  | case3 u ts ih => rw [ih, List.mem_cons, List.mem_cons, List.mem_cons, or_self_left]
  | case4 u v ts _ ih => rw [List.mem_cons, ih, ← List.mem_cons]

@[simp] theorem mem_sortMembers [Ord S] {t : Term S} {ts : List (Term S)} :
    t ∈ sortMembers ts ↔ t ∈ ts := by
  rw [sortMembers, mem_dropRepeats, List.mem_mergeSort]

end Sorted

section Algebra

variable [SetAlgebra S]

theorem mem_literalMember {t : Term S} {set : S} :
    t ∈ literalMember set ↔ t = literal set ∧ SetAlgebra.isEmpty set = false := by
  rw [literalMember]
  split <;> simp_all

section Literals

variable {E : Type v} [Membership E S] [LawfulSetAlgebra S E] {parts : List (Term S)} {e : E}

theorem mem_unionAll_literals :
    e ∈ unionAll (parts.filterMap literal?) ↔ ∃ a, literal a ∈ parts ∧ e ∈ a := by
  rw [mem_unionAll]
  simp only [mem_filterMap_literal?]

theorem mem_interAll_literals :
    e ∈ interAll (parts.filterMap literal?) ↔ ∀ a, literal a ∈ parts → e ∈ a := by
  rw [mem_interAll]
  simp only [mem_filterMap_literal?]

end Literals

theorem complement_eps {E : Type v} [Membership E S] [LawfulSetAlgebra S E] :
    complement (eps : Term S) = seq [literal SetAlgebra.full, all] := by
  obtain ⟨e⟩ := LawfulSetAlgebra.nonempty (S := S) (E := E)
  have hfull : SetAlgebra.isEmpty (SetAlgebra.full : S) = false :=
    isEmpty_eq_false_iff.mpr ⟨e, LawfulSetAlgebra.mem_full e⟩
  rw [complement, ofSet, if_neg (by simp [hfull])]
  rfl

end Algebra

section Union

variable [SetAlgebra S] [Ord S] [DecidableEq S]

/-- The members of the alternation of some parts, none of which is `all`. -/
def unionMembers (parts : List (Term S)) : List (Term S) :=
  let compounds := sortMembers (parts.filter isCompound)
  (if parts.any isEps && !compounds.any nullable then [eps] else []) ++
    literalMember (unionAll (parts.filterMap literal?)) ++ compounds

theorem oneOf_of_all_mem {ts : List (Term S)} (h : all ∈ ts.flatMap alternatives) :
    oneOf ts = all :=
  if_pos (List.any_eq_true.mpr ⟨all, h, rfl⟩)

theorem oneOf_of_all_not_mem {ts : List (Term S)} (h : all ∉ ts.flatMap alternatives) :
    oneOf ts = ofAlternatives (unionMembers (ts.flatMap alternatives)) := by
  refine if_neg fun h' => ?_
  obtain ⟨t, ht, hall⟩ := List.any_eq_true.mp h'
  exact h (isAll_iff.mp hall ▸ ht)

theorem mem_unionMembers {parts : List (Term S)} {t : Term S} :
    t ∈ unionMembers parts ↔
      (t = eps ∧ eps ∈ parts ∧ ∀ p ∈ parts, p.isCompound = true → p.nullable = false) ∨
      (∃ set, t = literal set ∧ set = unionAll (parts.filterMap literal?) ∧
        SetAlgebra.isEmpty set = false) ∨
      t.isCompound = true ∧ t ∈ parts := by
  have heps : parts.any isEps = true ↔ eps ∈ parts := by simp
  have hnull : (!(sortMembers (parts.filter isCompound)).any nullable) = true ↔
      ∀ p ∈ parts, p.isCompound = true → p.nullable = false := by simp
  rw [unionMembers, List.mem_append, List.mem_append, mem_literalMember, or_assoc]
  refine or_congr ?_ (or_congr ?_ ?_)
  · rw [← heps, ← hnull, ← Bool.and_eq_true]
    split <;> simp_all
  · constructor
    · rintro ⟨rfl, h⟩
      exact ⟨_, rfl, rfl, h⟩
    · rintro ⟨set, rfl, rfl, h⟩
      exact ⟨rfl, h⟩
  · rw [mem_sortMembers, List.mem_filter, and_comm]

variable {parts : List (Term S)} {t : Term S}

theorem mem_unionMembers_of_isCompound (hc : t.isCompound = true) :
    t ∈ unionMembers parts ↔ t ∈ parts := by
  rw [mem_unionMembers]
  constructor
  · rintro (⟨rfl, -⟩ | ⟨set, rfl, -⟩ | ⟨-, h⟩)
    · contradiction
    · contradiction
    · exact h
  · exact fun h => .inr (.inr ⟨hc, h⟩)

theorem eq_of_literal_mem_unionMembers {a : S} (h : literal a ∈ unionMembers parts) :
    a = unionAll (parts.filterMap literal?) := by
  rcases mem_unionMembers.mp h with ⟨h, -⟩ | ⟨set, hset, heq, -⟩ | ⟨h, -⟩
  · contradiction
  · exact (literal.inj hset).trans heq
  · contradiction

/-- The literals of an alternation are joined into one member, if they have a symbol. -/
theorem literal_mem_unionMembers {E : Type v} [Membership E S] [LawfulSetAlgebra S E] {e : E}
    (he : e ∈ unionAll (parts.filterMap literal?)) :
    literal (unionAll (parts.filterMap literal?)) ∈ unionMembers parts :=
  mem_unionMembers.mpr (.inr (.inl ⟨_, rfl, rfl, isEmpty_eq_false_iff.mpr ⟨e, he⟩⟩))

/-- A member stands for the part `eps`: `eps` itself, unless a compound member is nullable. -/
theorem exists_nullable_mem_unionMembers (h : eps ∈ parts) :
    ∃ t ∈ unionMembers parts, t.nullable = true := by
  by_cases hsome : ∃ p ∈ parts, p.isCompound = true ∧ p.nullable = true
  · obtain ⟨p, hp, hc, hnull⟩ := hsome
    exact ⟨p, (mem_unionMembers_of_isCompound hc).mpr hp, hnull⟩
  · refine ⟨eps, mem_unionMembers.mpr (.inl ⟨rfl, h, fun p hp hc => ?_⟩), nullable_eps⟩
    exact Bool.eq_false_iff.mpr fun hnull => hsome ⟨p, hp, hc, hnull⟩

end Union

section Meet

variable [SetAlgebra S]

/-- The first set of the term, if it is known, has the symbol. -/
def Admits {E : Type v} [Membership E S] (t : Term S) (e : E) : Prop :=
  ∀ first, t.firstSet? = some first → e ∈ first

section Admits

variable {E : Type v} [Membership E S] {e : E}

theorem admits_iff {t : Term S} : t.Admits e ↔ (t.plain = true → e ∈ t.firstBound) := by
  rw [Admits, firstSet?]
  split <;> simp_all

@[simp] theorem admits_literal {set : S} : (literal set).Admits e ↔ e ∈ set := by
  rw [admits_iff, firstBound]
  simp

variable [LawfulSetAlgebra S E]

/-- The first sets that are known leave a symbol exactly when all the terms admit it. -/
theorem mem_interAll_firstSet? {ts : List (Term S)} :
    e ∈ interAll (ts.filterMap firstSet?) ↔ ∀ t ∈ ts, t.Admits e := by
  rw [mem_interAll]
  simp only [List.mem_filterMap]
  constructor
  · exact fun h t ht first hfirst => h first ⟨t, ht, hfirst⟩
  · rintro h first ⟨t, ht, hfirst⟩
    exact h t ht first hfirst

theorem isEmpty_interAll_firstSet? {ts : List (Term S)} :
    SetAlgebra.isEmpty (interAll (ts.filterMap firstSet?)) = false ↔
      ∃ e : E, ∀ t ∈ ts, t.Admits e := by
  rw [isEmpty_eq_false_iff]
  exact exists_congr fun e => mem_interAll_firstSet?

@[simp] theorem not_admits_eps : ¬ (eps : Term S).Admits e := by
  rw [admits_iff, firstBound]
  simp [LawfulSetAlgebra.not_mem_empty]

@[simp] theorem not_admits_empty : ¬ (empty : Term S).Admits e := by
  rw [admits_iff, firstBound]
  simp [LawfulSetAlgebra.not_mem_empty]

@[simp] theorem admits_all : (all : Term S).Admits e := by
  rw [admits_iff, firstBound]
  exact fun _ => LawfulSetAlgebra.mem_full e

/-- A term that admits a symbol is `all`, a literal or compound. -/
theorem Admits.cases {t : Term S} (h : t.Admits e) :
    t.isCompound = true ∨ t = all ∨ ∃ a, t = literal a := by
  by_cases hc : t.isCompound = true
  · exact .inl hc
  · rcases cases_of_not_isCompound (Bool.not_eq_true _ ▸ hc) with rfl | rfl | rfl | ⟨a, rfl⟩
    · exact absurd h not_admits_eps
    · exact absurd h not_admits_empty
    · exact .inr (.inl rfl)
    · exact .inr (.inr ⟨a, rfl⟩)

end Admits

variable [Ord S] [DecidableEq S]

/-- The members of the intersection of some parts which admit a common first symbol. -/
def meetMembers (parts : List (Term S)) : List (Term S) :=
  let sets := parts.filterMap literal?
  (if sets.isEmpty then [] else literalMember (interAll sets)) ++
    sortMembers (parts.filter isCompound)

theorem mem_meetMembers {parts : List (Term S)} {t : Term S} :
    t ∈ meetMembers parts ↔
      (∃ set, t = literal set ∧ set = interAll (parts.filterMap literal?) ∧
        (∃ a, literal a ∈ parts) ∧ SetAlgebra.isEmpty set = false) ∨
      t.isCompound = true ∧ t ∈ parts := by
  have hsets : (parts.filterMap literal?).isEmpty = false ↔ ∃ a, literal a ∈ parts := by
    rw [List.isEmpty_eq_false_iff_exists_mem]
    exact exists_congr fun a => mem_filterMap_literal?
  rw [meetMembers, List.mem_append]
  refine or_congr ?_ ?_
  · rw [← hsets]
    split
    · simp_all
    · rw [mem_literalMember]
      constructor
      · rintro ⟨rfl, h⟩
        exact ⟨_, rfl, rfl, by simp_all, h⟩
      · rintro ⟨set, rfl, rfl, -, h⟩
        exact ⟨rfl, h⟩
  · rw [mem_sortMembers, List.mem_filter, and_comm]

theorem mem_meetMembers_of_isCompound {parts : List (Term S)} {t : Term S}
    (hc : t.isCompound = true) : t ∈ meetMembers parts ↔ t ∈ parts := by
  rw [mem_meetMembers]
  constructor
  · rintro (⟨set, rfl, -⟩ | ⟨-, h⟩)
    · contradiction
    · exact h
  · exact fun h => .inr ⟨hc, h⟩

theorem of_literal_mem_meetMembers {parts : List (Term S)} {a : S}
    (h : literal a ∈ meetMembers parts) :
    a = interAll (parts.filterMap literal?) ∧ ∃ b, literal b ∈ parts := by
  rcases mem_meetMembers.mp h with ⟨set, hset, heq, hb, -⟩ | ⟨hc, -⟩
  · exact ⟨(literal.inj hset).trans heq, hb⟩
  · contradiction

variable {E : Type v} [Membership E S] [LawfulSetAlgebra S E]

/-- The literals of parts that admit a common symbol are joined into one member. -/
theorem literal_mem_meetMembers {parts : List (Term S)} {f : E} (hf : ∀ p ∈ parts, p.Admits f)
    {a : S} (ha : literal a ∈ parts) :
    literal (interAll (parts.filterMap literal?)) ∈ meetMembers parts := by
  refine mem_meetMembers.mpr (.inl ⟨_, rfl, rfl, ⟨a, ha⟩, ?_⟩)
  exact isEmpty_eq_false_iff.mpr ⟨f, mem_interAll_literals.mpr fun b hb =>
    admits_literal.mp (hf _ hb)⟩

/-- The test of `allOf` on known first sets, for parts other than `eps` and `empty`. -/
theorem isEmpty_interAll_firstSets {parts : List (Term S)} (heps : eps ∉ parts)
    (hempty : empty ∉ parts) :
    SetAlgebra.isEmpty (interAll (parts.filterMap literal? ++
      (sortMembers (parts.filter isCompound)).filterMap firstSet?)) = true ↔
      ¬ ∃ e : E, ∀ p ∈ parts, p.Admits e := by
  rw [LawfulSetAlgebra.isEmpty_iff, not_exists]
  refine forall_congr' fun e => not_congr ?_
  -- Compound parts are tested by their first sets, literals as they are, and `all` admits all.
  rw [mem_interAll]
  simp only [List.mem_append, mem_filterMap_literal?]
  simp only [List.mem_filterMap, mem_sortMembers, List.mem_filter]
  constructor
  · intro h p hp first hfirst
    by_cases hc : p.isCompound = true
    · exact h first (.inr ⟨p, ⟨hp, hc⟩, hfirst⟩)
    · rcases cases_of_not_isCompound (Bool.not_eq_true _ ▸ hc) with rfl | rfl | rfl | ⟨a, rfl⟩
      · exact absurd hp heps
      · exact absurd hp hempty
      · exact admits_all first hfirst
      · exact admits_literal.mpr (h a (.inl hp)) first hfirst
  · rintro h set (hset | ⟨p, ⟨hp, -⟩, hfirst⟩)
    · exact admits_literal.mp (h _ hset)
    · exact h p hp set hfirst

/-- An intersection whose parts admit a common first symbol keeps its members. -/
theorem allOf_of_admits {ts : List (Term S)}
    (h : ∃ e : E, ∀ p ∈ ts.flatMap conjuncts, p.Admits e) :
    allOf ts = ofConjuncts (meetMembers (ts.flatMap conjuncts)) := by
  obtain ⟨e, he⟩ := h
  -- None of the tests of `allOf` applies: neither `eps` nor `empty` admits the symbol.
  have heps : eps ∉ ts.flatMap conjuncts := fun h => not_admits_eps (he eps h)
  have hempty : empty ∉ ts.flatMap conjuncts := fun h => not_admits_empty (he empty h)
  have hany : ¬ (ts.flatMap conjuncts).any isEmpty = true := by
    rw [List.any_eq_true]
    rintro ⟨t, ht, ht'⟩
    exact hempty (isEmpty_iff.mp ht' ▸ ht)
  have hanyEps : (ts.flatMap conjuncts).any isEps = false := by
    rw [List.any_eq_false]
    exact fun t ht ht' => heps (isEps_iff.mp ht' ▸ ht)
  have hfirst := (not_congr (isEmpty_interAll_firstSets (E := E) heps hempty)).mpr
    (not_not_intro ⟨e, he⟩)
  rw [allOf, if_neg hany]
  simp only [hanyEps, Bool.false_or]
  rw [if_neg hfirst]
  rfl

/-- An intersection whose parts have no first symbol in common matches the empty word at most. -/
theorem allOf_of_not_admits {ts : List (Term S)}
    (h : ¬ ∃ e : E, ∀ p ∈ ts.flatMap conjuncts, p.Admits e) :
    allOf ts = if (ts.flatMap conjuncts).all nullable then eps else empty := by
  rw [allOf]
  by_cases hany : (ts.flatMap conjuncts).any isEmpty = true
  · -- With the part `empty`, not all parts are nullable.
    obtain ⟨t, ht, ht'⟩ := List.any_eq_true.mp hany
    rw [if_pos hany, if_neg]
    rw [List.all_eq_true]
    intro hnull
    have := hnull t ht
    rw [isEmpty_iff.mp ht', nullable_empty] at this
    contradiction
  · rw [if_neg hany]
    have hempty : empty ∉ ts.flatMap conjuncts := fun h =>
      hany (List.any_eq_true.mpr ⟨empty, h, rfl⟩)
    by_cases heps : eps ∈ ts.flatMap conjuncts
    · have hanyEps : (ts.flatMap conjuncts).any isEps = true :=
        List.any_eq_true.mpr ⟨eps, heps, rfl⟩
      simp only [hanyEps, Bool.true_or, if_true]
    · have hfirst := (isEmpty_interAll_firstSets (E := E) heps hempty).mpr h
      simp only [hfirst, Bool.or_true, if_true]

end Meet

end Term

end ExtendedRegex
