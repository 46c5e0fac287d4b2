/-
Symbols that no literal of a term tells apart are told apart by nothing that is computed from it.

* `Subalgebra`: sets of symbols that the operations do not lead out of;
* `LiteralsIn`: the literals of a term are such sets.  Then so are those of its derivatives
  (`LiteralsIn.derivative`), the blocks that partitions are refined to (`LiteralsIn.branches?`), the
  labels of its automaton (`labels_of_ofTerm?`) and the sets for the places of a word
  (`mem_of_symbolsAt?`);
* `Together`: a set has both of two symbols or neither;
* `derivativeAt_congr`: the derivatives by two symbols that the literals have together are the same;
* `together_of_literals`: all of this for two symbols and the literals of a term.

Design notes: a derivative joins and intersects literals of the term, and the complement of the empty
word brings in the full set; only a partition also needs differences.  So everything is in the
Boolean algebra that the literals generate, and having both of two symbols or neither is kept by all
of its operations.  One partition is shared by many terms, and each of them refines it by its own
literals, which are in the same algebra.
-/
import ExtendedRegex.Proofs.Blocks
import ExtendedRegex.Proofs.FirstSymbols

universe u v w

namespace ExtendedRegex

namespace SetAlgebra

variable {S : Type u} [SetAlgebra S]

/-- A property of sets that unions and intersections keep. -/
structure Sublattice (P : S → Prop) : Prop where
  empty : P ∅
  full : P SetAlgebra.full
  union : ∀ a b : S, P a → P b → P (a ∪ b)
  inter : ∀ a b : S, P a → P b → P (a ∩ b)

/-- A property of sets that all operations keep. -/
structure Subalgebra (P : S → Prop) : Prop extends Sublattice P where
  compl : ∀ a : S, P a → P (compl a)

variable {P : S → Prop} {sets : List S}

theorem Sublattice.unionAll (hP : Sublattice P) (h : ∀ a ∈ sets, P a) : P (unionAll sets) := by
  induction sets with
  | nil => exact hP.empty
  | cons a sets ih =>
    obtain ⟨ha, hsets⟩ := List.forall_mem_cons.mp h
    exact hP.union _ _ ha (ih hsets)

theorem Sublattice.interAll (hP : Sublattice P) (h : ∀ a ∈ sets, P a) : P (interAll sets) := by
  induction sets with
  | nil => exact hP.full
  | cons a sets ih =>
    obtain ⟨ha, hsets⟩ := List.forall_mem_cons.mp h
    exact hP.inter _ _ ha (ih hsets)

/-- A set has both of two symbols or neither. -/
def Together {E : Type v} [Membership E S] (c d : E) (set : S) : Prop := c ∈ set ↔ d ∈ set

theorem subalgebra_together {E : Type v} [Membership E S] [LawfulSetAlgebra S E] (c d : E) :
    Subalgebra (Together c d : S → Prop) where
  empty := iff_of_false (LawfulSetAlgebra.not_mem_empty c) (LawfulSetAlgebra.not_mem_empty d)
  full := iff_of_true (LawfulSetAlgebra.mem_full c) (LawfulSetAlgebra.mem_full d)
  union a b ha hb := by
    rw [Together, LawfulSetAlgebra.mem_union, LawfulSetAlgebra.mem_union]
    exact or_congr ha hb
  inter a b ha hb := by
    rw [Together, LawfulSetAlgebra.mem_inter, LawfulSetAlgebra.mem_inter]
    exact and_congr ha hb
  compl a ha := by
    rw [Together, LawfulSetAlgebra.mem_compl, LawfulSetAlgebra.mem_compl]
    exact not_congr ha

end SetAlgebra

open SetAlgebra (Sublattice Subalgebra Together subalgebra_together)

namespace Term

variable {S : Type u} {P : S → Prop} {t : Term S} {ts : List (Term S)}

/-! ### Literals of a lattice -/

/-- All literals in a term are sets that `P` holds of. -/
def LiteralsIn (P : S → Prop) (t : Term S) : Prop := ∀ set, Subterm (literal set) t → P set

theorem literalsIn_eps : LiteralsIn P eps := nofun

theorem literalsIn_empty : LiteralsIn P empty := nofun

theorem literalsIn_all : LiteralsIn P all := nofun

theorem literalsIn_literal {set : S} : LiteralsIn P (literal set) ↔ P set := by
  refine ⟨fun h => h set .refl, fun h a ha => ?_⟩
  cases ha
  exact h

theorem literalsIn_alt : LiteralsIn P (alt ts) ↔ ∀ t ∈ ts, LiteralsIn P t := by
  refine ⟨fun h t ht a ha => h a (.alt ht ha), fun h a ha => ?_⟩
  cases ha with
  | alt ht ha => exact h _ ht a ha

theorem literalsIn_seq : LiteralsIn P (seq ts) ↔ ∀ t ∈ ts, LiteralsIn P t := by
  refine ⟨fun h t ht a ha => h a (.seq ht ha), fun h a ha => ?_⟩
  cases ha with
  | seq ht ha => exact h _ ht a ha

theorem literalsIn_inter : LiteralsIn P (inter ts) ↔ ∀ t ∈ ts, LiteralsIn P t := by
  refine ⟨fun h t ht a ha => h a (.inter ht ha), fun h a ha => ?_⟩
  cases ha with
  | inter ht ha => exact h _ ht a ha

theorem literalsIn_compl : LiteralsIn P (compl t) ↔ LiteralsIn P t := by
  refine ⟨fun h a ha => h a (.compl ha), fun h a ha => ?_⟩
  cases ha with
  | compl ha => exact h a ha

theorem literalsIn_star : LiteralsIn P (star t) ↔ LiteralsIn P t := by
  refine ⟨fun h a ha => h a (.star ha), fun h a ha => ?_⟩
  cases ha with
  | star ha => exact h a ha

theorem literalsIn_before (ht : LiteralsIn P t) (h : ∀ t ∈ ts, LiteralsIn P t) :
    LiteralsIn P (before t ts) :=
  before_of_forall literalsIn_empty literalsIn_eps (fun _ => literalsIn_seq) ht h

section Building

variable [SetAlgebra S]

theorem LiteralsIn.prune (h : LiteralsIn P t) : LiteralsIn P t.prune := by
  rw [Term.prune]
  split
  · exact literalsIn_empty
  · exact h

variable {E : Type v} [Membership E S]

/-- The complement of the empty word is the only one with a new literal, which is the full set. -/
theorem LiteralsIn.complement [LawfulSetAlgebra S E] (hP : Sublattice P) (h : LiteralsIn P t) :
    LiteralsIn P t.complement := by
  cases t with
  | eps =>
    rw [complement_eps (E := E)]
    refine literalsIn_seq.mpr (List.forall_mem_cons.mpr ⟨literalsIn_literal.mpr hP.full, ?_⟩)
    exact List.forall_mem_singleton.mpr literalsIn_all
  | empty => exact literalsIn_all
  | all => exact literalsIn_empty
  | compl t => exact literalsIn_compl.mp h
  | literal set => exact literalsIn_compl.mpr h
  | alt ts => exact literalsIn_compl.mpr h
  | seq ts => exact literalsIn_compl.mpr h
  | inter ts => exact literalsIn_compl.mpr h
  | star t => exact literalsIn_compl.mpr h

variable [Ord S] [DecidableEq S]

theorem literalsIn_oneOf (hP : Sublattice P) (h : ∀ t ∈ ts, LiteralsIn P t) :
    LiteralsIn P (oneOf ts) := by
  have hparts : ∀ p ∈ ts.flatMap alternatives, LiteralsIn P p :=
    List.forall_mem_flatMap.mpr fun t ht =>
      forall_mem_alternatives (fun _ => literalsIn_alt.mp) (h t ht)
  by_cases hall : all ∈ ts.flatMap alternatives
  · rw [oneOf_of_all_mem hall]
    exact literalsIn_all
  · rw [oneOf_of_all_not_mem hall]
    refine ofAlternatives_of_forall literalsIn_empty (fun _ => literalsIn_alt.mpr) fun m hm => ?_
    rcases mem_unionMembers.mp hm with ⟨rfl, -⟩ | ⟨set, rfl, rfl, -⟩ | ⟨-, hm⟩
    · exact literalsIn_eps
    · refine literalsIn_literal.mpr (hP.unionAll fun a ha => ?_)
      exact literalsIn_literal.mp (hparts _ (mem_filterMap_literal?.mp ha))
    · exact hparts m hm

theorem literalsIn_allOf [LawfulSetAlgebra S E] (hP : Sublattice P) (h : ∀ t ∈ ts, LiteralsIn P t) :
    LiteralsIn P (allOf ts) := by
  have hparts : ∀ p ∈ ts.flatMap conjuncts, LiteralsIn P p :=
    List.forall_mem_flatMap.mpr fun t ht =>
      forall_mem_conjuncts (fun _ => literalsIn_inter.mp) (h t ht)
  by_cases hfirst : ∃ e : E, ∀ p ∈ ts.flatMap conjuncts, p.Admits e
  · rw [allOf_of_admits hfirst]
    refine ofConjuncts_of_forall literalsIn_all (fun _ => literalsIn_inter.mpr) fun m hm => ?_
    rcases mem_meetMembers.mp hm with ⟨set, rfl, rfl, -⟩ | ⟨-, hm⟩
    · refine literalsIn_literal.mpr (hP.interAll fun a ha => ?_)
      exact literalsIn_literal.mp (hparts _ (mem_filterMap_literal?.mp ha))
    · exact hparts m hm
  · rw [allOf_of_not_admits hfirst]
    split
    · exact literalsIn_eps
    · exact literalsIn_empty

/-- The literals of a derivative are in every lattice that those of the term are in. -/
theorem LiteralsIn.derivative [LawfulSetAlgebra S E] (hP : Sublattice P) {block : S} {d : Term S}
    (h : LiteralsIn P t) (hd : t.derivative block = .ok d) : LiteralsIn P d := by
  induction t using memberInduction generalizing d with
  | eps => exact Except.ok.inj hd ▸ literalsIn_empty
  | empty => exact Except.ok.inj hd ▸ literalsIn_empty
  | all => exact Except.ok.inj hd ▸ literalsIn_all
  | literal set =>
    rcases eq_of_derivativeLiteral hd with rfl | rfl
    · exact literalsIn_empty
    · exact literalsIn_eps
  | alt ts ih =>
    rw [literalsIn_alt] at h
    obtain ⟨ds, hds, hd⟩ := exists_of_bind_eq_ok hd
    obtain rfl := Except.ok.inj hd
    have hmembers := forall_mem_derivativeEach (fun t ht d => ih t ht (h t ht)) hds
    exact (literalsIn_oneOf hP hmembers).prune
  | seq ts ih =>
    rw [literalsIn_seq] at h
    obtain ⟨ds, hds, hd⟩ := exists_of_bind_eq_ok hd
    obtain rfl := Except.ok.inj hd
    refine (literalsIn_oneOf hP (forall_mem_derivativeSeq (fun t us hus d hd => ?_) hds)).prune
    -- Only the derivative of one member is new; the members behind it stand as they were.
    have ht : t ∈ ts := hus.subset (List.mem_cons_self ..)
    refine literalsIn_before (ih t ht (h t ht) hd) fun u hu => h u ?_
    exact hus.subset (List.mem_cons_of_mem t hu)
  | inter ts ih =>
    rw [literalsIn_inter] at h
    obtain ⟨ds, hds, hd⟩ := exists_of_bind_eq_ok hd
    obtain rfl := Except.ok.inj hd
    have hmembers := forall_mem_derivativeEach (fun t ht d => ih t ht (h t ht)) hds
    exact (literalsIn_allOf (E := E) hP hmembers).prune
  | compl t ih =>
    obtain ⟨d, hbody, hd⟩ := exists_of_bind_eq_ok hd
    obtain rfl := Except.ok.inj hd
    exact (LiteralsIn.complement (E := E) hP (ih (literalsIn_compl.mp h) hbody)).prune
  | star t ih =>
    obtain ⟨d, hbody, hd⟩ := exists_of_bind_eq_ok hd
    obtain rfl := Except.ok.inj hd
    have hbefore := literalsIn_before (ih (literalsIn_star.mp h) hbody)
      (List.forall_mem_singleton.mpr h)
    exact hbefore.prune

end Building

/-! ### Two symbols -/

section Symbols

variable [SetAlgebra S] [Ord S] [DecidableEq S] {E : Type v} [Membership E S] {c d : E}

theorem derivativeAtEach_congr (h : ∀ t ∈ ts, t.derivativeAt c = t.derivativeAt d) :
    derivativeAtEach c ts = derivativeAtEach d ts := by
  rw [derivativeAtEach_eq_map, derivativeAtEach_eq_map, List.map_congr_left h]

theorem derivativeAtSeq_congr (h : ∀ t ∈ ts, t.derivativeAt c = t.derivativeAt d) :
    derivativeAtSeq c ts = derivativeAtSeq d ts := by
  induction ts with
  | nil => rfl
  | cons t ts ih =>
    obtain ⟨ht, hts⟩ := List.forall_mem_cons.mp h
    rw [derivativeAtSeq, derivativeAtSeq, ht, ih hts]

/-- Symbols that the literals have together have the same derivative. -/
theorem derivativeAt_congr (h : LiteralsIn (Together c d) t) :
    t.derivativeAt c = t.derivativeAt d := by
  induction t using memberInduction with
  | eps => rfl
  | empty => rfl
  | all => rfl
  | literal set =>
    have hset : c ∈ set ↔ d ∈ set := (literalsIn_literal (P := Together c d)).mp h
    rw [derivativeAt, derivativeAt]
    by_cases hd : d ∈ set
    · rw [if_pos hd, if_pos (hset.mpr hd)]
    · rw [if_neg hd, if_neg fun hc => hd (hset.mp hc)]
  | alt ts ih =>
    have hts := derivativeAtEach_congr fun t ht => ih t ht (literalsIn_alt.mp h t ht)
    rw [derivativeAt, derivativeAt, hts]
  | seq ts ih =>
    have hts := derivativeAtSeq_congr fun t ht => ih t ht (literalsIn_seq.mp h t ht)
    rw [derivativeAt, derivativeAt, hts]
  | inter ts ih =>
    have hts := derivativeAtEach_congr fun t ht => ih t ht (literalsIn_inter.mp h t ht)
    rw [derivativeAt, derivativeAt, hts]
  | compl t ih => rw [derivativeAt, derivativeAt, ih (literalsIn_compl.mp h)]
  | star t ih => rw [derivativeAt, derivativeAt, ih (literalsIn_star.mp h)]

variable [LawfulSetAlgebra S E] {single : E → S}

theorem LiteralsIn.derivativeAlong (hP : Sublattice P)
    (hsingle : ∀ e f : E, f ∈ single e ↔ f = e) (h : LiteralsIn P t) (w : List E) :
    LiteralsIn P (t.derivativeAlong w) := by
  induction w generalizing t with
  | nil => exact h
  | cons e w ih => exact ih (h.derivative (E := E) hP (derivative_single hsingle t e))

/-- In a word, one of the symbols may stand for the other. -/
theorem derivativeWord_congr (hsingle : ∀ e f : E, f ∈ single e ↔ f = e)
    (h : LiteralsIn (Together c d) t) (u v : List E) :
    t.derivativeWord ((u ++ c :: v).map single) = t.derivativeWord ((u ++ d :: v).map single) := by
  have hu : LiteralsIn (Together c d) (t.derivativeAlong u) :=
    h.derivativeAlong (subalgebra_together c d).toSublattice hsingle u
  have hword : ∀ e : E, t.derivativeAlong (u ++ e :: v) =
      ((t.derivativeAlong u).derivativeAt e).derivativeAlong v := fun e =>
    List.foldl_append
  rw [derivativeWord_single hsingle, derivativeWord_single hsingle, hword, hword,
    derivativeAt_congr hu]

end Symbols

end Term

/-! ### Blocks -/

namespace Partition

open SetAlgebra (difference)

variable {S : Type u} [SetAlgebra S] {P : S → Prop} {set block : S}

theorem forall_mem_splitBlock (hP : Subalgebra P) (hset : P set) (hblock : P block) :
    ∀ c ∈ splitBlock set block, P c := by
  rw [splitBlock]
  split
  · exact List.forall_mem_singleton.mpr hblock
  · have hinter : P (block ∩ set) := hP.inter _ _ hblock hset
    have hdifference : P (difference block set) := hP.inter _ _ hblock (hP.compl _ hset)
    exact List.forall_mem_cons.mpr ⟨hinter, List.forall_mem_singleton.mpr hdifference⟩

end Partition

namespace Term

variable {S : Type u} [SetAlgebra S] [Ord S] [DecidableEq S] {P : S → Prop} {t : Term S}
  {ts : List (Term S)} {p q : Partition S} {fuel : Nat} {branches live : List (Term S × S)}

/-- The literal in the way of a derivative is one of the term. -/
theorem LiteralsIn.of_derivative_eq_error {block : S} {s : Straddle S} (h : LiteralsIn P t)
    (hs : t.derivative block = .error s) : P s.set := by
  obtain ⟨d, hd⟩ := exists_derivative_eq block t
  rw [hd] at hs
  obtain ⟨-, hset, -⟩ := of_unlessStraddled_eq_error hs
  exact h s.set (subterm_of_mem_metLiterals hset)

variable {E : Type v} [Membership E S]

/-- Branches stay in the algebra of the literals, and so does the partition that is left. -/
theorem LiteralsIn.branches? [LawfulSetAlgebra S E] (hP : Subalgebra P) (h : LiteralsIn P t)
    (hp : ∀ block ∈ p.blocks, P block) (hbranches : t.branches? fuel p = some (q, branches)) :
    (∀ block ∈ q.blocks, P block) ∧ ∀ b ∈ branches, LiteralsIn P b.1 ∧ P b.2 := by
  obtain ⟨derived, hover, hmem⟩ := exists_derived_of_branches? hbranches
  obtain ⟨heach, rfl⟩ := Partition.overBlocks?_eq_some.mp hover
  have hblocks : ∀ r ∈ derived, P r.1 :=
    Partition.eachBlock?_forall (fun _ _ hs _ => Partition.forall_mem_splitBlock hP
      (h.of_derivative_eq_error hs)) hp heach
  refine ⟨List.forall_mem_map.mpr hblocks, fun b hb => ?_⟩
  obtain ⟨hr, -⟩ := (hmem b.1 b.2).mp hb
  have hderivative : t.derivative b.2 = .ok b.1 := Partition.eachBlock?_ok heach _ hr
  exact ⟨h.derivative (E := E) hP.toSublattice hderivative, hblocks _ hr⟩

theorem LiteralsIn.allBranches? [LawfulSetAlgebra S E] (hP : Subalgebra P)
    (h : ∀ t ∈ ts, LiteralsIn P t) (hp : ∀ block ∈ p.blocks, P block)
    (hbranches : allBranches? fuel p ts = some (q, branches)) :
    (∀ block ∈ q.blocks, P block) ∧ ∀ b ∈ branches, LiteralsIn P b.1 ∧ P b.2 := by
  induction ts generalizing p branches with
  | nil =>
    obtain ⟨rfl, rfl⟩ := Prod.mk.inj (Option.some.inj hbranches)
    exact ⟨hp, nofun⟩
  | cons t ts ih =>
    rw [Term.allBranches?] at hbranches
    obtain ⟨⟨p', first⟩, hfirst, hbranches⟩ := Option.bind_eq_some_iff.mp hbranches
    obtain ⟨⟨p'', others⟩, hothers, hbranches⟩ := Option.bind_eq_some_iff.mp hbranches
    obtain ⟨rfl, rfl⟩ := Prod.mk.inj (Option.some.inj hbranches)
    obtain ⟨ht, hts⟩ := List.forall_mem_cons.mp h
    obtain ⟨hp', hbranch⟩ := ht.branches? (E := E) hP hp hfirst
    obtain ⟨hq, hbranch'⟩ := ih hts hp' hothers
    exact ⟨hq, List.forall_mem_append.mpr ⟨hbranch, hbranch'⟩⟩

/-! ### Symbols at the places of a word -/

section Places

variable [Hashable S] {known known' : Verdicts S} {count : Nat} {sets : List S}

theorem mem_of_symbolsFrom? [LawfulSetAlgebra S E] (hP : Subalgebra P)
    (hts : ∀ t ∈ ts, LiteralsIn P t) (hp : ∀ block ∈ p.blocks, P block)
    (h : symbolsFrom? fuel count p known ts = some sets) : ∀ set ∈ sets, P set := by
  induction count generalizing p known ts sets with
  | zero =>
    obtain rfl := Option.some.inj h
    exact nofun
  | succ count ih =>
    rw [symbolsFrom?] at h
    obtain ⟨⟨q, branches⟩, hbranches, h⟩ := Option.bind_eq_some_iff.mp h
    obtain ⟨⟨live, known'⟩, hlive, h⟩ := Option.bind_eq_some_iff.mp h
    obtain ⟨later, hlater, h⟩ := Option.bind_eq_some_iff.mp h
    obtain rfl := Option.some.inj h
    obtain ⟨hq, hbranch⟩ := LiteralsIn.allBranches? (E := E) hP hts hp hbranches
    have hkept : ∀ b ∈ live, LiteralsIn P b.1 ∧ P b.2 := fun b hb =>
      hbranch b (mem_of_liveBranches? hlive b hb)
    refine List.forall_mem_cons.mpr ⟨hP.unionAll ?_, ih (fun d hd => ?_) hq hlater⟩
    · exact List.forall_mem_map.mpr fun b hb => (hkept b hb).2
    · obtain ⟨b, hb, rfl⟩ := List.mem_map.mp (Question.mem_fresh_fst.mp hd).1
      exact (hkept b hb).1

/-- The sets for the places of a word are in the algebra of the literals. -/
theorem mem_of_symbolsAt? [LawfulSetAlgebra S E] (hP : Subalgebra P) (ht : LiteralsIn P t)
    (h : symbolsAt? fuel count t = some sets) : ∀ set ∈ sets, P set :=
  mem_of_symbolsFrom? (E := E) hP (List.forall_mem_singleton.mpr ht)
    (List.forall_mem_singleton.mpr hP.full) h

end Places

end Term

/-! ### Labels of an automaton -/

namespace Automaton

open Term (LiteralsIn)

variable {S : Type u} [SetAlgebra S] [Ord S] [DecidableEq S] [Hashable S] {P : S → Prop}
  {t : Term S} {p q : Partition S} {fuel : Nat} {limit : Option Nat}
  {known known' : Numbering (Term S)} {finished : Array (State S)} {branches : List (Term S × S)}
  {numbered : List (Nat × S)} {a : Automaton S} {E : Type v} [Membership E S]

/-- The terms that are known, the blocks and the labels are all made of sets of an algebra. -/
structure SetsIn (P : S → Prop) (p : Partition S) (known : Numbering (Term S))
    (finished : Array (State S)) : Prop where
  literals : ∀ t ∈ known.items, LiteralsIn P t
  blocks : ∀ block ∈ p.blocks, P block
  labels : ∀ s ∈ finished, ∀ tr ∈ s.transitions, P tr.2

/-- Looking at one more state does not lead out of the algebra. -/
theorem SetsIn.push [LawfulSetAlgebra S E] (h : SetsIn P p known finished) (hP : Subalgebra P)
    (ht : known.items[finished.size]? = some t) (hbranches : t.branches? fuel p = some (q, branches))
    (hregister : registerBranches limit known branches = .ok (known', numbered)) :
    SetsIn P q known' (finished.push ⟨t, ofBranches numbered⟩) := by
  have ht : LiteralsIn P t := h.literals t (Array.mem_of_getElem? ht)
  obtain ⟨hq, hbranch⟩ := ht.branches? (E := E) hP h.blocks hbranches
  obtain ⟨-, -, hmem⟩ := registerBranches_spec hregister
  refine ⟨fun u hu => ?_, hq, fun s hs => ?_⟩
  · rcases mem_of_registerBranches hregister hu with hu | ⟨b, hb, rfl⟩
    · exact h.literals u hu
    · exact (hbranch b hb).1
  · rcases Array.mem_push.mp hs with hs | rfl
    · exact h.labels s hs
    · refine forall_mem_ofBranches hP.union fun b hb => ?_
      obtain ⟨d, hd, -⟩ := (hmem b.1 b.2).mp hb
      exact (hbranch _ hd).2

/-- The labels of an automaton are in the algebra of the literals of its term. -/
theorem labels_of_ofTerm? [LawfulSetAlgebra S E] (hP : Subalgebra P) (ht : LiteralsIn P t)
    (h : ofTerm? fuel limit t = some (.ok a)) : ∀ s ∈ a.states, ∀ tr ∈ s.transitions, P tr.2 := by
  rw [ofTerm?] at h
  rcases hstate : registerState limit .empty t with e | ⟨known, n⟩
  · rw [hstate] at h
    cases Option.some.inj h
  · rw [hstate] at h
    have hstart : SetsIn P .trivial known #[] := by
      refine ⟨fun u hu => ?_, List.forall_mem_singleton.mpr hP.full,
        fun s hs => absurd hs (Array.not_mem_empty s)⟩
      rcases mem_of_registerState hstate hu with hu | rfl
      · exact absurd hu (Array.not_mem_empty u)
      · exact ht
    obtain ⟨_, _, hsets, -⟩ := explore?_invariant (I := SetsIn P)
      (fun h ht hbranches hregister => h.push (E := E) hP ht hbranches hregister) hstart h
    exact hsets.labels

end Automaton

/-! ### All computations -/

namespace Term

variable {S : Type u} [SetAlgebra S] [Ord S] [DecidableEq S] [Hashable S] {E : Type v}
  [Membership E S] [LawfulSetAlgebra S E] [Std.TransOrd S] [Std.LawfulEqOrd S] {t : Term S}

/-- If each literal of a term has both of two symbols or neither, one of them may stand for the other
in words that derivatives are taken by.  No label of the automaton and no set for a place of a word
has only one of them, and there are such labels and sets. -/
theorem together_of_literals {single : E → S} (hsingle : ∀ e f : E, f ∈ single e ↔ f = e) {c d : E}
    (h : ∀ set, Subterm (literal set) t → (c ∈ set ↔ d ∈ set)) :
    (∀ u v : List E, ∃ r, t.derivativeWord ((u ++ c :: v).map single) = .ok r ∧
      t.derivativeWord ((u ++ d :: v).map single) = .ok r) ∧
    (t.Built → ∃ bound, ∀ fuel ≥ bound, (∃ a, Automaton.ofTerm? fuel none t = some (.ok a)) ∧
      ∀ count, (symbolsAt? fuel count t).isSome = true) ∧
    (∀ fuel limit a, Automaton.ofTerm? fuel limit t = some (.ok a) →
      ∀ s ∈ a.states, ∀ tr ∈ s.transitions, (c ∈ tr.2 ↔ d ∈ tr.2)) ∧
    ∀ fuel count sets, symbolsAt? fuel count t = some sets →
      ∀ set ∈ sets, (c ∈ set ↔ d ∈ set) := by
  have ht : LiteralsIn (Together c d) t := h
  have htogether : Subalgebra (Together c d : S → Prop) := subalgebra_together c d
  refine ⟨fun u v => ?_, fun hbuilt => ?_, fun fuel limit a ha => ?_, fun fuel count sets hsets => ?_⟩
  · refine ⟨t.derivativeAlong (u ++ d :: v), ?_, derivativeWord_single hsingle t⟩
    rw [derivativeWord_congr hsingle ht u v]
    exact derivativeWord_single hsingle t
  · have hcanonical : Canonical t := hbuilt.canonical (E := E)
    obtain ⟨states, hstates⟩ := Automaton.exists_bound_ofTerm? E hcanonical
    obtain ⟨places, hplaces⟩ := exists_bound_symbolsAt? E hcanonical
    refine ⟨states + places, fun fuel hfuel => ⟨hstates fuel ?_, hplaces fuel ?_⟩⟩
    · omega
    · omega
  · exact Automaton.labels_of_ofTerm? (E := E) htogether ht ha
  · exact mem_of_symbolsAt? (E := E) htogether ht hsets

/-- The words over three symbols, without two of the words of one symbol.  These two symbols are in
the same literals, and the third one is not. -/
theorem together_of_literals_allOf :
    (∀ i j : Fin 8, j ∈ Mask.single i ↔ j = i) ∧
    (∀ set : Mask, Subterm (literal set)
        (allOf [closure (ofSet (⟨7#8⟩ : Mask)), complement (ofSet ⟨3#8⟩)]) →
      ((0 : Fin 8) ∈ set ↔ (1 : Fin 8) ∈ set)) ∧
    (∃ r, (allOf [closure (ofSet (⟨7#8⟩ : Mask)), complement (ofSet ⟨3#8⟩)]).derivativeWord
        ([2, 0].map Mask.single) = .ok r ∧
      (allOf [closure (ofSet (⟨7#8⟩ : Mask)), complement (ofSet ⟨3#8⟩)]).derivativeWord
        ([2, 1].map Mask.single) = .ok r) ∧
    ∃ bound, ∀ fuel ≥ bound, ∃ a, Automaton.ofTerm? fuel none
        (allOf [closure (ofSet (⟨7#8⟩ : Mask)), complement (ofSet ⟨3#8⟩)]) = some (.ok a) ∧
      ∀ s ∈ a.states, ∀ tr ∈ s.transitions, ((0 : Fin 8) ∈ tr.2 ↔ (1 : Fin 8) ∈ tr.2) := by
  have hsingle : ∀ i j : Fin 8, j ∈ Mask.single i ↔ j = i := fun _ _ => Mask.mem_single
  have hbuilt : Built (allOf [closure (ofSet (⟨7#8⟩ : Mask)), complement (ofSet ⟨3#8⟩)]) :=
    .allOf (by simp [Built.closure, Built.complement, Built.ofSet])
  have hliterals : LiteralsIn (Together (0 : Fin 8) 1)
      (allOf [closure (ofSet (⟨7#8⟩ : Mask)), complement (ofSet ⟨3#8⟩)]) := by
    refine literalsIn_allOf (E := Fin 8) (subalgebra_together 0 1).toSublattice ?_
    refine List.forall_mem_cons.mpr ⟨?_, List.forall_mem_singleton.mpr ?_⟩
    · exact literalsIn_star.mpr (literalsIn_literal.mpr (iff_of_true rfl rfl))
    · exact literalsIn_compl.mpr (literalsIn_literal.mpr (iff_of_true rfl rfl))
  obtain ⟨hword, hexists, hlabels, -⟩ := together_of_literals hsingle hliterals
  obtain ⟨bound, hbound⟩ := hexists hbuilt
  refine ⟨hsingle, hliterals, hword [2] [], bound, fun fuel hfuel => ?_⟩
  obtain ⟨a, ha⟩ := (hbound fuel hfuel).1
  exact ⟨a, ha, hlabels fuel none a ha⟩

end Term

end ExtendedRegex
