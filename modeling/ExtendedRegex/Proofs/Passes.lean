/-
Whole passes over a partition.

The derivatives of some terms by all blocks of a partition can be taken in passes.  A pass
goes through the blocks in order, and when a literal stands in the way of one of them it is
thrown away, and the next pass starts from the first block of the refined partition.

* `Passes`: a run of passes up to the first one that succeeds, with the literals that stopped
  the others;
* `Passes.recallingPasses`: it makes no difference whether a pass recalls what the passes
  before it have found;
* `passes_of_eachBlock?`: a run of passes gives what `overBlocks?` gives, which does not go
  back to a block that has succeeded;
* `Passes.nodup`: no literal stops two passes;
* `derivatives_by_passes`: the derivatives of some terms are all there after at most as many
  failures as there are literals in the terms.

Design notes: a literal that stops a pass is straddled by a block, and by none from then on.
A block that has succeeded straddles none of the literals that the terms meet, and so it is
still the same when a literal refines the blocks behind it.
-/
import ExtendedRegex.Proofs.Atoms
import ExtendedRegex.Proofs.Blocks
import ExtendedRegex.Proofs.Decision
import Mathlib.Data.Set.Card

universe u v w

namespace ExtendedRegex.Partition

open SetAlgebra (straddles straddles_of_subset)

variable {S : Type u} {E : Type v} [Membership E S] {β : Type w}

/-! ### A single pass -/

/-- What `f` gives for each of some blocks, or the first literal that stands in the way. -/
def pass (f : S → Except (Straddle S) β) : List S → Except (Straddle S) (List (S × β))
  | [] => .ok []
  | block :: blocks =>
    match f block with
    | .ok result => (pass f blocks).map ((block, result) :: ·)
    | .error s => .error s

section Pass

variable {f : S → Except (Straddle S) β} {block : S} {blocks : List S} {s : Straddle S}
  {results : List (S × β)}

theorem pass_eq_ok_iff :
    pass f blocks = .ok results ↔
      results.map Prod.fst = blocks ∧ ∀ r ∈ results, f r.1 = .ok r.2 := by
  induction blocks generalizing results with
  | nil =>
    constructor
    · intro h
      obtain rfl := Except.ok.inj h
      exact ⟨rfl, nofun⟩
    · rintro ⟨h, -⟩
      rw [List.map_eq_nil_iff.mp h]
      rfl
  | cons block blocks ih =>
    rw [pass]
    constructor
    · intro h
      cases hf : f block with
      | error s => simp [hf] at h
      | ok b =>
        cases hrest : pass f blocks with
        | error s => simp [hf, hrest, Except.map] at h
        | ok rest =>
          simp only [hf, hrest, Except.map, Except.ok.injEq] at h
          obtain ⟨hblocks, hok⟩ := ih.mp hrest
          rw [← h, List.map_cons, hblocks]
          exact ⟨rfl, List.forall_mem_cons.mpr ⟨hf, hok⟩⟩
    · rintro ⟨hblocks, hok⟩
      obtain ⟨r, rest, rfl, rfl, hrest⟩ := List.map_eq_cons_iff.mp hblocks
      obtain ⟨hr, hok⟩ := List.forall_mem_cons.mp hok
      rw [hr, ih.mpr ⟨hrest, hok⟩]
      rfl

theorem exists_of_pass_eq_error (h : pass f blocks = .error s) :
    ∃ block ∈ blocks, f block = .error s := by
  induction blocks with
  | nil => contradiction
  | cons block blocks ih =>
    rw [pass] at h
    cases hf : f block with
    | error s' =>
      simp only [hf, Except.error.injEq] at h
      exact ⟨block, List.mem_cons_self .., by rw [hf, h]⟩
    | ok b =>
      cases hrest : pass f blocks with
      | ok rest => simp [hf, hrest, Except.map] at h
      | error s' =>
        simp only [hf, hrest, Except.map, Except.error.injEq] at h
        obtain ⟨c, hc, hfc⟩ := ih (by rw [hrest, h])
        exact ⟨c, List.mem_cons_of_mem _ hc, hfc⟩

/-- Blocks that have succeeded do not change what stops a pass. -/
theorem pass_append_of_error (hdone : ∀ r ∈ results, f r.1 = .ok r.2) (h : f block = .error s) :
    pass f (results.map Prod.fst ++ block :: blocks) = .error s := by
  induction results with
  | nil => simp [pass, h]
  | cons r results ih =>
    obtain ⟨hr, hdone⟩ := List.forall_mem_cons.mp hdone
    rw [List.map_cons, List.cons_append, pass, hr, ih hdone]
    rfl

end Pass

/-! ### Results that are recalled -/

section Recall

variable [DecidableEq S] {f : S → Except (Straddle S) β} {known : List (S × β)}

/-- What is known of a block from before, or else what `f` gives, which is known from then on. -/
def recalled (f : S → Except (Straddle S) β) (known : List (S × β)) (block : S) :
    Except (Straddle S) β × List (S × β) :=
  match known.lookup block with
  | some result => (.ok result, known)
  | none =>
    match f block with
    | .ok result => (.ok result, (block, result) :: known)
    | .error s => (.error s, known)

/-- A pass that recalls what is known, with what is known after it. -/
def recallingPass (f : S → Except (Straddle S) β) (known : List (S × β)) :
    List S → Except (Straddle S) (List (S × β)) × List (S × β)
  | [] => (.ok [], known)
  | block :: blocks =>
    match recalled f known block with
    | (.ok result, known) =>
      let (outcome, known) := recallingPass f known blocks
      (outcome.map ((block, result) :: ·), known)
    | (.error s, known) => (.error s, known)

theorem recalled_spec (block : S) (h : ∀ r ∈ known, f r.1 = .ok r.2) :
    (recalled f known block).1 = f block ∧ ∀ r ∈ (recalled f known block).2, f r.1 = .ok r.2 := by
  rw [recalled]
  cases hlookup : known.lookup block with
  | some result =>
    obtain ⟨before, after, rfl, -⟩ := List.lookup_eq_some_iff.mp hlookup
    have hblock : f block = .ok result := h (block, result) (List.mem_append_right _ (.head _))
    exact ⟨hblock.symm, h⟩
  | none =>
    cases hf : f block with
    | ok result => exact ⟨rfl, List.forall_mem_cons.mpr ⟨hf, h⟩⟩
    | error s => exact ⟨rfl, h⟩

/-- Recalling results does not change the outcome of a pass. -/
theorem recallingPass_spec (blocks : List S) (h : ∀ r ∈ known, f r.1 = .ok r.2) :
    (recallingPass f known blocks).1 = pass f blocks ∧
      ∀ r ∈ (recallingPass f known blocks).2, f r.1 = .ok r.2 := by
  induction blocks generalizing known with
  | nil => exact ⟨rfl, h⟩
  | cons block blocks ih =>
    obtain ⟨hblock, hknown⟩ := recalled_spec block h
    rw [recallingPass, pass, ← hblock]
    match hrecall : recalled f known block with
    | (.ok result, known') =>
      rw [hrecall] at hknown
      obtain ⟨houtcome, hknown⟩ := ih hknown
      exact ⟨congrArg (Except.map _) houtcome, hknown⟩
    | (.error s, known') =>
      rw [hrecall] at hknown
      exact ⟨rfl, hknown⟩

end Recall

variable [SetAlgebra S]

/-! ### Straddled literals -/

/-- For every block, the first of some sets that the block straddles stands in the way of `f`. -/
def StopsAt (met : List S) (f : S → Except (Straddle S) β) : Prop :=
  ∀ block, ∃ b, f block = unlessStraddled block met b

section Stops

variable {f : S → Except (Straddle S) β} {met : List S} {block a set : S} {b : β} {s : Straddle S}
  {p : Partition S}

theorem StopsAt.of_eq_ok (hf : StopsAt met f) (h : f block = .ok b) :
    ∀ set ∈ met, straddles block set = false := by
  obtain ⟨b', hb'⟩ := hf block
  rw [hb'] at h
  exact (unlessStraddled_eq_ok.mp h).1

theorem StopsAt.of_eq_error (hf : StopsAt met f) (h : f block = .error s) :
    s.set ∈ met ∧ straddles block s.set = true := by
  obtain ⟨b, hb⟩ := hf block
  rw [hb] at h
  exact (of_unlessStraddled_eq_error h).2

theorem StopsAt.of_pass_eq_error (hf : StopsAt met f) (h : pass f p.blocks = .error s) :
    s.set ∈ met ∧ ∃ block ∈ p.blocks, straddles block s.set = true := by
  obtain ⟨block, hblock, hs⟩ := exists_of_pass_eq_error h
  obtain ⟨hset, hstraddles⟩ := hf.of_eq_error hs
  exact ⟨hset, block, hblock, hstraddles⟩

/-- The blocks of a refinement are parts of blocks. -/
theorem exists_superset_of_mem_refine [LawfulSetAlgebra S E] (h : a ∈ (p.refine set).blocks) :
    ∃ block ∈ p.blocks, ∀ e : E, e ∈ a → e ∈ block := by
  obtain ⟨block, hblock, ha⟩ := List.mem_flatMap.mp h
  exact ⟨block, hblock, fun e he => mem_splitBlock.mp ⟨a, ha, he⟩⟩

theorem exists_superset_of_mem_foldl_refine [LawfulSetAlgebra S E] {sets : List S}
    (h : a ∈ (sets.foldl refine p).blocks) : ∃ block ∈ p.blocks, ∀ e : E, e ∈ a → e ∈ block := by
  induction sets generalizing p with
  | nil => exact ⟨a, h, fun _ he => he⟩
  | cons set sets ih =>
    obtain ⟨c, hc, hac⟩ := ih h
    obtain ⟨block, hblock, hcb⟩ := exists_superset_of_mem_refine (E := E) hc
    exact ⟨block, hblock, fun e he => hcb e (hac e he)⟩

theorem not_straddles_refine [LawfulSetAlgebra S E]
    (h : ∀ block ∈ p.blocks, straddles block a = false) :
    ∀ block ∈ (p.refine set).blocks, straddles block a = false := by
  intro c hc
  obtain ⟨block, hblock, hsub⟩ := exists_superset_of_mem_refine hc
  by_contra hstraddles
  rw [Bool.not_eq_false] at hstraddles
  have := straddles_of_subset hsub hstraddles
  rw [h block hblock] at this
  contradiction

/-- No block of a partition that is refined by a set straddles the set. -/
theorem not_straddles_refine_self [LawfulSetAlgebra S E] :
    ∀ block ∈ (p.refine set).blocks, straddles block set = false := by
  intro c hc
  obtain ⟨block, -, hc⟩ := List.mem_flatMap.mp hc
  exact straddles_of_mem_splitBlock hc

end Stops

/-! ### Runs of passes -/

/-- A run of passes, from one partition to the one over which a pass succeeds.  The list has the
sets of the literals that stopped a pass, each of which refines the partition for the next. -/
inductive Passes (f : S → Except (Straddle S) β) :
    Partition S → List S → Partition S → List (S × β) → Prop where
  | success {p : Partition S} {results : List (S × β)} (h : pass f p.blocks = .ok results) :
      Passes f p [] p results
  | retry {p q : Partition S} {s : Straddle S} {sets : List S} {results : List (S × β)}
      (h : pass f p.blocks = .error s) (hnext : Passes f (p.refine s.set) sets q results) :
      Passes f p (s.set :: sets) q results

namespace Passes

variable {f : S → Except (Straddle S) β} {met : List S} {a : S} {p p' q q' : Partition S}
  {sets sets' : List S} {results results' : List (S × β)}

theorem eq_foldl (h : Passes f p sets q results) : q = sets.foldl refine p := by
  induction h with
  | success _ => rfl
  | retry _ _ ih => exact ih

theorem pass_eq (h : Passes f p sets q results) : pass f q.blocks = .ok results := by
  induction h with
  | success h => exact h
  | retry _ _ ih => exact ih

theorem unique (h : Passes f p sets q results) (h' : Passes f p sets' q' results') :
    sets = sets' ∧ q = q' ∧ results = results' := by
  induction h generalizing sets' with
  | success h =>
    cases h' with
    | success h' => exact ⟨rfl, rfl, Except.ok.inj (h.symm.trans h')⟩
    | retry h' _ => exact absurd (h.symm.trans h') nofun
  | retry h _ ih =>
    cases h' with
    | success h' => exact absurd (h.symm.trans h') nofun
    | retry h' hnext =>
      obtain rfl := Except.error.inj (h.symm.trans h')
      obtain ⟨rfl, rfl, rfl⟩ := ih hnext
      exact ⟨rfl, rfl, rfl⟩

theorem of_mem (hf : StopsAt met f) (h : Passes f p sets q results) : ∀ a ∈ sets, a ∈ met := by
  induction h with
  | success _ => exact nofun
  | retry h _ ih => exact List.forall_mem_cons.mpr ⟨(hf.of_pass_eq_error h).1, ih⟩

theorem not_mem [LawfulSetAlgebra S E] (hf : StopsAt met f) (h : Passes f p sets q results)
    (ha : ∀ block ∈ p.blocks, straddles block a = false) : a ∉ sets := by
  induction h with
  | success _ => exact List.not_mem_nil
  | retry h _ ih =>
    rw [List.mem_cons, not_or]
    refine ⟨?_, ih (not_straddles_refine ha)⟩
    rintro rfl
    obtain ⟨-, block, hblock, hstraddles⟩ := hf.of_pass_eq_error h
    rw [ha block hblock] at hstraddles
    contradiction

/-- No literal stops two passes. -/
theorem nodup [LawfulSetAlgebra S E] (hf : StopsAt met f) (h : Passes f p sets q results) :
    sets.Nodup := by
  induction h with
  | success _ => exact List.nodup_nil
  | retry h hnext ih => exact List.nodup_cons.mpr ⟨hnext.not_mem hf not_straddles_refine_self, ih⟩

/-- Each of the literals stopped the pass over the partition as the ones before had refined it, and
there are more blocks when it has refined it too. -/
theorem of_eq_append [LawfulSetAlgebra S E] (hf : StopsAt met f) (h : Passes f p sets q results)
    {before after : List S} (heq : sets = before ++ a :: after) :
    (∃ block, pass f (before.foldl refine p).blocks = .error ⟨block, a⟩) ∧
      (before.foldl refine p).blocks.length < ((before.foldl refine p).refine a).blocks.length := by
  induction h generalizing before with
  | success _ => simp at heq
  | @retry p q s sets results h _ ih =>
    match before with
    | [] =>
      obtain ⟨rfl, rfl⟩ := List.cons.inj heq
      refine ⟨⟨s.block, h⟩, ?_⟩
      obtain ⟨-, block, hblock, hstraddles⟩ := hf.of_pass_eq_error h
      have hcount : 0 < p.blocks.countP (straddles · s.set) :=
        List.countP_pos_iff.mpr ⟨block, hblock, hstraddles⟩
      rw [List.foldl_nil, length_refine]
      omega
    | set :: before =>
      obtain ⟨rfl, htail⟩ := List.cons.inj heq
      exact ih htail

end Passes

/-- A run of passes as in `Passes`, where the next pass recalls what a failed one has found. -/
inductive RecallingPasses [DecidableEq S] (f : S → Except (Straddle S) β) :
    List (S × β) → Partition S → List S → Partition S → List (S × β) → Prop where
  | success {known known' : List (S × β)} {p : Partition S} {results : List (S × β)}
      (h : recallingPass f known p.blocks = (.ok results, known')) :
      RecallingPasses f known p [] p results
  | retry {known known' : List (S × β)} {p q : Partition S} {s : Straddle S} {sets : List S}
      {results : List (S × β)} (h : recallingPass f known p.blocks = (.error s, known'))
      (hnext : RecallingPasses f known' (p.refine s.set) sets q results) :
      RecallingPasses f known p (s.set :: sets) q results

theorem Passes.recallingPasses [DecidableEq S] {f : S → Except (Straddle S) β} {p q : Partition S}
    {sets : List S} {results known : List (S × β)} (h : Passes f p sets q results)
    (hknown : ∀ r ∈ known, f r.1 = .ok r.2) : RecallingPasses f known p sets q results := by
  induction h generalizing known with
  | @success p results h =>
    obtain ⟨houtcome, -⟩ := recallingPass_spec p.blocks hknown
    exact .success (Prod.ext (houtcome.trans h) rfl)
  | @retry p q s sets results h _ ih =>
    obtain ⟨houtcome, hknown⟩ := recallingPass_spec p.blocks hknown
    exact .retry (Prod.ext (houtcome.trans h) rfl) (ih hknown)

/-- The refinement in one go over the blocks is a run of passes.  The blocks in front have
succeeded, and so no literal that stops the run splits them. -/
theorem passes_of_eachBlock? [LawfulSetAlgebra S E] {f : S → Except (Straddle S) β} {met : List S}
    {fuel : Nat} {blocks : List S} {done results : List (S × β)} (hf : StopsAt met f)
    (hdone : ∀ r ∈ done, f r.1 = .ok r.2) (h : eachBlock? f fuel blocks = some results) :
    ∃ sets, Passes f ⟨done.map Prod.fst ++ blocks⟩ sets ⟨(done ++ results).map Prod.fst⟩
      (done ++ results) := by
  fun_induction eachBlock? f fuel blocks generalizing done results with
  | case1 =>
    obtain rfl := Option.some.inj h
    rw [List.append_nil, List.append_nil]
    exact ⟨[], .success (pass_eq_ok_iff.mpr ⟨rfl, hdone⟩)⟩
  | case2 => contradiction
  | case3 fuel block blocks result hfb ih =>
    obtain ⟨rest, hrest, rfl⟩ := Option.map_eq_some_iff.mp h
    have hdone' : ∀ r ∈ done ++ [(block, result)], f r.1 = .ok r.2 := by
      simpa [or_imp, forall_and, hfb] using hdone
    simpa using ih hdone' hrest
  | case4 fuel block blocks s hfb ih =>
    obtain ⟨sets, hsets⟩ := ih hdone h
    have hkept : (done.map Prod.fst).flatMap (splitBlock s.set) = done.map Prod.fst := by
      rw [List.flatMap_congr fun c hc => ?_, List.flatMap_singleton']
      obtain ⟨r, hr, rfl⟩ := List.mem_map.mp hc
      exact splitBlock_of_not_straddles (hf.of_eq_ok (hdone r hr) s.set (hf.of_eq_error hfb).1)
    refine ⟨s.set :: sets, .retry (pass_append_of_error hdone hfb) ?_⟩
    rw [refine, List.flatMap_append, hkept]
    exact hsets

theorem passes_of_overBlocks? [LawfulSetAlgebra S E] {f : S → Except (Straddle S) β} {met : List S}
    {fuel : Nat} {p q : Partition S} {results : List (S × β)} (hf : StopsAt met f)
    (h : p.overBlocks? f fuel = some (q, results)) : ∃ sets, Passes f p sets q results := by
  obtain ⟨heach, rfl⟩ := overBlocks?_eq_some.mp h
  have hdone : ∀ r ∈ ([] : List (S × β)), f r.1 = .ok r.2 := nofun
  exact passes_of_eachBlock? hf hdone heach

end ExtendedRegex.Partition

namespace ExtendedRegex.Term

open ExtendedRegex.Partition

variable {S : Type u}

/-! ### The literals of some terms -/

/-- The sets of the literals that occur in some terms. -/
def literalSets (ts : List (Term S)) : Set S := {a | ∃ t ∈ ts, Subterm (literal a) t}

theorem finite_literalSets_of_forall {ts : List (Term S)}
    (h : ∀ t ∈ ts, {a | Subterm (literal a) t}.Finite) : (literalSets ts).Finite := by
  refine ((List.finite_toSet ts).biUnion h).subset ?_
  rintro a ⟨t, ht, ha⟩
  exact Set.mem_biUnion ht ha

theorem finite_literals (t : Term S) : {a | Subterm (literal a) t}.Finite := by
  induction t using memberInduction with
  | eps => exact Set.finite_empty.subset fun a h => nomatch h
  | empty => exact Set.finite_empty.subset fun a h => nomatch h
  | all => exact Set.finite_empty.subset fun a h => nomatch h
  | literal set =>
    refine (Set.finite_singleton set).subset fun a h => ?_
    cases h
    rfl
  | alt ts ih =>
    refine (finite_literalSets_of_forall ih).subset fun a h => ?_
    cases h with
    | alt hu h => exact ⟨_, hu, h⟩
  | seq ts ih =>
    refine (finite_literalSets_of_forall ih).subset fun a h => ?_
    cases h with
    | seq hu h => exact ⟨_, hu, h⟩
  | inter ts ih =>
    refine (finite_literalSets_of_forall ih).subset fun a h => ?_
    cases h with
    | inter hu h => exact ⟨_, hu, h⟩
  | compl t ih =>
    refine ih.subset fun a h => ?_
    cases h with
    | compl h => exact h
  | star t ih =>
    refine ih.subset fun a h => ?_
    cases h with
    | star h => exact h

theorem finite_literalSets (ts : List (Term S)) : (literalSets ts).Finite :=
  finite_literalSets_of_forall fun t _ => finite_literals t

/-- There are no more sets in a list without repetitions than literals that they are from. -/
theorem length_le_ncard_literalSets {ts : List (Term S)} {sets : List S} (hnodup : sets.Nodup)
    (h : ∀ a ∈ sets, a ∈ literalSets ts) : sets.length ≤ (literalSets ts).ncard := by
  classical
  rw [← List.toFinset_card_of_nodup hnodup, ← Set.ncard_coe_finset]
  refine Set.ncard_le_ncard (fun a ha => h a ?_) (finite_literalSets ts)
  exact List.mem_toFinset.mp ha

/-! ### Derivatives of some terms by all blocks -/

variable [SetAlgebra S] [Ord S] [DecidableEq S] {β : Type w}

/-- `f` takes the derivatives of some terms by a block in turn, and makes something of them all. -/
def Gathers (ts : List (Term S)) (f : S → Except (Straddle S) β) : Prop :=
  ∃ combine : S → List (Term S) → β, ∀ block, f block = (derivativeEach block ts).map (combine block)

/-- The derivative of a single term. -/
theorem gathers_derivative (t : Term S) : Gathers [t] fun block => t.derivative block := by
  refine ⟨fun _ ds => ds.headD empty, fun block => ?_⟩
  show t.derivative block = _
  rw [derivativeEach]
  cases t.derivative block <;> rfl

/-- The derivatives of a pair of terms. -/
theorem gathers_derivativePair (p : Term S × Term S) : Gathers [p.1, p.2] (derivativePair · p) := by
  refine ⟨fun _ ds => (ds.headD empty, ds.tail.headD empty), fun block => ?_⟩
  show derivativePair block p = _
  rw [derivativePair, derivativeEach, derivativeEach]
  cases p.1.derivative block with
  | error s => rfl
  | ok d => cases p.2.derivative block <;> rfl

theorem Gathers.stopsAt {ts : List (Term S)} {f : S → Except (Straddle S) β} (h : Gathers ts f) :
    StopsAt (metLiteralsEach ts) f := by
  obtain ⟨combine, h⟩ := h
  intro block
  choose result hresult using exists_derivative_eq block
  refine ⟨combine block (ts.map result), ?_⟩
  rw [h, derivativeEach_eq fun t _ => hresult t, unlessStraddled, unlessStraddled]
  split <;> rfl

variable {E : Type v} [Membership E S] [LawfulSetAlgebra S E]

/-- **Derivatives by passes.**  Whatever sets have refined the partition, the derivatives of some
terms by all blocks are there after a run of passes, and these are the results that `overBlocks?`
gives.  Each literal that stops a pass makes for more blocks, none of them stops a second pass, and
so there are at most as many such passes as literals in the terms.  The blocks at the end are parts
of those at the start, and there is one result for each of them, in their order.  All this is the
same when results of the passes that failed are recalled. -/
theorem derivatives_by_passes {ts : List (Term S)} {f : S → Except (Straddle S) β}
    (hf : Gathers ts f) (given : List S) :
    let p := given.foldl refine (trivial : Partition S)
    ∃ reported q results, Passes f p reported q results ∧
      (∃ bound, ∀ fuel ≥ bound, p.overBlocks? f fuel = some (q, results)) ∧
      (∀ before a after, reported = before ++ a :: after →
        (∃ block, pass f (before.foldl refine p).blocks = .error ⟨block, a⟩) ∧
        (before.foldl refine p).blocks.length < ((before.foldl refine p).refine a).blocks.length) ∧
      reported.Nodup ∧ (∀ a ∈ reported, a ∈ literalSets ts) ∧
      reported.length ≤ (literalSets ts).ncard ∧
      q = reported.foldl refine p ∧
      (∀ block ∈ q.blocks, ∃ whole ∈ p.blocks, ∀ e : E, e ∈ block → e ∈ whole) ∧
      results.map Prod.fst = q.blocks ∧ (∀ r ∈ results, f r.1 = .ok r.2) ∧
      RecallingPasses f [] p reported q results := by
  intro p
  have hstops := hf.stopsAt
  have hsome : ∀ fuel ≥ cost (metLiteralsEach ts) p.blocks, (p.overBlocks? f fuel).isSome = true :=
    fun fuel hfuel => overBlocks?_isSome (E := E) (fun block s _ h => hstops.of_eq_error h)
      (proper_foldl_refine proper_trivial) hfuel
  obtain ⟨⟨q, results⟩, hq⟩ := Option.isSome_iff_exists.mp (hsome _ (Nat.le_refl _))
  obtain ⟨reported, hrun⟩ := passes_of_overBlocks? hstops hq
  have hnodup := hrun.nodup hstops
  have hreported : ∀ a ∈ reported, a ∈ literalSets ts := fun a ha => by
    obtain ⟨t, ht, ha⟩ := exists_mem_of_mem_metLiteralsEach (hrun.of_mem hstops a ha)
    exact ⟨t, ht, subterm_of_mem_metLiterals ha⟩
  obtain ⟨hblocks, hok⟩ := pass_eq_ok_iff.mp hrun.pass_eq
  refine ⟨reported, q, results, hrun, ⟨cost (metLiteralsEach ts) p.blocks, fun fuel hfuel => ?_⟩,
    fun before a after heq => hrun.of_eq_append hstops heq, hnodup, hreported,
    length_le_ncard_literalSets hnodup hreported, hrun.eq_foldl, fun block hblock => ?_,
    hblocks, hok, hrun.recallingPasses nofun⟩
  · obtain ⟨⟨q', results'⟩, hq'⟩ := Option.isSome_iff_exists.mp (hsome fuel hfuel)
    -- There is only one run of passes, and so more fuel gives nothing else.
    obtain ⟨_, hrun'⟩ := passes_of_overBlocks? hstops hq'
    obtain ⟨-, rfl, rfl⟩ := hrun.unique hrun'
    exact hq'
  · rw [hrun.eq_foldl] at hblock
    exact exists_superset_of_mem_foldl_refine hblock

/-- Each of the two literals stops one pass, and the third pass has a result for each block. -/
theorem derivatives_by_passes_pair :
    let p : Term Mask × Term Mask := (literal ⟨3#8⟩, literal ⟨6#8⟩)
    ∃ q results, Passes (derivativePair · p) trivial [⟨3#8⟩, ⟨6#8⟩] q results ∧
      q.blocks = [⟨2#8⟩, ⟨1#8⟩, ⟨4#8⟩, ⟨248#8⟩] ∧ results.map Prod.fst = q.blocks ∧
      ∃ bound, ∀ fuel ≥ bound, trivial.overBlocks? (derivativePair · p) fuel = some (q, results) := by
  intro p
  obtain ⟨reported, q, results, hrun, hover, -, -, -, -, -, -, hresults, -⟩ :=
    derivatives_by_passes (gathers_derivativePair p) ([] : List Mask)
  have hfirst : pass (derivativePair · p) [(⟨255#8⟩ : Mask)] = .error ⟨⟨255#8⟩, ⟨3#8⟩⟩ := rfl
  have hsecond : pass (derivativePair · p) [(⟨3#8⟩ : Mask), ⟨252#8⟩] = .error ⟨⟨3#8⟩, ⟨6#8⟩⟩ := rfl
  have hthird : pass (derivativePair · p) [(⟨2#8⟩ : Mask), ⟨1#8⟩, ⟨4#8⟩, ⟨248#8⟩] =
      .ok [(⟨2#8⟩, eps, eps), (⟨1#8⟩, eps, empty), (⟨4#8⟩, empty, eps), (⟨248#8⟩, empty, empty)] := rfl
  have hrefined : ([⟨3#8⟩, ⟨6#8⟩].foldl refine (trivial : Partition Mask)).blocks =
      [⟨2#8⟩, ⟨1#8⟩, ⟨4#8⟩, ⟨248#8⟩] := by decide
  have hrun' : Passes (derivativePair · p) trivial [⟨3#8⟩, ⟨6#8⟩] _ _ :=
    .retry hfirst (.retry hsecond (.success hthird))
  obtain ⟨rfl, rfl, rfl⟩ := hrun.unique hrun'
  exact ⟨_, _, hrun', hrefined, hresults, hover⟩

end ExtendedRegex.Term
