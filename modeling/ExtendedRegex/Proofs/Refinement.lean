/-
Refining a partition until no literal stands in the way.

`Partition.overBlocks?` splits blocks whenever one of them straddles a literal.

* `Partition.Proper`: no block is empty, and every symbol is in some block;
* `Partition.overBlocks?_spec`: the refined partition is proper again, and the
  results are what the function gives for its blocks;
* `Partition.overBlocks?_isSome`: the refinement comes to an end;
* `Partition.cost`: a bound on the number of steps, which never grows.

Design notes: a block that straddles `n` of the literals can be split into two blocks
that straddle at most `n - 1` each.  So it is good for at most `2 ^ (n + 1) - 1` steps,
and this number exceeds the sum of those of its two parts.
-/
import ExtendedRegex.Proofs.Quotient

universe u v w

namespace ExtendedRegex.Partition

open SetAlgebra (isEmpty difference straddles straddles_iff straddles_of_subset
  isEmpty_eq_false_iff)
open LawfulSetAlgebra (mem_inter mem_compl)

variable {S : Type u} {E : Type v} [SetAlgebra S] [Membership E S]

/-- No block is empty, and the blocks have every symbol. -/
structure Proper (E : Type v) [Membership E S] (p : Partition S) : Prop where
  inhabited : ∀ block ∈ p.blocks, isEmpty block = false
  total : ∀ e : E, ∃ block ∈ p.blocks, e ∈ block

/-! ### Splitting a block -/

section Split

variable {block set c : S} {blocks sets : List S} {e : E}

theorem mem_difference [LawfulSetAlgebra S E] {a b : S} : e ∈ difference a b ↔ e ∈ a ∧ e ∉ b := by
  rw [difference, mem_inter, mem_compl]

theorem splitBlock_of_straddles [LawfulSetAlgebra S E] (h : straddles block set = true) :
    splitBlock set block = [block ∩ set, difference block set] := by
  obtain ⟨⟨e, he, hes⟩, f, hf, hfs⟩ := straddles_iff.mp h
  have hinter : isEmpty (block ∩ set) = false :=
    isEmpty_eq_false_iff.mpr ⟨e, mem_inter.mpr ⟨he, hes⟩⟩
  have hdifference : isEmpty (difference block set) = false :=
    isEmpty_eq_false_iff.mpr ⟨f, mem_difference.mpr ⟨hf, hfs⟩⟩
  rw [splitBlock, hinter, hdifference]
  rfl

theorem splitBlock_of_not_straddles [LawfulSetAlgebra S E] (h : straddles block set = false) :
    splitBlock set block = [block] := by
  refine if_pos ?_
  by_contra hne
  rw [Bool.or_eq_true, not_or, Bool.not_eq_true, Bool.not_eq_true, isEmpty_eq_false_iff,
    isEmpty_eq_false_iff] at hne
  obtain ⟨⟨e, he⟩, f, hf⟩ := hne
  have := straddles_iff.mpr ⟨⟨e, (mem_inter.mp he).1, (mem_inter.mp he).2⟩, f,
    (mem_difference.mp hf).1, (mem_difference.mp hf).2⟩
  rw [h] at this
  contradiction

/-- The parts that a set splits a block into do not straddle the set. -/
theorem straddles_of_mem_splitBlock [LawfulSetAlgebra S E] (hc : c ∈ splitBlock set block) :
    straddles c set = false := by
  by_cases h : straddles block set = true
  · rw [splitBlock_of_straddles h] at hc
    rw [Bool.eq_false_iff, Ne, straddles_iff]
    rintro ⟨⟨e, he, hes⟩, f, hf, hfs⟩
    rcases List.mem_cons.mp hc with rfl | hc
    · exact hfs (mem_inter.mp hf).2
    · rw [List.mem_singleton.mp hc] at he
      exact (mem_difference.mp he).2 hes
  · rw [Bool.not_eq_true] at h
    rw [splitBlock_of_not_straddles h, List.mem_singleton] at hc
    rw [hc, h]

/-- Splitting loses no symbol and brings in none. -/
theorem mem_splitBlock [LawfulSetAlgebra S E] : (∃ c ∈ splitBlock set block, e ∈ c) ↔ e ∈ block := by
  by_cases h : straddles block set = true
  · rw [splitBlock_of_straddles h]
    simp only [List.mem_cons, List.not_mem_nil, or_false, exists_eq_or_imp, exists_eq_left,
      mem_inter, mem_difference]
    by_cases he : e ∈ set
    · simp [he]
    · simp [he]
  · rw [splitBlock_of_not_straddles (Bool.not_eq_true _ ▸ h)]
    simp

theorem isEmpty_of_mem_splitBlock (h : isEmpty block = false) :
    ∀ c ∈ splitBlock set block, isEmpty c = false := by
  intro c hc
  rw [splitBlock] at hc
  by_cases hne : (isEmpty (block ∩ set) || isEmpty (SetAlgebra.difference block set)) = true
  · rw [if_pos hne] at hc
    rwa [List.mem_singleton.mp hc]
  · rw [if_neg hne] at hc
    rw [Bool.or_eq_true, not_or, Bool.not_eq_true, Bool.not_eq_true] at hne
    rcases List.mem_cons.mp hc with rfl | hc
    · exact hne.1
    · rw [List.mem_singleton.mp hc]
      exact hne.2

theorem exists_mem_flatMap_splitBlock [LawfulSetAlgebra S E] :
    (∃ c ∈ blocks.flatMap (splitBlock set), e ∈ c) ↔ ∃ block ∈ blocks, e ∈ block := by
  rw [exists_mem_flatMap]
  exact exists_congr fun block => and_congr_right' mem_splitBlock

theorem isEmpty_of_mem_flatMap_splitBlock (h : ∀ block ∈ blocks, isEmpty block = false) :
    ∀ c ∈ blocks.flatMap (splitBlock set), isEmpty c = false := by
  intro c hc
  obtain ⟨block, hblock, hc⟩ := List.mem_flatMap.mp hc
  exact isEmpty_of_mem_splitBlock (h block hblock) c hc

end Split

/-! ### The cost of a block -/

/-- A bound on the steps that a block takes, with all splits by some sets. -/
def blockCost (sets : List S) (block : S) : Nat := 2 ^ (sets.countP (straddles block) + 1) - 1

/-- A bound on the steps that some blocks take. -/
def cost (sets : List S) : List S → Nat
  | [] => 0
  | block :: blocks => blockCost sets block + cost sets blocks

section Cost

variable {block set c : S} {blocks blocks' sets : List S}

theorem blockCost_pos : 0 < blockCost sets block := by
  have : 2 ^ 1 ≤ 2 ^ (sets.countP (straddles block) + 1) :=
    Nat.pow_le_pow_right (by omega) (by omega)
  rw [blockCost]
  omega

@[simp] theorem cost_nil : cost sets [] = 0 := rfl

@[simp] theorem cost_cons : cost sets (block :: blocks) = blockCost sets block + cost sets blocks :=
  rfl

@[simp] theorem cost_append : cost sets (blocks ++ blocks') = cost sets blocks + cost sets blocks' := by
  induction blocks with
  | nil => simp
  | cons block blocks ih =>
    rw [List.cons_append, cost_cons, cost_cons, ih]
    omega

/-- A part of a block straddles no more sets, and fewer if it does not straddle one of them. -/
theorem countP_straddles_lt [LawfulSetAlgebra S E] (hsub : ∀ e : E, e ∈ c → e ∈ block)
    (hset : set ∈ sets) (hblock : straddles block set = true) (hc : straddles c set = false) :
    sets.countP (straddles c) < sets.countP (straddles block) := by
  have hmono : ∀ a : S, straddles c a = true → straddles block a = true := fun a =>
    straddles_of_subset hsub
  -- The sets before and after it count no more than they did, and the set itself counts no more.
  obtain ⟨before, after, rfl⟩ := List.append_of_mem hset
  have hbefore : before.countP (straddles c) ≤ before.countP (straddles block) :=
    List.countP_mono_left fun a _ => hmono a
  have hafter : after.countP (straddles c) ≤ after.countP (straddles block) :=
    List.countP_mono_left fun a _ => hmono a
  rw [List.countP_append, List.countP_append, List.countP_cons, List.countP_cons, hblock, hc]
  simp only [if_true, Bool.false_eq_true, if_false]
  omega

theorem cost_splitBlock_lt [LawfulSetAlgebra S E] (hset : set ∈ sets)
    (h : straddles block set = true) :
    cost sets (splitBlock set block) < blockCost sets block := by
  have hparts : ∀ c ∈ [block ∩ set, difference block set], straddles c set = false := by
    intro c hc
    rw [← splitBlock_of_straddles h] at hc
    exact straddles_of_mem_splitBlock hc
  have hinter : sets.countP (straddles (block ∩ set)) < sets.countP (straddles block) :=
    countP_straddles_lt (fun e he => (mem_inter.mp he).1) hset h (hparts _ (by simp))
  have hdifference : sets.countP (straddles (difference block set)) <
      sets.countP (straddles block) :=
    countP_straddles_lt (fun e he => (mem_difference.mp he).1) hset h (hparts _ (by simp))
  -- Both parts together cost at most twice what one of them can cost.
  have hpow : ∀ m n : Nat, m < n → 2 ^ (m + 1) ≤ 2 ^ n := fun m n hmn =>
    Nat.pow_le_pow_right (by omega) hmn
  have hone := hpow _ _ hinter
  have htwo := hpow _ _ hdifference
  have hpos : 0 < 2 ^ sets.countP (straddles block) := Nat.two_pow_pos _
  rw [splitBlock_of_straddles h, cost_cons, cost_cons, cost_nil, blockCost, blockCost, blockCost,
    Nat.pow_succ 2 (sets.countP (straddles block))]
  omega

theorem cost_splitBlock_le [LawfulSetAlgebra S E] (hset : set ∈ sets) :
    cost sets (splitBlock set block) ≤ blockCost sets block := by
  by_cases h : straddles block set = true
  · exact Nat.le_of_lt (cost_splitBlock_lt hset h)
  · rw [splitBlock_of_not_straddles (Bool.not_eq_true _ ▸ h), cost_cons, cost_nil]
    exact Nat.le_refl _

theorem cost_flatMap_splitBlock_le [LawfulSetAlgebra S E] (hset : set ∈ sets) :
    cost sets (blocks.flatMap (splitBlock set)) ≤ cost sets blocks := by
  induction blocks with
  | nil => exact Nat.le_refl _
  | cons block blocks ih =>
    rw [List.flatMap_cons, cost_append, cost_cons]
    exact Nat.add_le_add (cost_splitBlock_le hset) ih

end Cost

/-! ### Results for all blocks -/

section Each

variable {β : Type w} {f : S → Except (Straddle S) β} {blocks sets : List S} {fuel : Nat}
  {results : List (S × β)}

/-- A failure on a block that is not empty is due to one of the sets, which the block straddles. -/
def FailsOn (sets : List S) (f : S → Except (Straddle S) β) : Prop :=
  ∀ block s, isEmpty block = false → f block = .error s →
    s.set ∈ sets ∧ straddles block s.set = true

theorem eachBlock?_ok (h : eachBlock? f fuel blocks = some results) :
    ∀ r ∈ results, f r.1 = .ok r.2 := by
  fun_induction eachBlock? f fuel blocks generalizing results with
  | case1 =>
    obtain rfl := Option.some.inj h
    exact nofun
  | case2 => contradiction
  | case3 fuel block blocks result hf ih =>
    obtain ⟨rest, hrest, rfl⟩ := Option.map_eq_some_iff.mp h
    intro r hr
    rcases List.mem_cons.mp hr with rfl | hr
    · exact hf
    · exact ih hrest r hr
  | case4 fuel block blocks s hf ih => exact ih h

/-- More fuel changes no results. -/
theorem eachBlock?_mono {fuel' : Nat} (hle : fuel ≤ fuel')
    (h : eachBlock? f fuel blocks = some results) : eachBlock? f fuel' blocks = some results := by
  fun_induction eachBlock? f fuel blocks generalizing fuel' results with
  | case1 =>
    rw [eachBlock?]
    exact h
  | case2 => contradiction
  | case3 fuel block blocks result hf ih =>
    obtain ⟨rest, hrest, rfl⟩ := Option.map_eq_some_iff.mp h
    obtain ⟨fuel', rfl⟩ := Nat.exists_eq_add_one_of_ne_zero (show fuel' ≠ 0 by omega)
    rw [eachBlock?, hf]
    dsimp only
    rw [ih (by omega) hrest]
    rfl
  | case4 fuel block blocks s hf ih =>
    obtain ⟨fuel', rfl⟩ := Nat.exists_eq_add_one_of_ne_zero (show fuel' ≠ 0 by omega)
    rw [eachBlock?, hf]
    exact ih (by omega) h

/-- What splitting by the sets of failures keeps is kept by the blocks. -/
theorem eachBlock?_forall {P : S → Prop}
    (hsplit : ∀ block s, f block = .error s → ∀ c, P c → ∀ d ∈ splitBlock s.set c, P d)
    (hblocks : ∀ block ∈ blocks, P block) (h : eachBlock? f fuel blocks = some results) :
    ∀ r ∈ results, P r.1 := by
  fun_induction eachBlock? f fuel blocks generalizing results with
  | case1 =>
    obtain rfl := Option.some.inj h
    exact nofun
  | case2 => contradiction
  | case3 fuel block blocks result hf ih =>
    obtain ⟨rest, hrest, rfl⟩ := Option.map_eq_some_iff.mp h
    obtain ⟨hblock, hblocks⟩ := List.forall_mem_cons.mp hblocks
    exact List.forall_mem_cons.mpr ⟨hblock, ih hblocks hrest⟩
  | case4 fuel block blocks s hf ih =>
    exact ih (List.forall_mem_flatMap.mpr fun c hc => hsplit block s hf c (hblocks c hc)) h

theorem eachBlock?_inhabited (hblocks : ∀ block ∈ blocks, isEmpty block = false)
    (h : eachBlock? f fuel blocks = some results) : ∀ r ∈ results, isEmpty r.1 = false :=
  eachBlock?_forall (fun _ _ _ _ => isEmpty_of_mem_splitBlock) hblocks h

theorem eachBlock?_total [LawfulSetAlgebra S E] (h : eachBlock? f fuel blocks = some results)
    (e : E) : (∃ r ∈ results, e ∈ r.1) ↔ ∃ block ∈ blocks, e ∈ block := by
  fun_induction eachBlock? f fuel blocks generalizing results with
  | case1 =>
    obtain rfl := Option.some.inj h
    exact iff_of_false nofun nofun
  | case2 => contradiction
  | case3 fuel block blocks result hf ih =>
    obtain ⟨rest, hrest, rfl⟩ := Option.map_eq_some_iff.mp h
    rw [List.exists_mem_cons_iff, List.exists_mem_cons_iff, ih hrest]
  | case4 fuel block blocks s hf ih => rw [ih h, exists_mem_flatMap_splitBlock]

theorem cost_eachBlock?_le [LawfulSetAlgebra S E] (hf : FailsOn sets f)
    (hblocks : ∀ block ∈ blocks, isEmpty block = false)
    (h : eachBlock? f fuel blocks = some results) :
    cost sets (results.map Prod.fst) ≤ cost sets blocks := by
  fun_induction eachBlock? f fuel blocks generalizing results with
  | case1 =>
    obtain rfl := Option.some.inj h
    exact Nat.le_refl _
  | case2 => contradiction
  | case3 fuel block blocks result hfb ih =>
    obtain ⟨rest, hrest, rfl⟩ := Option.map_eq_some_iff.mp h
    rw [List.map_cons, cost_cons, cost_cons]
    exact Nat.add_le_add_left (ih (fun c hc => hblocks c (List.mem_cons_of_mem _ hc)) hrest) _
  | case4 fuel block blocks s hfb ih =>
    have hset := (hf block s (hblocks block (List.mem_cons_self ..)) hfb).1
    exact (ih (isEmpty_of_mem_flatMap_splitBlock hblocks) h).trans (cost_flatMap_splitBlock_le hset)

/-- With as much fuel as the blocks cost, there are results for all of them. -/
theorem eachBlock?_isSome [LawfulSetAlgebra S E] (hf : FailsOn sets f)
    (hblocks : ∀ block ∈ blocks, isEmpty block = false)
    (hfuel : cost sets blocks ≤ fuel) : (eachBlock? f fuel blocks).isSome = true := by
  fun_induction eachBlock? f fuel blocks with
  | case1 => rfl
  | case2 block blocks =>
    have hpos : 0 < blockCost sets block := blockCost_pos
    rw [cost_cons] at hfuel
    omega
  | case3 fuel block blocks result hfb ih =>
    have hpos : 0 < blockCost sets block := blockCost_pos
    rw [cost_cons] at hfuel
    rw [Option.isSome_map]
    exact ih (fun c hc => hblocks c (List.mem_cons_of_mem _ hc)) (by omega)
  | case4 fuel block blocks s hfb ih =>
    obtain ⟨hset, hstraddles⟩ := hf block s (hblocks block (List.mem_cons_self ..)) hfb
    -- The first block straddles the set of the literal, and so the split lowers the cost.
    refine ih (isEmpty_of_mem_flatMap_splitBlock hblocks) ?_
    have hhead := cost_splitBlock_lt hset hstraddles
    have htail : cost sets (blocks.flatMap (splitBlock s.set)) ≤ cost sets blocks :=
      cost_flatMap_splitBlock_le hset
    rw [List.flatMap_cons, cost_append]
    rw [cost_cons] at hfuel
    omega

end Each

section Over

variable {β : Type w} {f : S → Except (Straddle S) β} {p q : Partition S} {sets : List S}
  {fuel : Nat} {results : List (S × β)}

theorem proper_trivial [LawfulSetAlgebra S E] : Proper E (trivial : Partition S) := by
  obtain ⟨e⟩ := LawfulSetAlgebra.nonempty (S := S) (E := E)
  refine ⟨fun block hblock => ?_, fun e => ?_⟩
  · rw [List.mem_singleton.mp hblock]
    exact isEmpty_eq_false_iff.mpr ⟨e, LawfulSetAlgebra.mem_full e⟩
  · exact ⟨_, List.mem_singleton_self _, LawfulSetAlgebra.mem_full e⟩

theorem Proper.refine [LawfulSetAlgebra S E] (h : Proper E p) (set : S) : Proper E (p.refine set) where
  inhabited := isEmpty_of_mem_flatMap_splitBlock h.inhabited
  total e := exists_mem_flatMap_splitBlock.mpr (h.total e)

theorem proper_foldl_refine [LawfulSetAlgebra S E] (h : Proper E p) :
    Proper E (sets.foldl Partition.refine p) := by
  induction sets generalizing p with
  | nil => exact h
  | cons set sets ih => exact ih (h.refine set)

theorem overBlocks?_eq_some :
    p.overBlocks? f fuel = some (q, results) ↔
      eachBlock? f fuel p.blocks = some results ∧ q = ⟨results.map Prod.fst⟩ := by
  rw [overBlocks?, Option.map_eq_some_iff]
  constructor
  · rintro ⟨rs, hrs, heq⟩
    obtain ⟨rfl, rfl⟩ := Prod.mk.inj heq
    exact ⟨hrs, rfl⟩
  · rintro ⟨hrs, rfl⟩
    exact ⟨results, hrs, rfl⟩

theorem overBlocks?_mono {fuel' : Nat} (hle : fuel ≤ fuel')
    (h : p.overBlocks? f fuel = some (q, results)) : p.overBlocks? f fuel' = some (q, results) := by
  obtain ⟨heach, rfl⟩ := overBlocks?_eq_some.mp h
  exact overBlocks?_eq_some.mpr ⟨eachBlock?_mono hle heach, rfl⟩

variable [LawfulSetAlgebra S E]

/-- The results are those of the blocks of the refined partition, which is proper again. -/
theorem overBlocks?_spec (hp : Proper E p) (h : p.overBlocks? f fuel = some (q, results)) :
    Proper E q ∧ q.blocks = results.map Prod.fst ∧ ∀ r ∈ results, f r.1 = .ok r.2 := by
  obtain ⟨heach, rfl⟩ := overBlocks?_eq_some.mp h
  refine ⟨⟨?_, fun e => ?_⟩, rfl, eachBlock?_ok heach⟩
  · exact List.forall_mem_map.mpr (eachBlock?_inhabited hp.inhabited heach)
  · obtain ⟨r, hr, he⟩ := (eachBlock?_total heach e).mpr (hp.total e)
    exact ⟨r.1, List.mem_map_of_mem hr, he⟩

theorem cost_overBlocks?_le (hf : FailsOn sets f) (hp : Proper E p)
    (h : p.overBlocks? f fuel = some (q, results)) : cost sets q.blocks ≤ cost sets p.blocks := by
  obtain ⟨heach, rfl⟩ := overBlocks?_eq_some.mp h
  exact cost_eachBlock?_le hf hp.inhabited heach

theorem overBlocks?_isSome (hf : FailsOn sets f) (hp : Proper E p)
    (hfuel : cost sets p.blocks ≤ fuel) : (p.overBlocks? f fuel).isSome = true := by
  rw [overBlocks?, Option.isSome_map]
  exact eachBlock?_isSome hf hp.inhabited hfuel

end Over

end ExtendedRegex.Partition
