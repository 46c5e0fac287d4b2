/-
The blocks of a partition that is refined by some sets.

Any number of sets divides the symbols into cells: symbols are in one cell if they are in
the same ones of the sets.

* `cells`: all the cells in lexicographic order, inside before outside, with the empty ones;
* `blocks_foldl_refine`: refining by the sets splits each block by all cells at once;
* `refine_eq_self_iff`: only a set that straddles a block changes a partition;
* `atoms_of_refinements`: from the coarsest partition, the blocks are the cells that are not
  empty, in their order.

Design notes: refining takes up the sets one after another, and so the first set decides the
order before all others do.  This is the recursion of `cells` on the list of sets, and the
facts about blocks are proved of the cells by the same recursion.
-/
import ExtendedRegex.Mask
import ExtendedRegex.Proofs.Refinement

universe u v

namespace ExtendedRegex.Partition

open SetAlgebra (isEmpty difference straddles straddles_iff isEmpty_eq_false_iff)
open LawfulSetAlgebra (mem_inter mem_compl mem_full)

variable {S : Type u} {E : Type v} [Membership E S]

/-! ### The order of cells -/

/-- All symbols of `b` and of `c` agree on some of the first sets, and the next one has those of `b`
and lacks those of `c`. -/
def Precedes (E : Type v) [Membership E S] (sets : List S) (b c : S) : Prop :=
  ∃ before set after, sets = before ++ set :: after ∧
    ∀ e : E, e ∈ b → ∀ f : E, f ∈ c → (∀ a ∈ before, e ∈ a ↔ f ∈ a) ∧ e ∈ set ∧ f ∉ set

theorem Precedes.disjoint {sets : List S} {b c : S} (h : Precedes E sets b c) (e : E) :
    ¬ (e ∈ b ∧ e ∈ c) := by
  obtain ⟨_, _, _, _, h⟩ := h
  rintro ⟨hb, hc⟩
  obtain ⟨-, hin, hout⟩ := h e hb e hc
  exact hout hin

/-- The order goes on from cells to their parts that agree on one more set in front. -/
theorem Precedes.cons {sets : List S} {set b c b' c' : S} (h : Precedes E sets b c)
    (hb : ∀ e : E, e ∈ b' → e ∈ b) (hc : ∀ e : E, e ∈ c' → e ∈ c)
    (hset : ∀ e : E, e ∈ b' → ∀ f : E, f ∈ c' → (e ∈ set ↔ f ∈ set)) :
    Precedes E (set :: sets) b' c' := by
  obtain ⟨before, next, after, rfl, h⟩ := h
  refine ⟨set :: before, next, after, rfl, fun e he f hf => ?_⟩
  obtain ⟨hbefore, hnext⟩ := h e (hb e he) f (hc f hf)
  exact ⟨List.forall_mem_cons.mpr ⟨hset e he f hf, hbefore⟩, hnext⟩

variable [SetAlgebra S]

/-- The cells of some sets, one for each choice of inside or outside for each of the sets. -/
def cells : List S → List S
  | [] => [SetAlgebra.full]
  | set :: sets => (cells sets).map (set ∩ ·) ++ (cells sets).map (SetAlgebra.compl set ∩ ·)

section Cells

variable [LawfulSetAlgebra S E] {sets : List S}

theorem exists_mem_cells_iff {e f : E} :
    (∃ c ∈ cells sets, e ∈ c ∧ f ∈ c) ↔ ∀ a ∈ sets, e ∈ a ↔ f ∈ a := by
  induction sets with
  | nil => simp [cells, mem_full]
  | cons set sets ih =>
    rw [cells, List.forall_mem_cons, ← ih]
    simp only [List.mem_append, List.mem_map, or_and_right, exists_or, exists_exists_and_eq_and,
      mem_inter, mem_compl]
    by_cases he : e ∈ set <;> by_cases hf : f ∈ set <;> simp [he, hf]

theorem pairwise_cells : (cells sets).Pairwise (Precedes E sets) := by
  induction sets with
  | nil => exact List.pairwise_singleton _ _
  | cons set sets ih =>
    rw [cells, List.pairwise_append, List.pairwise_map, List.pairwise_map]
    refine ⟨ih.imp fun {b c} h => ?_, ih.imp fun {b c} h => ?_, fun b hb c hc => ?_⟩
    · refine h.cons (fun e he => (mem_inter.mp he).2) (fun e he => (mem_inter.mp he).2) ?_
      exact fun e he f hf => iff_of_true (mem_inter.mp he).1 (mem_inter.mp hf).1
    · refine h.cons (fun e he => (mem_inter.mp he).2) (fun e he => (mem_inter.mp he).2) ?_
      exact fun e he f hf => iff_of_false (mem_compl.mp (mem_inter.mp he).1)
        (mem_compl.mp (mem_inter.mp hf).1)
    · -- One of the cells is inside the first set, and the other is outside.
      obtain ⟨b, -, rfl⟩ := List.mem_map.mp hb
      obtain ⟨c, -, rfl⟩ := List.mem_map.mp hc
      refine ⟨[], set, sets, rfl, fun e he f hf => ⟨nofun, (mem_inter.mp he).1, ?_⟩⟩
      exact mem_compl.mp (mem_inter.mp hf).1

end Cells

/-! ### Blocks split by cells -/

/-- The parts of a block in the cells of some sets, without the empty ones. -/
def parts (sets : List S) (block : S) : List S :=
  ((cells sets).map (block ∩ ·)).filter fun c => !isEmpty c

section Parts

variable {block set : S} {sets : List S}

theorem parts_nil [LawfulSetAlgebra S E] (h : isEmpty block = false) :
    parts [] block = [block] := by
  have hfull : block ∩ SetAlgebra.full = block := LawfulSetAlgebra.ext fun e : E => by
    simp [mem_inter, mem_full]
  simp [parts, cells, hfull, h]

theorem parts_cons [LawfulSetAlgebra S E] : parts (set :: sets) block =
    parts sets (block ∩ set) ++ parts sets (difference block set) := by
  have hassoc : ∀ a c : S, block ∩ (a ∩ c) = (block ∩ a) ∩ c := fun a c =>
    LawfulSetAlgebra.ext fun e : E => by simp only [mem_inter, and_assoc]
  simp only [parts, cells, List.map_append, List.filter_append, List.map_map, Function.comp_def,
    hassoc, difference]

theorem parts_of_isEmpty [LawfulSetAlgebra S E] (h : isEmpty block = true) :
    parts sets block = [] := by
  rw [parts, List.filter_eq_nil_iff, List.forall_mem_map]
  intro c _
  have hc : isEmpty (block ∩ c) = true := LawfulSetAlgebra.isEmpty_iff.mpr fun e : E => fun he =>
    LawfulSetAlgebra.isEmpty_iff.mp h e (mem_inter.mp he).1
  simp [hc]

theorem parts_full [LawfulSetAlgebra S E] :
    parts sets (SetAlgebra.full : S) = (cells sets).filter fun c => !isEmpty c := by
  have hfull : ∀ c : S, SetAlgebra.full ∩ c = c := fun c => LawfulSetAlgebra.ext fun e : E => by
    simp [mem_inter, mem_full]
  simp only [parts, hfull, List.map_id']

/-- Splitting a block by a set and its parts by the cells of more sets is splitting it by the cells
of them all. -/
theorem flatMap_parts_splitBlock [LawfulSetAlgebra S E] :
    (splitBlock set block).flatMap (parts sets) = parts (set :: sets) block := by
  rw [parts_cons]
  by_cases hinside : isEmpty (block ∩ set) = true
  · have hblock : difference block set = block := LawfulSetAlgebra.ext fun e : E => by
      have := LawfulSetAlgebra.isEmpty_iff.mp hinside e
      rw [mem_inter] at this
      rw [mem_difference]
      tauto
    rw [splitBlock, hinside, parts_of_isEmpty hinside, hblock]
    simp
  · by_cases houtside : isEmpty (difference block set) = true
    · have hblock : block ∩ set = block := LawfulSetAlgebra.ext fun e : E => by
        have := LawfulSetAlgebra.isEmpty_iff.mp houtside e
        rw [mem_difference] at this
        rw [mem_inter]
        tauto
      rw [splitBlock, houtside, parts_of_isEmpty houtside, hblock]
      simp
    · simp [splitBlock, hinside, houtside]

end Parts

/-! ### Refining by several sets -/

section Refine

variable {p : Partition S} {set : S} {sets : List S}

theorem blocks_foldl_refine [LawfulSetAlgebra S E] (h : ∀ block ∈ p.blocks, isEmpty block = false) :
    (sets.foldl refine p).blocks = p.blocks.flatMap (parts sets) := by
  induction sets generalizing p with
  | nil =>
    rw [List.foldl_nil, List.flatMap_congr fun block hblock => parts_nil (h block hblock)]
    simp
  | cons set sets ih =>
    have hrefined : ∀ block ∈ (p.refine set).blocks, isEmpty block = false :=
      isEmpty_of_mem_flatMap_splitBlock h
    rw [List.foldl_cons, ih hrefined, refine, List.flatMap_assoc]
    exact List.flatMap_congr fun block _ => flatMap_parts_splitBlock

theorem length_refine [LawfulSetAlgebra S E] :
    (p.refine set).blocks.length = p.blocks.length + p.blocks.countP (straddles · set) := by
  rw [refine]
  induction p.blocks with
  | nil => rfl
  | cons block blocks ih =>
    rw [List.flatMap_cons, List.length_append, ih, List.countP_cons, List.length_cons]
    by_cases h : straddles block set = true
    · rw [splitBlock_of_straddles h, if_pos h]
      simp only [List.length_cons, List.length_nil]
      omega
    · rw [splitBlock_of_not_straddles (Bool.not_eq_true _ ▸ h), if_neg h]
      simp only [List.length_cons, List.length_nil]
      omega

/-- Only a set that straddles a block changes a partition. -/
theorem refine_eq_self_iff [LawfulSetAlgebra S E] :
    p.refine set = p ↔ ∀ block ∈ p.blocks, straddles block set = false := by
  constructor
  · intro h
    have hlength : (p.refine set).blocks.length =
        p.blocks.length + p.blocks.countP (straddles · set) := length_refine
    rw [h] at hlength
    have hcount : p.blocks.countP (straddles · set) = 0 := by omega
    simpa [List.countP_eq_zero] using hcount
  · intro h
    have hblocks : p.blocks.flatMap (splitBlock set) = p.blocks := by
      rw [List.flatMap_congr fun block hblock => splitBlock_of_not_straddles (h block hblock)]
      simp
    rw [refine, hblocks]

theorem straddles_eq_false_iff [LawfulSetAlgebra S E] {block : S} : straddles block set = false ↔
    (∀ e : E, e ∈ block → e ∈ set) ∨ ∀ e : E, e ∈ block → e ∉ set := by
  rw [Bool.eq_false_iff, Ne, straddles_iff, not_and_or, or_comm]
  push Not
  rfl

/-- **The atoms of some sets.**  From the coarsest partition, refining by the sets gives the cells
that are not empty, in lexicographic order.  So two symbols share a block exactly if they are in the
same ones of the sets, each block is there once, and every symbol is in one block and in no other.
Refining by another set changes nothing exactly if every block is inside of it or outside. -/
theorem atoms_of_refinements [LawfulSetAlgebra S E] (sets : List S) :
    let p := sets.foldl refine (trivial : Partition S)
    p.blocks = (cells sets).filter (fun c => !isEmpty c) ∧
    p.blocks.Pairwise (Precedes E sets) ∧
    (∀ e f : E, (∃ block ∈ p.blocks, e ∈ block ∧ f ∈ block) ↔ ∀ a ∈ sets, e ∈ a ↔ f ∈ a) ∧
    (∀ block ∈ p.blocks, ∃ e : E, e ∈ block) ∧
    p.blocks.Nodup ∧
    p.blocks.Pairwise (fun b c => ∀ e : E, ¬ (e ∈ b ∧ e ∈ c)) ∧
    (∀ e : E, ∃ block ∈ p.blocks, e ∈ block) ∧
    ∀ set, p.refine set = p ↔
      ∀ block ∈ p.blocks, (∀ e : E, e ∈ block → e ∈ set) ∨ ∀ e : E, e ∈ block → e ∉ set := by
  intro p
  have hatoms : p.blocks = (cells sets).filter fun c => !isEmpty c := by
    rw [blocks_foldl_refine proper_trivial.inhabited, ← parts_full]
    exact List.append_nil _
  have hinhabited : ∀ block ∈ p.blocks, ∃ e : E, e ∈ block := by
    intro block hblock
    rw [hatoms, List.mem_filter, Bool.not_eq_true'] at hblock
    exact isEmpty_eq_false_iff.mp hblock.2
  have hshared : ∀ e f : E,
      (∃ block ∈ p.blocks, e ∈ block ∧ f ∈ block) ↔ ∀ a ∈ sets, e ∈ a ↔ f ∈ a := by
    intro e f
    rw [← exists_mem_cells_iff, hatoms]
    constructor
    · rintro ⟨c, hc, he, hf⟩
      exact ⟨c, (List.mem_filter.mp hc).1, he, hf⟩
    · rintro ⟨c, hc, he, hf⟩
      have hempty : isEmpty c = false := isEmpty_eq_false_iff.mpr ⟨e, he⟩
      exact ⟨c, List.mem_filter.mpr ⟨hc, by rw [hempty]; rfl⟩, he, hf⟩
  have hordered : p.blocks.Pairwise (Precedes E sets) := hatoms ▸ pairwise_cells.filter _
  have hdisjoint := hordered.imp fun {b c} h => h.disjoint
  refine ⟨hatoms, hordered, hshared, hinhabited, ?_, hdisjoint, fun e => ?_, fun set => ?_⟩
  · -- A block that is there twice would have a symbol in common with itself.
    refine hdisjoint.imp_of_mem fun {b c} hb _ h heq => ?_
    obtain ⟨e, he⟩ := hinhabited b hb
    exact h e ⟨he, heq ▸ he⟩
  · obtain ⟨block, hblock, he, -⟩ := (hshared e e).mpr fun a _ => Iff.rfl
    exact ⟨block, hblock, he⟩
  · rw [refine_eq_self_iff]
    exact forall₂_congr fun block _ => straddles_eq_false_iff

/-- Two sets with a symbol in common make four blocks, which their union cannot refine. -/
theorem atoms_of_refinements_mask :
    ([⟨3#8⟩, ⟨6#8⟩].foldl refine (trivial : Partition Mask)).blocks =
      [⟨2#8⟩, ⟨1#8⟩, ⟨4#8⟩, ⟨248#8⟩] ∧
    ([⟨3#8⟩, ⟨6#8⟩].foldl refine (trivial : Partition Mask)).refine ⟨7#8⟩ =
      [⟨3#8⟩, ⟨6#8⟩].foldl refine trivial := by
  obtain ⟨hatoms, -, -, -, -, -, -, hrefine⟩ := atoms_of_refinements [(⟨3#8⟩ : Mask), ⟨6#8⟩]
  have hblocks : ([⟨3#8⟩, ⟨6#8⟩].foldl refine (trivial : Partition Mask)).blocks =
      [⟨2#8⟩, ⟨1#8⟩, ⟨4#8⟩, ⟨248#8⟩] := hatoms.trans (by decide)
  refine ⟨hblocks, (hrefine _).mpr ?_⟩
  rw [hblocks]
  simp only [Mask.mem_iff]
  decide

end Refine

end ExtendedRegex.Partition
