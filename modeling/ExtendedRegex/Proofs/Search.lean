/-
What a search through derivatives finds out.

A search asks whether something holds of an item after every word, which is
`Always`.  Its steps must be derivatives at symbols (`StepsBy`), and what is settled
without a search must be settled rightly (`SettlesBy`).

* `holds?_iff`: an answer is right, whatever the fuel;
* `exists_seen_of_holds?`: what a search has seen when it finds nothing wrong;
* `holds?_isSome`: with enough fuel there is an answer, for all items of a finite set
  that has their derivatives;
* `SearchInvariant`: every open item that was seen is in the queue, or else all of its
  derivatives have been settled or seen.

Design notes: when the queue is empty, the items that were seen are closed under
derivatives up to those that were settled, and so nothing can go wrong after any word.
The fuel is bounded by counting an item three times before it is seen, twice at the
back of the queue and once at its front.  Every step lowers this count, and the cost of
the partition never grows.
-/
import ExtendedRegex.Proofs.Refinement
import ExtendedRegex.Search
import Mathlib.Data.Finset.Card

universe u v w

namespace ExtendedRegex.Question

open ExtendedRegex.Partition (Proper cost FailsOn)

variable {S : Type u} {E : Type v} {α : Type w}

/-- It holds of an item after every word. -/
def Always (δ : E → α → α) (ok : α → Prop) (x : α) : Prop :=
  ∀ w : List E, ok (w.foldl (fun x e => δ e x) x)

theorem always_iff {δ : E → α → α} {ok : α → Prop} {x : α} :
    Always δ ok x ↔ ok x ∧ ∀ e, Always δ ok (δ e x) := by
  constructor
  · exact fun h => ⟨h [], fun e w => h (e :: w)⟩
  · rintro ⟨hx, h⟩ w
    match w with
    | [] => exact hx
    | e :: w => exact h e w

/-- A step by a block is the derivative at any of its symbols, unless the block straddles one of
the literals that the item meets. -/
def StepsBy [SetAlgebra S] [Membership E S] (q : Question S α) (met : α → List S)
    (δ : E → α → α) : Prop :=
  ∀ x (e : E) (block : S), e ∈ block → q.step block x = unlessStraddled block (met x) (δ e x)

/-- Items of a domain that is closed under derivatives are settled rightly, and those that are open
are fine as they are. -/
structure SettlesBy (q : Question S α) (δ : E → α → α) (ok domain : α → Prop) : Prop where
  closed : ∀ x (e : E), domain x → domain (δ e x)
  settled : ∀ x answer, domain x → q.settle x = some answer → (answer = true ↔ Always δ ok x)
  opened : ∀ x, domain x → q.settle x = none → ok x

/-! ### One step -/

section Step

variable {q : Question S α} {xs ys : List α} {x y : α}

theorem openItems?_eq_none (h : q.openItems? xs = none) : ∃ x ∈ xs, q.settle x = some false := by
  fun_induction openItems? q xs with
  | case1 => contradiction
  | case2 x xs hx => exact ⟨x, List.mem_cons_self .., hx⟩
  | case3 x xs hx ih =>
    obtain ⟨y, hy, hsettle⟩ := ih h
    exact ⟨y, List.mem_cons_of_mem x hy, hsettle⟩
  | case4 x xs hx ih =>
    obtain ⟨y, hy, hsettle⟩ := ih (Option.map_eq_none_iff.mp h)
    exact ⟨y, List.mem_cons_of_mem x hy, hsettle⟩

theorem mem_openItems? (h : q.openItems? xs = some ys) : y ∈ ys ↔ y ∈ xs ∧ q.settle y = none := by
  fun_induction openItems? q xs generalizing ys with
  | case1 =>
    obtain rfl := Option.some.inj h
    exact iff_of_false List.not_mem_nil fun h => List.not_mem_nil h.1
  | case2 => contradiction
  | case3 x xs hx ih =>
    rw [ih h, List.mem_cons]
    refine and_congr_left fun hy => ⟨.inr, fun hyx => hyx.resolve_left ?_⟩
    rintro rfl
    rw [hx] at hy
    contradiction
  | case4 x xs hx ih =>
    obtain ⟨zs, hzs, rfl⟩ := Option.map_eq_some_iff.mp h
    rw [List.mem_cons, List.mem_cons, ih hzs, or_and_right]
    refine or_congr_left ⟨?_, fun h => h.1⟩
    rintro rfl
    exact ⟨rfl, hx⟩

theorem settle_of_openItems? (h : q.openItems? xs = some ys) (hx : x ∈ xs) :
    q.settle x = some true ∨ q.settle x = none := by
  fun_induction openItems? q xs generalizing ys with
  | case1 => contradiction
  | case2 => contradiction
  | case3 y xs hy ih =>
    rcases List.mem_cons.mp hx with rfl | hx
    · exact .inl hy
    · exact ih h hx
  | case4 y xs hy ih =>
    obtain ⟨zs, hzs, rfl⟩ := Option.map_eq_some_iff.mp h
    rcases List.mem_cons.mp hx with rfl | hx
    · exact .inr hy
    · exact ih hzs hx

section Fresh

variable [BEq α] [Hashable α] {seen : Std.HashSet α}

theorem eq_insert_of_containsThenInsert {seen' : Std.HashSet α} {known : Bool}
    (h : seen.containsThenInsert x = (known, seen')) : seen' = seen.insert x := by
  rw [← Std.HashSet.containsThenInsert_snd, h]

variable [LawfulBEq α]

theorem mem_fresh_snd : y ∈ (fresh seen xs).2 ↔ y ∈ seen ∨ y ∈ xs := by
  fun_induction fresh seen xs with
  | case1 => simp
  | case2 seen x xs seen' h ih =>
    have hseen := eq_insert_of_containsThenInsert h
    rw [ih, hseen, Std.HashSet.mem_insert, List.mem_cons, beq_iff_eq, eq_comm, or_right_comm]
    exact or_comm
  | case3 seen x xs known seen' h hknown ys seen'' hfresh ih =>
    have hseen := eq_insert_of_containsThenInsert h
    rw [hfresh] at ih
    rw [ih, hseen, Std.HashSet.mem_insert, List.mem_cons, beq_iff_eq, eq_comm, or_right_comm]
    exact or_comm

theorem mem_fresh_fst : y ∈ (fresh seen xs).1 ↔ y ∈ xs ∧ y ∉ seen := by
  fun_induction fresh seen xs with
  | case1 => simp
  | case2 seen x xs seen' h ih =>
    have hseen := eq_insert_of_containsThenInsert h
    have hx : x ∈ seen := by
      rw [← Std.HashSet.contains_iff_mem, ← Std.HashSet.containsThenInsert_fst, h]
    rw [ih, hseen, Std.HashSet.mem_insert, List.mem_cons, beq_iff_eq]
    by_cases hyx : y = x
    · rw [hyx]
      exact iff_of_false (fun h => h.2 (.inl rfl)) fun h => h.2 hx
    · rw [or_iff_right hyx, or_iff_right (Ne.symm hyx)]
  | case3 seen x xs known seen' h hknown ys seen'' hfresh ih =>
    have hseen := eq_insert_of_containsThenInsert h
    have hx : x ∉ seen := by
      rw [← Std.HashSet.contains_iff_mem, ← Std.HashSet.containsThenInsert_fst, h]
      exact hknown
    rw [hfresh] at ih
    rw [List.mem_cons, ih, hseen, Std.HashSet.mem_insert, List.mem_cons, beq_iff_eq]
    by_cases hyx : y = x
    · rw [hyx]
      exact iff_of_true (.inl rfl) ⟨.inl rfl, hx⟩
    · rw [or_iff_right hyx, or_iff_right hyx, or_iff_right (Ne.symm hyx)]

/-- What is new waits behind what is waiting already. -/
theorem mem_reverseAux_fresh {back : List α} :
    y ∈ (fresh seen xs).1.reverseAux back ↔ (y ∈ xs ∧ y ∉ seen) ∨ y ∈ back := by
  rw [List.reverseAux_eq, List.mem_append, List.mem_reverse, mem_fresh_fst]

theorem nodup_fresh : (fresh seen xs).1.Nodup := by
  fun_induction fresh seen xs with
  | case1 => exact .nil
  | case2 seen x xs seen' h ih => exact ih
  | case3 seen x xs known seen' h hknown ys seen'' hfresh ih =>
    have hmem : x ∈ (fresh seen' xs).1 ↔ x ∈ xs ∧ x ∉ seen' := mem_fresh_fst
    rw [hfresh] at ih hmem
    refine List.nodup_cons.mpr ⟨fun hx => (hmem.mp hx).2 ?_, ih⟩
    rw [eq_insert_of_containsThenInsert h]
    exact Std.HashSet.mem_insert_self

end Fresh

variable [SetAlgebra S] [Membership E S] [LawfulSetAlgebra S E] {met : α → List S}
  {δ : E → α → α} {p p' : Partition S} {fuel : Nat} {derived : List (S × α)}

/-- The blocks of a partition give the derivatives at all symbols. -/
theorem mem_derived_iff (hq : q.StepsBy met δ) (hp : Proper E p)
    (h : p.overBlocks? (q.step · x) fuel = some (p', derived)) :
    y ∈ derived.map Prod.snd ↔ ∃ e, y = δ e x := by
  obtain ⟨hp', hblocks, hok⟩ := Partition.overBlocks?_spec hp h
  have hstep : ∀ r ∈ derived, ∀ e ∈ r.1, r.2 = δ e x := by
    intro r hr e he
    have := hok r hr
    rw [hq x e r.1 he] at this
    exact (unlessStraddled_eq_ok.mp this).2
  rw [List.mem_map]
  constructor
  · rintro ⟨r, hr, rfl⟩
    have hmem : r.1 ∈ p'.blocks := by
      rw [hblocks]
      exact List.mem_map_of_mem hr
    obtain ⟨e, he⟩ := SetAlgebra.isEmpty_eq_false_iff.mp (hp'.inhabited r.1 hmem)
    exact ⟨e, hstep r hr e he⟩
  · rintro ⟨e, rfl⟩
    obtain ⟨block, hblock, he⟩ := hp'.total e
    rw [hblocks] at hblock
    obtain ⟨r, hr, rfl⟩ := List.mem_map.mp hblock
    exact ⟨r, hr, hstep r hr e he⟩

theorem StepsBy.failsOn (hq : q.StepsBy met δ) {sets : List S} (hsets : ∀ a ∈ met x, a ∈ sets) :
    FailsOn sets (q.step · x) := by
  intro block s hblock hs
  obtain ⟨e, he⟩ := SetAlgebra.isEmpty_eq_false_iff.mp hblock
  have hs : q.step block x = .error s := hs
  rw [hq x e block he] at hs
  obtain ⟨-, hset, hstraddles⟩ := of_unlessStraddled_eq_error hs
  exact ⟨hsets s.set hset, hstraddles⟩

end Step

/-! ### Answers are right -/

section Answers

variable [SetAlgebra S] [Membership E S] [BEq α] [Hashable α] {q : Question S α}
  {met : α → List S} {δ : E → α → α} {ok domain : α → Prop} {p : Partition S}
  {seen : Std.HashSet α} {front back : List α} {x : α} {answer : Bool} {fuel : Nat}

/-- Where a search stands: all items that were seen are open, and those that are no longer in the
queue have been taken care of. -/
structure SearchInvariant (q : Question S α) (δ : E → α → α) (domain : α → Prop)
    (p : Partition S) (seen : Std.HashSet α) (front back : List α) : Prop where
  proper : Proper E p
  domain : ∀ x ∈ seen, domain x
  opened : ∀ x ∈ seen, q.settle x = none
  queued : ∀ x, x ∈ front ∨ x ∈ back → x ∈ seen
  done : ∀ x ∈ seen, x ∉ front → x ∉ back → ∀ e, q.settle (δ e x) = some true ∨ δ e x ∈ seen

/-- With an empty queue, nothing can go wrong after any word. -/
theorem SearchInvariant.always (h : SearchInvariant q δ domain p seen [] [])
    (hs : q.SettlesBy δ ok domain) : ∀ x ∈ seen, Always δ ok x := by
  intro x hx w
  -- The induction is on the word: it stays among the items seen, or leads to a settled one.
  induction w generalizing x with
  | nil => exact hs.opened x (h.domain x hx) (h.opened x hx)
  | cons e w ih =>
    rcases h.done x hx List.not_mem_nil List.not_mem_nil e with hsettle | hseen
    · have hdomain := hs.closed x e (h.domain x hx)
      exact (hs.settled _ true hdomain hsettle).mp rfl w
    · exact ih (δ e x) hseen

theorem SearchInvariant.reverse (h : SearchInvariant q δ domain p seen [] (x :: back)) :
    SearchInvariant q δ domain p seen (x :: back).reverse [] where
  proper := h.proper
  domain := h.domain
  opened := h.opened
  queued y hy := h.queued y (.inr (List.mem_reverse.mp (hy.resolve_right List.not_mem_nil)))
  done y hy hfront _ := h.done y hy List.not_mem_nil fun hback => hfront (List.mem_reverse.mpr hback)

variable [LawfulSetAlgebra S E] [LawfulBEq α]

/-- Taking an item from the queue and putting its new derivatives at the back keeps the invariant.
-/
theorem SearchInvariant.step {p' : Partition S} {derived : List (S × α)} {items : List α}
    (h : SearchInvariant q δ domain p seen (x :: front) back) (hq : q.StepsBy met δ)
    (hs : q.SettlesBy δ ok domain)
    (hover : p.overBlocks? (q.step · x) fuel = some (p', derived))
    (hitems : q.openItems? (derived.map Prod.snd) = some items) :
    SearchInvariant q δ domain p' (fresh seen items).2 front
      ((fresh seen items).1.reverseAux back) := by
  have hx : x ∈ seen := h.queued x (.inl (List.mem_cons_self ..))
  have hderived : ∀ y, y ∈ derived.map Prod.snd ↔ ∃ e, y = δ e x := fun y =>
    mem_derived_iff hq h.proper hover
  refine ⟨(Partition.overBlocks?_spec h.proper hover).1, ?_, ?_, ?_, ?_⟩
  · intro y hy
    rcases mem_fresh_snd.mp hy with hy | hy
    · exact h.domain y hy
    · obtain ⟨e, rfl⟩ := (hderived y).mp ((mem_openItems? hitems).mp hy).1
      exact hs.closed x e (h.domain x hx)
  · intro y hy
    rcases mem_fresh_snd.mp hy with hy | hy
    · exact h.opened y hy
    · exact ((mem_openItems? hitems).mp hy).2
  · intro y hy
    rw [mem_fresh_snd]
    rcases hy with hy | hy
    · exact .inl (h.queued y (.inl (List.mem_cons_of_mem x hy)))
    · rcases mem_reverseAux_fresh.mp hy with ⟨hy, -⟩ | hy
      · exact .inr hy
      · exact .inl (h.queued y (.inr hy))
  · intro y hy hfront hnew e
    rw [mem_reverseAux_fresh, not_or] at hnew
    have hseen : y ∈ seen := by
      rcases mem_fresh_snd.mp hy with hy | hy
      · exact hy
      · exact Classical.byContradiction fun hseen => hnew.1 ⟨hy, hseen⟩
    rw [mem_fresh_snd]
    by_cases hyx : y = x
    · -- The derivatives of the item that was taken are settled or open.
      rw [hyx]
      have hmem : δ e x ∈ derived.map Prod.snd := (hderived _).mpr ⟨e, rfl⟩
      rcases settle_of_openItems? hitems hmem with hsettle | hsettle
      · exact .inl hsettle
      · exact .inr (.inr ((mem_openItems? hitems).mpr ⟨hmem, hsettle⟩))
    · have hfront' : y ∉ x :: front := fun hy => (List.mem_cons.mp hy).elim hyx hfront
      exact (h.done y hseen hfront' hnew.2 e).imp id .inl

/-- A search that finds nothing wrong has emptied its queue. -/
theorem exists_exhausted (hq : q.StepsBy met δ) (hs : q.SettlesBy δ ok domain)
    (h : SearchInvariant q δ domain p seen front back)
    (hanswer : q.searchFrom? fuel p seen front back = some true) :
    ∃ p' seen', (∀ x ∈ seen, x ∈ seen') ∧ SearchInvariant q δ domain p' seen' [] [] := by
  fun_induction searchFrom? q fuel p seen front back with
  | case1 => contradiction
  | case2 fuel p seen => exact ⟨p, seen, fun x hx => hx, h⟩
  | case3 fuel p seen x back ih => exact ih h.reverse hanswer
  | case4 => contradiction
  | case5 => contradiction
  | case6 fuel p seen x front back p' derived hover items hitems new seen' hfresh ih =>
    have hstep := h.step hq hs hover hitems
    rw [hfresh] at hstep
    obtain ⟨q', seen'', hsub, hexhausted⟩ := ih hstep hanswer
    refine ⟨q', seen'', fun y hy => hsub y ?_, hexhausted⟩
    have hmem : y ∈ (fresh seen items).2 ↔ y ∈ seen ∨ y ∈ items := mem_fresh_snd
    rw [hfresh] at hmem
    exact hmem.mpr (.inl hy)

/-- What is refuted, or comes from derivatives of what was seen, tells against an item seen. -/
theorem exists_refuted (hq : q.StepsBy met δ) (hs : q.SettlesBy δ ok domain)
    (h : SearchInvariant q δ domain p seen front back)
    (hanswer : q.searchFrom? fuel p seen front back = some false) :
    ∃ x ∈ seen, ¬ Always δ ok x := by
  fun_induction searchFrom? q fuel p seen front back with
  | case1 => contradiction
  | case2 => contradiction
  | case3 fuel p seen x back ih => exact ih h.reverse hanswer
  | case4 => contradiction
  | case5 fuel p seen x front back p' derived hover hnone =>
    have hx : x ∈ seen := h.queued x (.inl (List.mem_cons_self ..))
    obtain ⟨y, hy, hsettle⟩ := openItems?_eq_none hnone
    obtain ⟨e, rfl⟩ := (mem_derived_iff hq h.proper hover).mp hy
    have hrefuted := hs.settled _ false (hs.closed x e (h.domain x hx)) hsettle
    exact ⟨x, hx, fun hall => Bool.false_ne_true (hrefuted.mpr ((always_iff.mp hall).2 e))⟩
  | case6 fuel p seen x front back p' derived hover items hitems new seen' hfresh ih =>
    have hstep := h.step hq hs hover hitems
    rw [hfresh] at hstep
    obtain ⟨y, hy, hnot⟩ := ih hstep hanswer
    have hmem : y ∈ (fresh seen items).2 ↔ y ∈ seen ∨ y ∈ items := mem_fresh_snd
    rw [hfresh] at hmem
    rcases hmem.mp hy with hy | hy
    · exact ⟨y, hy, hnot⟩
    · -- The item is a derivative of the one that was taken from the queue.
      have hx : x ∈ seen := h.queued x (.inl (List.mem_cons_self ..))
      obtain ⟨e, rfl⟩ := (mem_derived_iff hq h.proper hover).mp ((mem_openItems? hitems).mp hy).1
      exact ⟨x, hx, fun hall => hnot ((always_iff.mp hall).2 e)⟩

theorem mem_singleton_hashSet {y : α} :
    y ∈ (Std.HashSet.emptyWithCapacity.insert x : Std.HashSet α) ↔ y = x := by
  rw [Std.HashSet.mem_insert, beq_iff_eq, eq_comm]
  exact or_iff_left Std.HashSet.not_mem_emptyWithCapacity

/-- A search starts from a single open item. -/
theorem searchInvariant_start (hx : domain x) (hsettle : q.settle x = none) :
    SearchInvariant q δ domain .trivial (Std.HashSet.emptyWithCapacity.insert x) [x] [] := by
  refine ⟨Partition.proper_trivial, ?_, ?_, ?_, ?_⟩
  · intro y hy
    rwa [mem_singleton_hashSet.mp hy]
  · intro y hy
    rwa [mem_singleton_hashSet.mp hy]
  · intro y hy
    rw [mem_singleton_hashSet, ← List.mem_singleton]
    exact hy.resolve_right List.not_mem_nil
  · intro y hy hfront
    exact absurd (List.mem_singleton.mpr (mem_singleton_hashSet.mp hy)) hfront

/-- Every answer is right. -/
theorem holds?_iff (hq : q.StepsBy met δ) (hs : q.SettlesBy δ ok domain) (hx : domain x)
    (hanswer : q.holds? fuel x = some answer) : answer = true ↔ Always δ ok x := by
  rw [holds?] at hanswer
  rcases hsettle : q.settle x with _ | settled
  · rw [hsettle] at hanswer
    have hstart : SearchInvariant q δ domain .trivial _ [x] [] := searchInvariant_start hx hsettle
    cases answer with
    | true =>
      obtain ⟨p, seen, hsub, hexhausted⟩ := exists_exhausted hq hs hstart hanswer
      exact iff_of_true rfl (hexhausted.always hs x (hsub x Std.HashSet.mem_insert_self))
    | false =>
      obtain ⟨y, hy, hnot⟩ := exists_refuted hq hs hstart hanswer
      rw [mem_singleton_hashSet.mp hy] at hnot
      exact iff_of_false Bool.false_ne_true hnot
  · rw [hsettle] at hanswer
    exact hs.settled x answer hx (hsettle.trans hanswer)

/-- A search that finds nothing wrong has listed open items that are closed under derivatives, up
to what was settled. -/
theorem exists_seen_of_holds? (hq : q.StepsBy met δ) (hs : q.SettlesBy δ ok domain) (hx : domain x)
    (hanswer : q.holds? fuel x = some true) :
    ∃ seen : List α, (q.settle x = some true ∨ x ∈ seen) ∧ ∀ y ∈ seen, domain y ∧
      q.settle y = none ∧ ∀ e, q.settle (δ e y) = some true ∨ δ e y ∈ seen := by
  rw [holds?] at hanswer
  rcases hsettle : q.settle x with _ | settled
  · rw [hsettle] at hanswer
    have hstart : SearchInvariant q δ domain .trivial _ [x] [] := searchInvariant_start hx hsettle
    obtain ⟨p, seen, hsub, hexhausted⟩ := exists_exhausted hq hs hstart hanswer
    refine ⟨seen.toList, .inr ?_, fun y hy => ?_⟩
    · exact Std.HashSet.mem_toList.mpr (hsub x Std.HashSet.mem_insert_self)
    · have hy := Std.HashSet.mem_toList.mp hy
      refine ⟨hexhausted.domain y hy, hexhausted.opened y hy, fun e => ?_⟩
      rw [Std.HashSet.mem_toList]
      exact hexhausted.done y hy List.not_mem_nil List.not_mem_nil e
  · rw [hsettle] at hanswer
    exact ⟨[], .inl hanswer, nofun⟩

end Answers

/-! ### With enough fuel there is an answer -/

section Fuel

variable [SetAlgebra S] [Membership E S] [LawfulSetAlgebra S E] [BEq α] [LawfulBEq α] [Hashable α]
  {q : Question S α} {met : α → List S} {δ : E → α → α} {K : Finset α} {p : Partition S}
  {seen : Std.HashSet α} {front back items : List α} {sets : List S} {fuel n : Nat}

open Classical in
/-- The number of items that have not been seen. -/
noncomputable def unseen (K : Finset α) (seen : Std.HashSet α) : Nat :=
  (K.filter (· ∉ seen)).card

/-- New items are no longer counted as unseen. -/
theorem unseen_fresh_add_le (hitems : ∀ x ∈ items, x ∈ K) :
    unseen K (fresh seen items).2 + (fresh seen items).1.length ≤ unseen K seen := by
  classical
  have hdisjoint : Disjoint (K.filter (· ∉ (fresh seen items).2)) (fresh seen items).1.toFinset := by
    refine Finset.disjoint_left.mpr fun x hx hnew => (Finset.mem_filter.mp hx).2 ?_
    exact mem_fresh_snd.mpr (.inr (mem_fresh_fst.mp (List.mem_toFinset.mp hnew)).1)
  have hcard : (fresh seen items).1.toFinset.card = (fresh seen items).1.length :=
    List.toFinset_card_of_nodup nodup_fresh
  rw [unseen, unseen, ← hcard, ← Finset.card_union_of_disjoint hdisjoint]
  refine Finset.card_le_card fun x hx => Finset.mem_filter.mpr ?_
  rcases Finset.mem_union.mp hx with hx | hx
  · obtain ⟨hxK, hnew⟩ := Finset.mem_filter.mp hx
    exact ⟨hxK, fun hseen => hnew (mem_fresh_snd.mpr (.inl hseen))⟩
  · obtain ⟨hitem, hseen⟩ := mem_fresh_fst.mp (List.mem_toFinset.mp hx)
    exact ⟨hitems x hitem, hseen⟩

theorem searchFrom?_isSome (hq : q.StepsBy met δ) (hclosed : ∀ x ∈ K, ∀ e, δ e x ∈ K)
    (hsets : ∀ x ∈ K, ∀ a ∈ met x, a ∈ sets) (hp : Proper E p)
    (hqueue : ∀ x, x ∈ front ∨ x ∈ back → x ∈ K) (hcost : cost sets p.blocks ≤ n)
    (hfuel : 3 * unseen K seen + 2 * back.length + front.length + n < fuel) :
    (q.searchFrom? fuel p seen front back).isSome = true := by
  fun_induction searchFrom? q fuel p seen front back with
  | case1 => omega
  | case2 => rfl
  | case3 fuel p seen x back ih =>
    refine ih hp (fun y hy => hqueue y ?_) hcost ?_
    · exact .inr (List.mem_reverse.mp (hy.resolve_right List.not_mem_nil))
    · -- Items at the back are counted twice, so that turning the queue around lowers the count.
      rw [List.length_reverse, List.length_nil]
      rw [List.length_nil, List.length_cons] at hfuel
      rw [List.length_cons]
      omega
  | case4 fuel p seen x front back hnone =>
    have hx : x ∈ K := hqueue x (.inl (List.mem_cons_self ..))
    rw [List.length_cons] at hfuel
    have hsome : (p.overBlocks? (q.step · x) fuel).isSome = true :=
      Partition.overBlocks?_isSome (hq.failsOn (hsets x hx)) hp (by omega)
    rw [hnone] at hsome
    contradiction
  | case5 => rfl
  | case6 fuel p seen x front back p' derived hover items hitems new seen' hfresh ih =>
    have hx : x ∈ K := hqueue x (.inl (List.mem_cons_self ..))
    have hitemsK : ∀ y ∈ items, y ∈ K := by
      intro y hy
      obtain ⟨e, rfl⟩ := (mem_derived_iff hq hp hover).mp ((mem_openItems? hitems).mp hy).1
      exact hclosed x hx e
    have hcount : unseen K (fresh seen items).2 + (fresh seen items).1.length ≤ unseen K seen :=
      unseen_fresh_add_le hitemsK
    have hback : ∀ y ∈ (fresh seen items).1.reverseAux back, y ∈ items ∨ y ∈ back := fun y hy =>
      (mem_reverseAux_fresh.mp hy).imp_left And.left
    rw [hfresh] at hcount hback
    have hnew : unseen K seen' + new.length ≤ unseen K seen := hcount
    refine ih (Partition.overBlocks?_spec hp hover).1 (fun y hy => ?_) ?_ ?_
    · rcases hy with hy | hy
      · exact hqueue y (.inl (List.mem_cons_of_mem x hy))
      · exact (hback y hy).elim (hitemsK y) fun hy => hqueue y (.inr hy)
    · exact (Partition.cost_overBlocks?_le (hq.failsOn (hsets x hx)) hp hover).trans hcost
    · -- A new item goes from three to two, and the one that was taken is no longer counted.
      rw [List.reverseAux_eq, List.length_append, List.length_reverse]
      rw [List.length_cons] at hfuel
      omega

/-- With enough fuel there is an answer for every item of a finite set that has all derivatives. -/
theorem holds?_isSome (hq : q.StepsBy met δ) (hclosed : ∀ x ∈ K, ∀ e, δ e x ∈ K) :
    ∃ bound, ∀ fuel ≥ bound, ∀ x ∈ K, (q.holds? fuel x).isSome = true := by
  classical
  have hsets : ∀ x ∈ K, ∀ a ∈ met x, a ∈ K.toList.flatMap met := fun x hx a ha =>
    List.mem_flatMap.mpr ⟨x, Finset.mem_toList.mpr hx, ha⟩
  refine ⟨3 * K.card + cost (K.toList.flatMap met) (Partition.trivial : Partition S).blocks + 2,
    fun fuel hfuel x hx => ?_⟩
  rw [holds?]
  split
  · rfl
  · refine searchFrom?_isSome hq hclosed hsets Partition.proper_trivial (fun y hy => ?_)
      (Nat.le_refl _) ?_
    · rwa [List.mem_singleton.mp (hy.resolve_right List.not_mem_nil)]
    · have hunseen : unseen K (Std.HashSet.emptyWithCapacity.insert x) ≤ K.card :=
        Finset.card_filter_le ..
      rw [List.length_nil, List.length_singleton]
      omega

end Fuel

end ExtendedRegex.Question
