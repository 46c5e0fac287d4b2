/-
Sets of symbols as sorted lists of intervals.

A `RangeSet` holds its intervals in order, and between any two of them a symbol
is missing, so that intervals neither overlap nor touch.

* `RangeSet.ext`: two range sets with the same symbols are the same list;
* `contains_iff`: looking for a symbol by bisection finds it if it is there;
* `mem_ofIntervals`, `mem_union`, `mem_inter`, `mem_compl`: each operation has
  the symbols that its name says;
* `RangeSet` is a lawful set algebra over any lawful alphabet.

Design notes: intervals are collected in the order of their starts, and each is
joined to the one before it unless a symbol is missing between the two; a union
collects the intervals of both sets.  The common symbols are found by walking
through both lists at once.  The invariant is a field of the type, and each
operation on lists proves it once.
-/
import ExtendedRegex.Interval
import ExtendedRegex.SetAlgebra

universe u

namespace ExtendedRegex

open ExtendedRegex.Interval (Apart)

/-- A set of symbols as intervals in increasing order, with a missing symbol between any two. -/
structure RangeSet (α : Type u) [Alphabet α] where
  ranges : List (Interval α)
  separated : ranges.Pairwise Apart

namespace RangeSet

variable {α : Type u} [Alphabet α]

instance : Membership α (RangeSet α) := ⟨fun s a => ∃ i ∈ s.ranges, a ∈ i⟩

theorem mem_iff {s : RangeSet α} {a : α} : a ∈ s ↔ ∃ i ∈ s.ranges, a ∈ i := Iff.rfl

theorem ranges_injective {s t : RangeSet α} (h : s.ranges = t.ranges) : s = t := by
  cases s; cases t; cases h; rfl

instance : DecidableEq (RangeSet α) := fun s t =>
  decidable_of_iff (s.ranges = t.ranges) ⟨ranges_injective, congrArg ranges⟩

/-- Range sets are ordered as the lists of their intervals. -/
instance : Ord (RangeSet α) := ⟨fun s t => compare s.ranges t.ranges⟩

instance [Hashable α] : Hashable (RangeSet α) :=
  ⟨fun s => s.ranges.foldl (fun h i => mixHash h (mixHash (hash i.start) (hash i.stop))) 7⟩

instance (a : α) (s : RangeSet α) : Decidable (a ∈ s) :=
  inferInstanceAs (Decidable (∃ i ∈ s.ranges, a ∈ i))

/-- Whether a symbol is in one of some intervals in increasing order.  The interval in the middle
shows on which side of it to go on. -/
def bisect (a : α) (is : List (Interval α)) : Bool :=
  match h : is.drop (is.length / 2) with
  | [] => false
  | i :: after =>
    if i.stop < a then bisect a after
    else if a < i.start then bisect a (is.take (is.length / 2))
    else true
termination_by is.length
decreasing_by
  all_goals
    have hlength := congrArg List.length h
    rw [List.length_drop, List.length_cons] at hlength
    grind

/-- Whether the symbol is in the set. -/
def contains (s : RangeSet α) (a : α) : Bool := bisect a s.ranges

/-- Intervals before and after one of a separated list lie on the two sides of it. -/
theorem side_of_mem {i j : Interval α} {before after : List (Interval α)}
    (h : (before ++ i :: after).Pairwise Apart) (hj : j ∈ before ++ i :: after) :
    (j ∈ before ∧ Apart j i) ∨ j = i ∨ (j ∈ after ∧ Apart i j) := by
  obtain ⟨-, hafter, hbefore⟩ := List.pairwise_append.1 h
  rcases List.mem_append.1 hj with hj | hj
  · exact .inl ⟨hj, hbefore j hj i (List.mem_cons_self ..)⟩
  · rcases List.mem_cons.1 hj with rfl | hj
    · exact .inr (.inl rfl)
    · exact .inr (.inr ⟨hj, (List.pairwise_cons.1 hafter).1 j hj⟩)

/-- The set of no symbol. -/
def empty : RangeSet α := ⟨[], .nil⟩

/-- Whether the set has no symbol. -/
def isEmpty (s : RangeSet α) : Bool := s.ranges.isEmpty

/-- Whether the set has every symbol: it is one interval, between the ends of the alphabet. -/
def isFull (s : RangeSet α) : Bool :=
  match s.ranges with
  | [i] => i.start == Alphabet.first && i.stop == Alphabet.last
  | _ => false

/-- The order of the starts. -/
def StartsBefore (i j : Interval α) : Prop := i.start ≤ j.start

/-- Intervals in the order of their starts; those with the same start are joined in any order. -/
def sortByStart (is : List (Interval α)) : List (Interval α) :=
  is.mergeSort fun i j => decide (i.start ≤ j.start)

theorem mem_sortByStart {i : Interval α} {is : List (Interval α)} : i ∈ sortByStart is ↔ i ∈ is :=
  List.mem_mergeSort

variable [LawfulAlphabet α]

instance : Std.TransOrd (RangeSet α) := inferInstanceAs (Std.TransCmp (compareOn ranges))

instance : Std.LawfulEqOrd (RangeSet α) where
  compare_self := Std.ReflCmp.compare_self
  eq_of_compare {s t} h := by
    have h : compare s.ranges t.ranges = .eq := h
    exact ranges_injective (Std.LawfulEqOrd.eq_of_compare h)

/-! ### Looking for a symbol -/

theorem bisect_iff {a : α} {is : List (Interval α)} (h : is.Pairwise Apart) :
    bisect a is = true ↔ ∃ i ∈ is, a ∈ i := by
  fun_induction bisect a is with
  | case1 is hdrop =>
    have hlength := congrArg List.length hdrop
    rw [List.length_drop, List.length_nil] at hlength
    obtain rfl : is = [] := List.length_eq_zero_iff.1 (by omega)
    simp
  | case2 is i after hdrop hlt ih =>
    rw [← List.take_append_drop (is.length / 2) is, hdrop] at h ⊢
    rw [ih (List.pairwise_cons.1 (List.pairwise_append.1 h).2.1).2]
    constructor
    · rintro ⟨j, hj, ha⟩
      exact ⟨j, List.mem_append_right _ (List.mem_cons_of_mem i hj), ha⟩
    · -- The symbol is above the middle, and so it is not in an interval that ends before that.
      rintro ⟨j, hj, ha⟩
      have hstop := (Interval.mem_iff.1 ha).2
      rcases side_of_mem h hj with ⟨-, hji⟩ | rfl | ⟨hj, -⟩
      · have := hji.stop_lt
        have := i.start_le_stop
        grind
      · grind
      · exact ⟨j, hj, ha⟩
  | case3 is i after hdrop _ hlt ih =>
    rw [ih (h.sublist (List.take_sublist _ _))]
    constructor
    · rintro ⟨j, hj, ha⟩
      exact ⟨j, List.mem_of_mem_take hj, ha⟩
    · rintro ⟨j, hj, ha⟩
      rw [← List.take_append_drop (is.length / 2) is, hdrop] at h hj
      have hstart := (Interval.mem_iff.1 ha).1
      rcases side_of_mem h hj with ⟨hj, -⟩ | rfl | ⟨-, hij⟩
      · exact ⟨j, hj, ha⟩
      · grind
      · have := hij.stop_lt
        have := i.start_le_stop
        grind
  | case4 is i after hdrop hstop hstart =>
    have hi : i ∈ is := List.mem_of_mem_drop (hdrop ▸ List.mem_cons_self ..)
    exact iff_of_true rfl ⟨i, hi, by grind, by grind⟩

theorem contains_iff {s : RangeSet α} {a : α} : s.contains a = true ↔ a ∈ s :=
  bisect_iff s.separated

/-! ### Collecting intervals -/

/-- Joins each interval of a list to the one before it, which is `i` for the first, unless a symbol
is missing between the two. -/
def coalesceFrom (i : Interval α) : List (Interval α) → List (Interval α)
  | [] => [i]
  | j :: js => if i.touches j then coalesceFrom (i.extend j) js else i :: coalesceFrom j js

/-- Joins neighbours that overlap or touch, in a list in the order of the starts. -/
def coalesce : List (Interval α) → List (Interval α)
  | [] => []
  | i :: is => coalesceFrom i is

section Coalesce

variable {i k : Interval α} {is js : List (Interval α)} {a : α}

/-- A joined interval starts where the first of the two did. -/
theorem pairwise_extend {j : Interval α} (h : (i :: j :: js).Pairwise StartsBefore) :
    (i.extend j :: js).Pairwise StartsBefore := by
  obtain ⟨hi, hjs⟩ := List.pairwise_cons.1 h
  exact List.pairwise_cons.2 ⟨fun k hk => hi k (List.mem_cons_of_mem j hk), hjs.tail⟩

theorem start_le_of_mem_coalesceFrom (h : (i :: js).Pairwise StartsBefore)
    (hk : k ∈ coalesceFrom i js) : i.start ≤ k.start := by
  fun_induction coalesceFrom i js with
  | case1 i =>
    obtain rfl := List.mem_singleton.1 hk
    exact Std.IsPreorder.le_refl _
  | case2 i j js _ ih => exact ih (pairwise_extend h) hk
  | case3 i j js _ ih =>
    obtain ⟨hi, hjs⟩ := List.pairwise_cons.1 h
    rcases List.mem_cons.1 hk with rfl | hk
    · exact Std.IsPreorder.le_refl _
    · exact Std.IsPreorder.le_trans _ _ _ (hi j (List.mem_cons_self ..)) (ih hjs hk)

theorem separated_coalesceFrom (h : (i :: js).Pairwise StartsBefore) :
    (coalesceFrom i js).Pairwise Apart := by
  fun_induction coalesceFrom i js with
  | case1 i => exact List.pairwise_singleton _ _
  | case2 i j js _ ih => exact ih (pairwise_extend h)
  | case3 i j js htouches ih =>
    have hjs := h.tail
    rw [Interval.touches_iff, Classical.not_not] at htouches
    exact List.pairwise_cons.2
      ⟨fun k hk => htouches.of_start_le (start_le_of_mem_coalesceFrom hjs hk), ih hjs⟩

theorem mem_coalesceFrom (h : (i :: js).Pairwise StartsBefore) :
    (∃ k ∈ coalesceFrom i js, a ∈ k) ↔ a ∈ i ∨ ∃ j ∈ js, a ∈ j := by
  fun_induction coalesceFrom i js with
  | case1 i => simp
  | case2 i j js htouches ih =>
    have hij : i.start ≤ j.start := (List.pairwise_cons.1 h).1 j (List.mem_cons_self ..)
    rw [ih (pairwise_extend h), Interval.mem_extend hij (Interval.touches_iff.1 htouches)]
    simp only [List.mem_cons, exists_eq_or_imp, or_assoc]
  | case3 i j js _ ih =>
    simp only [List.mem_cons, exists_eq_or_imp, ih h.tail]

theorem separated_coalesce (h : is.Pairwise StartsBefore) : (coalesce is).Pairwise Apart := by
  cases is with
  | nil => exact .nil
  | cons i is => exact separated_coalesceFrom h

theorem mem_coalesce (h : is.Pairwise StartsBefore) :
    (∃ k ∈ coalesce is, a ∈ k) ↔ ∃ i ∈ is, a ∈ i := by
  cases is with
  | nil => rfl
  | cons i is => simp [coalesce, mem_coalesceFrom h]

theorem pairwise_sortByStart : (sortByStart is).Pairwise StartsBefore := by
  have hsorted : (sortByStart is).Pairwise fun i j => decide (i.start ≤ j.start) = true := by
    refine List.pairwise_mergeSort (fun i j k => ?_) (fun i j => ?_) is
    · simp only [decide_eq_true_eq]
      exact Std.IsPreorder.le_trans i.start j.start k.start
    · simp only [Bool.or_eq_true, decide_eq_true_eq]
      exact Std.IsLinearPreorder.le_total i.start j.start
  exact hsorted.imp of_decide_eq_true

end Coalesce

/-- The set of the symbols in any interval of the list, in whatever order they come. -/
def ofIntervals (is : List (Interval α)) : RangeSet α where
  ranges := coalesce (sortByStart is)
  separated := separated_coalesce pairwise_sortByStart

/-- The set of the symbols between any two ends of a list, which may come in either order. -/
def ofEnds (ends : List (α × α)) : RangeSet α :=
  ofIntervals (ends.map fun p => Interval.ofEnds p.1 p.2)

/-- The set of a single symbol. -/
def single (a : α) : RangeSet α := ⟨[.single a], by simp⟩

/-- The set of every symbol. -/
def full : RangeSet α := ⟨[.whole], by simp⟩

/-- The symbols in either set. -/
def union (s t : RangeSet α) : RangeSet α := ofIntervals (s.ranges ++ t.ranges)

theorem mem_ofIntervals {is : List (Interval α)} {a : α} :
    a ∈ ofIntervals is ↔ ∃ i ∈ is, a ∈ i := by
  rw [mem_iff, ofIntervals, mem_coalesce pairwise_sortByStart]
  simp only [mem_sortByStart]

theorem mem_ofEnds {ends : List (α × α)} {a : α} :
    a ∈ ofEnds ends ↔ ∃ p ∈ ends, p.1 ≤ a ∧ a ≤ p.2 ∨ p.2 ≤ a ∧ a ≤ p.1 := by
  rw [ofEnds, mem_ofIntervals]
  constructor
  · rintro ⟨i, hi, ha⟩
    obtain ⟨p, hp, rfl⟩ := List.mem_map.1 hi
    exact ⟨p, hp, Interval.mem_ofEnds.1 ha⟩
  · rintro ⟨p, hp, ha⟩
    exact ⟨_, List.mem_map_of_mem hp, Interval.mem_ofEnds.2 ha⟩

theorem mem_union {s t : RangeSet α} {a : α} : a ∈ s.union t ↔ a ∈ s ∨ a ∈ t := by
  rw [union, mem_ofIntervals]
  simp only [mem_iff, List.mem_append, or_and_right, exists_or]

@[simp] theorem mem_single {a b : α} : a ∈ single b ↔ a = b := by simp [mem_iff, single]

@[simp] theorem mem_full {a : α} : a ∈ (full : RangeSet α) := by simp [mem_iff, full]

/-! ### Common symbols -/

/-- The overlaps of an interval with those of a list, up to one that ends after it.  From there on,
`rest` gives what comes after the interval. -/
def overlapsWith (i : Interval α) (rest : List (Interval α) → List (Interval α)) :
    List (Interval α) → List (Interval α)
  | [] => []
  | j :: js =>
    let more := if i.stop < j.stop then rest (j :: js) else overlapsWith i rest js
    match i.overlap? j with
    | none => more
    | some k => k :: more

/-- The overlaps of the intervals of two separated lists. -/
def overlaps : List (Interval α) → List (Interval α) → List (Interval α)
  | [], _ => []
  | i :: is, js => overlapsWith i (overlaps is) js

/-- No overlap is missed: those of each interval of the one list with each of the other are found,
in order. -/
theorem overlaps_eq_flatMap {is js : List (Interval α)} (hi : is.Pairwise Apart)
    (hj : js.Pairwise Apart) :
    overlaps is js = is.flatMap fun i => js.filterMap i.overlap? := by
  induction is generalizing js with
  | nil => rfl
  | cons i is ih =>
    obtain ⟨hi, his⟩ := List.pairwise_cons.1 hi
    rw [overlaps, List.flatMap_cons]
    induction js with
    | nil => simp [overlapsWith]
    | cons j js ihj =>
      obtain ⟨hjs, hjs'⟩ := List.pairwise_cons.1 hj
      have hmore : (if i.stop < j.stop then overlaps is (j :: js) else
          overlapsWith i (overlaps is) js) =
          js.filterMap i.overlap? ++ is.flatMap fun i => (j :: js).filterMap i.overlap? := by
        split
        · have : js.filterMap i.overlap? = [] := List.filterMap_eq_nil_iff.2 fun k hk => by
            have := (hjs k hk).stop_lt
            exact (Interval.overlap?_eq_none (by grind)).1
          rw [this, ih his hj, List.nil_append]
        · rw [ihj hjs']
          congr 1
          simp only [List.flatMap_def]
          refine congrArg _ (List.map_congr_left fun k hk => ?_)
          have := (hi k hk).stop_lt
          rw [List.filterMap_cons, (Interval.overlap?_eq_none (by grind)).2]
      rw [overlapsWith, hmore, List.filterMap_cons]
      cases i.overlap? j <;> rfl

/-- The symbols in both sets. -/
def inter (s t : RangeSet α) : RangeSet α where
  ranges := overlaps s.ranges t.ranges
  separated := by
    rw [overlaps_eq_flatMap s.separated t.separated]
    refine List.pairwise_flatMap.2 ⟨fun i _ => List.pairwise_filterMap.2 ?_, ?_⟩
    · refine t.separated.imp fun h k hk l hl => ?_
      obtain ⟨a, ha, ha'⟩ := h
      rw [Interval.Apart, (Interval.of_overlap?_eq_some hk).2, (Interval.of_overlap?_eq_some hl).1]
      refine ⟨a, ?_, ?_⟩ <;> simp only [Alphabet.earlier, Alphabet.later] <;> split <;> grind
    · refine s.separated.imp fun h k hk l hl => ?_
      obtain ⟨a, ha, ha'⟩ := h
      obtain ⟨j, _, hk⟩ := List.mem_filterMap.1 hk
      obtain ⟨j', _, hl⟩ := List.mem_filterMap.1 hl
      rw [Interval.Apart, (Interval.of_overlap?_eq_some hk).2, (Interval.of_overlap?_eq_some hl).1]
      refine ⟨a, ?_, ?_⟩ <;> simp only [Alphabet.earlier, Alphabet.later] <;> split <;> grind

theorem mem_inter {s t : RangeSet α} {a : α} : a ∈ s.inter t ↔ a ∈ s ∧ a ∈ t := by
  simp only [mem_iff, inter, overlaps_eq_flatMap s.separated t.separated, List.mem_flatMap,
    List.mem_filterMap]
  constructor
  · rintro ⟨k, ⟨i, hi, j, hj, hk⟩, ha⟩
    have := Interval.mem_overlap?.1 ⟨k, hk, ha⟩
    exact ⟨⟨i, hi, this.1⟩, j, hj, this.2⟩
  · rintro ⟨⟨i, hi, hai⟩, j, hj, haj⟩
    obtain ⟨k, hk, ha⟩ := Interval.mem_overlap?.2 ⟨hai, haj⟩
    exact ⟨k, ⟨i, hi, j, hj, hk⟩, ha⟩

/-! ### The complement -/

/-- The intervals between `a` and the first interval of a separated list, between any two that
follow, and between the last and the end of the alphabet. -/
def gapsFrom (a : α) : List (Interval α) → List (Interval α)
  | [] => [⟨a, Alphabet.last, LawfulAlphabet.le_last a⟩]
  | i :: is =>
    let before := match prev? i.start with
      | none => []
      | some b => if h : a ≤ b then [⟨a, b, h⟩] else []
    let after := match next? i.stop with
      | none => []
      | some c => gapsFrom c is
    before ++ after

theorem mem_gapsFrom {a x : α} {is : List (Interval α)} (ha : ∀ i ∈ is, a ≤ i.start)
    (h : is.Pairwise Apart) : (∃ k ∈ gapsFrom a is, x ∈ k) ↔ a ≤ x ∧ ∀ i ∈ is, x ∉ i := by
  induction is generalizing a with
  | nil => simp [gapsFrom, Interval.mem_iff, LawfulAlphabet.le_last]
  | cons i is ih =>
    obtain ⟨hi, his⟩ := List.pairwise_cons.1 h
    have hai : a ≤ i.start := ha i (by simp)
    have hbefore : (∃ k ∈ (match prev? i.start with
        | none => []
        | some b => if h : a ≤ b then [(⟨a, b, h⟩ : Interval α)] else []), x ∈ k) ↔
        a ≤ x ∧ x < i.start := by
      split
      · have := not_lt_of_prev? ‹_› x
        simpa using fun _ => this
      · have hb := LawfulAlphabet.lt_iff_of_prev? ‹_› x
        split
        · simp [Interval.mem_iff, hb]
        · simp only [List.not_mem_nil, false_and, exists_false, false_iff, not_and]
          grind
    have hafter : (∃ k ∈ (match next? i.stop with
        | none => []
        | some c => gapsFrom c is), x ∈ k) ↔ i.stop < x ∧ ∀ j ∈ is, x ∉ j := by
      split
      · have := not_lt_of_next? ‹_› x
        simp [this]
      · have hc := LawfulAlphabet.lt_iff_of_next? ‹_›
        rw [ih (fun j hj => ?_) his, hc]
        obtain ⟨y, hy, hy'⟩ := hi j hj
        have := (hc y).1 hy
        grind
    have hle := i.start_le_stop
    have hlt : ∀ j ∈ is, x < i.start → x ∉ j := fun j hj hx hxj => by
      have := (hi j hj).stop_lt
      have := hxj.1
      grind
    simp only [gapsFrom, List.mem_append, or_and_right, exists_or, hbefore, hafter, List.mem_cons,
      forall_eq_or_imp, Interval.mem_iff (i := i)]
    constructor
    · rintro (⟨hax, hx⟩ | ⟨hx, hxs⟩)
      · exact ⟨hax, by grind, fun j hj => hlt j hj hx⟩
      · exact ⟨by grind, by grind, hxs⟩
    · rintro ⟨hax, hx, hxs⟩
      by_cases hxi : x < i.start
      · exact .inl ⟨hax, hxi⟩
      · exact .inr ⟨by grind, hxs⟩

theorem separated_gapsFrom {a : α} {is : List (Interval α)} (ha : ∀ i ∈ is, a ≤ i.start)
    (h : is.Pairwise Apart) : (gapsFrom a is).Pairwise Apart := by
  induction is generalizing a with
  | nil => simp [gapsFrom]
  | cons i is ih =>
    obtain ⟨hi, his⟩ := List.pairwise_cons.1 h
    have hle := i.start_le_stop
    unfold gapsFrom
    refine List.pairwise_append.2 ⟨?_, ?_, ?_⟩
    · split
      · exact .nil
      · split <;> simp
    · split
      · exact .nil
      · refine ih (fun j hj => ?_) his
        obtain ⟨y, hy, hy'⟩ := hi j hj
        have := (LawfulAlphabet.lt_iff_of_next? ‹_› y).1 hy
        grind
    · intro k hk l hl
      refine ⟨i.start, ?_, ?_⟩
      · split at hk
        · simp at hk
        · have := lt_of_prev? ‹_›
          split at hk
          · obtain rfl := List.mem_singleton.1 hk
            exact this
          · simp at hk
      · split at hl
        · simp at hl
        · have hc := LawfulAlphabet.lt_iff_of_next? ‹_›
          have := (mem_gapsFrom (fun j hj => ?_) his).1
            ⟨l, hl, Std.IsPreorder.le_refl _, l.start_le_stop⟩
          · have := (hc l.start).2 this.1
            grind
          · obtain ⟨y, hy, hy'⟩ := hi j hj
            have := (hc y).1 hy
            grind

/-- The symbols that are not in the set. -/
def compl (s : RangeSet α) : RangeSet α where
  ranges := gapsFrom Alphabet.first s.ranges
  separated := separated_gapsFrom (fun i _ => LawfulAlphabet.first_le i.start) s.separated

theorem mem_compl {s : RangeSet α} {a : α} : a ∈ s.compl ↔ a ∉ s := by
  simp only [mem_iff, compl]
  rw [mem_gapsFrom (fun i _ => LawfulAlphabet.first_le i.start) s.separated]
  simp [LawfulAlphabet.first_le]

/-! ### Sets with the same symbols -/

private theorem head_start_le {i j : Interval α} {is js : List (Interval α)}
    (hj : (j :: js).Pairwise Apart)
    (h : ∀ a, (∃ k ∈ i :: is, a ∈ k) → ∃ k ∈ j :: js, a ∈ k) : j.start ≤ i.start := by
  obtain ⟨k, hk, hik, _⟩ := h i.start ⟨i, by simp, Std.IsPreorder.le_refl _, i.start_le_stop⟩
  rcases List.mem_cons.1 hk with rfl | hk
  · exact hik
  · have := ((List.pairwise_cons.1 hj).1 k hk).stop_lt
    have := j.start_le_stop
    grind

private theorem head_stop_le {i j : Interval α} {is js : List (Interval α)}
    (hi : (i :: is).Pairwise Apart) (hstart : i.start = j.start)
    (h : ∀ a, (∃ k ∈ j :: js, a ∈ k) → ∃ k ∈ i :: is, a ∈ k) : j.stop ≤ i.stop := by
  by_cases hlt : i.stop < j.stop
  · cases hb : next? i.stop with
    | none => exact absurd hlt (not_lt_of_next? hb _)
    | some b =>
      have hb' := LawfulAlphabet.lt_iff_of_next? hb
      have := lt_of_next? hb
      have := i.start_le_stop
      obtain ⟨k, hk, hbk, hbk'⟩ := h b ⟨j, by simp, by grind, (hb' _).1 hlt⟩
      rcases List.mem_cons.1 hk with rfl | hk
      · grind
      · obtain ⟨y, hy, hy'⟩ := (List.pairwise_cons.1 hi).1 k hk
        have := (hb' y).1 hy
        grind
  · grind

private theorem eq_of_mem_iff {is js : List (Interval α)} (hi : is.Pairwise Apart)
    (hj : js.Pairwise Apart) (h : ∀ a, (∃ k ∈ is, a ∈ k) ↔ ∃ k ∈ js, a ∈ k) : is = js := by
  induction is generalizing js with
  | nil =>
    cases js with
    | nil => rfl
    | cons j js => simpa using (h j.start).2 ⟨j, by simp, Std.IsPreorder.le_refl _, j.start_le_stop⟩
  | cons i is ih =>
    cases js with
    | nil => simpa using (h i.start).1 ⟨i, by simp, Std.IsPreorder.le_refl _, i.start_le_stop⟩
    | cons j js =>
      have hstart : i.start = j.start :=
        Std.IsPartialOrder.le_antisymm _ _ (head_start_le hi fun a => (h a).2)
          (head_start_le hj fun a => (h a).1)
      have hstop : i.stop = j.stop :=
        Std.IsPartialOrder.le_antisymm _ _ (head_stop_le hj hstart.symm fun a => (h a).1)
          (head_stop_le hi hstart fun a => (h a).2)
      obtain rfl : i = j := Interval.ext hstart hstop
      congr 1
      obtain ⟨hi, his⟩ := List.pairwise_cons.1 hi
      obtain ⟨hj, hjs⟩ := List.pairwise_cons.1 hj
      have later {ks : List (Interval α)} (hks : ∀ k ∈ ks, Apart i k) {a : α} :
          (∃ k ∈ ks, a ∈ k) ↔ a ∉ i ∧ ∃ k ∈ i :: ks, a ∈ k := by
        simp only [List.mem_cons, exists_eq_or_imp]
        constructor
        · rintro ⟨k, hk, hak⟩
          refine ⟨fun hai => ?_, .inr ⟨k, hk, hak⟩⟩
          have := (hks k hk).stop_lt
          have := hak.1
          have := hai.2
          grind
        · rintro ⟨hai, h⟩
          exact h.resolve_left hai
      exact ih his hjs fun a => by rw [later hi, later hj, h a]

/-- Two sets with the same symbols are equal. -/
theorem ext {s t : RangeSet α} (h : ∀ a, a ∈ s ↔ a ∈ t) : s = t :=
  ranges_injective (eq_of_mem_iff s.separated t.separated h)

theorem isEmpty_iff {s : RangeSet α} : s.isEmpty = true ↔ ∀ a, a ∉ s := by
  rw [isEmpty, List.isEmpty_iff]
  constructor
  · rintro h a ⟨i, hi, _⟩
    simp [h] at hi
  · intro h
    exact List.eq_nil_iff_forall_not_mem.2 fun i hi =>
      h i.start ⟨i, hi, Std.IsPreorder.le_refl _, i.start_le_stop⟩

theorem isFull_iff {s : RangeSet α} : s.isFull = true ↔ ∀ a, a ∈ s := by
  constructor
  · intro h a
    unfold isFull at h
    rcases hs : s.ranges with _ | ⟨i, _ | ⟨j, js⟩⟩
    · simp [hs] at h
    · simp only [hs, Bool.and_eq_true, beq_iff_eq] at h
      exact ⟨i, by simp [hs], by rw [h.1]; exact LawfulAlphabet.first_le a,
        by rw [h.2]; exact LawfulAlphabet.le_last a⟩
    · simp [hs] at h
  · intro h
    obtain rfl : s = full := ext fun a => by simp [h a]
    simp [isFull, full, Interval.whole]

/-- Inclusion is asked as "the common symbols are all those of `b`". -/
instance : SetAlgebra (RangeSet α) where
  emptyCollection := empty
  union := union
  inter := inter
  full := full
  compl := compl
  isEmpty := isEmpty
  containsAll a b := b.inter a == b

instance : LawfulSetAlgebra (RangeSet α) α where
  nonempty := ⟨Alphabet.first⟩
  ext := ext
  not_mem_empty a h := by obtain ⟨i, hi, _⟩ := h; exact absurd hi (List.not_mem_nil)
  mem_full _ := mem_full
  mem_union := mem_union
  mem_inter := mem_inter
  mem_compl := mem_compl
  isEmpty_iff := isEmpty_iff
  containsAll_iff {a b} := by
    simp only [SetAlgebra.containsAll, beq_iff_eq]
    constructor
    · intro h e he
      exact (mem_inter.1 (h ▸ he)).2
    · exact fun h => ext fun e => ⟨fun he => (mem_inter.1 he).1, fun he => mem_inter.2 ⟨he, h e he⟩⟩

end RangeSet

end ExtendedRegex
