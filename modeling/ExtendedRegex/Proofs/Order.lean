/-
The order of terms is a total order, and sorted member lists are unique.

* `compare_eq_iff`, `compare_swap`, `compare_trans`: terms are compared by a linear
  order that agrees with equality;
* `increasing_sortMembers`: sorting gives a strictly increasing list of the same
  terms;
* `Increasing.ext`: two strictly increasing lists of the same terms are equal.

Design notes: members of unlike kind are ordered by their kinds alone, and members
of one kind by their contents, so every proof about `compare` looks at the kinds
first.  In a dictionary, equal members are skipped, which is the same as comparing
them once comparison agrees with equality.
-/
import ExtendedRegex.Proofs.Language
import ExtendedRegex.Proofs.Members
import Mathlib.Data.List.Nodup

universe u

namespace ExtendedRegex.Term

variable {S : Type u}

/-- Induction on pairs of terms: those of unlike kind first, and then by contents. -/
@[elab_as_elim]
theorem kindInduction {P : Term S → Term S → Prop} (t u : Term S)
    (unlike : ∀ t u, t.kind ≠ u.kind → P t u) (eps : P eps eps) (empty : P empty empty)
    (all : P all all) (literal : ∀ a b, P (literal a) (literal b))
    (alt : ∀ ts us, (∀ t ∈ ts, ∀ u, P t u) → P (alt ts) (alt us))
    (seq : ∀ ts us, (∀ t ∈ ts, ∀ u, P t u) → P (seq ts) (seq us))
    (inter : ∀ ts us, (∀ t ∈ ts, ∀ u, P t u) → P (inter ts) (inter us))
    (compl : ∀ t u, P t u → P (compl t) (compl u)) (star : ∀ t u, P t u → P (star t) (star u)) :
    P t u := by
  induction t using memberInduction generalizing u with
  | eps => cases u <;> first | exact eps | exact unlike _ _ nofun
  | empty => cases u <;> first | exact empty | exact unlike _ _ nofun
  | all => cases u <;> first | exact all | exact unlike _ _ nofun
  | literal a => cases u <;> first | exact literal a _ | exact unlike _ _ nofun
  | alt ts ih => cases u <;> first | exact alt ts _ ih | exact unlike _ _ nofun
  | seq ts ih => cases u <;> first | exact seq ts _ ih | exact unlike _ _ nofun
  | inter ts ih => cases u <;> first | exact inter ts _ ih | exact unlike _ _ nofun
  | compl t ih => cases u <;> first | exact compl t _ (ih _) | exact unlike _ _ nofun
  | star t ih => cases u <;> first | exact star t _ (ih _) | exact unlike _ _ nofun

section Laws

variable [Ord S] [DecidableEq S] {t u v : Term S} {ts us vs : List (Term S)}

theorem compare_of_kind_ne (h : t.kind ≠ u.kind) : compare t u = Ord.compare t.kind u.kind := by
  cases t <;> cases u <;> first | rfl | exact absurd rfl h

theorem compareList_cons_of_ne (h : t ≠ u) :
    compareList (t :: ts) (u :: us) = (compare t u).then (compareList ts us) := by
  rw [compareList, if_neg h]

@[simp] theorem compareList_cons_self :
    compareList (t :: ts) (t :: us) = compareList ts us := by
  rw [compareList, if_pos rfl]

theorem compareList_eq_iff (h : ∀ t ∈ ts, ∀ u, compare t u = .eq ↔ t = u) :
    compareList ts us = .eq ↔ ts = us := by
  induction ts generalizing us with
  | nil => cases us <;> simp [compareList]
  | cons t ts ih =>
    cases us with
    | nil => simp [compareList]
    | cons u us =>
      have iht := h t (List.mem_cons_self ..) u
      have ihts := @ih us fun t ht => h t (List.mem_cons_of_mem _ ht)
      by_cases htu : t = u
      · rw [htu, compareList_cons_self, ihts, List.cons.injEq, and_iff_right rfl]
      · rw [compareList_cons_of_ne htu, Ordering.then_eq_eq, iht, ihts, List.cons.injEq]

/-- Two terms compare as equal exactly when they are equal. -/
theorem compare_eq_iff [Std.LawfulEqOrd S] : compare t u = .eq ↔ t = u := by
  induction t, u using kindInduction with
  | unlike t u hkind =>
    rw [compare_of_kind_ne hkind, Std.LawfulEqOrd.compare_eq_iff_eq]
    exact iff_of_false hkind fun h => hkind (h ▸ rfl)
  | eps => exact iff_of_true rfl rfl
  | empty => exact iff_of_true rfl rfl
  | all => exact iff_of_true rfl rfl
  | literal a b => rw [compare, Std.LawfulEqOrd.compare_eq_iff_eq, literal.injEq]
  | alt ts us ih => rw [compare, compareList_eq_iff ih, alt.injEq]
  | seq ts us ih => rw [compare, compareList_eq_iff ih, seq.injEq]
  | inter ts us ih => rw [compare, compareList_eq_iff ih, inter.injEq]
  | compl t u ih => rw [compare, ih, compl.injEq]
  | star t u ih => rw [compare, ih, star.injEq]

theorem compareList_swap (h : ∀ t ∈ ts, ∀ u, compare u t = (compare t u).swap) :
    compareList us ts = (compareList ts us).swap := by
  induction ts generalizing us with
  | nil => cases us <;> rfl
  | cons t ts ih =>
    cases us with
    | nil => rfl
    | cons u us =>
      have ihts := @ih us fun t ht => h t (List.mem_cons_of_mem _ ht)
      by_cases htu : t = u
      · rw [htu, compareList_cons_self, compareList_cons_self, ihts]
      · rw [compareList_cons_of_ne htu, compareList_cons_of_ne (Ne.symm htu), Ordering.swap_then,
          h t (List.mem_cons_self ..), ihts]

theorem compare_swap [Std.TransOrd S] : compare u t = (compare t u).swap := by
  induction t, u using kindInduction with
  | unlike t u hkind =>
    rw [compare_of_kind_ne hkind, compare_of_kind_ne (Ne.symm hkind)]
    exact Std.OrientedOrd.eq_swap
  | eps => rfl
  | empty => rfl
  | all => rfl
  | literal a b => exact Std.OrientedOrd.eq_swap
  | alt ts us ih => exact compareList_swap ih
  | seq ts us ih => exact compareList_swap ih
  | inter ts us ih => exact compareList_swap ih
  | compl t u ih => exact ih
  | star t u ih => exact ih

theorem compareList_cons_eq_lt [Std.LawfulEqOrd S] : compareList (t :: ts) (u :: us) = .lt ↔
    compare t u = .lt ∨ t = u ∧ compareList ts us = .lt := by
  by_cases htu : t = u
  · have heq : compare u u = .eq := compare_eq_iff.mpr rfl
    rw [htu, compareList_cons_self, heq]
    simp
  · rw [compareList_cons_of_ne htu, Ordering.then_eq_lt, compare_eq_iff]

theorem compareList_lt_trans [Std.LawfulEqOrd S]
    (h : ∀ t ∈ ts, ∀ u v, compare t u = .lt → compare u v = .lt → compare t v = .lt)
    (htu : compareList ts us = .lt) (huv : compareList us vs = .lt) :
    compareList ts vs = .lt := by
  induction ts generalizing us vs with
  | nil =>
    cases vs with
    | nil => cases us <;> contradiction
    | cons v vs => rfl
  | cons t ts ih =>
    cases us with
    | nil => contradiction
    | cons u us =>
      cases vs with
      | nil => contradiction
      | cons v vs =>
        have iht := h t (List.mem_cons_self ..) u v
        have ihts := @ih us vs fun t ht => h t (List.mem_cons_of_mem _ ht)
        -- The first place where one of the two comparisons finds a difference decides.
        rw [compareList_cons_eq_lt] at htu huv ⊢
        rcases htu with htu | ⟨rfl, htu⟩ <;> rcases huv with huv | ⟨rfl, huv⟩
        · exact .inl (iht htu huv)
        · exact .inl htu
        · exact .inl huv
        · exact .inr ⟨rfl, ihts htu huv⟩

/-- The kind of a lesser term is not greater. -/
theorem kind_le_of_compare_eq_lt (h : compare t u = .lt) : t.kind ≤ u.kind := by
  by_cases hkind : t.kind = u.kind
  · exact Nat.le_of_eq hkind
  · rw [compare_of_kind_ne hkind, Nat.compare_eq_lt] at h
    exact Nat.le_of_lt h

theorem compare_eq_lt_of_kind_lt (h : t.kind < u.kind) : compare t u = .lt := by
  rw [compare_of_kind_ne (Nat.ne_of_lt h), Nat.compare_eq_lt]
  exact h

variable [Std.LawfulEqOrd S]

theorem isLE_compare_iff : (compare t u).isLE = true ↔ compare t u = .lt ∨ t = u := by
  rw [← compare_eq_iff (t := t)]
  cases compare t u <;> decide

variable [Std.TransOrd S]

theorem compare_lt_trans (htu : compare t u = .lt) (huv : compare u v = .lt) :
    compare t v = .lt := by
  -- Contents count only if all three terms are of one kind: a third term of another kind is
  -- greater than both of the others by its kind alone.
  induction t, u using kindInduction generalizing v with
  | unlike t u hkind =>
    refine compare_eq_lt_of_kind_lt ?_
    have := kind_le_of_compare_eq_lt htu
    have := kind_le_of_compare_eq_lt huv
    omega
  | eps => contradiction
  | empty => contradiction
  | all => contradiction
  | literal a b =>
    cases v with
    | literal c =>
      have hab : Ord.compare a b = .lt := htu
      have hbc : Ord.compare b c = .lt := huv
      show Ord.compare a c = .lt
      exact Std.TransCmp.lt_trans hab hbc
    | _ => exact huv
  | alt ts us ih =>
    cases v with
    | alt vs => exact compareList_lt_trans (fun t ht u v htu huv => ih t ht u htu huv) htu huv
    | _ => exact huv
  | seq ts us ih =>
    cases v with
    | seq vs => exact compareList_lt_trans (fun t ht u v htu huv => ih t ht u htu huv) htu huv
    | _ => exact huv
  | inter ts us ih =>
    cases v with
    | inter vs => exact compareList_lt_trans (fun t ht u v htu huv => ih t ht u htu huv) htu huv
    | _ => exact huv
  | compl t u ih =>
    cases v with
    | compl v => exact ih htu huv
    | _ => exact huv
  | star t u ih =>
    cases v with
    | star v => exact ih htu huv
    | _ => exact huv

instance : Std.LawfulEqOrd (Term S) where
  compare_self := compare_eq_iff.mpr rfl
  eq_of_compare := compare_eq_iff.mp

instance : Std.TransOrd (Term S) where
  eq_swap := compare_swap
  isLE_trans {t u v} htu huv := by
    have htu : (compare t u).isLE = true := htu
    have huv : (compare u v).isLE = true := huv
    show (compare t v).isLE = true
    rw [isLE_compare_iff] at htu huv ⊢
    rcases htu with htu | rfl
    · rcases huv with huv | rfl
      · exact .inl (compare_lt_trans htu huv)
      · exact .inl htu
    · exact huv

end Laws

/-! ### Sorted members -/

section Sorted

variable [Ord S] [DecidableEq S]

/-- Every term of the list is less than those after it. -/
def Increasing (ts : List (Term S)) : Prop := ts.Pairwise fun t u => compare t u = .lt

variable [Std.LawfulEqOrd S] {ts us : List (Term S)}

theorem Increasing.nodup (h : Increasing ts) : ts.Nodup := by
  refine List.Pairwise.imp (fun {t u} htu heq => ?_) h
  rw [heq, compare_eq_iff.mpr rfl] at htu
  contradiction

/-- Of two distinct terms in a list, one is not the given term. -/
theorem Increasing.exists_ne (h : Increasing ts) (two : 2 ≤ ts.length) (c : Term S) :
    ∃ t ∈ ts, t ≠ c := by
  match ts with
  | t :: u :: ts =>
    have htu : t ≠ u := (List.pairwise_cons.mp h.nodup).1 u (by simp)
    by_cases ht : t = c
    · exact ⟨u, by simp, fun hu => htu (ht.trans hu.symm)⟩
    · exact ⟨t, by simp, ht⟩

variable [Std.TransOrd S]

/-- An increasing list is determined by its terms. -/
theorem Increasing.ext (hts : Increasing ts) (hus : Increasing us) (h : ∀ t, t ∈ ts ↔ t ∈ us) :
    ts = us := by
  -- Without repetition, lists of the same terms are permutations of each other.
  have hperm : ts.Perm us := (List.perm_ext_iff_of_nodup hts.nodup hus.nodup).mpr h
  refine hperm.eq_of_pairwise (fun t u _ _ htu hut => ?_) hts hus
  rw [compare_swap, htu] at hut
  contradiction

theorem increasing_dropRepeats (h : ts.Pairwise fun t u => (compare t u).isLE = true) :
    Increasing (dropRepeats ts) := by
  fun_induction dropRepeats ts with
  | case1 => exact .nil
  | case2 t => exact List.pairwise_singleton ..
  | case3 u ts ih => exact ih (List.pairwise_cons.mp h).2
  | case4 t u ts hne ih =>
    obtain ⟨ht, hus⟩ := List.pairwise_cons.mp h
    refine List.pairwise_cons.mpr ⟨fun v hv => ?_, ih hus⟩
    -- The next term is greater, and everything behind is at least as great as that one.
    have htu := isLE_compare_iff.mp (ht u (List.mem_cons_self ..))
    rcases List.mem_cons.mp (mem_dropRepeats.mp hv) with rfl | hv
    · exact htu.resolve_right hne
    · have huv := isLE_compare_iff.mp ((List.pairwise_cons.mp hus).1 v hv)
      rcases huv with huv | rfl
      · exact compare_lt_trans (htu.resolve_right hne) huv
      · exact htu.resolve_right hne

theorem increasing_sortMembers (ts : List (Term S)) : Increasing (sortMembers ts) := by
  refine increasing_dropRepeats (List.pairwise_mergeSort (fun t u v htu huv => ?_) ?_ ts)
  · exact Std.TransOrd.isLE_trans (α := Term S) htu huv
  · intro t u
    rw [Bool.or_eq_true, compare_swap (t := t)]
    cases compare t u <;> decide

theorem sortMembers_congr (h : ∀ t, t ∈ ts ↔ t ∈ us) : sortMembers ts = sortMembers us :=
  (increasing_sortMembers ts).ext (increasing_sortMembers us) fun t => by
    rw [mem_sortMembers, mem_sortMembers, h]

end Sorted

end ExtendedRegex.Term
