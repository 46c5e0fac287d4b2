/-
Eliminating unknowns keeps the least solution of the others.

* `Equation.value`: what the right side of an equation gives, when the unknowns stand
  for languages;
* `Tidy`: each unknown occurs once in an equation, and only some of them do;
* `leastSolution`: what an unknown stands for in all solutions of the equations;
* `leastSolution_eliminate`: what is left after an unknown is eliminated has the same
  least solution;
* `language_solve`: the term that solves a list of equations matches the least solution
  for unknown 0.

Design notes: a solution has at least what the right sides give, so that the languages
in all solutions are a solution again.  An equation `X = u X | q` may have more than one
solution if `u` matches the empty word, but `u* q` is always the least of them.  The
unknown that an equation is for is the number of the equations behind it.
-/
import ExtendedRegex.Equation
import ExtendedRegex.Proofs.Operations
import Mathlib.Algebra.BigOperators.Ring.List
import Mathlib.Algebra.Order.Kleene
import Mathlib.Order.CompletePartialOrder
import Mathlib.Tactic.Abel

universe u v

namespace ExtendedRegex.Equation

open scoped Computability
open ExtendedRegex.Term

variable {S : Type u} {E : Type v} {e q : Equation S} {es : List (Equation S)}
  {cs : List (Nat × Term S)} {t u : Term S} {m n : Nat} {p : Nat → Prop}

/-! ### Unknowns of an equation -/

section Unknowns

/-- The unknowns of some coefficients are distinct, and all of them are among those that `p` holds
for. -/
structure Tidy (p : Nat → Prop) (cs : List (Nat × Term S)) : Prop where
  nodup : (cs.map Prod.fst).Nodup
  refers : ∀ n ∈ cs.map Prod.fst, p n

theorem Tidy.imp {p' : Nat → Prop} (h : Tidy p cs) (hp : ∀ n, p n → p' n) : Tidy p' cs :=
  ⟨h.nodup, fun n hn => hp n (h.refers n hn)⟩

theorem mem_map_fst_without : n ∈ (without m cs).map Prod.fst ↔ n ∈ cs.map Prod.fst ∧ n ≠ m := by
  rw [without, List.mem_map, List.mem_map]
  constructor
  · rintro ⟨c, hc, rfl⟩
    obtain ⟨hc, hne⟩ := List.mem_filter.mp hc
    exact ⟨⟨c, hc, rfl⟩, of_decide_eq_true hne⟩
  · rintro ⟨⟨c, hc, rfl⟩, hne⟩
    exact ⟨c, List.mem_filter.mpr ⟨hc, decide_eq_true hne⟩, rfl⟩

theorem without_eq_self (h : m ∉ cs.map Prod.fst) : without m cs = cs := by
  refine List.filter_eq_self.mpr fun c hc => decide_eq_true ?_
  rintro rfl
  exact h (List.mem_map_of_mem hc)

theorem not_mem_of_lookup_eq_none (h : cs.lookup m = none) : m ∉ cs.map Prod.fst := by
  intro hm
  obtain ⟨c, hc, rfl⟩ := List.mem_map.mp hm
  exact bne_iff_ne.mp (List.lookup_eq_none_iff.mp h c hc) rfl

theorem Tidy.without (h : Tidy p cs) : Tidy (fun n => p n ∧ n ≠ m) (without m cs) where
  nodup := h.nodup.sublist (List.filter_sublist.map _)
  refers n hn :=
    have hn := mem_map_fst_without.mp hn
    ⟨h.refers n hn.1, hn.2⟩

theorem Tidy.of_not_mem (h : Tidy p cs) (hm : m ∉ cs.map Prod.fst) :
    Tidy (fun n => p n ∧ n ≠ m) cs :=
  without_eq_self hm ▸ h.without

theorem Tidy.map (h : Tidy p cs) (f : Term S → Term S) : Tidy p (cs.map fun c => (c.1, f c.2)) := by
  have hkeys : (cs.map fun c => (c.1, f c.2)).map Prod.fst = cs.map Prod.fst := by
    rw [List.map_map]
    rfl
  exact ⟨hkeys ▸ h.nodup, hkeys ▸ h.refers⟩

variable [SetAlgebra S] [Ord S] [DecidableEq S]

theorem mem_map_fst_addPath :
    n ∈ (addPath m t cs).map Prod.fst ↔ n = m ∨ n ∈ cs.map Prod.fst := by
  fun_induction addPath m t cs with
  | case1 => simp
  | case2 u rest => simp
  | case3 k u rest hk ih =>
    simp only [List.map_cons, List.mem_cons, ih]
    tauto

theorem Tidy.addPath (h : Tidy p cs) (hm : p m) : Tidy p (addPath m t cs) := by
  refine ⟨?_, fun n hn => ?_⟩
  · obtain ⟨hnodup, -⟩ := h
    fun_induction Equation.addPath m t cs with
    | case1 => exact List.nodup_singleton m
    | case2 u rest => exact hnodup
    | case3 k u rest hk ih =>
      obtain ⟨hnew, hrest⟩ := List.nodup_cons.mp hnodup
      refine List.nodup_cons.mpr ⟨fun hmem => ?_, ih hrest⟩
      exact (mem_map_fst_addPath.mp hmem).elim hk hnew
  · rcases mem_map_fst_addPath.mp hn with rfl | hn
    · exact hm
    · exact h.refers n hn

theorem tidy_foldl_addPath (f : Term S → Term S) {ds : List (Nat × Term S)} (h : Tidy p cs)
    (hds : ∀ n ∈ ds.map Prod.fst, p n) :
    Tidy p (ds.foldl (fun cs (k, t) => addPath k (f t) cs) cs) := by
  induction ds generalizing cs with
  | nil => exact h
  | cons d ds ih =>
    rw [List.map_cons, List.forall_mem_cons] at hds
    exact ih (h.addPath hds.1) hds.2

theorem tidy_withoutLoop (h : Tidy p e.coefficients) :
    Tidy (fun n => p n ∧ n ≠ m) (e.withoutLoop m).coefficients := by
  rw [withoutLoop]
  rcases hloop : e.coefficients.lookup m with _ | loop
  · exact h.of_not_mem (not_mem_of_lookup_eq_none hloop)
  · exact h.without.map fun t => .concat [.closure loop, t]

theorem tidy_substitute (h : Tidy p e.coefficients)
    (hq : Tidy (fun n => p n ∧ n ≠ m) q.coefficients) :
    Tidy (fun n => p n ∧ n ≠ m) (substitute m q e).coefficients := by
  rw [substitute]
  rcases hvia : e.coefficients.lookup m with _ | via
  · exact h.of_not_mem (not_mem_of_lookup_eq_none hvia)
  · exact tidy_foldl_addPath (fun t => .concat [via, t]) h.without hq.refers

/-- No equation refers to an unknown that was eliminated. -/
theorem tidy_eliminate (h : ∀ e' ∈ e :: es, Tidy p e'.coefficients) :
    ∀ e' ∈ eliminate m e es, Tidy (fun n => p n ∧ n ≠ m) e'.coefficients := by
  obtain ⟨he, hes⟩ := List.forall_mem_cons.mp h
  exact List.forall_mem_map.mpr fun e' he' => tidy_substitute (hes e' he') (tidy_withoutLoop he)

end Unknowns

/-! ### What an equation gives -/

section Values

variable [Membership E S] {X Y : Nat → Language E}

/-- The words that start with a coefficient, and go on with what its unknown stands for. -/
def combination (X : Nat → Language E) (cs : List (Nat × Term S)) : Language E :=
  (cs.map fun c => c.2.language * X c.1).sum

/-- What the right side of an equation gives for some languages. -/
def value (X : Nat → Language E) (e : Equation S) : Language E :=
  e.constant.language + combination X e.coefficients

@[simp] theorem combination_nil : combination X ([] : List (Nat × Term S)) = 0 := rfl

@[simp] theorem combination_cons :
    combination X ((n, t) :: cs) = t.language * X n + combination X cs :=
  List.sum_cons

theorem mem_combination {w : List E} :
    w ∈ combination X cs ↔ ∃ c ∈ cs, w ∈ c.2.language * X c.1 := by
  induction cs with
  | nil => simp
  | cons c cs ih => rw [combination_cons, Language.mem_add, ih, List.exists_mem_cons_iff]

theorem combination_mono (h : ∀ n, X n ≤ Y n) : combination X cs ≤ combination Y cs := by
  induction cs with
  | nil => exact le_rfl
  | cons c cs ih =>
    rw [combination_cons, combination_cons]
    gcongr
    exact h c.1

theorem combination_congr (h : ∀ n ∈ cs.map Prod.fst, X n = Y n) :
    combination X cs = combination Y cs := by
  refine congrArg List.sum (List.map_congr_left fun c hc => ?_)
  rw [h c.1 (List.mem_map_of_mem hc)]

theorem combination_map {again : Term S} :
    combination X (cs.map fun c => (c.1, .concat [again, c.2])) =
      again.language * combination X cs := by
  induction cs with
  | nil => simp
  | cons c cs ih =>
    rw [List.map_cons, combination_cons, combination_cons, ih, language_concat_pair, mul_add,
      mul_assoc]

/-- One coefficient and those of the other unknowns. -/
theorem combination_of_lookup (hnodup : (cs.map Prod.fst).Nodup) (h : cs.lookup m = some u) :
    combination X cs = u.language * X m + combination X (without m cs) := by
  induction cs with
  | nil => contradiction
  | cons c cs ih =>
    obtain ⟨k, t⟩ := c
    obtain ⟨hk, hnodup⟩ := List.nodup_cons.mp hnodup
    by_cases hkm : k = m
    · subst hkm
      rw [List.lookup_cons_self] at h
      obtain rfl := Option.some.inj h
      -- The unknowns are distinct, so none of the other coefficients goes.
      rw [combination_cons, without, List.filter_cons_of_neg (by simp)]
      rw [← without, without_eq_self hk]
    · rw [List.lookup_cons, beq_false_of_ne (Ne.symm hkm)] at h
      rw [combination_cons, ih hnodup h, without, without,
        List.filter_cons_of_pos (by simpa using hkm), combination_cons]
      exact add_left_comm _ _ _

theorem value_of_lookup (hnodup : (e.coefficients.map Prod.fst).Nodup)
    (h : e.coefficients.lookup m = some u) :
    e.value X =
      u.language * X m + (e.constant.language + combination X (without m e.coefficients)) := by
  rw [value, combination_of_lookup hnodup h, add_left_comm]

variable [SetAlgebra S] [LawfulSetAlgebra S E] [Ord S] [DecidableEq S]

theorem combination_addPath :
    combination X (addPath n t cs) = t.language * X n + combination X cs := by
  fun_induction addPath n t cs with
  | case1 => rfl
  | case2 u rest =>
    rw [combination_cons, combination_cons, language_oneOf_pair, add_mul, add_assoc]
  | case3 k u rest hk ih =>
    rw [combination_cons, combination_cons, ih]
    exact add_left_comm _ _ _

theorem combination_foldl_addPath {via : Term S} {ds : List (Nat × Term S)} :
    combination X (ds.foldl (fun cs (k, t) => addPath k (.concat [via, t]) cs) cs) =
      via.language * combination X ds + combination X cs := by
  induction ds generalizing cs with
  | nil => simp
  | cons d ds ih =>
    rw [List.foldl_cons, ih, combination_addPath, language_concat_pair, combination_cons, mul_add,
      mul_assoc]
    abel

/-- A solution that is put in place of an unknown gives what the unknown would give. -/
theorem value_substitute (hnodup : (e.coefficients.map Prod.fst).Nodup) :
    (substitute m q e).value X = e.value (Function.update X m (q.value X)) := by
  rw [substitute]
  rcases hvia : e.coefficients.lookup m with _ | via
  · -- The equation does not refer to the unknown.
    have hm := not_mem_of_lookup_eq_none hvia
    rw [value, value]
    congr 1
    refine combination_congr fun n hn => ?_
    rw [Function.update_of_ne]
    rintro rfl
    exact hm hn
  · have hrest : combination (Function.update X m (q.value X)) (without m e.coefficients) =
        combination X (without m e.coefficients) :=
      combination_congr fun n hn => Function.update_of_ne (mem_map_fst_without.mp hn).2 _ _
    rw [value, value, combination_of_lookup hnodup hvia, Function.update_self, hrest,
      combination_foldl_addPath, language_oneOf_pair, language_concat_pair, value, mul_add]
    abel

/-! ### Loops -/

theorem value_withoutLoop (h : e.coefficients.lookup m = some u) :
    (e.withoutLoop m).value X =
      u.language∗ * (e.constant.language + combination X (without m e.coefficients)) := by
  rw [withoutLoop, h]
  dsimp only
  rw [value, combination_map, language_concat_pair, language_closure, mul_add]

/-- Whatever solves `X = u X | q` has all that `u* q` gives. -/
theorem value_withoutLoop_le (hnodup : (e.coefficients.map Prod.fst).Nodup)
    (h : e.value X ≤ X m) : (e.withoutLoop m).value X ≤ X m := by
  cases hloop : e.coefficients.lookup m with
  | none =>
    rw [withoutLoop, hloop]
    exact h
  | some u =>
    rw [value_of_lookup hnodup hloop, add_le_iff] at h
    rw [value_withoutLoop hloop]
    exact kstar_mul_le h.2 h.1

/-- And what `u* q` gives is a solution. -/
theorem value_eq_of_withoutLoop (hnodup : (e.coefficients.map Prod.fst).Nodup)
    (h : (e.withoutLoop m).value X = X m) : e.value X = X m := by
  cases hloop : e.coefficients.lookup m with
  | none =>
    rw [withoutLoop, hloop] at h
    exact h
  | some u =>
    rw [value_withoutLoop hloop] at h
    calc e.value X
        = u.language * X m + (e.constant.language + combination X (without m e.coefficients)) :=
          value_of_lookup hnodup hloop
      _ = (1 + u.language * u.language∗) *
            (e.constant.language + combination X (without m e.coefficients)) := by
          rw [← h, add_mul, one_mul, mul_assoc, add_comm]
      _ = X m := by
          rw [Language.one_add_self_mul_kstar_eq_kstar, h]

end Values

/-! ### Solutions -/

section Solutions

variable [Membership E S] {X : Nat → Language E}

/-- The unknowns have all that their equations give. -/
def Solves (X : Nat → Language E) : List (Equation S) → Prop
  | [] => True
  | e :: es => e.value X ≤ X es.length ∧ Solves X es

/-- What an unknown stands for in all solutions. -/
def leastSolution (E : Type v) [Membership E S] (es : List (Equation S)) (n : Nat) : Language E :=
  {w | ∀ X : Nat → Language E, Solves X es → w ∈ X n}

/-- In the order of the unknowns the equations are reversed. -/
theorem solves_iff : Solves X es ↔ ∀ n e, es.reverse[n]? = some e → e.value X ≤ X n := by
  induction es with
  | nil => exact iff_of_true True.intro nofun
  | cons e es ih =>
    have hlen : es.reverse.length = es.length := List.length_reverse
    rw [Solves, ih, List.reverse_cons]
    constructor
    · rintro ⟨he, hes⟩ n e' hn
      by_cases hlt : n < es.length
      · rw [List.getElem?_append_left (hlen ▸ hlt)] at hn
        exact hes n e' hn
      · rw [List.getElem?_append_right (by omega), List.getElem?_singleton] at hn
        obtain ⟨hzero, heq⟩ := Option.ite_none_right_eq_some.mp hn
        obtain rfl := Option.some.inj heq
        rw [show n = es.length by omega]
        exact he
    · intro h
      refine ⟨h es.length e (by simp), fun n e' hn => h n e' ?_⟩
      rw [List.getElem?_append_left (List.getElem?_eq_some_iff.mp hn).1]
      exact hn

theorem value_mono {Y : Nat → Language E} (h : ∀ n, X n ≤ Y n) : e.value X ≤ e.value Y :=
  add_le_add_right (combination_mono h) _

/-- The languages in all solutions are a solution. -/
theorem solves_leastSolution : Solves (leastSolution E es) es := by
  refine solves_iff.mpr fun n e hn w hw X hX => ?_
  have hle : ∀ m, leastSolution E es m ≤ X m := fun m v hv => hv X hX
  exact solves_iff.mp hX n e hn (value_mono hle hw)

variable [SetAlgebra S] [LawfulSetAlgebra S E] [Ord S] [DecidableEq S]

theorem reverse_eliminate :
    (eliminate m e es).reverse = es.reverse.map (substitute m (e.withoutLoop m)) :=
  List.map_reverse.symm

theorem Solves.eliminate (htidy : ∀ e' ∈ e :: es, Tidy p e'.coefficients)
    (h : Solves X (e :: es)) : Solves X (eliminate es.length e es) := by
  obtain ⟨he, hes⟩ := h
  obtain ⟨htidye, htidy⟩ := List.forall_mem_cons.mp htidy
  refine solves_iff.mpr fun n e'' hn => ?_
  rw [reverse_eliminate, List.getElem?_map, Option.map_eq_some_iff] at hn
  obtain ⟨e', hn, rfl⟩ := hn
  have he' : e' ∈ es := List.mem_reverse.mp (List.mem_of_getElem? hn)
  calc (substitute es.length (e.withoutLoop es.length) e').value X
      = e'.value (Function.update X es.length ((e.withoutLoop es.length).value X)) :=
        value_substitute (htidy e' he').nodup
    _ ≤ e'.value X := by
        refine value_mono fun k => ?_
        by_cases hk : k = es.length
        · subst hk
          rw [Function.update_self]
          exact value_withoutLoop_le htidye.nodup he
        · rw [Function.update_of_ne hk]
    _ ≤ X n := solves_iff.mp hes n e' hn

/-- What the others stand for fixes what the unknown stands for. -/
theorem Solves.of_eliminate (htidy : ∀ e' ∈ e :: es, Tidy p e'.coefficients)
    (h : Solves X (Equation.eliminate es.length e es)) :
    Solves (Function.update X es.length ((e.withoutLoop es.length).value X)) (e :: es) := by
  obtain ⟨htidye, htidy⟩ := List.forall_mem_cons.mp htidy
  refine ⟨le_of_eq (value_eq_of_withoutLoop htidye.nodup ?_), solves_iff.mpr fun n e' hn => ?_⟩
  · rw [Function.update_self, value, value]
    congr 1
    refine combination_congr fun n hn => ?_
    exact Function.update_of_ne ((tidy_withoutLoop htidye).refers n hn).2 _ _
  · have he' : e' ∈ es := List.mem_reverse.mp (List.mem_of_getElem? hn)
    have hlt : n < es.length := by
      rw [← List.length_reverse]
      exact (List.getElem?_eq_some_iff.mp hn).1
    rw [← value_substitute (htidy e' he').nodup, Function.update_of_ne (Nat.ne_of_lt hlt)]
    refine solves_iff.mp h n _ ?_
    rw [reverse_eliminate, List.getElem?_map, hn]
    rfl

/-- Eliminating an unknown changes nothing for the others. -/
theorem leastSolution_eliminate (htidy : ∀ e' ∈ e :: es, Tidy p e'.coefficients)
    (hn : n < es.length) :
    leastSolution E (eliminate es.length e es) n = leastSolution E (e :: es) n := by
  refine Language.ext fun w => ⟨fun hw X hX => hw X (hX.eliminate htidy), fun hw X hX => ?_⟩
  have hX' := hw _ (hX.of_eliminate htidy)
  rwa [Function.update_of_ne (Nat.ne_of_lt hn)] at hX'

/-- The solution for unknown 0 is the least one, if no equation refers to that unknown or to one
that has no equation. -/
theorem language_solve (htidy : ∀ e ∈ es, Tidy (fun n => 0 < n ∧ n < es.length) e.coefficients) :
    (solve es).language = leastSolution E es 0 := by
  fun_induction solve es with
  | case1 =>
    refine Language.ext fun w => iff_of_false mem_language_empty fun hw => ?_
    exact hw (fun _ => 0) True.intro
  | case2 e =>
    have hnone : e.coefficients = [] := by
      refine List.eq_nil_iff_forall_not_mem.mpr fun c hc => ?_
      have hrefers := (htidy e (List.mem_singleton_self e)).refers c.1 (List.mem_map_of_mem hc)
      rw [List.length_singleton] at hrefers
      omega
    have hvalue : ∀ X : Nat → Language E, e.value X = e.constant.language := by
      intro X
      rw [value, hnone, combination_nil, add_zero]
    refine Language.ext fun w => ⟨fun hw X hX => hX.1 (hvalue X ▸ hw), fun hw => ?_⟩
    exact hw (fun _ => e.constant.language) ⟨(hvalue _).le, True.intro⟩
  | case3 e e' es ih =>
    have hlen : es.length + 1 = (e' :: es).length := rfl
    rw [ih fun e'' he'' => ?_, hlen, leastSolution_eliminate htidy (Nat.succ_pos _)]
    refine (tidy_eliminate htidy e'' he'').imp fun n hn => ?_
    rw [length_eliminate, List.length_cons]
    simp only [List.length_cons] at hn
    omega

end Solutions

end ExtendedRegex.Equation
