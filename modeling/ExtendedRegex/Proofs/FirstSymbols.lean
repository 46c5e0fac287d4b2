/-
The symbols that are listed for the places of a word are those that matching words have there.

* `of_allBranches?_eq_some`: the branches of some terms are their derivatives by single symbols,
  without those that are `empty`;
* `Verdicts.Right`: what is remembered of terms is what a search would find out;
* `Live`: the branches that a symbol of a matching word can take;
* `mem_symbolsFrom?`: the sets for the next places of the words that match any of some terms;
* `symbolsAt?_iff_exists_mem`: there are as many sets as places, and each has just the symbols that
  some matching word has at its place.

Design notes: the induction is on the number of places.  A symbol is listed for the first place
only if some word matches behind it, and the terms that are left behind such symbols are those that
the next places are asked of.  So a symbol at a later place always has a whole word in front of it
and behind it, which is what the induction hypothesis needs.
-/
import ExtendedRegex.Proofs.Automaton

universe u v

namespace ExtendedRegex.Term

open SetAlgebra (unionAll mem_unionAll)

variable {S : Type u} {E : Type v} [DecidableEq S] [Membership E S]

/-! ### Branches of some terms -/

section Branches

variable [SetAlgebra S] [Ord S] [LawfulSetAlgebra S E] [Std.TransOrd S] [Std.LawfulEqOrd S]
  {t d : Term S} {ts : List (Term S)} {p q : Partition S} {branches : List (Term S × S)} {fuel : Nat} {e : E}

/-- A symbol leads to its derivative, unless that is `empty`. -/
theorem exists_mem_branches?_iff (ht : Canonical t) (hp : Partition.Proper E p)
    (h : t.branches? fuel p = some (q, branches)) :
    (∃ block, (d, block) ∈ branches ∧ e ∈ block) ↔ d = t.derivativeAt e ∧ d ≠ empty := by
  obtain ⟨-, hderivative, hlive⟩ := of_branches?_eq_some ht hp h
  constructor
  · rintro ⟨block, hmem, he⟩
    have hd : d = t.derivativeAt e := (hderivative _ hmem).2 e he
    refine ⟨hd, ?_⟩
    rw [hd]
    exact (hlive e).mp ⟨_, hmem, he⟩
  · rintro ⟨rfl, hne⟩
    obtain ⟨⟨d, block⟩, hmem, he⟩ := (hlive e).mpr hne
    obtain rfl : d = t.derivativeAt e := (hderivative _ hmem).2 e he
    exact ⟨block, hmem, he⟩

/-- The branches of some terms are those of each of them, over one partition. -/
theorem of_allBranches?_eq_some (hts : ∀ t ∈ ts, Canonical t) (hp : Partition.Proper E p)
    (h : allBranches? fuel p ts = some (q, branches)) :
    Partition.Proper E q ∧ (∀ b ∈ branches, ∃ e : E, e ∈ b.2) ∧
      ∀ (d : Term S) (e : E), (∃ block, (d, block) ∈ branches ∧ e ∈ block) ↔
        ∃ t ∈ ts, d = t.derivativeAt e ∧ d ≠ empty := by
  induction ts generalizing p branches with
  | nil =>
    obtain ⟨rfl, rfl⟩ := Prod.mk.inj (Option.some.inj h)
    exact ⟨hp, nofun, by simp⟩
  | cons t ts ih =>
    rw [allBranches?] at h
    obtain ⟨⟨p', first⟩, hfirst, h⟩ := Option.bind_eq_some_iff.mp h
    obtain ⟨⟨p'', others⟩, hothers, h⟩ := Option.bind_eq_some_iff.mp h
    obtain ⟨rfl, rfl⟩ := Prod.mk.inj (Option.some.inj h)
    have ht := hts t (List.mem_cons_self ..)
    obtain ⟨hp', hinhabited, -⟩ := of_branches?_eq_some ht hp hfirst
    obtain ⟨hq, hinhabited', hmem⟩ := ih (fun u hu => hts u (List.mem_cons_of_mem t hu)) hp' hothers
    refine ⟨hq, fun b hb => ?_, fun d e => ?_⟩
    · rcases List.mem_append.mp hb with hb | hb
      · exact (hinhabited b hb).1
      · exact hinhabited' b hb
    · rw [List.exists_mem_cons_iff, ← hmem, ← exists_mem_branches?_iff ht hp hfirst, ← exists_or]
      simp only [List.mem_append, or_and_right]

end Branches

/-! ### What is remembered -/

section Verdicts

variable [Hashable S] {known known' : Verdicts S} {t : Term S} {fuel : Nat} {dead : Bool}

/-- What is remembered of a term is whether no word matches it. -/
def Verdicts.Right (E : Type v) [Membership E S] (known : Verdicts S) : Prop :=
  ∀ (t : Term S) (dead : Bool), known[t]? = some dead → (dead = true ↔ ∀ w : List E, w ∉ t.language)

theorem Verdicts.right_empty :
    Verdicts.Right E (Std.HashMap.emptyWithCapacity : Verdicts S) := by
  intro t dead h
  simp at h

theorem Verdicts.Right.insert (hknown : known.Right E)
    (h : dead = true ↔ ∀ w : List E, w ∉ t.language) : Verdicts.Right E (known.insert t dead) := by
  intro u verdict hu
  rw [Std.HashMap.getElem?_insert] at hu
  by_cases htu : (t == u) = true
  · rw [if_pos htu] at hu
    obtain rfl := eq_of_beq htu
    obtain rfl := Option.some.inj hu
    exact h
  · rw [if_neg htu] at hu
    exact hknown u verdict hu

variable [SetAlgebra S] [Ord S] [LawfulSetAlgebra S E] [Std.TransOrd S] [Std.LawfulEqOrd S]

theorem of_verdict?_eq_some (ht : Canonical t) (hknown : known.Right E)
    (h : verdict? fuel known t = some (dead, known')) :
    known'.Right E ∧ (dead = true ↔ ∀ w : List E, w ∉ t.language) := by
  rw [verdict?] at h
  rcases hremembered : known[t]? with _ | remembered
  · rw [hremembered] at h
    obtain ⟨answer, hanswer, heq⟩ := Option.map_eq_some_iff.mp h
    obtain ⟨rfl, rfl⟩ := Prod.mk.inj heq
    have hiff := matchesNothing?_iff (E := E) ht hanswer
    exact ⟨hknown.insert hiff, hiff⟩
  · rw [hremembered] at h
    obtain ⟨rfl, rfl⟩ := Prod.mk.inj (Option.some.inj h)
    exact ⟨hknown, hknown t _ hremembered⟩

/-- The branches that are kept are those whose terms match something. -/
theorem of_liveBranches?_eq_some {branches live : List (Term S × S)}
    (hbranches : ∀ b ∈ branches, Canonical b.1) (hknown : known.Right E)
    (h : liveBranches? fuel known branches = some (live, known')) :
    known'.Right E ∧ ∀ b, b ∈ live ↔ b ∈ branches ∧ ∃ w : List E, w ∈ b.1.language := by
  induction branches generalizing known live with
  | nil =>
    obtain ⟨rfl, rfl⟩ := Prod.mk.inj (Option.some.inj h)
    exact ⟨hknown, by simp⟩
  | cons b branches ih =>
    rw [liveBranches?] at h
    obtain ⟨⟨dead, known''⟩, hverdict, h⟩ := Option.bind_eq_some_iff.mp h
    obtain ⟨⟨rest, known'''⟩, hrest, h⟩ := Option.bind_eq_some_iff.mp h
    obtain ⟨rfl, rfl⟩ := Prod.mk.inj (Option.some.inj h)
    obtain ⟨hknown'', hdead⟩ :=
      of_verdict?_eq_some (hbranches b (List.mem_cons_self ..)) hknown hverdict
    obtain ⟨hright, hmem⟩ := ih (fun c hc => hbranches c (List.mem_cons_of_mem b hc)) hknown'' hrest
    refine ⟨hright, fun c => ?_⟩
    have hsome : dead = false ↔ ∃ w : List E, w ∈ b.1.language := by
      rw [← Bool.not_eq_true, hdead]
      push Not
      rfl
    cases dead with
    | true =>
      have hnone : ¬ ∃ w : List E, w ∈ b.1.language := fun hw => Bool.noConfusion (hsome.mpr hw)
      rw [if_pos rfl, hmem, List.mem_cons]
      refine ⟨fun hc => ⟨.inr hc.1, hc.2⟩, ?_⟩
      rintro ⟨rfl | hc, hw⟩
      · exact absurd hw hnone
      · exact ⟨hc, hw⟩
    | false =>
      rw [if_neg Bool.false_ne_true, List.mem_cons, List.mem_cons, hmem, or_and_right]
      exact or_congr_left ⟨fun hc => ⟨hc, hc ▸ hsome.mp rfl⟩, And.left⟩

end Verdicts

/-! ### Places of a word -/

omit [DecidableEq S] in
theorem mem_unionAll_labels [SetAlgebra S] [LawfulSetAlgebra S E] {e : E}
    {branches : List (Term S × S)} :
    e ∈ unionAll (branches.map Prod.snd) ↔ ∃ d block, (d, block) ∈ branches ∧ e ∈ block := by
  rw [mem_unionAll]
  constructor
  · rintro ⟨block, hblock, he⟩
    obtain ⟨b, hb, rfl⟩ := List.mem_map.mp hblock
    exact ⟨b.1, b.2, hb, he⟩
  · rintro ⟨d, block, hb, he⟩
    exact ⟨block, List.mem_map_of_mem hb, he⟩

section Places

variable [SetAlgebra S] [Ord S] [LawfulSetAlgebra S E] {t d : Term S} {ts next : List (Term S)}
  {branches live : List (Term S × S)} {e : E} {i : Nat}

/-- The words with a symbol at the first place are those that start with it. -/
theorem exists_getElem?_zero_iff {l : Language E} :
    (∃ w ∈ l, w[0]? = some e) ↔ ∃ w, e :: w ∈ l := by
  constructor
  · rintro ⟨w, hw, hwe⟩
    cases w with
    | nil => contradiction
    | cons f w =>
      obtain rfl := Option.some.inj hwe
      exact ⟨w, hw⟩
  · rintro ⟨w, hw⟩
    exact ⟨e :: w, hw, rfl⟩

/-- The branches of some terms that lead to terms which some word matches. -/
structure Live (E : Type v) [Membership E S] (ts : List (Term S)) (live : List (Term S × S)) :
    Prop where
  canonical : ∀ b ∈ live, Canonical b.1
  inhabited : ∀ b ∈ live, ∃ e : E, e ∈ b.2
  exists_mem_iff : ∀ (d : Term S) (e : E), (∃ block, (d, block) ∈ live ∧ e ∈ block) ↔
    (∃ t ∈ ts, d = t.derivativeAt e) ∧ ∃ w : List E, w ∈ d.language

/-- The symbols of the branches are those that matching words start with. -/
theorem Live.mem_unionAll_iff (h : Live E ts live) :
    e ∈ unionAll (live.map Prod.snd) ↔ ∃ t ∈ ts, ∃ w ∈ t.language, w[0]? = some e := by
  simp only [mem_unionAll_labels, exists_getElem?_zero_iff]
  constructor
  · rintro ⟨d, hb⟩
    obtain ⟨⟨t, ht, rfl⟩, w, hw⟩ := (h.exists_mem_iff d e).mp hb
    exact ⟨t, ht, w, mem_language_derivativeAt.mp hw⟩
  · rintro ⟨t, ht, w, hw⟩
    exact ⟨_, (h.exists_mem_iff _ e).mpr ⟨⟨t, ht, rfl⟩, w, mem_language_derivativeAt.mpr hw⟩⟩

/-- A later place of a word is an earlier place of what is left of it behind its first symbol. -/
theorem Live.exists_getElem?_iff (h : Live E ts live)
    (hnext : ∀ d, d ∈ next ↔ ∃ block, (d, block) ∈ live) :
    (∃ d ∈ next, ∃ w ∈ d.language, w[i]? = some e) ↔
      ∃ t ∈ ts, ∃ w ∈ t.language, w[i + 1]? = some e := by
  constructor
  · rintro ⟨d, hd, w, hw, hwe⟩
    obtain ⟨block, hb⟩ := (hnext d).mp hd
    obtain ⟨f, hf⟩ := h.inhabited _ hb
    obtain ⟨⟨t, ht, rfl⟩, -⟩ := (h.exists_mem_iff d f).mp ⟨block, hb, hf⟩
    exact ⟨t, ht, f :: w, mem_language_derivativeAt.mp hw, hwe⟩
  · rintro ⟨t, ht, w, hw, hwe⟩
    cases w with
    | nil => contradiction
    | cons f w =>
      have hw := mem_language_derivativeAt.mpr hw
      obtain ⟨block, hb, -⟩ := (h.exists_mem_iff _ f).mpr ⟨⟨t, ht, rfl⟩, w, hw⟩
      exact ⟨_, (hnext _).mpr ⟨block, hb⟩, w, hw, hwe⟩

variable [Hashable S] [Std.TransOrd S] [Std.LawfulEqOrd S] {p q : Partition S}
  {known known' : Verdicts S} {fuel count : Nat} {sets : List S}

/-- The branches that are kept are live. -/
theorem live_of_liveBranches? (hts : ∀ t ∈ ts, Canonical t) (hp : Partition.Proper E p)
    (hbranches : allBranches? fuel p ts = some (q, branches)) (hknown : known.Right E)
    (hlive : liveBranches? fuel known branches = some (live, known')) :
    known'.Right E ∧ Live E ts live := by
  obtain ⟨-, hinhabited, hbranch⟩ := of_allBranches?_eq_some hts hp hbranches
  -- The term of a branch is the derivative by any symbol of its block.
  have hcanonical : ∀ b ∈ branches, Canonical b.1 := by
    rintro ⟨d, block⟩ hb
    obtain ⟨e, he⟩ := hinhabited _ hb
    obtain ⟨t, ht, rfl, -⟩ := (hbranch d e).mp ⟨block, hb, he⟩
    exact canonical_derivativeAt (hts t ht)
  obtain ⟨hknown', hmem⟩ := of_liveBranches?_eq_some hcanonical hknown hlive
  refine ⟨hknown', fun b hb => hcanonical b ((hmem b).mp hb).1,
    fun b hb => hinhabited b ((hmem b).mp hb).1, fun d e => ?_⟩
  constructor
  · rintro ⟨block, hb, he⟩
    obtain ⟨hb, hw⟩ := (hmem _).mp hb
    obtain ⟨t, ht, hd, -⟩ := (hbranch d e).mp ⟨block, hb, he⟩
    exact ⟨⟨t, ht, hd⟩, hw⟩
  · rintro ⟨⟨t, ht, hd⟩, w, hw⟩
    have hne : d ≠ empty := by
      rintro rfl
      exact mem_language_empty hw
    obtain ⟨block, hb, he⟩ := (hbranch d e).mpr ⟨t, ht, hd, hne⟩
    exact ⟨block, (hmem _).mpr ⟨hb, w, hw⟩, he⟩

/-- For each of the next places there is a set with the symbols that are there in the words that
match any of the terms. -/
theorem mem_symbolsFrom? (hts : ∀ t ∈ ts, Canonical t) (hp : Partition.Proper E p)
    (hknown : known.Right E) (h : symbolsFrom? fuel count p known ts = some sets) :
    sets.length = count ∧ ∀ (i : Nat) (set : S), sets[i]? = some set → ∀ e : E,
      e ∈ set ↔ ∃ t ∈ ts, ∃ w ∈ t.language, w[i]? = some e := by
  induction count generalizing p known ts sets with
  | zero =>
    obtain rfl := Option.some.inj h
    exact ⟨rfl, nofun⟩
  | succ count ih =>
    rw [symbolsFrom?] at h
    obtain ⟨⟨q, branches⟩, hbranches, h⟩ := Option.bind_eq_some_iff.mp h
    obtain ⟨⟨live, known'⟩, hkept, h⟩ := Option.bind_eq_some_iff.mp h
    obtain ⟨later, hlater, h⟩ := Option.bind_eq_some_iff.mp h
    obtain rfl := Option.some.inj h
    have hq := (of_allBranches?_eq_some hts hp hbranches).1
    obtain ⟨hknown', hlive⟩ := live_of_liveBranches? hts hp hbranches hknown hkept
    have hnext : ∀ d : Term S,
        d ∈ (Question.fresh Std.HashSet.emptyWithCapacity (live.map Prod.fst)).1 ↔
          ∃ block, (d, block) ∈ live := by
      simp [Question.mem_fresh_fst]
    obtain ⟨hlength, hplaces⟩ := ih (fun d hd => by
      obtain ⟨block, hb⟩ := (hnext d).mp hd
      exact hlive.canonical _ hb) hq hknown' hlater
    refine ⟨by rw [List.length_cons, hlength], fun i set hset e => ?_⟩
    cases i with
    | zero =>
      obtain rfl := Option.some.inj hset
      exact hlive.mem_unionAll_iff
    | succ i =>
      rw [List.getElem?_cons_succ] at hset
      exact (hplaces i set hset e).trans (hlive.exists_getElem?_iff hnext)

theorem mem_symbolsAt? (ht : Canonical t) (h : symbolsAt? fuel count t = some sets) :
    sets.length = count ∧ ∀ (i : Nat) (set : S), sets[i]? = some set → ∀ e : E,
      e ∈ set ↔ ∃ w ∈ t.language, w[i]? = some e := by
  obtain ⟨hlength, hplaces⟩ := mem_symbolsFrom? (E := E) (List.forall_mem_singleton.mpr ht)
    Partition.proper_trivial Verdicts.right_empty h
  refine ⟨hlength, fun i set hset e => ?_⟩
  rw [hplaces i set hset e]
  simp only [List.mem_singleton, exists_eq_left]

/-- The set for the first place, asked for alone. -/
theorem mem_firstSymbols? {first : S} (ht : Canonical t) (h : firstSymbols? fuel t = some first) :
    e ∈ first ↔ ∃ w, e :: w ∈ t.language := by
  obtain ⟨sets, hsets, rfl⟩ := Option.map_eq_some_iff.mp h
  obtain ⟨hlength, hplaces⟩ := mem_symbolsAt? (E := E) ht hsets
  obtain ⟨set, rfl⟩ := List.length_eq_one_iff.mp hlength
  rw [← exists_getElem?_zero_iff, ← hplaces 0 set rfl, mem_unionAll]
  simp only [List.mem_singleton, exists_eq_left]

/-- One amount of fuel is enough for any number of places. -/
theorem exists_bound_symbolsAt? (E : Type v) [Membership E S] [LawfulSetAlgebra S E]
    (ht : Canonical t) :
    ∃ bound, ∀ fuel ≥ bound, ∀ count, (symbolsAt? fuel count t).isSome = true := by
  obtain ⟨K, hK, htK⟩ := ht.exists_closed (E := E)
  obtain ⟨empty, hempty⟩ := matchesNothing?_isSome hK
  obtain ⟨sets, n, hsets, htrivial⟩ := hK.exists_affordable
  refine ⟨empty + n, fun fuel hfuel count => ?_⟩
  exact symbolsFrom?_isSome hK hsets (hempty fuel (by omega)) htrivial (by omega)
    (List.forall_mem_singleton.mpr htK) count _

/-- There are as many sets as places are asked for.  Each has just the symbols that some matching
word has at its place, and the one for the first place is the first set wherever that is known. -/
theorem symbolsAt?_iff_exists_mem (ht : Built t) :
    (∃ bound, ∀ fuel ≥ bound, (∀ count, (symbolsAt? fuel count t).isSome = true) ∧
      (firstSymbols? fuel t).isSome = true) ∧
    (∀ fuel count sets, symbolsAt? fuel count t = some sets →
      sets.length = count ∧ ∀ (i : Nat) (set : S), sets[i]? = some set → ∀ e : E,
        e ∈ set ↔ ∃ w ∈ t.language, w[i]? = some e) ∧
    ∀ fuel first, firstSymbols? fuel t = some first →
      (∀ fuel count sets, symbolsAt? fuel (count + 1) t = some sets → sets[0]? = some first) ∧
      (∀ e : E, e ∈ first ↔ ∃ w, e :: w ∈ t.language) ∧
      ∀ known, t.firstSet? = some known → first = known := by
  have hcanonical := ht.canonical (E := E)
  refine ⟨?_, fun fuel count sets h => mem_symbolsAt? hcanonical h, fun fuel first h => ?_⟩
  · obtain ⟨bound, hbound⟩ := exists_bound_symbolsAt? E hcanonical
    refine ⟨bound, fun fuel hfuel => ⟨hbound fuel hfuel, ?_⟩⟩
    rw [firstSymbols?, Option.isSome_map]
    exact hbound fuel hfuel 1
  · have hmem : ∀ e : E, e ∈ first ↔ ∃ w, e :: w ∈ t.language := fun e =>
      mem_firstSymbols? hcanonical h
    refine ⟨fun fuel count sets hsets => ?_, hmem, fun known hknown => ?_⟩
    · obtain ⟨hlength, hplaces⟩ := mem_symbolsAt? (E := E) hcanonical hsets
      cases sets with
      | nil => contradiction
      | cons set sets =>
        refine congrArg some (LawfulSetAlgebra.ext fun e : E => ?_)
        rw [hmem, hplaces 0 set rfl, exists_getElem?_zero_iff]
    · refine LawfulSetAlgebra.ext fun e : E => ?_
      rw [hmem, hcanonical.mem_of_firstSet?_iff hknown]

/-- The words over two symbols, without the word that is only the first of them, have both symbols
at the first place and at the second one.  The shape of the term shows neither. -/
theorem symbolsAt?_iff_exists_mem_allOf :
    Built (allOf [closure (ofSet (⟨3#8⟩ : Mask)), complement (ofSet ⟨1#8⟩)]) ∧
    ∃ bound, ∀ fuel ≥ bound,
      symbolsAt? fuel 2 (allOf [closure (ofSet (⟨3#8⟩ : Mask)), complement (ofSet ⟨1#8⟩)]) =
        some [⟨3#8⟩, ⟨3#8⟩] ∧
      firstSymbols? fuel (allOf [closure (ofSet (⟨3#8⟩ : Mask)), complement (ofSet ⟨1#8⟩)]) =
        some ⟨3#8⟩ := by
  have ht : Built (allOf [closure (ofSet (⟨3#8⟩ : Mask)), complement (ofSet ⟨1#8⟩)]) :=
    .allOf (by simp [Built.closure, Built.complement, Built.ofSet])
  obtain ⟨⟨bound, hbound⟩, hplaces, hfirst⟩ := symbolsAt?_iff_exists_mem (E := Fin 8) ht
  have hword : ∀ (e : Fin 8) (i : Nat), i < 2 → (e ∈ (⟨3#8⟩ : Mask) ↔
      ∃ w ∈ (allOf [closure (ofSet (⟨3#8⟩ : Mask)), complement (ofSet ⟨1#8⟩)]).language,
        w[i]? = some e) := by
    intro e i hi
    simp only [mem_language_allOf, List.forall_mem_cons, language_closure, mem_language_complement,
      mem_language_ofSet]
    constructor
    · intro he
      refine ⟨[e, e], ⟨?_, by simp⟩, ?_⟩
      · exact Language.mem_kstar.mpr ⟨[[e], [e]], rfl, by simp [mem_language_ofSet, he]⟩
      · rcases i with _ | _ | i
        · rfl
        · rfl
        · omega
    · rintro ⟨w, ⟨hw, -⟩, hwe⟩
      obtain ⟨us, rfl, hus⟩ := Language.mem_kstar.mp hw
      obtain ⟨u, hu, heu⟩ := List.mem_flatten.mp (List.mem_of_getElem? hwe)
      obtain ⟨f, hf, rfl⟩ := mem_language_ofSet.mp (hus u hu)
      rwa [List.mem_singleton.mp heu]
  refine ⟨ht, bound, fun fuel hfuel => ?_⟩
  obtain ⟨sets, hsets⟩ := Option.isSome_iff_exists.mp ((hbound fuel hfuel).1 2)
  obtain ⟨first, hfirst'⟩ := Option.isSome_iff_exists.mp (hbound fuel hfuel).2
  obtain ⟨hlength, hmem⟩ := hplaces fuel 2 sets hsets
  obtain ⟨a, b, rfl⟩ := List.length_eq_two.mp hlength
  have ha : a = ⟨3#8⟩ := LawfulSetAlgebra.ext fun e : Fin 8 => by
    rw [hmem 0 a rfl, hword e 0 (by omega)]
  have hb : b = ⟨3#8⟩ := LawfulSetAlgebra.ext fun e : Fin 8 => by
    rw [hmem 1 b rfl, hword e 1 (by omega)]
  have hfirsta : some a = some first := (hfirst fuel first hfirst').1 fuel 1 _ hsets
  rw [hsets, hfirst', ← hfirsta, ha, hb]
  exact ⟨rfl, rfl⟩

end Places

end ExtendedRegex.Term
