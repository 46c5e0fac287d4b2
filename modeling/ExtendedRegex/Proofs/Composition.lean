/-
Patterns that are put together from others stand for terms that are put together in the same way.

* `Branches.append`: the alternatives of two texts with a bar between them;
* `count_toDigits`: the digits that a number is written with are a count;
* `term_alt_item`, `term_alt_append`: the terms of patterns that are put together;
* `parse_group`, `parse_bar`, `parse_groups`, `parse_quantified`: a group, two alternatives, two
  groups one behind the other, and a group with a quantifier;
* `parse_composition`: all of these.

Design notes: texts are put together in the grammar, where it does not matter what stands behind a
part.  A group adds nothing to the term, since the sequence and the alternation of a single term are
the term itself; that takes the term of a pattern to be in normal form, as all built terms are.
-/
import ExtendedRegex.Proofs.Associativity
import ExtendedRegex.Proofs.NormalForm
import ExtendedRegex.Proofs.Parsing

namespace ExtendedRegex

/-! ### Texts that are put together -/

namespace Grammar

variable {s s' : List Char} {p p' : Pattern} {q : Quantifier}

/-- Alternatives of a text and of another one behind a bar. -/
theorem Branches.append {s s' : List Char} {bs bs' : List Pattern} (h : Branches s bs)
    (h' : Branches s' bs') : Branches (s ++ '|' :: s') (bs ++ bs') := by
  cases h' with
  | one hitems => exact .more h hitems
  | more hbranches hitems =>
    rw [← List.append_assoc, ← List.cons_append, ← List.append_assoc]
    exact (h.append hbranches).more hitems
termination_by s'.length
decreasing_by
  rw [List.length_append, List.length_cons]
  omega

/-- A pattern as an item. -/
theorem Derives.group {first : Bool} (h : Derives s p) :
    Item first ('(' :: '?' :: ':' :: s ++ [')']) p := by
  obtain ⟨bs, hbs, rfl⟩ := h
  exact .colonGroup hbs

theorem derives_of_item (h : Item true s p) : Derives s (.alt [.seq [p]]) :=
  ⟨_, .one (.snoc .nil h), rfl⟩

theorem derives_of_items (h : Item true s p) (h' : Item false s' p') :
    Derives (s ++ s') (.alt [.seq [p, p']]) :=
  ⟨_, .one (.snoc (.snoc .nil h) h'), rfl⟩

/-! ### Numbers -/

theorem count_toDigits {n : Nat} (h : n ≤ 1000) : Count (Nat.toDigits 10 n) n :=
  ⟨Nat.toDigits_ne_nil, numeral_toDigits (by decide) n, h⟩

end Grammar

open Grammar

/-! ### Terms that are put together -/

namespace Pattern

open Term (Canonical oneOf concat)

theorem canonical_term (p : Pattern) : Canonical p.term := p.built_term.canonical (E := Char)

theorem canonical_terms (ps : List Pattern) : ∀ t ∈ terms ps, Canonical t := fun t ht =>
  (built_terms ps t ht).canonical (E := Char)

theorem terms_append (ps ps' : List Pattern) : terms (ps ++ ps') = terms ps ++ terms ps' := by
  induction ps with
  | nil => rfl
  | cons p ps ih => rw [List.cons_append, terms, ih, terms, List.cons_append]

theorem term_alt_seq (ps : List Pattern) : (alt [seq ps]).term = concat (terms ps) :=
  ((seq ps).canonical_term).oneOf_singleton (E := Char)

/-- An item alone stands for what it stands for as a pattern. -/
theorem term_alt_item (p : Pattern) : (alt [seq [p]]).term = p.term := by
  rw [term_alt_seq]
  exact p.canonical_term.concat_singleton

/-- Alternatives may be put together in two groups. -/
theorem term_alt_append (bs bs' : List Pattern) :
    (alt (bs ++ bs')).term = oneOf [(alt bs).term, (alt bs').term] := by
  have hgroups : ∀ ts ∈ [terms bs, terms bs'], ∀ t ∈ ts, Canonical t := by
    intro ts hts
    rcases List.mem_pair.mp hts with rfl | rfl
    · exact canonical_terms bs
    · exact canonical_terms bs'
  calc (alt (bs ++ bs')).term
      = oneOf (terms bs ++ terms bs') := by rw [term, terms_append]
    _ = oneOf [terms bs, terms bs'].flatten := by simp
    _ = oneOf [oneOf (terms bs), oneOf (terms bs')] := (Term.oneOf_map_oneOf (E := Char) hgroups).symm
    _ = oneOf [(alt bs).term, (alt bs').term] := by rw [term, term]

end Pattern

/-! ### Strings -/

namespace Term

variable {p q : String} {r s : CharTerm}

theorem parse_of_derives {input : String} {pattern : Pattern} (h : Grammar.Derives input.toList pattern)
    (hr : pattern.term = r) : parse input = .ok r :=
  parse_eq_ok_iff.mpr ⟨pattern, Reader.read_of_derives h, hr⟩

theorem exists_derives_of_parse (h : parse p = .ok r) :
    ∃ pattern, Grammar.Derives p.toList pattern ∧ pattern.term = r := by
  obtain ⟨pattern, hread, hr⟩ := parse_eq_ok_iff.mp h
  exact ⟨pattern, Reader.derives_of_read hread, hr⟩

theorem toList_group (p : String) :
    ("(?:" ++ p ++ ")").toList = '(' :: '?' :: ':' :: p.toList ++ [')'] := by
  rw [String.toList_append, String.toList_append]
  rfl

/-- A group is the pattern inside, whatever it begins and ends with. -/
theorem parse_group (hp : parse p = .ok r) : parse ("(?:" ++ p ++ ")") = .ok r := by
  obtain ⟨pattern, hderives, rfl⟩ := exists_derives_of_parse hp
  refine parse_of_derives ?_ pattern.term_alt_item
  rw [toList_group]
  exact derives_of_item hderives.group

/-- Alternatives on both sides of a bar. -/
theorem parse_bar (hp : parse p = .ok r) (hq : parse q = .ok s) :
    parse (p ++ "|" ++ q) = .ok (oneOf [r, s]) := by
  obtain ⟨_, ⟨bs, hbs, rfl⟩, rfl⟩ := exists_derives_of_parse hp
  obtain ⟨_, ⟨bs', hbs', rfl⟩, rfl⟩ := exists_derives_of_parse hq
  refine parse_of_derives ⟨bs ++ bs', ?_, rfl⟩ (Pattern.term_alt_append bs bs')
  have htext : (p ++ "|" ++ q).toList = p.toList ++ '|' :: q.toList := by simp
  rw [htext]
  exact hbs.append hbs'

/-- A group behind another one. -/
theorem parse_groups (hp : parse p = .ok r) (hq : parse q = .ok s) :
    parse ("(?:" ++ p ++ ")(?:" ++ q ++ ")") = .ok (concat [r, s]) := by
  obtain ⟨pattern, hderives, rfl⟩ := exists_derives_of_parse hp
  obtain ⟨pattern', hderives', rfl⟩ := exists_derives_of_parse hq
  refine parse_of_derives ?_ (Pattern.term_alt_seq [pattern, pattern'])
  have htext : ("(?:" ++ p ++ ")(?:" ++ q ++ ")").toList =
      ('(' :: '?' :: ':' :: p.toList ++ [')']) ++ ('(' :: '?' :: ':' :: q.toList ++ [')']) := by
    simp
  rw [htext]
  exact derives_of_items hderives.group hderives'.group

/-- A group with a quantifier. -/
theorem parse_quantified {input : String} {u : List Char} {quantifier : Quantifier}
    (hp : parse p = .ok r) (hu : Quantifies u quantifier)
    (htext : input.toList = ('(' :: '?' :: ':' :: p.toList ++ [')']) ++ u) :
    parse input = .ok (quantifier.apply r) := by
  obtain ⟨pattern, hderives, rfl⟩ := exists_derives_of_parse hp
  refine parse_of_derives ?_ (Pattern.term_alt_item (.quantified pattern quantifier))
  rw [htext]
  exact derives_of_item (hderives.group.quantified hu)

/-- What is put together from two patterns is a pattern, and its term is put together from the terms
of the two. -/
theorem parse_composition (hp : parse p = .ok r) (hq : parse q = .ok s) :
    parse ("(?:" ++ p ++ ")") = .ok r ∧
    parse (p ++ "|" ++ q) = .ok (oneOf [r, s]) ∧
    parse ("(?:" ++ p ++ ")(?:" ++ q ++ ")") = .ok (concat [r, s]) ∧
    parse ("(?:" ++ p ++ ")*") = .ok (closure r) ∧
    parse ("(?:" ++ p ++ ")+") = .ok (plus r) ∧
    parse ("(?:" ++ p ++ ")?") = .ok (opt r) ∧
    (∀ m n : Nat, m ≤ n → n ≤ 1000 →
      parse ("(?:" ++ p ++ ")\x7b" ++ toString m ++ "," ++ toString n ++ "\x7d") =
        .ok (rep r m (some n))) ∧
    ∀ m : Nat, m ≤ 1000 →
      parse ("(?:" ++ p ++ ")\x7b" ++ toString m ++ ",\x7d") = .ok (rep r m none) := by
  refine ⟨parse_group hp, parse_bar hp hq, parse_groups hp hq, ?_, ?_, ?_, ?_, ?_⟩
  · exact parse_quantified hp .star (by simp)
  · exact parse_quantified hp .plus (by simp)
  · exact parse_quantified hp .opt (by simp)
  · intro m n hmn hn
    have hm : m ≤ 1000 := hmn.trans hn
    exact parse_quantified hp (.between (count_toDigits hm) (count_toDigits hn) hmn) (by simp)
  · intro m hm
    exact parse_quantified hp (.atLeast (count_toDigits hm)) (by simp)

/-- A plus that stands for itself, two alternatives, and what is put together from them. -/
theorem parse_composition_plus :
    (∃ r, parse "+" = .ok r ∧ parse "(?:+)+" = .ok (plus r) ∧
      parse "(?:+)\x7b2,3\x7d" = .ok (rep r 2 (some 3))) ∧
    ∃ r s, parse "+" = .ok r ∧ parse "b|c" = .ok s ∧ parse "+|b|c" = .ok (oneOf [r, s]) ∧
      parse "(?:+)(?:b|c)" = .ok (concat [r, s]) := by
  have hplus : ∃ r, parse "+" = .ok r := ⟨_, rfl⟩
  have hbar : ∃ s, parse "b|c" = .ok s := ⟨_, rfl⟩
  obtain ⟨r, hr⟩ := hplus
  obtain ⟨s, hs⟩ := hbar
  obtain ⟨-, halt, hseq, -, hquantified, -, hrep, -⟩ := parse_composition hr hs
  exact ⟨⟨r, hr, hquantified, hrep 2 3 (by decide) (by decide)⟩, r, s, hr, hs, halt, hseq⟩

end Term

end ExtendedRegex
