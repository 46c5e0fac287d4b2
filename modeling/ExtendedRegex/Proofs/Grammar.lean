/-
The grammar of patterns.

* `Quantifies`, `Escapes`, `Ranges`: the texts of a quantifier, of an escape behind its backslash,
  and of a class between its brackets;
* `Branches`, `Items`, `Item`: alternatives, what one of them consists of, and an item with all its
  quantifiers, each with its text;
* `Derives`: the texts of a pattern;
* `mem_bracketSet`: what a class matches.

Design notes: the productions for branches, items and quantifiers take their last part off, and the
quantifier that is written last is the outermost.  The only context that an item has is whether it
comes first in its branch: `+`, `?` and `{` are characters there, and behind an item nothing but
quantifiers begins with them, so all quantifiers that follow an item belong to it.
-/
import ExtendedRegex.Pattern.Syntax

namespace ExtendedRegex.Grammar

/-! ### Numbers -/

/-- A digit in a base.  Letters may be small or capital. -/
def Digit (base : Nat) (c : Char) (d : Nat) : Prop :=
  d < base ∧ (c = d.digitChar ∨ c = d.digitChar.toUpper)

instance {base : Nat} {c : Char} {d : Nat} : Decidable (Digit base c d) :=
  inferInstanceAs (Decidable (_ ∧ _))

/-- The digits of a number, the most significant first. -/
inductive Numeral (base : Nat) : List Char → Nat → Prop where
  | nil : Numeral base [] 0
  | snoc {s : List Char} {c : Char} {n d : Nat} (h : Numeral base s n) (hc : Digit base c d) :
      Numeral base (s ++ [c]) (n * base + d)

/-- A number is written with the digits of a numeral for it. -/
theorem numeral_toDigits {base : Nat} (hbase : 1 < base) (n : Nat) :
    Numeral base (Nat.toDigits base n) n := by
  induction n using Nat.strongRecOn with
  | ind n ih =>
    rw [Nat.toDigits_eq_if hbase]
    by_cases hlt : n < base
    · rw [if_pos hlt]
      have hdigit : Digit base n.digitChar n := ⟨hlt, .inl rfl⟩
      simpa using Numeral.nil.snoc hdigit
    · rw [if_neg hlt]
      have hdigit : Digit base (n % base).digitChar (n % base) :=
        ⟨Nat.mod_lt n (by omega), .inl rfl⟩
      have hsplit : n / base * base + n % base = n := Nat.div_add_mod' n base
      have hnumeral := (ih (n / base) (Nat.div_lt_self (by omega) hbase)).snoc hdigit
      rwa [hsplit] at hnumeral

section Values

variable {base m n d d' : Nat} {c : Char} {s : List Char}

theorem Numeral.eq_zero (h : Numeral base [] n) : n = 0 := by
  generalize hs : [] = s at h
  cases h with
  | nil => rfl
  | snoc h hc => simp at hs

theorem Numeral.exists_append (h : Numeral base (s ++ [c]) n) :
    ∃ m d, Numeral base s m ∧ Digit base c d ∧ n = m * base + d := by
  generalize hs : s ++ [c] = s' at h
  cases h with
  | nil => simp at hs
  | snoc h hc =>
    obtain ⟨rfl, heq⟩ := List.append_inj' hs rfl
    obtain rfl := (List.cons.inj heq).1
    exact ⟨_, _, h, hc, rfl⟩

/-- A hexadecimal digit has one value. -/
theorem Digit.unique (h : Digit 16 c d) (h' : Digit 16 c d') : d = d' := by
  have hdigits : ∀ d < 16, ∀ d' < 16, (d.digitChar = d'.digitChar ∨
      d.digitChar = d'.digitChar.toUpper ∨ d.digitChar.toUpper = d'.digitChar ∨
      d.digitChar.toUpper = d'.digitChar.toUpper) → d = d' := by decide
  obtain ⟨hd, h⟩ := h
  obtain ⟨hd', h'⟩ := h'
  refine hdigits d hd d' hd' ?_
  rcases h with rfl | rfl
  · exact h'.elim .inl fun h => .inr (.inl h)
  · exact h'.elim (fun h => .inr (.inr (.inl h))) fun h => .inr (.inr (.inr h))

/-- The digits of a number show which one it is. -/
theorem Numeral.unique (h : Numeral 16 s m) (h' : Numeral 16 s n) : m = n := by
  induction h generalizing n with
  | nil => exact h'.eq_zero.symm
  | snoc h hc ih =>
    obtain ⟨m', d', h'', hc', rfl⟩ := h'.exists_append
    rw [ih h'', hc.unique hc']

end Values

/-- A count of a repetition, which is at most 1000. -/
def Count (s : List Char) (n : Nat) : Prop := s ≠ [] ∧ Numeral 10 s n ∧ n ≤ 1000

/-! ### Parts of items -/

/-- The texts of a quantifier. -/
inductive Quantifies : List Char → Quantifier → Prop where
  | star : Quantifies ['*'] .star
  | plus : Quantifies ['+'] .plus
  | opt : Quantifies ['?'] .opt
  | exactly {s : List Char} {m : Nat} (hm : Count s m) :
      Quantifies ('{' :: s ++ ['}']) (.rep m (some m))
  | atLeast {s : List Char} {m : Nat} (hm : Count s m) :
      Quantifies ('{' :: s ++ [',', '}']) (.rep m none)
  | between {s s' : List Char} {m n : Nat} (hm : Count s m) (hn : Count s' n) (hle : m ≤ n) :
      Quantifies ('{' :: s ++ ',' :: s' ++ ['}']) (.rep m (some n))

/-- The characters that a backslash makes stand for themselves. -/
def punctuation : List Char := ['\\', '/', '[', ']', '(', ')', '.', '|', '*', '?', '+']

/-- The texts of an escape behind the backslash.  A code point is that of a character, so it is no
surrogate. -/
inductive Escapes : List Char → Pattern → Prop where
  | newline : Escapes ['n'] (.char '\n')
  | carriageReturn : Escapes ['r'] (.char '\r')
  | tab : Escapes ['t'] (.char '\t')
  | digit : Escapes ['d'] .digit
  | codePoint {x c : Char} {n : Nat} {s : List Char} (hx : (x, n) ∈ [('x', 2), ('u', 4)])
      (hs : s.length = n) (h : Numeral 16 s c.toNat) : Escapes (x :: s) (.char c)
  | punctuation {c : Char} (hc : c ∈ punctuation) : Escapes [c] (.char c)

/-- The texts of the ranges of a class.  A hyphen in front of the closing bracket is a character,
and so is one that has no character before it. -/
inductive Ranges : List Char → List (Char × Char) → Prop where
  | nil : Ranges [] []
  | char {x : Char} {s : List Char} {rs : List (Char × Char)} (hx : x ≠ ']')
      (hs : s.head? ≠ some '-') (h : Ranges s rs) : Ranges (x :: s) ((x, x) :: rs)
  | range {x y : Char} {s : List Char} {rs : List (Char × Char)} (hx : x ≠ ']') (hy : y ≠ ']')
      (h : Ranges s rs) : Ranges (x :: '-' :: y :: s) ((x, y) :: rs)
  | hyphen {x : Char} (hx : x ≠ ']') : Ranges [x, '-'] [(x, x), ('-', '-')]

/-! ### Patterns -/

/-- The characters that never stand for themselves outside of classes and escapes. -/
def reserved : List Char := ['|', '(', ')', '[', ']', '.', '\\', '*']

mutual

/-- Alternatives. -/
inductive Branches : List Char → List Pattern → Prop where
  | one {s : List Char} {ps : List Pattern} (h : Items s ps) : Branches s [.seq ps]
  | more {s s' : List Char} {bs ps : List Pattern} (h : Branches s bs) (h' : Items s' ps) :
      Branches (s ++ '|' :: s') (bs ++ [.seq ps])

/-- The items of an alternative, of which there may be none. -/
inductive Items : List Char → List Pattern → Prop where
  | nil : Items [] []
  | snoc {s s' : List Char} {ps : List Pattern} {p : Pattern} (h : Items s ps)
      (h' : Item ps.isEmpty s' p) : Items (s ++ s') (ps ++ [p])

/-- An item with all its quantifiers, which is the first of its alternative or not. -/
inductive Item : Bool → List Char → Pattern → Prop where
  | char {first : Bool} {c : Char} (hc : c ∉ reserved)
      (hfirst : c ∈ ['+', '?', '{'] → first = true) : Item first [c] (.char c)
  | any {first : Bool} : Item first ['.'] .any
  | escape {first : Bool} {s : List Char} {p : Pattern} (h : Escapes s p) : Item first ('\\' :: s) p
  | bracket {first : Bool} {s : List Char} {rs : List (Char × Char)} (hs : s.head? ≠ some '^')
      (h : Ranges s rs) : Item first ('[' :: s ++ [']']) (.bracket false rs)
  | negated {first : Bool} {s : List Char} {rs : List (Char × Char)} (h : Ranges s rs) :
      Item first ('[' :: '^' :: s ++ [']']) (.bracket true rs)
  | group {first : Bool} {s : List Char} {bs : List Pattern} (hs : s.head? ≠ some '?')
      (h : Branches s bs) : Item first ('(' :: s ++ [')']) (.alt bs)
  | colonGroup {first : Bool} {s : List Char} {bs : List Pattern} (h : Branches s bs) :
      Item first ('(' :: '?' :: ':' :: s ++ [')']) (.alt bs)
  | quantified {first : Bool} {s s' : List Char} {p : Pattern} {q : Quantifier}
      (h : Item first s p) (h' : Quantifies s' q) : Item first (s ++ s') (.quantified p q)

end

/-- The texts of a pattern. -/
def Derives (s : List Char) (p : Pattern) : Prop := ∃ bs, Branches s bs ∧ p = .alt bs

/-- The ends of a range may be in either order. -/
theorem mem_bracketSet {negated : Bool} {rs : List (Char × Char)} {c : Char} :
    c ∈ Pattern.bracketSet negated rs ↔
      (negated = true ↔ ¬∃ r ∈ rs, r.1 ≤ c ∧ c ≤ r.2 ∨ r.2 ≤ c ∧ c ≤ r.1) := by
  rw [← RangeSet.mem_ofEnds]
  cases negated with
  | true => simp only [Pattern.bracketSet, if_true, RangeSet.mem_compl, true_iff]
  | false =>
    simp only [Pattern.bracketSet, Bool.false_eq_true, if_false, false_iff, Classical.not_not]

/-! ### Parts that are put in place of others -/

variable {s s' : List Char} {bs ps : List Pattern} {p : Pattern}

/-- The last item of an alternative stands behind the items before it. -/
theorem Items.exists_append (h : Items s (ps ++ [p])) :
    ∃ t t', s = t ++ t' ∧ Items t ps ∧ Item ps.isEmpty t' p := by
  generalize hps : ps ++ [p] = ps' at h
  cases h with
  | nil => simp at hps
  | snoc h h' =>
    obtain ⟨rfl, heq⟩ := List.append_inj' hps rfl
    obtain rfl := (List.cons.inj heq).1
    exact ⟨_, _, rfl, h, h'⟩

/-- The last alternative stands behind what comes before it, and so may any other. -/
theorem Branches.exists_append (h : Branches s (bs ++ [.seq ps])) :
    ∃ t t', s = t ++ t' ∧ Items t' ps ∧
      ∀ u ps', Items u ps' → Branches (t ++ u) (bs ++ [.seq ps']) := by
  generalize hbs : bs ++ [.seq ps] = bs' at h
  cases h with
  | @one _ ps' h =>
    have hbs : bs ++ [.seq ps] = [] ++ [.seq ps'] := hbs
    obtain ⟨rfl, heq⟩ := List.append_inj' hbs rfl
    obtain rfl := Pattern.seq.inj (List.cons.inj heq).1
    exact ⟨[], s, rfl, h, fun u ps' hu => .one hu⟩
  | @more t t' bs' ps' h h' =>
    obtain ⟨rfl, heq⟩ := List.append_inj' hbs rfl
    obtain rfl := Pattern.seq.inj (List.cons.inj heq).1
    refine ⟨t ++ ['|'], t', by simp, h', fun u ps' hu => ?_⟩
    rw [List.append_assoc, List.singleton_append]
    exact .more h hu

end ExtendedRegex.Grammar
