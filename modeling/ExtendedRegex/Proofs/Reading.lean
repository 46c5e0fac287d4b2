/-
What the grammar derives is read.

* `digit?_eq_some_iff`, `hexDigit?_eq_some_iff`: the digits of the reader are those of the grammar;
* `feed`: taking the characters of a text without its end;
* `Takes`: a text that leads from one reader to another, wherever it stands;
* `takes_branches`, `takes_items`, `takes_item`: each part of a derivation adds to the frame what it
  is derived for;
* `read_of_derives`: a derived text is read as the pattern that it is derived for, so there is only
  one such pattern.

Design notes: a reader that waits for an item has no offset in it, so such readers can be chained
without regard to where a text stands.  Three times a character is only looked at to see that it is
not a certain one: behind the parenthesis of a group, behind the bracket of a class, and where the
hyphen of a range may be.  There the reader goes on as another reader would.
-/
import ExtendedRegex.Pattern.Reader
import ExtendedRegex.Proofs.Grammar
import Mathlib.Tactic.IntervalCases

namespace ExtendedRegex.Reader

open Grammar

/-! ### Digits -/

/-- The characters of an interval are digits, if their numbers say so. -/
theorem digit_of_between {base : Nat} (lo len first : Nat)
    (h : ∀ n ∈ List.range' lo len, Digit base (Char.ofNat n) (n - lo + first)) {c : Char}
    (hlo : lo ≤ c.toNat) (hhi : c.toNat < lo + len) : Digit base c (c.toNat - lo + first) := by
  have hc := h c.toNat (List.mem_range'_1.mpr ⟨hlo, hhi⟩)
  rwa [Char.ofNat_toNat] at hc

theorem digit?_eq_some_iff {c : Char} {d : Nat} : digit? c = some d ↔ Digit 10 c d := by
  constructor
  · intro h
    rw [digit?] at h
    by_cases hc : '0' ≤ c ∧ c ≤ '9'
    · rw [if_pos hc] at h
      obtain rfl := Option.some.inj h
      exact digit_of_between 48 10 0 (by decide) hc.1 (Nat.lt_succ_of_le hc.2)
    · rw [if_neg hc] at h
      contradiction
  · rintro ⟨hd, rfl | rfl⟩ <;> interval_cases d <;> rfl

theorem hexDigit?_eq_some_iff {c : Char} {d : Nat} : hexDigit? c = some d ↔ Digit 16 c d := by
  constructor
  · intro h
    rw [hexDigit?] at h
    by_cases hdecimal : '0' ≤ c ∧ c ≤ '9'
    · rw [if_pos hdecimal] at h
      obtain rfl := Option.some.inj h
      exact digit_of_between 48 10 0 (by decide) hdecimal.1 (Nat.lt_succ_of_le hdecimal.2)
    · rw [if_neg hdecimal] at h
      by_cases hsmall : 'a' ≤ c ∧ c ≤ 'f'
      · rw [if_pos hsmall] at h
        obtain rfl := Option.some.inj h
        exact digit_of_between 97 6 10 (by decide) hsmall.1 (Nat.lt_succ_of_le hsmall.2)
      · rw [if_neg hsmall] at h
        by_cases hcapital : 'A' ≤ c ∧ c ≤ 'F'
        · rw [if_pos hcapital] at h
          obtain rfl := Option.some.inj h
          exact digit_of_between 65 6 10 (by decide) hcapital.1 (Nat.lt_succ_of_le hcapital.2)
        · rw [if_neg hcapital] at h
          contradiction
  · rintro ⟨hd, rfl | rfl⟩ <;> interval_cases d <;> rfl

/-! ### Taking a text -/

/-- Takes the characters of a text, of which the first is at an offset. -/
def feed (r : Reader) (offset : Nat) : List Char → Except Failure Reader
  | [] => .ok r
  | c :: cs =>
    match r.step offset c with
    | .error e => .error e
    | .ok r => feed r (offset + 1) cs

variable {r r' r'' : Reader} {c : Char} {s t : List Char} {offset : Nat}

/-- To read a text is to take its characters and then its end. -/
theorem read_eq : r.read offset s =
    match r.feed offset s with
    | .error e => .error e
    | .ok r' => r'.finish (offset + s.length) := by
  induction s generalizing r offset with
  | nil => rfl
  | cons c s ih =>
    rw [read, feed]
    cases r.step offset c with
    | error e => rfl
    | ok r' =>
      dsimp only
      rw [ih, List.length_cons, Nat.add_right_comm, Nat.add_assoc]

theorem feed_cons (h : r.step offset c = .ok r') :
    r.feed offset (c :: s) = r'.feed (offset + 1) s := by
  rw [feed, h]

theorem feed_append (h : r.feed offset s = .ok r') :
    r.feed offset (s ++ t) = r'.feed (offset + s.length) t := by
  induction s generalizing r offset with
  | nil =>
    obtain rfl := Except.ok.inj h
    rfl
  | cons c s ih =>
    cases hstep : r.step offset c with
    | error e =>
      rw [feed, hstep] at h
      contradiction
    | ok r₁ =>
      rw [feed_cons hstep] at h
      rw [List.cons_append, feed_cons hstep, ih h, List.length_cons, Nat.add_right_comm,
        Nat.add_assoc]

/-- Readers that differ on a single character take a text alike that does not begin with it. -/
theorem feed_append_congr {x y : Char} (hs : s.head? ≠ some x) (hy : y ≠ x)
    (h : ∀ c, c ≠ x → ∀ offset, r.step offset c = r'.step offset c) :
    r.feed offset (s ++ [y]) = r'.feed offset (s ++ [y]) := by
  cases s with
  | nil =>
    show r.feed offset [y] = r'.feed offset [y]
    rw [feed, feed, h y hy]
  | cons c s =>
    have hc : c ≠ x := fun hc => hs (congrArg some hc)
    rw [List.cons_append, feed, feed, h c hc]

/-- A text leads from one reader to another, wherever it stands. -/
def Takes (r : Reader) (s : List Char) (r' : Reader) : Prop := ∀ offset, r.feed offset s = .ok r'

theorem Takes.nil : r.Takes [] r := fun _ => rfl

theorem Takes.cons (h : ∀ offset, r.step offset c = .ok r') (h' : r'.Takes s r'') :
    r.Takes (c :: s) r'' :=
  fun offset => (feed_cons (h offset)).trans (h' _)

theorem Takes.append (h : r.Takes s r') (h' : r'.Takes t r'') : r.Takes (s ++ t) r'' :=
  fun offset => (feed_append (h offset)).trans (h' _)

theorem Takes.single (h : ∀ offset, r.step offset c = .ok r') : r.Takes [c] r' := .cons h .nil

/-! ### Counts -/

theorem addDigit_eq_ok {value : Option Nat} {d start n : Nat} :
    addDigit value d start = .ok n ↔ value.getD 0 * 10 + d = n ∧ n ≤ 1000 := by
  rw [addDigit]
  by_cases hlt : maxCount < value.getD 0 * 10 + d
  · rw [if_pos hlt]
    constructor
    · nofun
    · rintro ⟨rfl, hle⟩
      exact absurd hlt (Nat.not_lt.mpr hle)
  · rw [if_neg hlt]
    constructor
    · intro h
      obtain rfl := Except.ok.inj h
      exact ⟨rfl, Nat.not_lt.mp hlt⟩
    · rintro ⟨rfl, -⟩
      rfl

/-- The value of the digits that have been read of a count, if there are any. -/
def written (s : List Char) (n : Nat) : Option Nat := if s = [] then none else some n

theorem written_of_ne {n : Nat} (hs : s ≠ []) : written s n = some n := if_neg hs

theorem eq_nil_of_written {n : Nat} (h : written s n = none) : s = [] := by
  by_contra hs
  rw [written_of_ne hs] at h
  contradiction

theorem written_snoc {n : Nat} : written (s ++ [c]) n = some n := if_neg (by simp)

theorem written_getD {n : Nat} (h : Numeral 10 s n) : (written s n).getD 0 = n := by
  rw [written]
  by_cases hs : s = []
  · rw [if_pos hs]
    subst hs
    exact h.eq_zero.symm
  · rw [if_neg hs]
    rfl

/-- The digits of a count are taken one after another, since no part of them is too large. -/
theorem takes_numeral (mode : Option Nat → Mode)
    (hmode : ∀ value n d offset c, digit? c = some d → value.getD 0 * 10 + d = n → n ≤ 1000 →
      (r.await (mode value)).step offset c = .ok (r.await (mode (some n))))
    {n : Nat} (h : Numeral 10 s n) (hle : n ≤ 1000) :
    (r.await (mode none)).Takes s (r.await (mode (written s n))) := by
  induction h with
  | nil => exact .nil
  | snoc h hc ih =>
    refine (ih (by omega)).append (.single fun offset => ?_)
    rw [written_snoc]
    exact hmode _ _ _ offset _ (digit?_eq_some_iff.mpr hc) (by rw [written_getD h]) hle

theorem step_minimum {brace d n : Nat} {value : Option Nat} (hc : digit? c = some d)
    (hn : value.getD 0 * 10 + d = n) (hle : n ≤ 1000) :
    (r.await (.minimum brace value)).step offset c = .ok (r.await (.minimum brace (some n))) := by
  show stepMinimum _ brace value offset c = _
  simp only [stepMinimum, hc, addDigit_eq_ok.mpr ⟨hn, hle⟩]
  rfl

theorem step_maximum {brace start min d n : Nat} {value : Option Nat} (hc : digit? c = some d)
    (hn : value.getD 0 * 10 + d = n) (hle : n ≤ 1000) :
    (r.await (.maximum brace start min value)).step offset c =
      .ok (r.await (.maximum brace start min (some n))) := by
  show stepMaximum _ brace start min value offset c = _
  simp only [stepMaximum, hc, addDigit_eq_ok.mpr ⟨hn, hle⟩]
  rfl

theorem takes_minimum {m brace : Nat} (h : Count s m) :
    (r.await (.minimum brace none)).Takes s (r.await (.minimum brace (some m))) := by
  obtain ⟨hs, hm, hle⟩ := h
  rw [← written_of_ne hs]
  exact takes_numeral (.minimum brace) (fun _ _ _ _ _ => step_minimum) hm hle

theorem takes_maximum {m n brace start : Nat} (h : Count s n) :
    (r.await (.maximum brace start m none)).Takes s
      (r.await (.maximum brace start m (some n))) := by
  obtain ⟨hs, hn, hle⟩ := h
  rw [← written_of_ne hs]
  exact takes_numeral (.maximum brace start m) (fun _ _ _ _ _ => step_maximum) hn hle

/-- The reader between two items. -/
def between (f : Frame) (outer : List Frame) : Reader := ⟨.item, f, outer⟩

/-- A quantifier changes the item before it. -/
theorem takes_quantifies {f : Frame} {outer : List Frame} {q : Quantifier}
    (hf : f.items.isEmpty = false) (h : Quantifies s q) :
    (between f outer).Takes s (between (f.quantify q) outer) := by
  have hor : ∀ q alone, (between f outer).quantifyOr q alone = .ok (between (f.quantify q) outer) :=
    fun q alone => if_neg (by simp [between, hf])
  have hbrace : ∀ offset, (between f outer).step offset '{' =
      .ok ((between f outer).await (.minimum offset none)) := fun offset => by
    show Except.ok (if f.items.isEmpty then _ else _) = _
    rw [hf]
    rfl
  cases h with
  | star => exact .single fun _ => hor _ _
  | plus => exact .single fun _ => hor _ _
  | opt => exact .single fun _ => hor _ _
  | exactly hm =>
    intro offset
    rw [List.cons_append, feed_cons (hbrace offset), feed_append (takes_minimum hm _)]
    rfl
  | atLeast hm =>
    intro offset
    rw [List.cons_append, feed_cons (hbrace offset), feed_append (takes_minimum hm _)]
    rfl
  | between hm hn hle =>
    intro offset
    rw [List.append_assoc, List.cons_append, feed_cons (hbrace offset),
      feed_append (takes_minimum hm _), List.cons_append, feed_cons rfl,
      feed_append (takes_maximum hn _)]
    refine feed_cons ?_
    exact if_neg (Nat.not_lt.mpr hle)

/-! ### Escapes -/

theorem step_codePoint {start missing value d : Nat} (hc : hexDigit? c = some d)
    (hmissing : 1 < missing) :
    (r.await (.codePoint start missing value)).step offset c =
      .ok (r.await (.codePoint start (missing - 1) (value * 16 + d))) := by
  show stepCodePoint _ start missing value offset c = _
  simp only [stepCodePoint, hc, if_pos hmissing]
  rfl

/-- All digits of a code point but the last are taken one after another. -/
theorem takes_codePoint {start missing n : Nat} (h : Numeral 16 s n) (hs : s.length < missing) :
    (r.await (.codePoint start missing 0)).Takes s
      (r.await (.codePoint start (missing - s.length) n)) := by
  induction h with
  | nil => exact .nil
  | snoc h hc ih =>
    rw [List.length_append, List.length_singleton] at hs ⊢
    refine (ih (by omega)).append (.single fun offset => ?_)
    exact step_codePoint (hexDigit?_eq_some_iff.mpr hc) (by omega)

theorem step_codePoint_last {start value d : Nat} {x : Char} (hc : hexDigit? c = some d)
    (hx : value * 16 + d = x.toNat) :
    (r.await (.codePoint start 1 value)).step offset c = .ok (r.push (.char x)) := by
  have hvalid : x.toNat.isValidChar := x.valid
  show stepCodePoint _ start 1 value offset c = _
  simp only [stepCodePoint, hc, hx, if_pos hvalid, Char.ofNat_toNat]
  rfl

theorem takes_digits {n start : Nat} {x : Char} (h : Numeral 16 s x.toNat) (hs : s.length = n)
    (hn : 0 < n) : (r.await (.codePoint start n 0)).Takes s (r.push (.char x)) := by
  generalize hvalue : x.toNat = value at h
  cases h with
  | nil => exact absurd hs (Nat.ne_of_lt hn)
  | snoc h hc =>
    rw [List.length_append, List.length_singleton] at hs
    refine (takes_codePoint h (by omega)).append (.single fun offset => ?_)
    rw [← hs, Nat.add_sub_cancel_left]
    exact step_codePoint_last (hexDigit?_eq_some_iff.mpr hc) hvalue.symm

theorem takes_escapes {p : Pattern} (h : Escapes s p) : (r.await .escape).Takes s (r.push p) := by
  cases h with
  | newline => exact .single fun _ => rfl
  | carriageReturn => exact .single fun _ => rfl
  | tab => exact .single fun _ => rfl
  | digit => exact .single fun _ => rfl
  | codePoint hx hs h =>
    simp only [List.mem_cons, Prod.mk.injEq, List.not_mem_nil, or_false] at hx
    intro offset
    obtain ⟨rfl, rfl⟩ | ⟨rfl, rfl⟩ := hx
    · exact (feed_cons rfl).trans (takes_digits h hs (by decide) _)
    · exact (feed_cons rfl).trans (takes_digits h hs (by decide) _)
  | punctuation hc =>
    simp only [punctuation, List.mem_cons, List.not_mem_nil, or_false] at hc
    refine .single fun offset => ?_
    rcases hc with rfl | rfl | rfl | rfl | rfl | rfl | rfl | rfl | rfl | rfl | rfl <;> rfl

/-! ### Classes -/

/-- The ranges of a class are taken up to its end. -/
theorem takes_ranges {rs acc : List (Char × Char)} {negated : Bool} (h : Ranges s rs) :
    (r.await (.bracket negated acc)).Takes (s ++ [']'])
      (r.push (.bracket negated (acc.reverse ++ rs))) := by
  have hfirst : ∀ {acc x}, x ≠ ']' → ∀ offset, (r.await (.bracket negated acc)).step offset x =
      .ok (r.await (.rangeHyphen negated acc x)) := fun hx offset => congrArg Except.ok (if_neg hx)
  induction h generalizing acc with
  | nil =>
    rw [List.append_nil]
    exact .single fun _ => rfl
  | @char x t _ hx hs h ih =>
    refine .cons (hfirst hx) fun offset => ?_
    -- What comes next is no hyphen, and so it is taken as if the range had ended before.
    have hnext : (r.await (.rangeHyphen negated acc x)).feed offset (t ++ [']']) =
        (r.await (.bracket negated ((x, x) :: acc))).feed offset (t ++ [']']) :=
      feed_append_congr hs (by decide) fun c hc _ => congrArg Except.ok (if_neg hc)
    refine hnext.trans ((ih offset).trans ?_)
    rw [List.reverse_cons, List.append_assoc, List.singleton_append]
  | @range x y _ _ hx hy h ih =>
    have hlast : ∀ offset, (r.await (.rangeEnd negated acc x)).step offset y =
        .ok (r.await (.bracket negated ((x, y) :: acc))) :=
      fun offset => congrArg Except.ok (if_neg hy)
    refine .cons (hfirst hx) (.cons (fun _ => rfl) (.cons hlast fun offset => (ih offset).trans ?_))
    rw [List.reverse_cons, List.append_assoc, List.singleton_append]
  | @hyphen x hx =>
    refine .cons (hfirst hx) (.cons (fun _ => rfl) (.single fun _ => ?_))
    show Except.ok (r.push (.bracket negated ((('-', '-') :: (x, x) :: acc).reverse))) = _
    simp

/-! ### Patterns -/

/-- A character that is not reserved stands for itself, unless it begins a quantifier. -/
theorem stepItem_char (hc : c ∉ reserved)
    (hfirst : c ∈ ['+', '?', '{'] → r.frame.items.isEmpty = true) :
    r.stepItem offset c = .ok (r.push (.char c)) := by
  unfold stepItem
  split
  case h_9 => exact if_pos (hfirst (by decide))
  case h_10 => exact if_pos (hfirst (by decide))
  case h_11 => exact congrArg Except.ok (if_pos (hfirst (by decide)))
  case h_12 => rfl
  all_goals exact absurd (by decide) hc

mutual

/-- Alternatives fill a frame. -/
theorem takes_branches {s : List Char} {bs : List Pattern} :
    Branches s bs → ∃ f : Frame, f.pattern = .alt bs ∧
      ∀ outer, (between .empty outer).Takes s (between f outer)
  | @Branches.one _ ps h => by
    refine ⟨⟨[], ps.reverse⟩, ?_, takes_items h⟩
    rw [Frame.pattern, Frame.branch, List.reverse_reverse, List.reverse_singleton]
  | @Branches.more _ _ _ ps h h' => by
    obtain ⟨f, hf, htakes⟩ := takes_branches h
    refine ⟨⟨f.branch :: f.branches, ps.reverse⟩, ?_, fun outer => ?_⟩
    · rw [Frame.pattern, List.reverse_cons, Pattern.alt.inj hf, Frame.branch, List.reverse_reverse]
    · exact (htakes outer).append (.cons (fun _ => rfl) (takes_items h' outer))

/-- The items of an alternative are put into the frame one after another. -/
theorem takes_items {s : List Char} {ps : List Pattern} :
    Items s ps → ∀ {branches : List Pattern} (outer : List Frame),
      (between ⟨branches, []⟩ outer).Takes s (between ⟨branches, ps.reverse⟩ outer)
  | .nil, _, _ => .nil
  | .snoc h h', _, outer => by
    refine (takes_items h outer).append ?_
    rw [List.reverse_append, List.reverse_singleton, List.singleton_append]
    exact takes_item h' outer (by simp)

/-- An item is put into the frame. -/
theorem takes_item {first : Bool} {s : List Char} {p : Pattern} :
    Item first s p → ∀ {f : Frame} (outer : List Frame), f.items.isEmpty = first →
      (between f outer).Takes s (between (f.push p) outer)
  | .char hc hfirst, f, outer, hf =>
    .single fun _ => stepItem_char hc fun hmem => hf.trans (hfirst hmem)
  | .any, f, outer, hf => .single fun _ => rfl
  | .escape h, f, outer, hf => .cons (fun _ => rfl) (takes_escapes h)
  | @Item.bracket _ t _ hs h, f, outer, hf => by
    refine .cons (fun _ => rfl) fun offset => ?_
    -- What comes next does not negate the class.
    have hnext : ((between f outer).await .bracketStart).feed offset (t ++ [']']) =
        ((between f outer).await (.bracket false [])).feed offset (t ++ [']']) :=
      feed_append_congr hs (by decide) fun c hc _ => congrArg Except.ok (if_neg hc)
    exact hnext.trans (takes_ranges h offset)
  | .negated h, f, outer, hf => .cons (fun _ => rfl) (.cons (fun _ => rfl) (takes_ranges h))
  | @Item.group _ t _ hs h, f, outer, hf => by
    obtain ⟨f', hf', htakes⟩ := takes_branches h
    refine .cons (fun _ => rfl) fun offset => ?_
    -- What comes next is no question mark, and so it is taken as between two items.
    have hnext : (Reader.mk .groupStart .empty (f :: outer)).feed offset (t ++ [')']) =
        (between .empty (f :: outer)).feed offset (t ++ [')']) :=
      feed_append_congr hs (by decide) fun c hc _ => if_neg hc
    rw [← hf']
    exact hnext.trans ((htakes (f :: outer)).append (.single fun _ => rfl) offset)
  | .colonGroup h, f, outer, hf => by
    obtain ⟨f', hf', htakes⟩ := takes_branches h
    refine .cons (fun _ => rfl) (.cons (fun _ => rfl) (.cons (fun _ => rfl) ?_))
    rw [← hf']
    exact (htakes (f :: outer)).append (.single fun _ => rfl)
  | .quantified h h', f, outer, hf =>
    (takes_item h outer hf).append (takes_quantifies rfl h')

end

/-- What the grammar derives is read. -/
theorem read_of_derives {p : Pattern} (h : Derives s p) : start.read 0 s = .ok p := by
  obtain ⟨bs, hbs, rfl⟩ := h
  obtain ⟨f, hf, htakes⟩ := takes_branches hbs
  rw [read_eq, show start.feed 0 s = _ from htakes [] 0, ← hf]
  rfl

/-- The grammar is unambiguous. -/
theorem derives_unique {p p' : Pattern} (h : Derives s p) (h' : Derives s p') : p = p' :=
  Except.ok.inj ((read_of_derives h).symm.trans (read_of_derives h'))

end ExtendedRegex.Reader
