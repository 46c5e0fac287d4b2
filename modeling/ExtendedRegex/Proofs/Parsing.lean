/-
Nothing but what the grammar derives is read.

* `Fills`: a text whose alternatives fill a frame;
* `Opens`: a text that fills a frame and the frames around it, each up to the parenthesis that opens
  the next one;
* `Begins`: a part of an item or of a quantifier, for each mode that waits for the rest of it;
* `Begins.step`: the next character either is one more character of it or completes it;
* `Spells`: what the text so far has to do with the reader.  One character keeps it (`Spells.step`),
  and so does a text (`Spells.feed`);
* `parse_iff_derives`: a text is read exactly if the grammar derives it, and then its term is that
  of the pattern that it is derived for.

Design notes: whether a group may begin with a single parenthesis depends on the character behind
it, which may not have been read yet.  Therefore `Opens` has what comes behind the text as well, and
a text spells a reader between two items if that holds whatever comes behind.
-/
import ExtendedRegex.Proofs.Reading

namespace ExtendedRegex

open Grammar

/-! ### Frames -/

namespace Frame

variable {f : Frame} {s s' : List Char}

/-- A text whose alternatives fill a frame. -/
def Fills (s : List Char) (f : Frame) : Prop := Branches s (f.branch :: f.branches).reverse

theorem fills_empty : Fills [] empty := .one .nil

/-- The items of the last alternative stand at the end. -/
theorem Fills.exists_append (h : Fills s f) : ∃ t t', s = t ++ t' ∧ Items t' f.items.reverse ∧
    ∀ u items, Items u items.reverse → Fills (t ++ u) { f with items := items } := by
  rw [Fills, List.reverse_cons, branch] at h
  obtain ⟨t, t', rfl, hitems, hput⟩ := h.exists_append
  refine ⟨t, t', rfl, hitems, fun u items hu => ?_⟩
  rw [Fills, List.reverse_cons, branch]
  exact hput u _ hu

theorem Fills.push {p : Pattern} (h : Fills s f) (hp : Item f.items.isEmpty s' p) :
    Fills (s ++ s') (f.push p) := by
  obtain ⟨t, t', rfl, hitems, hput⟩ := h.exists_append
  rw [List.append_assoc]
  refine hput _ (p :: f.items) ?_
  rw [List.reverse_cons]
  refine .snoc hitems ?_
  rwa [List.isEmpty_reverse]

theorem Fills.quantify {q : Quantifier} (h : Fills s f) (hf : f.items.isEmpty = false)
    (hq : Quantifies s' q) : Fills (s ++ s') (f.quantify q) := by
  obtain ⟨t, t', rfl, hitems, hput⟩ := h.exists_append
  obtain ⟨branches, items⟩ := f
  cases items with
  | nil => contradiction
  | cons p items =>
    rw [List.reverse_cons] at hitems
    obtain ⟨u, u', rfl, hu, hp⟩ := hitems.exists_append
    rw [List.append_assoc, List.append_assoc]
    refine hput _ (.quantified p q :: items) ?_
    rw [List.reverse_cons]
    exact .snoc hu (hp.quantified hq)

theorem Fills.nextBranch (h : Fills s f) : Fills (s ++ ['|']) f.nextBranch := by
  rw [Fills, List.reverse_cons]
  exact .more h .nil

theorem Fills.derives (h : Fills s f) : Derives s f.pattern := ⟨_, h, rfl⟩

end Frame

namespace Reader

variable {s s' w : List Char} {c : Char} {f f' g : Frame} {outer : List Frame} {r r' : Reader}
  {offset : Nat}

/-! ### Open groups -/

/-- A text that fills a frame within others, and what comes behind it. -/
inductive Opens : List Char → List Char → Frame → List Frame → Prop where
  | whole {s w : List Char} {f : Frame} (h : f.Fills s) : Opens s w f []
  | group {s s' w : List Char} {f g : Frame} {outer : List Frame}
      (h : Opens s ('(' :: (s' ++ w)) g outer) (hs : (s' ++ w).head? ≠ some '?') (h' : f.Fills s') :
      Opens (s ++ '(' :: s') w f (g :: outer)
  | colonGroup {s s' w : List Char} {f g : Frame} {outer : List Frame}
      (h : Opens s ('(' :: '?' :: ':' :: (s' ++ w)) g outer) (h' : f.Fills s') :
      Opens (s ++ '(' :: '?' :: ':' :: s') w f (g :: outer)

/-- What fills the frame may go on. -/
theorem Opens.append (h : Opens s (s' ++ w) f outer)
    (hfills : ∀ t, f.Fills t → f'.Fills (t ++ s')) : Opens (s ++ s') w f' outer := by
  generalize hw : s' ++ w = w' at h
  cases h with
  | whole h => exact .whole (hfills _ h)
  | group h hs h' =>
    subst hw
    rw [← List.append_assoc] at h hs
    rw [List.append_assoc]
    exact .group h hs (hfills _ h')
  | colonGroup h h' =>
    subst hw
    rw [← List.append_assoc] at h
    rw [List.append_assoc]
    exact .colonGroup h (hfills _ h')

/-- The parenthesis that closes a group makes an item of its frame. -/
theorem Opens.close (h : Opens s (')' :: w) f (g :: outer)) :
    Opens (s ++ [')']) w (g.push f.pattern) outer := by
  generalize hw : ')' :: w = w' at h
  cases h with
  | @group _ t' _ _ _ _ h hs h' =>
    subst hw
    have hhead : t'.head? ≠ some '?' := by
      cases t' with
      | nil => exact nofun
      | cons c t' => exact hs
    rw [List.append_assoc]
    refine Opens.append ?_ fun u hu => hu.push (.group hhead h')
    simpa using h
  | colonGroup h h' =>
    subst hw
    rw [List.append_assoc]
    refine Opens.append ?_ fun u hu => hu.push (.colonGroup h')
    simpa using h

/-! ### Unfinished items and quantifiers -/

/-- A class is an item, whatever ranges begin with what has been read ahead. -/
def OpenClass (first negated : Bool) (s : List Char) (acc : List (Char × Char))
    (ahead : List Char) : Prop :=
  ∀ t rs, Ranges (ahead ++ t) rs →
    Item first (s ++ (ahead ++ t) ++ [']']) (.bracket negated (acc.reverse ++ rs))

/-- A part of an item or quantifier, and what the next character of it may be. -/
inductive Begins (first : Bool) : List Char → Mode → Prop where
  | escape : Begins first ['\\'] .escape
  | codePoint {x : Char} {n start missing value : Nat} {s : List Char}
      (hx : (x, n) ∈ [('x', 2), ('u', 4)]) (hn : s.length + missing = n) (hmissing : 0 < missing)
      (h : Numeral 16 s value) : Begins first ('\\' :: x :: s) (.codePoint start missing value)
  | bracketStart : Begins first ['['] .bracketStart
  | bracket {negated : Bool} {s : List Char} {acc : List (Char × Char)}
      (h : OpenClass first negated s acc []) : Begins first s (.bracket negated acc)
  | rangeHyphen {negated : Bool} {s : List Char} {acc : List (Char × Char)} {a : Char}
      (ha : a ≠ ']') (h : OpenClass first negated s acc [a]) :
      Begins first (s ++ [a]) (.rangeHyphen negated acc a)
  | rangeEnd {negated : Bool} {s : List Char} {acc : List (Char × Char)} {a : Char}
      (ha : a ≠ ']') (h : OpenClass first negated s acc [a]) :
      Begins first (s ++ [a, '-']) (.rangeEnd negated acc a)
  | minimum {brace n : Nat} {value : Option Nat} {s : List Char} (hfirst : first = false)
      (h : Numeral 10 s n) (hle : n ≤ 1000) (hvalue : written s n = value) :
      Begins first ('{' :: s) (.minimum brace value)
  | maximum {brace start m n : Nat} {value : Option Nat} {s s' : List Char} (hfirst : first = false)
      (hm : Count s m) (h : Numeral 10 s' n) (hle : n ≤ 1000) (hvalue : written s' n = value) :
      Begins first ('{' :: s ++ ',' :: s') (.maximum brace start m value)

/-- What the reader has taken as items, groups and parts of items. -/
inductive Spells : List Char → Reader → Prop where
  | item {s : List Char} {f : Frame} {outer : List Frame} (h : ∀ w, Opens s w f outer) :
      Spells s ⟨.item, f, outer⟩
  | groupStart {s : List Char} {f : Frame} {outer : List Frame}
      (h : ∀ w, Opens s ('(' :: w) f outer) : Spells (s ++ ['(']) ⟨.groupStart, .empty, f :: outer⟩
  | groupColon {s : List Char} {f : Frame} {outer : List Frame}
      (h : ∀ w, Opens s ('(' :: w) f outer) :
      Spells (s ++ ['(', '?']) ⟨.groupColon, .empty, f :: outer⟩
  | part {s t : List Char} {mode : Mode} {f : Frame} {outer : List Frame}
      (h : ∀ w, Opens s (t ++ w) f outer) (ht : Begins f.items.isEmpty t mode) :
      Spells (s ++ t) ⟨mode, f, outer⟩

/-- How a reader may go on from a part of an item. -/
def Continues (first : Bool) (s : List Char) (r r' : Reader) : Prop :=
  (∃ mode, r' = r.await mode ∧ Begins first s mode) ∨
  (∃ p, r' = r.push p ∧ Item first s p) ∨
  ∃ q, r' = r.quantify q ∧ first = false ∧ Quantifies s q

theorem continues_escape {first : Bool} (h : r.stepEscape offset c = .ok r') :
    Continues first ['\\', c] r r' := by
  have hitem : ∀ {p}, Escapes [c] p → r' = r.push p → Continues first ['\\', c] r r' :=
    fun hp hr => .inr (.inl ⟨_, hr, .escape hp⟩)
  unfold stepEscape at h
  split at h
  · exact hitem .newline (Except.ok.inj h).symm
  · exact hitem .carriageReturn (Except.ok.inj h).symm
  · exact hitem .tab (Except.ok.inj h).symm
  · exact hitem .digit (Except.ok.inj h).symm
  · exact .inl ⟨_, (Except.ok.inj h).symm, .codePoint (n := 2) (by decide) rfl (by decide) .nil⟩
  · exact .inl ⟨_, (Except.ok.inj h).symm, .codePoint (n := 4) (by decide) rfl (by decide) .nil⟩
  · by_cases hc : c ∈ escapable
    · rw [if_pos hc] at h
      exact hitem (.punctuation hc) (Except.ok.inj h).symm
    · rw [if_neg hc] at h
      contradiction

theorem continues_codePoint {first : Bool} {x : Char} {n start missing value : Nat}
    (hx : (x, n) ∈ [('x', 2), ('u', 4)]) (hn : s.length + missing = n) (hmissing : 0 < missing)
    (hs : Numeral 16 s value) (h : r.stepCodePoint start missing value offset c = .ok r') :
    Continues first ('\\' :: x :: (s ++ [c])) r r' := by
  rw [stepCodePoint] at h
  rcases hc : hexDigit? c with _ | d
  · rw [hc] at h
    contradiction
  · rw [hc] at h
    have hs := hs.snoc (hexDigit?_eq_some_iff.mp hc)
    have hlen : (s ++ [c]).length = s.length + 1 := by simp
    dsimp only at h
    by_cases hmore : 1 < missing
    · rw [if_pos hmore] at h
      refine .inl ⟨_, (Except.ok.inj h).symm, .codePoint hx ?_ ?_ hs⟩ <;> omega
    · rw [if_neg hmore] at h
      by_cases hvalid : (value * 16 + d).isValidChar
      · rw [if_pos hvalid] at h
        refine .inr (.inl ⟨_, (Except.ok.inj h).symm, .escape (.codePoint hx (by omega) ?_)⟩)
        rwa [toNat_ofNat_of_valid hvalid]
      · rw [if_neg hvalid] at h
        contradiction

/-- Before a range of a class. -/
theorem continues_stepBracket {first negated : Bool} {acc : List (Char × Char)}
    (h : c ≠ ']' → OpenClass first negated s acc [c])
    (hend : c = ']' → Item first (s ++ [']']) (.bracket negated acc.reverse)) :
    Continues first (s ++ [c]) r (r.stepBracket negated acc c) := by
  rw [stepBracket]
  by_cases hc : c = ']'
  · rw [if_pos hc]
    subst hc
    exact .inr (.inl ⟨_, rfl, hend rfl⟩)
  · rw [if_neg hc]
    exact .inl ⟨_, rfl, .rangeHyphen hc (h hc)⟩

theorem continues_bracketStart {first : Bool} :
    Continues first ['[', c] r
      (if c = '^' then r.await (.bracket true []) else r.stepBracket false [] c) := by
  by_cases hc : c = '^'
  · rw [if_pos hc]
    subst hc
    exact .inl ⟨_, rfl, .bracket fun t rs ht => .negated ht⟩
  · rw [if_neg hc]
    refine continues_stepBracket (s := ['[']) (fun _ t rs ht => ?_) fun _ => ?_
    · exact .bracket (fun h => hc (Option.some.inj h)) ht
    · exact .bracket nofun .nil

theorem continues_bracket {first negated : Bool} {acc : List (Char × Char)}
    (h : OpenClass first negated s acc []) :
    Continues first (s ++ [c]) r (r.stepBracket negated acc c) := by
  refine continues_stepBracket (fun _ t rs ht => h (c :: t) rs ht) fun _ => ?_
  simpa using h [] [] .nil

/-- A character without a hyphen is a range, and another range or the end of the class follows. -/
theorem continues_rangeHyphen {first negated : Bool} {acc : List (Char × Char)} {a : Char}
    (ha : a ≠ ']') (h : OpenClass first negated s acc [a]) :
    Continues first (s ++ [a] ++ [c]) r
      (if c = '-' then r.await (.rangeEnd negated acc a)
        else r.stepBracket negated ((a, a) :: acc) c) := by
  by_cases hc : c = '-'
  · rw [if_pos hc]
    subst hc
    rw [List.append_assoc]
    exact .inl ⟨_, rfl, .rangeEnd ha h⟩
  · rw [if_neg hc]
    refine continues_stepBracket (fun _ t rs ht => ?_) fun _ => ?_
    · have hranges : Ranges (a :: c :: t) ((a, a) :: rs) :=
        .char ha (fun h => hc (Option.some.inj h)) ht
      simpa using h _ _ hranges
    · have hranges : Ranges [a] [(a, a)] := .char ha nofun .nil
      simpa using h _ _ hranges

/-- A hyphen in front of the closing bracket is a character; otherwise the range ends here. -/
theorem continues_rangeEnd {first negated : Bool} {acc : List (Char × Char)} {a : Char}
    (ha : a ≠ ']') (h : OpenClass first negated s acc [a]) :
    Continues first (s ++ [a, '-'] ++ [c]) r
      (if c = ']' then r.stepBracket negated (('-', '-') :: (a, a) :: acc) c
        else r.await (.bracket negated ((a, c) :: acc))) := by
  by_cases hc : c = ']'
  · rw [if_pos hc]
    subst hc
    refine continues_stepBracket (fun hne => absurd rfl hne) fun _ => ?_
    simpa using h _ _ (.hyphen ha)
  · rw [if_neg hc]
    refine .inl ⟨_, rfl, .bracket fun t rs ht => ?_⟩
    simpa using h _ _ (.range ha hc ht)

/-- One more digit of a count. -/
theorem exists_of_addDigit_eq_ok {n d start : Nat} {f : Nat → Reader} (hs : Numeral 10 s n)
    (hc : digit? c = some d) (h : (addDigit (written s n) d start).map f = .ok r') :
    ∃ n', r' = f n' ∧ Numeral 10 (s ++ [c]) n' ∧ n' ≤ 1000 := by
  cases hadd : addDigit (written s n) d start with
  | error e =>
    rw [hadd] at h
    contradiction
  | ok n' =>
    rw [hadd] at h
    obtain ⟨rfl, hle⟩ := addDigit_eq_ok.mp hadd
    refine ⟨_, (Except.ok.inj h).symm, ?_, hle⟩
    rw [written_getD hs]
    exact hs.snoc (digit?_eq_some_iff.mp hc)

theorem count_of_written {m n : Nat} (hs : Numeral 10 s n) (hle : n ≤ 1000)
    (hm : written s n = some m) : Count s m := by
  rw [written] at hm
  by_cases hne : s = []
  · rw [if_pos hne] at hm
    contradiction
  · rw [if_neg hne] at hm
    obtain rfl := Option.some.inj hm
    exact ⟨hne, hs, hle⟩

theorem continues_minimum {brace n : Nat} {value : Option Nat} (hs : Numeral 10 s n)
    (hle : n ≤ 1000) (hvalue : written s n = value)
    (h : r.stepMinimum brace value offset c = .ok r') :
    Continues false ('{' :: (s ++ [c])) r r' := by
  subst hvalue
  unfold stepMinimum at h
  split at h
  case h_1 d hc =>
    obtain ⟨n', rfl, hs', hle'⟩ := exists_of_addDigit_eq_ok hs hc h
    exact .inl ⟨_, rfl, .minimum rfl hs' hle' written_snoc⟩
  case h_2 => contradiction
  case h_3 m _ hm =>
    have hcount : Count s m := count_of_written hs hle hm
    by_cases hcomma : c = ','
    · rw [if_pos hcomma] at h
      subst hcomma
      exact .inl ⟨_, (Except.ok.inj h).symm, .maximum rfl hcount .nil (Nat.zero_le _) rfl⟩
    · rw [if_neg hcomma] at h
      by_cases hbrace : c = '}'
      · rw [if_pos hbrace] at h
        subst hbrace
        exact .inr (.inr ⟨_, (Except.ok.inj h).symm, rfl, .exactly hcount⟩)
      · rw [if_neg hbrace] at h
        contradiction

theorem continues_maximum {brace start m n : Nat} {value : Option Nat} (hm : Count s m)
    (hs : Numeral 10 s' n) (hle : n ≤ 1000) (hvalue : written s' n = value)
    (h : r.stepMaximum brace start m value offset c = .ok r') :
    Continues false ('{' :: s ++ ',' :: (s' ++ [c])) r r' := by
  subst hvalue
  unfold stepMaximum at h
  split at h
  case h_1 d hc =>
    obtain ⟨n', rfl, hs', hle'⟩ := exists_of_addDigit_eq_ok hs hc h
    exact .inl ⟨_, rfl, .maximum rfl hm hs' hle' written_snoc⟩
  case h_2 _ hnone =>
    by_cases hbrace : c = '}'
    · rw [if_pos hbrace] at h
      subst hbrace
      obtain rfl := eq_nil_of_written hnone
      exact .inr (.inr ⟨_, (Except.ok.inj h).symm, rfl, .atLeast hm⟩)
    · rw [if_neg hbrace] at h
      contradiction
  case h_3 n' _ hn' =>
    have hcount : Count s' n' := count_of_written hs hle hn'
    by_cases hbrace : c ≠ '}'
    · rw [if_pos hbrace] at h
      contradiction
    · rw [if_neg hbrace] at h
      obtain rfl := Decidable.not_not.mp hbrace
      by_cases hlt : n' < m
      · rw [if_pos hlt] at h
        contradiction
      · rw [if_neg hlt] at h
        refine .inr (.inr ⟨_, (Except.ok.inj h).symm, rfl, ?_⟩)
        simpa using Quantifies.between hm hcount (Nat.not_lt.mp hlt)

/-- What the next character makes of a part of an item or quantifier. -/
theorem Begins.step {first : Bool} {mode : Mode} (ht : Begins first s mode)
    (h : (r.await mode).step offset c = .ok r') : Continues first (s ++ [c]) r r' := by
  show Continues first (s ++ [c]) (r.await mode) r'
  cases ht with
  | escape => exact continues_escape h
  | codePoint hx hn hmissing hs => exact continues_codePoint hx hn hmissing hs h
  | bracketStart =>
    obtain rfl := Except.ok.inj h
    exact continues_bracketStart
  | bracket hs =>
    obtain rfl := Except.ok.inj h
    exact continues_bracket hs
  | rangeHyphen ha hs =>
    obtain rfl := Except.ok.inj h
    exact continues_rangeHyphen ha hs
  | rangeEnd ha hs =>
    obtain rfl := Except.ok.inj h
    exact continues_rangeEnd ha hs
  | minimum hfirst hs hle hvalue =>
    subst hfirst
    exact continues_minimum hs hle hvalue h
  | maximum hfirst hm hs hle hvalue =>
    subst hfirst
    rw [List.append_assoc]
    exact continues_maximum hm hs hle hvalue h

/-! ### The whole text -/

/-- What fills the frame goes on by what was made of it. -/
theorem Continues.spells (h : Continues f.items.isEmpty s' (between f outer) r')
    (hopens : ∀ w, Opens s (s' ++ w) f outer) : Spells (s ++ s') r' := by
  rcases h with ⟨mode, rfl, hmode⟩ | ⟨p, rfl, hp⟩ | ⟨q, rfl, hfirst, hq⟩
  · exact .part hopens hmode
  · exact .item fun w => (hopens w).append fun t ht => ht.push hp
  · exact .item fun w => (hopens w).append fun t ht => ht.quantify hfirst hq

theorem continues_quantifyOr {q : Quantifier} {alone : Except Failure Reader} (hq : Quantifies s q)
    (halone : r.frame.items.isEmpty = true → alone = .ok r' → Continues true s r r')
    (h : r.quantifyOr q alone = .ok r') : Continues r.frame.items.isEmpty s r r' := by
  rw [quantifyOr] at h
  by_cases hempty : r.frame.items.isEmpty
  · rw [if_pos hempty] at h
    rw [hempty]
    exact halone hempty h
  · rw [if_neg hempty] at h
    exact .inr (.inr ⟨q, (Except.ok.inj h).symm, Bool.not_eq_true _ ▸ hempty, hq⟩)

/-- One character between items. -/
theorem spells_stepItem (hopens : ∀ w, Opens s (c :: w) r.frame r.outer)
    (h : r.stepItem offset c = .ok r') : Spells (s ++ [c]) r' := by
  have hcontinues : Continues r.frame.items.isEmpty [c] r r' → Spells (s ++ [c]) r' :=
    fun h => Continues.spells h hopens
  -- The cases are the characters of `stepItem` in their order.
  unfold stepItem at h
  split at h
  case h_1 =>
    obtain rfl := Except.ok.inj h
    exact .item fun w => (hopens w).append fun t ht => ht.nextBranch
  case h_2 =>
    obtain rfl := Except.ok.inj h
    exact .groupStart hopens
  case h_3 =>
    rcases houter : r.outer with _ | ⟨g, outer⟩
    · rw [houter] at h
      contradiction
    · rw [houter] at h hopens
      obtain rfl := Except.ok.inj h
      exact .item fun w => (hopens w).close
  case h_4 => exact hcontinues (.inl ⟨_, (Except.ok.inj h).symm, .bracketStart⟩)
  case h_5 => contradiction
  case h_6 => exact hcontinues (.inr (.inl ⟨_, (Except.ok.inj h).symm, .any⟩))
  case h_7 => exact hcontinues (.inl ⟨_, (Except.ok.inj h).symm, .escape⟩)
  case h_8 => exact hcontinues (continues_quantifyOr .star (fun _ h => by contradiction) h)
  case h_9 =>
    refine hcontinues (continues_quantifyOr .plus (fun _ h => ?_) h)
    exact .inr (.inl ⟨_, (Except.ok.inj h).symm, .char (by decide) fun _ => rfl⟩)
  case h_10 =>
    refine hcontinues (continues_quantifyOr .opt (fun _ h => ?_) h)
    exact .inr (.inl ⟨_, (Except.ok.inj h).symm, .char (by decide) fun _ => rfl⟩)
  case h_11 =>
    obtain rfl := Except.ok.inj h
    refine hcontinues ?_
    by_cases hempty : r.frame.items.isEmpty
    · rw [if_pos hempty]
      exact .inr (.inl ⟨_, rfl, .char (by decide) fun _ => hempty⟩)
    · rw [if_neg hempty]
      exact .inl ⟨_, rfl, .minimum (Bool.not_eq_true _ ▸ hempty) .nil (Nat.zero_le _) rfl⟩
  case h_12 =>
    refine hcontinues (.inr (.inl ⟨_, (Except.ok.inj h).symm, .char ?_ ?_⟩))
    · simp_all [reserved]
    · simp_all

/-- One character. -/
theorem Spells.step (hs : Spells s r) (h : r.step offset c = .ok r') : Spells (s ++ [c]) r' := by
  cases hs with
  | item hopens => exact spells_stepItem (fun w => hopens (c :: w)) h
  | groupStart hopens =>
    change (if c = '?' then Except.ok _ else stepItem _ offset c) = _ at h
    by_cases hc : c = '?'
    · rw [if_pos hc] at h
      obtain rfl := Except.ok.inj h
      subst hc
      rw [List.append_assoc]
      exact .groupColon hopens
    · -- Only now is it known that the parenthesis stands alone.
      rw [if_neg hc] at h
      refine spells_stepItem (fun w => ?_) h
      exact .group (hopens _) (fun h => hc (Option.some.inj h)) Frame.fills_empty
  | groupColon hopens =>
    change (if c = ':' then Except.ok _ else _) = _ at h
    by_cases hc : c = ':'
    · rw [if_pos hc] at h
      obtain rfl := Except.ok.inj h
      subst hc
      rw [List.append_assoc]
      exact .item fun w => .colonGroup (hopens _) Frame.fills_empty
    · rw [if_neg hc] at h
      contradiction
  | @part _ t _ f outer hopens ht =>
    have hcontinues : Continues f.items.isEmpty (t ++ [c]) (between f outer) r' := ht.step h
    rw [List.append_assoc]
    refine hcontinues.spells fun w => ?_
    rw [List.append_assoc]
    exact hopens _

/-- A whole run. -/
theorem Spells.feed (hs : Spells s r) (h : r.feed offset s' = .ok r') : Spells (s ++ s') r' := by
  induction s' generalizing s r offset with
  | nil =>
    obtain rfl := Except.ok.inj h
    rwa [List.append_nil]
  | cons c s' ih =>
    rw [Reader.feed] at h
    rcases hstep : r.step offset c with e | r₁
    · rw [hstep] at h
      contradiction
    · rw [hstep] at h
      rw [← List.singleton_append, ← List.append_assoc]
      exact ih (hs.step hstep) h

/-- The end of the text. -/
theorem Spells.finish {p : Pattern} (hs : Spells s r) (h : r.finish offset = .ok p) :
    Derives s p := by
  cases hs with
  | @item _ f outer hopens =>
    cases outer with
    | nil =>
      obtain rfl := Except.ok.inj h
      cases hopens [] with
      | whole hfills => exact hfills.derives
    | cons g outer => contradiction
  | groupStart hopens => contradiction
  | groupColon hopens => contradiction
  | part hopens ht =>
    cases ht with
    | @minimum _ _ value _ hfirst hs hle hvalue => cases value <;> contradiction
    | @maximum _ _ _ _ value _ _ hfirst hm hs hle hvalue => cases value <;> contradiction
    | _ => contradiction

theorem derives_of_read {p : Pattern} (h : start.read 0 s = .ok p) : Derives s p := by
  have hstart : Spells [] start := .item fun _ => .whole Frame.fills_empty
  rw [read_eq] at h
  rcases hfeed : start.feed 0 s with e | r
  · rw [hfeed] at h
    contradiction
  · rw [hfeed] at h
    exact (hstart.feed hfeed).finish h

end Reader

/-- A pattern is read exactly if it is in the grammar, and its term is that of the derivation. -/
theorem Pattern.parse_iff_derives (input : String) :
    (∀ p, Pattern.parse input = .ok p ↔ Derives input.toList p) ∧
    (∀ t, Term.parse input = .ok t ↔ ∃ p, Derives input.toList p ∧ p.term = t) ∧
    ((∃ e, Term.parse input = .error e) ↔ ¬∃ p, Derives input.toList p) := by
  have hparse : ∀ p, Pattern.parse input = .ok p ↔ Derives input.toList p := by
    intro p
    have hread : Pattern.parse input = .ok p ↔ Reader.start.read 0 input.toList = .ok p := by
      rw [Pattern.parse]
      cases Reader.start.read 0 input.toList <;> simp [Except.mapError]
    rw [hread]
    exact ⟨Reader.derives_of_read, Reader.read_of_derives⟩
  refine ⟨hparse, fun t => ?_, ?_⟩
  · simp only [← hparse, Term.parse]
    cases Pattern.parse input <;> simp [Except.map]
  · simp only [← hparse, Term.parse]
    cases Pattern.parse input <;> simp [Except.map]

end ExtendedRegex
