/-
The place that is reported for a fault is that of the first one.

* `Mode.Behind`: the places that a mode keeps for a report are not ahead of the reader;
* `Sound`: one character keeps that, or its fault is reported at most at the character itself;
* `exists_of_feed_eq_error`: a text with a fault has been taken up to the place that is reported;
* `read_eq_error`: the text before that place may go on, and a fault before the end of the text stays
  whatever comes behind the text;
* `offset_of_parse_eq_error`: the same of patterns.

Design notes: three faults are reported at an earlier place than that of the character at which they
are found: a count that is too large, counts in the wrong order, and a number that is no character.
All these places have been passed, which is all that matters: a reader takes any part of the text in
front of a character that it takes.
-/
import ExtendedRegex.Proofs.Reading

namespace ExtendedRegex

/-- The places that a mode keeps for a report are not ahead of an offset. -/
def Mode.Behind (offset : Nat) : Mode → Prop
  | .codePoint start _ _ => start ≤ offset
  | .minimum brace _ => brace < offset
  | .maximum brace start _ _ => brace < offset ∧ start ≤ offset
  | _ => True

namespace Reader

variable {r r' : Reader} {e : Failure} {offset : Nat} {c : Char} {s t : List Char}

/-! ### One character -/

/-- A character leaves no place ahead of the next one, and its fault is not reported ahead of it. -/
def Sound (offset : Nat) : Except Failure Reader → Prop
  | .ok r => r.mode.Behind (offset + 1)
  | .error e => e.offset ≤ offset

theorem sound_push {p : Pattern} : Sound offset (.ok (r.push p)) := trivial

theorem sound_quantify {q : Quantifier} : Sound offset (.ok (r.quantify q)) := trivial

theorem sound_quantifyOr {q : Quantifier} {alone : Except Failure Reader} (h : Sound offset alone) :
    Sound offset (r.quantifyOr q alone) := by
  rw [quantifyOr]
  split
  · exact h
  · exact sound_quantify

theorem sound_stepItem : Sound offset (r.stepItem offset c) := by
  have hhere : ∀ fault, Sound offset (.error ⟨fault, offset⟩) := fun _ => Nat.le_refl offset
  unfold stepItem
  split
  case h_1 => trivial
  case h_2 => trivial
  case h_3 =>
    split
    · exact hhere _
    · trivial
  case h_4 => trivial
  case h_5 => exact hhere _
  case h_6 => exact sound_push
  case h_7 => trivial
  case h_8 => exact sound_quantifyOr (hhere _)
  case h_9 => exact sound_quantifyOr sound_push
  case h_10 => exact sound_quantifyOr sound_push
  case h_11 =>
    split
    · exact sound_push
    · exact Nat.lt_succ_self offset
  case h_12 => exact sound_push

theorem sound_stepEscape : Sound offset (r.stepEscape offset c) := by
  -- The digits of a code point begin with the next character.
  have hdigits : ∀ missing, Sound offset (.ok (r.await (.codePoint (offset + 1) missing 0))) :=
    fun _ => Nat.le_refl (offset + 1)
  unfold stepEscape
  split
  case h_1 => exact sound_push
  case h_2 => exact sound_push
  case h_3 => exact sound_push
  case h_4 => exact sound_push
  case h_5 => exact hdigits 2
  case h_6 => exact hdigits 4
  case h_7 =>
    split
    · exact sound_push
    · exact Nat.le_refl offset

theorem sound_stepCodePoint {start missing value : Nat} (h : start ≤ offset) :
    Sound offset (r.stepCodePoint start missing value offset c) := by
  rw [stepCodePoint]
  split
  · exact Nat.le_refl offset
  · dsimp only
    split
    · exact Nat.le_succ_of_le h
    · split
      · exact sound_push
      · exact h

theorem sound_stepBracket {negated : Bool} {ranges : List (Char × Char)} :
    Sound offset (.ok (r.stepBracket negated ranges c)) := by
  rw [stepBracket]
  split
  · exact sound_push
  · trivial

/-- A digit of a count, if the mode that goes on keeps no place ahead. -/
theorem sound_addDigit {value : Option Nat} {d start : Nat} {mode : Nat → Mode}
    (hstart : start ≤ offset) (hmode : ∀ n, (mode n).Behind (offset + 1)) :
    Sound offset ((addDigit value d start).map fun n => r.await (mode n)) := by
  rw [addDigit]
  split
  · exact hstart
  · exact hmode _

theorem sound_stepMinimum {brace : Nat} {value : Option Nat} (h : brace < offset) :
    Sound offset (r.stepMinimum brace value offset c) := by
  unfold stepMinimum
  split
  · exact sound_addDigit h fun _ => Nat.lt_succ_of_lt h
  · exact Nat.le_refl offset
  · split
    · exact ⟨Nat.lt_succ_of_lt h, Nat.le_refl (offset + 1)⟩
    · split
      · exact sound_quantify
      · exact Nat.le_refl offset

theorem sound_stepMaximum {brace start min : Nat} {value : Option Nat} (hbrace : brace < offset)
    (hstart : start ≤ offset) : Sound offset (r.stepMaximum brace start min value offset c) := by
  unfold stepMaximum
  split
  · exact sound_addDigit hstart fun _ => ⟨Nat.lt_succ_of_lt hbrace, Nat.le_succ_of_le hstart⟩
  · split
    · exact sound_quantify
    · exact Nat.le_refl offset
  · split
    · exact Nat.le_refl offset
    · split
      · exact Nat.le_of_lt hbrace
      · exact sound_quantify

theorem sound_step (h : r.mode.Behind offset) : Sound offset (r.step offset c) := by
  obtain ⟨mode, frame, outer⟩ := r
  cases mode with
  | item => exact sound_stepItem
  | groupStart =>
    show Sound offset (if c = '?' then _ else _)
    split
    · trivial
    · exact sound_stepItem
  | groupColon =>
    show Sound offset (if c = ':' then _ else _)
    split
    · trivial
    · exact Nat.le_refl offset
  | escape => exact sound_stepEscape
  | codePoint start missing value => exact sound_stepCodePoint h
  | bracketStart =>
    show Sound offset (.ok (if c = '^' then _ else _))
    split
    · trivial
    · exact sound_stepBracket
  | bracket negated ranges => exact sound_stepBracket
  | rangeHyphen negated ranges a =>
    show Sound offset (.ok (if c = '-' then _ else _))
    split
    · trivial
    · exact sound_stepBracket
  | rangeEnd negated ranges a =>
    show Sound offset (.ok (if c = ']' then _ else _))
    split
    · exact sound_stepBracket
    · trivial
  | minimum brace value => exact sound_stepMinimum h
  | maximum brace start min value => exact sound_stepMaximum h.1 h.2

/-- A fault at the end of the text is reported there. -/
theorem offset_of_finish_eq_error (h : r.finish offset = .error e) : e.offset = offset := by
  have hhere : ∀ {fault}, (.error ⟨fault, offset⟩ : Except Failure Pattern) = .error e →
      e.offset = offset := fun h => (congrArg Failure.offset (Except.error.inj h)).symm
  unfold finish at h
  split at h
  case h_1 | h_2 =>
    split at h
    · contradiction
    · exact hhere h
  all_goals exact hhere h

/-! ### A text -/

/-- What stands behind a fault does not matter. -/
theorem feed_append_of_error (h : r.feed offset s = .error e) :
    r.feed offset (s ++ t) = .error e := by
  induction s generalizing r offset with
  | nil => contradiction
  | cons c s ih =>
    rw [List.cons_append, feed]
    cases hstep : r.step offset c with
    | error e' =>
      rw [feed, hstep] at h
      exact h
    | ok r₁ =>
      rw [feed_cons hstep] at h
      exact ih h

/-- The text up to the place that is reported has been taken. -/
theorem exists_of_feed_eq_error (hr : r.mode.Behind offset) (h : r.feed offset s = .error e) :
    e.offset < offset + s.length ∧ ∃ r', r.feed offset (s.take (e.offset - offset)) = .ok r' := by
  induction s generalizing r offset with
  | nil => contradiction
  | cons c s ih =>
    have hsound : Sound offset (r.step offset c) := sound_step hr
    have hstart : e.offset ≤ offset →
        ∃ r', r.feed offset ((c :: s).take (e.offset - offset)) = .ok r' := fun hle => by
      rw [Nat.sub_eq_zero_of_le hle]
      exact ⟨r, rfl⟩
    rw [List.length_cons]
    cases hstep : r.step offset c with
    | error e' =>
      rw [hstep] at hsound
      rw [feed, hstep] at h
      obtain rfl := Except.error.inj h
      have hle : e'.offset ≤ offset := hsound
      exact ⟨by omega, hstart hle⟩
    | ok r₁ =>
      rw [hstep] at hsound
      rw [feed_cons hstep] at h
      obtain ⟨hlt, r', hr'⟩ := ih hsound h
      refine ⟨by omega, ?_⟩
      -- The place may be in front of this character, though the fault was found behind it.
      rcases Nat.lt_or_ge offset e.offset with hlt' | hle
      · have hoffset : e.offset - offset = e.offset - (offset + 1) + 1 := by omega
        rw [hoffset, List.take_succ_cons, feed_cons hstep]
        exact ⟨r', hr'⟩
      · exact hstart hle

theorem read_eq_error (h : start.read 0 s = .error e) :
    e.offset ≤ s.length ∧ (∃ r, start.feed 0 (s.take e.offset) = .ok r) ∧
      (e.offset < s.length → ∀ t, start.read 0 (s ++ t) = .error e) := by
  rw [read_eq] at h
  cases hfeed : start.feed 0 s with
  | error e' =>
    rw [hfeed] at h
    obtain rfl := Except.error.inj h
    obtain ⟨hlt, htake⟩ := exists_of_feed_eq_error (r := start) trivial hfeed
    rw [Nat.zero_add] at hlt
    refine ⟨Nat.le_of_lt hlt, htake, fun _ t => ?_⟩
    rw [read_eq, feed_append_of_error hfeed]
  | ok r =>
    rw [hfeed] at h
    have hend : e.offset = 0 + s.length := offset_of_finish_eq_error h
    rw [Nat.zero_add] at hend
    refine ⟨Nat.le_of_eq hend, ⟨r, ?_⟩, fun hlt => absurd hend (Nat.ne_of_lt hlt)⟩
    rw [hend, List.take_length]
    exact hfeed

/-- A text that has been taken has no fault but at its end. -/
theorem read_of_feed_eq_ok (h : start.feed 0 s = .ok r) :
    (∃ p, start.read 0 s = .ok p) ∨ ∃ e, start.read 0 s = .error e ∧ e.offset = s.length := by
  rw [read_eq, h]
  cases hfinish : r.finish (0 + s.length) with
  | ok p => exact .inl ⟨p, hfinish⟩
  | error e =>
    have hend : e.offset = 0 + s.length := offset_of_finish_eq_error hfinish
    rw [Nat.zero_add] at hend
    exact .inr ⟨e, hfinish, hend⟩

end Reader

/-! ### Patterns -/

namespace Term

/-- A text is rejected only if the grammar does not derive it, and then with the place of its first
fault.  What is in front of that place is either a pattern or lacks something at its end, and unless
the fault is that the text ends, every longer text has the same fault at the same place. -/
theorem offset_of_parse_eq_error {input : String} {e : ParseError} (h : parse input = .error e) :
    (∀ p, ¬ Grammar.Derives input.toList p) ∧
    e.input = input ∧ e.offset ≤ input.length ∧
    ((∃ t, parse (String.ofList (input.toList.take e.offset)) = .ok t) ∨
      ∃ e', parse (String.ofList (input.toList.take e.offset)) = .error e' ∧ e'.offset = e.offset) ∧
    (e.offset < input.length →
      ∀ s : String, parse (input ++ s) = .error { e with input := input ++ s }) := by
  obtain ⟨hread, hinput⟩ := parse_eq_error_iff.mp h
  obtain ⟨hle, ⟨r, htake⟩, hlater⟩ := Reader.read_eq_error hread
  rw [String.length_toList] at hle hlater
  refine ⟨fun p hp => ?_, hinput, hle, ?_, fun hlt s => ?_⟩
  · rw [Reader.read_of_derives hp] at hread
    contradiction
  · have hlength : (input.toList.take e.offset).length = e.offset := by
      rw [List.length_take, String.length_toList]
      exact Nat.min_eq_left hle
    rcases Reader.read_of_feed_eq_ok htake with ⟨p, hp⟩ | ⟨e', he', hoffset⟩
    · refine .inl ⟨p.term, parse_eq_ok_iff.mpr ⟨p, ?_, rfl⟩⟩
      rwa [String.toList_ofList]
    · refine .inr ⟨⟨e', _⟩, parse_eq_error_iff.mpr ⟨?_, rfl⟩, hoffset.trans hlength⟩
      rwa [String.toList_ofList]
  · refine parse_eq_error_iff.mpr ⟨?_, rfl⟩
    rw [String.toList_append]
    exact hlater hlt s.toList

/-- Counts in the wrong order are reported at their brace.  In front of it stands a pattern, and
nothing that comes behind them helps. -/
theorem offset_of_parse_eq_error_invalidRepetition :
    parse "a\x7b3,2\x7d" = .error ⟨⟨.invalidRepetition 3 2, 1⟩, "a\x7b3,2\x7d"⟩ ∧
    ((∃ t, parse "a" = .ok t) ∨ ∃ e, parse "a" = .error e ∧ e.offset = 1) ∧
    ∀ s : String, parse ("a\x7b3,2\x7d" ++ s) =
      .error ⟨⟨.invalidRepetition 3 2, 1⟩, "a\x7b3,2\x7d" ++ s⟩ := by
  have herror : parse "a\x7b3,2\x7d" =
      .error ⟨⟨.invalidRepetition 3 2, 1⟩, "a\x7b3,2\x7d"⟩ :=
    parse_eq_error_iff.mpr ⟨rfl, rfl⟩
  obtain ⟨-, -, -, hbefore, hlonger⟩ := offset_of_parse_eq_error herror
  exact ⟨herror, hbefore, hlonger (by decide)⟩

end Term

end ExtendedRegex
