/-
The compact text of a term over sets of characters says which term it is.

* `Delimits`: a text shows where it ends, whatever stands behind it;
* `StandsFor`: what may stand for a character between quotes;
* `Quotes`: a way to write characters that keeps to this, such as `Text.quote`;
* `delimits_ranges`: texts of range sets, over symbols that are quoted;
* `delimits_members`: texts of members with commas between them and a parenthesis behind them;
* `delimits_compact`, `compact_injective`: texts of terms.

Design notes: nothing is read back.  Two texts that agree, each with something behind it, are
compared from the front, where the first characters tell the kind of a term (`kindOf`) and a part
that shows where it ends can be taken off from both.  The text of a single symbol may go on as that
of an interval, so the intervals of a set are compared together with the bracket behind them.
-/
import ExtendedRegex.Proofs.Grammar
import ExtendedRegex.Proofs.Order
import ExtendedRegex.Term.Text
import Mathlib.Data.List.Basic

universe u v

namespace ExtendedRegex

/-- If the texts of `x` and `y` agree, each with something behind it, then the two are equal, and so
is what stands behind. -/
def Delimits {β : Type v} (write : β → List Char) (x y : β) : Prop :=
  ∀ s s', write x ++ s = write y ++ s' → x = y ∧ s = s'

/-! ### Characters -/

namespace Grammar

variable {m n d : Nat} {c : Char} {s s' t t' : List Char}

theorem Digit.ne_brace (h : Digit 16 c d) : c ≠ '\x7d' := by
  have hdigits : ∀ d < 16, d.digitChar ≠ '\x7d' ∧ d.digitChar.toUpper ≠ '\x7d' := by decide
  obtain ⟨hd, rfl | rfl⟩ := h
  · exact (hdigits d hd).1
  · exact (hdigits d hd).2

theorem Numeral.brace_not_mem (h : Numeral 16 s n) : '\x7d' ∉ s := by
  induction h with
  | nil => exact List.not_mem_nil
  | snoc h hc ih => simp [ih, hc.ne_brace.symm]

/-- The digits of a number end at the first brace. -/
theorem Numeral.of_append_brace (h : Numeral 16 s m) (h' : Numeral 16 s' n)
    (heq : s ++ '\x7d' :: t = s' ++ '\x7d' :: t') : m = n ∧ t = t' := by
  have hlength : s.length = s'.length := by
    have hindex := congrArg (List.idxOf '\x7d') heq
    rwa [List.idxOf_append_of_notMem h.brace_not_mem, List.idxOf_append_of_notMem h'.brace_not_mem,
      List.idxOf_cons_self, List.idxOf_cons_self] at hindex
  obtain ⟨rfl, hrest⟩ := List.append_inj heq hlength
  exact ⟨h.unique h', (List.cons.inj hrest).2⟩

end Grammar

namespace Text

open Grammar (Numeral numeral_toDigits)

/-- The letters of the short escapes, and what they stand for behind a backslash. -/
def shortEscapes : List (Char × Char) :=
  [('0', '\x00'), ('t', '\t'), ('n', '\n'), ('r', '\r'), ('\\', '\\'), ('\x27', '\x27')]

/-- What may stand for a character between single quotes: the character itself, unless it is the
backslash or the quote; a short escape; or its code point in hexadecimal. -/
inductive StandsFor (c : Char) : List Char → Prop where
  | itself (hbackslash : c ≠ '\\') (hquote : c ≠ '\x27') : StandsFor c [c]
  | short {x : Char} (h : shortEscapes.lookup x = some c) : StandsFor c ['\\', x]
  | codePoint {s : List Char} (h : Numeral 16 s c.toNat) :
      StandsFor c ('\\' :: 'u' :: '\x7b' :: (s ++ ['\x7d']))

/-- Every character is written between single quotes, by something that may stand for it. -/
def Quotes [Spelled Char] : Prop :=
  ∀ c : Char, ∃ s, StandsFor c s ∧ (spell c).toList = '\x27' :: (s ++ ['\x27'])

theorem standsFor_escape (c : Char) : StandsFor c (escape c).toList := by
  unfold escape
  split_ifs with hnul htab hline hreturn hbackslash hquote hprintable
  · exact .short (by rw [hnul]; rfl)
  · exact .short (by rw [htab]; rfl)
  · exact .short (by rw [hline]; rfl)
  · exact .short (by rw [hreturn]; rfl)
  · exact .short (by rw [hbackslash]; rfl)
  · exact .short (by rw [hquote]; rfl)
  · rw [Char.toString_eq_singleton, String.toList_singleton]
    exact .itself hbackslash hquote
  · have hnumeral : Numeral 16 (Nat.toDigits 16 c.toNat) c.toNat := numeral_toDigits (by decide) _
    have hescape : (codePointEscape c).toList =
        '\\' :: 'u' :: '\x7b' :: (Nat.toDigits 16 c.toNat ++ ['\x7d']) := by
      simp [codePointEscape]
    rw [hescape]
    exact .codePoint hnumeral

theorem quotes_quote : Quotes := by
  intro c
  refine ⟨_, standsFor_escape c, ?_⟩
  show (quote c).toList = _
  rw [quote, String.toList_append, String.toList_append]
  rfl

/-- What stands for a character shows where it ends, if a quote stands behind it. -/
theorem StandsFor.unique {c d : Char} {t t' s s' : List Char} (h : StandsFor c t)
    (h' : StandsFor d t') (heq : t ++ '\x27' :: s = t' ++ '\x27' :: s') : c = d ∧ s = s' := by
  cases h with
  | itself hbackslash =>
    cases h' with
    | itself => simpa using heq
    | short => exact absurd (List.cons.inj heq).1 hbackslash
    | codePoint => exact absurd (List.cons.inj heq).1 hbackslash
  | short hx =>
    cases h' with
    | itself hbackslash => exact absurd (List.cons.inj heq).1.symm hbackslash
    | short hy =>
      simp only [List.cons_append, List.nil_append, List.cons.injEq, true_and] at heq
      obtain ⟨rfl, hrest⟩ := heq
      exact ⟨Option.some.inj (hx.symm.trans hy), hrest⟩
    | codePoint =>
      -- No short escape has the letter of a code point.
      obtain ⟨rfl, -⟩ := List.cons.inj (List.cons.inj heq).2
      contradiction
  | codePoint hs =>
    cases h' with
    | itself hbackslash => exact absurd (List.cons.inj heq).1.symm hbackslash
    | short hy =>
      obtain ⟨rfl, -⟩ := List.cons.inj (List.cons.inj heq).2
      contradiction
    | codePoint hs' =>
      simp only [List.cons_append, List.nil_append, List.append_assoc, List.cons.injEq,
        true_and] at heq
      obtain ⟨hcode, hrest⟩ := hs.of_append_brace hs' heq
      exact ⟨Char.toNat_inj.mp hcode, (List.cons.inj hrest).2⟩

end Text

/-! ### Sets of symbols -/

/-- The text of every symbol starts with a quote and shows where it ends. -/
structure Quoted (α : Type u) [Spelled α] : Prop where
  head (a : α) : ∃ r, (spell a).toList = '\x27' :: r
  delimits (a b : α) : Delimits (fun a : α => (spell a).toList) a b

theorem Text.Quotes.quoted [Spelled Char] (h : Text.Quotes) : Quoted Char where
  head c := by
    obtain ⟨s, -, hs⟩ := h c
    exact ⟨_, hs⟩
  delimits c d := by
    intro s s' heq
    obtain ⟨t, ht, hc⟩ := h c
    obtain ⟨t', ht', hd⟩ := h d
    simp only [hc, hd, List.cons_append, List.nil_append, List.append_assoc, List.cons.injEq,
      true_and] at heq
    exact ht.unique ht' heq

section Ranges

variable {α : Type u} [Alphabet α] [Spelled α] {i j : Interval α} {is js : List (Interval α)}
  {s s' : List Char}

theorem toList_compact_interval (i : Interval α) : i.compact.toList = (spell i.start).toList ++
    if i.start = i.stop then [] else '-' :: (spell i.stop).toList := by
  rw [Interval.compact]
  split
  · rw [List.append_nil]
  · rw [String.toList_append, String.toList_append, List.append_assoc]
    rfl

/-- The texts of some intervals, one behind the other. -/
def intervalsText (is : List (Interval α)) : List Char := is.flatMap fun i => i.compact.toList

theorem intervalsText_cons : intervalsText (i :: is) ++ s = (spell i.start).toList ++
    ((if i.start = i.stop then [] else '-' :: (spell i.stop).toList) ++ (intervalsText is ++ s)) := by
  rw [intervalsText, List.flatMap_cons, toList_compact_interval, List.append_assoc,
    List.append_assoc]
  rfl

/-- An interval starts with a quote. -/
theorem ne_intervalsText_cons (h : Quoted α) {c : Char} (hc : c ≠ '\x27') :
    c :: s' ≠ intervalsText (i :: is) ++ s := by
  obtain ⟨r, hr⟩ := h.head i.start
  rw [intervalsText_cons, hr]
  exact fun heq => hc (List.cons.inj heq).1

/-- Behind a single symbol, no interval goes on. -/
theorem ne_hyphen_cons (h : Quoted α) : '-' :: s' ≠ intervalsText is ++ ']' :: s := by
  cases is with
  | nil => exact fun heq => absurd (List.cons.inj heq).1 (by decide)
  | cons i is => exact ne_intervalsText_cons h (by decide)

theorem delimits_intervals (h : Quoted α)
    (heq : intervalsText is ++ ']' :: s = intervalsText js ++ ']' :: s') : is = js ∧ s = s' := by
  induction is generalizing js with
  | nil =>
    cases js with
    | nil => exact ⟨rfl, (List.cons.inj heq).2⟩
    | cons j js => exact absurd heq (ne_intervalsText_cons h (by decide))
  | cons i is ih =>
    cases js with
    | nil => exact absurd heq.symm (ne_intervalsText_cons h (by decide))
    | cons j js =>
      rw [intervalsText_cons, intervalsText_cons] at heq
      obtain ⟨hstart, hrest⟩ := h.delimits _ _ _ _ heq
      -- A hyphen behind the start tells an interval from a single symbol.
      split_ifs at hrest with hi hj hj
      · have hstop : i.stop = j.stop := by rw [← hi, ← hj, hstart]
        obtain ⟨rfl, rfl⟩ := ih hrest
        exact ⟨by rw [Interval.ext hstart hstop], rfl⟩
      · exact absurd hrest.symm (ne_hyphen_cons h)
      · exact absurd hrest (ne_hyphen_cons h)
      · obtain ⟨hstop, hrest⟩ := h.delimits _ _ _ _ (List.cons.inj hrest).2
        obtain ⟨rfl, rfl⟩ := ih hrest
        exact ⟨by rw [Interval.ext hstart hstop], rfl⟩

variable {t u : RangeSet α}

theorem toList_compact_ranges (t : RangeSet α) :
    t.compact.toList = if t.isFull then ['.'] else '[' :: (intervalsText t.ranges ++ [']']) := by
  rw [RangeSet.compact]
  split
  · rfl
  · rw [String.toList_append, String.toList_append, String.toList_join, List.flatMap_map]
    rfl

theorem delimits_ranges [LawfulAlphabet α] (h : Quoted α) :
    Delimits (fun t : RangeSet α => t.compact.toList) t u := by
  intro s s' heq
  simp only [toList_compact_ranges] at heq
  split_ifs at heq with ht hu hu
  · refine ⟨RangeSet.ext fun a => ?_, (List.cons.inj heq).2⟩
    exact iff_of_true (RangeSet.isFull_iff.mp ht a) (RangeSet.isFull_iff.mp hu a)
  · exact absurd (List.cons.inj heq).1 (by decide)
  · exact absurd (List.cons.inj heq).1 (by decide)
  · simp only [List.cons_append, List.nil_append, List.append_assoc, List.cons.injEq,
      true_and] at heq
    obtain ⟨hranges, hrest⟩ := delimits_intervals h heq
    exact ⟨RangeSet.ranges_injective hranges, hrest⟩

end Ranges

/-! ### Terms -/

namespace Term

variable {α : Type u} [Alphabet α] [Spelled α] {t u : Term (RangeSet α)}
  {ts us : List (Term (RangeSet α))} {s s' : List Char}

/-- The characters of the text of a term. -/
def text (t : Term (RangeSet α)) : List Char := t.compact.toList

/-- What stands behind a member: the other ones, each behind a comma, and a parenthesis. -/
def afterMember : List (Term (RangeSet α)) → List Char
  | [] => [')']
  | t :: ts => [',', ' '] ++ (text t ++ afterMember ts)

/-- The texts of some members and the parenthesis behind them. -/
def membersText : List (Term (RangeSet α)) → List Char
  | [] => [')']
  | t :: ts => text t ++ afterMember ts

theorem compactEach_eq_map : compactEach ts = ts.map compact := by
  induction ts with
  | nil => rfl
  | cons t ts ih => rw [compactEach, ih, List.map_cons]

theorem intercalate_append :
    [',', ' '].intercalate ((t :: ts).map text) ++ [')'] = text t ++ afterMember ts := by
  induction ts generalizing t with
  | nil => simp [afterMember]
  | cons u ts ih =>
    have ih : [',', ' '].intercalate (text u :: ts.map text) ++ [')'] = text u ++ afterMember ts := ih
    rw [List.map_cons, List.map_cons, List.intercalate_cons_cons, List.append_assoc,
      List.append_assoc, ih, afterMember]

theorem toList_commas : (commas (compactEach ts)).toList ++ [')'] = membersText ts := by
  rw [commas, String.toList_intercalate, compactEach_eq_map, List.map_map]
  cases ts with
  | nil => rfl
  | cons t ts => exact intercalate_append

theorem text_eps : text (eps : Term (RangeSet α)) = ['E', 'p', 's'] := by
  rw [text, compact]
  rfl

theorem text_empty : text (empty : Term (RangeSet α)) = ['E', 'm', 'p', 't', 'y'] := by
  rw [text, compact]
  rfl

theorem text_all : text (all : Term (RangeSet α)) = ['A', 'l', 'l'] := by
  rw [text, compact]
  rfl

theorem text_literal {set : RangeSet α} : text (literal set) = set.compact.toList := by
  rw [text, compact]
  rfl

theorem text_alt : text (alt ts) = ['A', 'l', 't', '('] ++ membersText ts := by
  rw [text, compact, String.toList_append, String.toList_append, List.append_assoc]
  exact congrArg _ toList_commas

theorem text_seq : text (seq ts) = ['S', 'e', 'q', '('] ++ membersText ts := by
  rw [text, compact, String.toList_append, String.toList_append, List.append_assoc]
  exact congrArg _ toList_commas

theorem text_inter : text (inter ts) = ['A', 'n', 'd', '('] ++ membersText ts := by
  rw [text, compact, String.toList_append, String.toList_append, List.append_assoc]
  exact congrArg _ toList_commas

theorem text_compl : text (compl t) = ['N', 'o', 't', '('] ++ membersText [t] := by
  rw [text, compact, String.toList_append, String.toList_append, List.append_assoc]
  rfl

theorem text_star : text (star t) = ['S', 't', 'a', 'r', '('] ++ membersText [t] := by
  rw [text, compact, String.toList_append, String.toList_append, List.append_assoc]
  rfl

/-- The kind of the term that a text starts with, as its first characters tell it. -/
def kindOf : List Char → Option Nat
  | 'E' :: 'p' :: _ => some 0
  | 'E' :: 'm' :: _ => some 1
  | 'A' :: 'l' :: 'l' :: _ => some 2
  | '.' :: _ => some 3
  | '[' :: _ => some 3
  | 'A' :: 'l' :: 't' :: _ => some 4
  | 'S' :: 'e' :: _ => some 5
  | 'A' :: 'n' :: _ => some 6
  | 'N' :: _ => some 7
  | 'S' :: 't' :: _ => some 8
  | _ => none

theorem kindOf_text : kindOf (text t ++ s) = some t.kind := by
  cases t with
  | eps => rw [text_eps]; rfl
  | empty => rw [text_empty]; rfl
  | all => rw [text_all]; rfl
  | literal set =>
    rw [text_literal, toList_compact_ranges]
    split <;> rfl
  | alt ts => rw [text_alt]; rfl
  | seq ts => rw [text_seq]; rfl
  | inter ts => rw [text_inter]; rfl
  | compl t => rw [text_compl]; rfl
  | star t => rw [text_star]; rfl

/-- No term starts with the parenthesis behind the members. -/
theorem ne_text : ')' :: s' ≠ text t ++ s := fun heq => by
  have hkind : kindOf (')' :: s') = some t.kind := by rw [heq, kindOf_text]
  contradiction

theorem delimits_afterMember (h : ∀ t ∈ ts, ∀ u ∈ us, Delimits text t u) :
    Delimits afterMember ts us := by
  intro s s' heq
  induction ts generalizing us with
  | nil =>
    cases us with
    | nil => exact ⟨rfl, (List.cons.inj heq).2⟩
    | cons u us => exact absurd (List.cons.inj heq).1 (by decide)
  | cons t ts ih =>
    cases us with
    | nil => exact absurd (List.cons.inj heq).1 (by decide)
    | cons u us =>
      simp only [afterMember, List.append_assoc, List.append_cancel_left_eq] at heq
      obtain ⟨rfl, hafter⟩ := h t (List.mem_cons_self ..) u (List.mem_cons_self ..) _ _ heq
      obtain ⟨rfl, hrest⟩ := ih
        (fun t ht u hu => h t (List.mem_cons_of_mem _ ht) u (List.mem_cons_of_mem _ hu)) hafter
      exact ⟨rfl, hrest⟩

/-- The texts of members show where the members end, if the text of each one does. -/
theorem delimits_members (h : ∀ t ∈ ts, ∀ u ∈ us, Delimits text t u) :
    Delimits membersText ts us := by
  intro s s' heq
  cases ts with
  | nil =>
    cases us with
    | nil => exact ⟨rfl, (List.cons.inj heq).2⟩
    | cons u us => exact absurd (heq.trans (List.append_assoc ..)) ne_text
  | cons t ts =>
    cases us with
    | nil => exact absurd (heq.symm.trans (List.append_assoc ..)) ne_text
    | cons u us =>
      rw [membersText, membersText, List.append_assoc, List.append_assoc] at heq
      obtain ⟨rfl, hafter⟩ := h t (List.mem_cons_self ..) u (List.mem_cons_self ..) _ _ heq
      obtain ⟨rfl, hrest⟩ := delimits_afterMember
        (fun t ht u hu => h t (List.mem_cons_of_mem _ ht) u (List.mem_cons_of_mem _ hu)) _ _ hafter
      exact ⟨rfl, hrest⟩

/-- So do members between a name and a parenthesis. -/
theorem eq_of_enclosed {name : List Char} (h : ∀ t ∈ ts, ∀ u ∈ us, Delimits text t u)
    (heq : name ++ membersText ts ++ s = name ++ membersText us ++ s') : ts = us ∧ s = s' := by
  rw [List.append_assoc, List.append_assoc] at heq
  exact delimits_members h s s' (List.append_cancel_left heq)

variable [LawfulAlphabet α]

/-- The text of a term shows where it ends, whatever stands behind it. -/
theorem delimits_compact (h : Quoted α) : Delimits text t u := by
  -- Terms of unlike kind differ in their first characters.  With the kind, the name in front of the
  -- contents is known, and can be taken off.
  induction t, u using kindInduction with
  | unlike t u hkind =>
    intro s s' heq
    have hkinds : some t.kind = some u.kind := by rw [← kindOf_text, heq, kindOf_text]
    exact absurd (Option.some.inj hkinds) hkind
  | eps => exact fun s s' heq => ⟨rfl, List.append_cancel_left heq⟩
  | empty => exact fun s s' heq => ⟨rfl, List.append_cancel_left heq⟩
  | all => exact fun s s' heq => ⟨rfl, List.append_cancel_left heq⟩
  | literal a b =>
    intro s s' heq
    rw [text_literal, text_literal] at heq
    obtain ⟨rfl, hrest⟩ := delimits_ranges h _ _ heq
    exact ⟨rfl, hrest⟩
  | alt ts us ih =>
    intro s s' heq
    rw [text_alt, text_alt] at heq
    obtain ⟨rfl, hrest⟩ := eq_of_enclosed (fun t ht u _ => ih t ht u) heq
    exact ⟨rfl, hrest⟩
  | seq ts us ih =>
    intro s s' heq
    rw [text_seq, text_seq] at heq
    obtain ⟨rfl, hrest⟩ := eq_of_enclosed (fun t ht u _ => ih t ht u) heq
    exact ⟨rfl, hrest⟩
  | inter ts us ih =>
    intro s s' heq
    rw [text_inter, text_inter] at heq
    obtain ⟨rfl, hrest⟩ := eq_of_enclosed (fun t ht u _ => ih t ht u) heq
    exact ⟨rfl, hrest⟩
  | compl t u ih =>
    intro s s' heq
    rw [text_compl, text_compl] at heq
    obtain ⟨hbody, hrest⟩ := eq_of_enclosed (by simpa using ih) heq
    exact ⟨congrArg compl (List.cons.inj hbody).1, hrest⟩
  | star t u ih =>
    intro s s' heq
    rw [text_star, text_star] at heq
    obtain ⟨hbody, hrest⟩ := eq_of_enclosed (by simpa using ih) heq
    exact ⟨congrArg star (List.cons.inj hbody).1, hrest⟩

/-- **Compact texts are unambiguous.**  However characters are written between their quotes, as long
as the backslash and the quote are escaped, two terms over sets of characters with one text are
equal. -/
theorem compact_injective [Spelled Char] (h : Text.Quotes) :
    Function.Injective (compact : Term (RangeSet Char) → String) := by
  intro t u htext
  have hchars : text t ++ [] = text u ++ [] := by rw [text, text, htext]
  exact (delimits_compact h.quoted [] [] hchars).1

/-- Among the ways to write characters is the one that shows the printable ones as they are. -/
theorem compact_injective_quote :
    Text.Quotes ∧ Function.Injective (compact : Term (RangeSet Char) → String) :=
  ⟨Text.quotes_quote, compact_injective Text.quotes_quote⟩

end Term

end ExtendedRegex
