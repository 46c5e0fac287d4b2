/-
Intervals of an ordered alphabet, with both ends included.

* `Interval.ofEnds` takes the two ends in either order;
* `Interval.Apart i j` says that a symbol lies strictly between `i` and a later
  `j`, so the two neither overlap nor touch; `touches_iff` decides it by one step
  back from the start of `j`;
* `Interval.extend` goes on to the end of a later interval, and `mem_extend` says
  that it adds nothing when the two overlap or touch;
* `Interval.overlap?` is the interval of the common symbols.
-/
import ExtendedRegex.Alphabet

universe u

namespace ExtendedRegex

/-- The symbols from `start` to `stop`, both included. -/
@[ext]
structure Interval (α : Type u) [Alphabet α] where
  start : α
  stop : α
  start_le_stop : start ≤ stop
  deriving DecidableEq

namespace Interval

open Alphabet (earlier later later_le le_earlier le_later)

variable {α : Type u} [Alphabet α]

instance : Membership α (Interval α) := ⟨fun i a => i.start ≤ a ∧ a ≤ i.stop⟩

theorem mem_iff {i : Interval α} {a : α} : a ∈ i ↔ i.start ≤ a ∧ a ≤ i.stop := Iff.rfl

instance (a : α) (i : Interval α) : Decidable (a ∈ i) :=
  inferInstanceAs (Decidable (i.start ≤ a ∧ a ≤ i.stop))

/-- Intervals are ordered by their starts, and by their stops where these agree. -/
instance : Ord (Interval α) := ⟨compareLex (compareOn Interval.start) (compareOn Interval.stop)⟩

/-- There is a symbol strictly between `i` and a later `j`. -/
def Apart (i j : Interval α) : Prop := ∃ a, i.stop < a ∧ a < j.start

/-- Whether no symbol is missing between `i` and an interval `j` that starts no earlier. -/
def touches (i j : Interval α) : Bool :=
  match prev? j.start with
  | none => true
  | some b => decide (b ≤ i.stop)

/-- The common symbols of two intervals. -/
def overlap? (i j : Interval α) : Option (Interval α) :=
  if h : later i.start j.start ≤ earlier i.stop j.stop then some ⟨_, _, h⟩ else none

theorem of_overlap?_eq_some {i j k : Interval α} (h : i.overlap? j = some k) :
    k.start = later i.start j.start ∧ k.stop = earlier i.stop j.stop := by
  unfold overlap? at h
  split at h
  · obtain rfl := Option.some.inj h
    exact ⟨rfl, rfl⟩
  · contradiction

variable [LawfulAlphabet α] {i j k : Interval α} {a : α}

/-- The interval of a single symbol. -/
def single (a : α) : Interval α := ⟨a, a, Std.IsPreorder.le_refl a⟩

/-- The interval between two symbols that are given in either order. -/
def ofEnds (a b : α) : Interval α :=
  if h : a ≤ b then ⟨a, b, h⟩ else ⟨b, a, by grind⟩

/-- The whole alphabet. -/
def whole : Interval α := ⟨Alphabet.first, Alphabet.last, LawfulAlphabet.first_le _⟩

/-- The interval from the start of `i` to the later one of the ends. -/
def extend (i j : Interval α) : Interval α where
  start := i.start
  stop := later i.stop j.stop
  start_le_stop := le_later.2 (.inl i.start_le_stop)

instance : Std.TransOrd (Interval α) :=
  inferInstanceAs (Std.TransCmp (compareLex (compareOn Interval.start) (compareOn Interval.stop)))

instance : Std.LawfulEqOrd (Interval α) where
  compare_self := Std.ReflCmp.compare_self
  eq_of_compare {i j} h := by
    obtain ⟨hstart, hstop⟩ := Ordering.then_eq_eq.1 h
    exact Interval.ext (Std.LawfulEqOrd.eq_of_compare hstart) (Std.LawfulEqOrd.eq_of_compare hstop)

@[simp] theorem mem_single {b : α} : a ∈ single b ↔ a = b := by
  simp only [mem_iff, single]
  grind

@[simp] theorem mem_whole : a ∈ (whole : Interval α) :=
  ⟨LawfulAlphabet.first_le a, LawfulAlphabet.le_last a⟩

/-- The ends may be given in either order. -/
theorem mem_ofEnds {b c : α} : a ∈ ofEnds b c ↔ b ≤ a ∧ a ≤ c ∨ c ≤ a ∧ a ≤ b := by
  unfold ofEnds
  split <;> simp only [mem_iff] <;> grind

theorem touches_iff : i.touches j = true ↔ ¬ Apart i j := by
  unfold touches Apart
  rcases hb : prev? j.start with _ | b
  · have := not_lt_of_prev? hb
    simp [this]
  · have hb' := LawfulAlphabet.lt_iff_of_prev? hb
    simp only [decide_eq_true_eq, not_exists, not_and]
    constructor
    · intro h a ha
      rw [hb']
      grind
    · intro h
      have hlt : ¬ i.stop < b := fun hlt => h b hlt (lt_of_prev? hb)
      grind

theorem Apart.trans (h : Apart i j) (h' : Apart j k) : Apart i k := by
  obtain ⟨a, ha, ha'⟩ := h
  obtain ⟨b, hb, hb'⟩ := h'
  have := j.start_le_stop
  exact ⟨a, ha, by grind⟩

theorem Apart.stop_lt (h : Apart i j) : i.stop < j.start := by
  obtain ⟨a, h, h'⟩ := h
  grind

/-- An interval apart from another is apart from all that start no earlier. -/
theorem Apart.of_start_le (h : Apart i j) (hle : j.start ≤ k.start) : Apart i k := by
  obtain ⟨a, ha, haj⟩ := h
  exact ⟨a, ha, by grind⟩

/-- An interval that overlaps or touches a later one has no symbols of its own when it is extended
to the end of that one. -/
theorem mem_extend (hle : i.start ≤ j.start) (h : ¬ Apart i j) :
    a ∈ i.extend j ↔ a ∈ i ∨ a ∈ j := by
  have hbetween : i.stop < a → ¬ a < j.start := fun ha ha' => h ⟨a, ha, ha'⟩
  simp only [mem_iff, extend, le_later]
  grind

/-- An interval that ends before another starts has no symbol in common with it. -/
theorem overlap?_eq_none (h : i.stop < j.start) : i.overlap? j = none ∧ j.overlap? i = none := by
  have := i.start_le_stop
  have := j.start_le_stop
  constructor <;> refine dif_neg fun hle => ?_ <;> rw [later_le, le_earlier, le_earlier] at hle <;>
    grind

theorem mem_overlap? : (∃ k, i.overlap? j = some k ∧ a ∈ k) ↔ a ∈ i ∧ a ∈ j := by
  constructor
  · rintro ⟨k, h, hk⟩
    obtain ⟨hstart, hstop⟩ := of_overlap?_eq_some h
    rw [mem_iff, hstart, hstop, later_le, le_earlier] at hk
    exact ⟨⟨hk.1.1, hk.2.1⟩, hk.1.2, hk.2.2⟩
  · rintro ⟨⟨hi, hi'⟩, hj, hj'⟩
    have hle : later i.start j.start ≤ a := later_le.2 ⟨hi, hj⟩
    have hle' : a ≤ earlier i.stop j.stop := le_earlier.2 ⟨hi', hj'⟩
    exact ⟨⟨_, _, Std.IsPreorder.le_trans _ _ _ hle hle'⟩, dif_pos _, hle, hle'⟩

end Interval

end ExtendedRegex
