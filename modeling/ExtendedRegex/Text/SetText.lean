/-
How sets of symbols are written.

Each algebra has two forms.  The compact one is for reading: a full range set is
a dot, any other one lists its intervals in brackets, and a mask is its number.
The structural one names every part of the value, so that it shows how the set
is stored.
-/
import ExtendedRegex.Mask
import ExtendedRegex.RangeSet
import ExtendedRegex.Text.Quoted

universe u

namespace ExtendedRegex

/-- Sets that have a compact and a structural written form. -/
class SetText (S : Type u) where
  /-- The form for reading. -/
  compact : S → String
  /-- The form that shows how the set is stored. -/
  structural : S → String

section Ranges

variable {α : Type u} [Alphabet α] [Spelled α]

/-- A single symbol, or the two ends with a hyphen between them. -/
def Interval.compact (i : Interval α) : String :=
  if i.start = i.stop then spell i.start else spell i.start ++ "-" ++ spell i.stop

def Interval.structural (i : Interval α) : String :=
  "Range \x7b start: " ++ spell i.start ++ ", end: " ++ spell i.stop ++ " \x7d"

def RangeSet.compact (s : RangeSet α) : String :=
  if s.isFull then "." else "[" ++ String.join (s.ranges.map Interval.compact) ++ "]"

def RangeSet.structural (s : RangeSet α) : String :=
  "Class \x7b ranges: [" ++ ", ".intercalate (s.ranges.map Interval.structural) ++ "] \x7d"

instance : SetText (RangeSet α) := ⟨RangeSet.compact, RangeSet.structural⟩

end Ranges

instance : SetText Mask := ⟨fun m => toString m.toNat, fun m => toString m.toNat⟩

end ExtendedRegex
