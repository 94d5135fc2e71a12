import Ostinato.Time.Meter

/-!
# The grid of a pattern

The slots of a root lie on a grid: one subdivision apart, from a start offset on.

## Main definitions

* `Grid`: a meter, a subdivision and a start offset.
* `Grid.ticks`, `Grid.time`: where the slot with an index starts.
* `Grid.endTime`: where a loop that ends at an index ends.
-/

namespace Ostinato

/-- Where the slots of a root start. -/
structure Grid where
  meter : Meter
  subdivision : Ticks
  startOffset : Ticks
  deriving DecidableEq

namespace Grid

/-- The offset of the slot with an index. -/
def ticks (grid : Grid) (index : Nat) : Ticks :=
  grid.subdivision * index + grid.startOffset

/-- The clock time of the slot with an index. -/
def time (grid : Grid) (index : Nat) : ClockTime :=
  grid.meter.toClock (grid.ticks index)

/-- The clock time at which a loop ends; the index zero stands for the end of a root of the given
length. -/
def endTime (grid : Grid) (index length : Nat) : ClockTime :=
  if index = 0 then grid.time length else grid.time index

end Grid

end Ostinato
