import Ostinato.Binary64.Decimal
import Ostinato.Time.Span

/-!
# Clock time

Nanoseconds on the shared clock, their reading in seconds, and the stretching of a duration by a
playback rate. Seconds and rates are floating-point values, so each conversion rounds.

## Main definitions

* `ClockTime.ofSeconds`, `ClockTime.toSeconds`, `ClockTime.ofMillis`: other readings of the clock.
* `ClockTime.scale`, `ClockTime.unscale`: the time played in a duration at a rate, and back.
* `ClockTime.write`: seconds with three places.
* `ClockTime.writeExact`: every place, in a unit that suits the time.

## Main results

* `ClockTime.scale_one`, `ClockTime.unscale_one`: at rate one nothing is stretched, for durations
  below `exactLimit`.
-/

namespace Ostinato.ClockTime

/-- The nearest clock time to a floating-point number of nanoseconds, within the range. -/
def nearest (nanoseconds : Binary64) : ClockTime :=
  ⟨nanoseconds.roundUpTo maxCount, nanoseconds.roundUpTo_le maxCount⟩

/-- The nearest clock time to a number of seconds; a negative number gives zero. -/
def ofSeconds (seconds : Binary64) : ClockTime :=
  nearest (seconds * Binary64.ofNat perSecond)

/-- A number of milliseconds. -/
def ofMillis (millis : Nat) : ClockTime :=
  Span.ofNat (millis * 1000000)

/-- The clock time in seconds. -/
def toSeconds (time : ClockTime) : Binary64 :=
  Binary64.ofNat time.val / Binary64.ofNat perSecond

/-- The time played in a duration at a playback rate. -/
def scale (duration : ClockTime) (rate : Binary64) : ClockTime :=
  nearest (Binary64.ofNat duration.val * rate)

/-- The duration in which a time is played at a playback rate. -/
def unscale (played : ClockTime) (rate : Binary64) : ClockTime :=
  nearest (Binary64.ofNat played.val / rate)

/-- The time in seconds with three places. -/
def write (time : ClockTime) : String :=
  time.toSeconds.writeFixed 3 ++ "s"

/-- The time with every place, in the largest of four units that it fills. -/
def writeExact (time : ClockTime) : String :=
  if 1000000000 ≤ time.val then places 9 ++ "s"
  else if 1000000 ≤ time.val then places 6 ++ "ms"
  else if 1000 ≤ time.val then places 3 ++ "µs"
  else places 0 ++ "ns"
where
  /-- The text of the time over a power of ten. -/
  places (exponent : Int) : String :=
    String.ofList (Decimal.write ⟨time.val, -exponent⟩)

theorem nearest_ofNat {time : ClockTime} (h : time.val < exactLimit) :
    nearest (Binary64.ofNat time.val) = time :=
  Span.ext (Binary64.roundUpTo_ofNat h time.val_le)

/-- At rate one a duration is played as it is. -/
theorem scale_one {duration : ClockTime} (h : duration.val < exactLimit) :
    duration.scale Binary64.one = duration := by
  rw [scale, Binary64.ofNat_eq_finite h, Binary64.mul_one, ← Binary64.ofNat_eq_finite h,
    nearest_ofNat h]

/-- At rate one a time is played in a duration of the same length. -/
theorem unscale_one {played : ClockTime} (h : played.val < exactLimit) :
    played.unscale Binary64.one = played := by
  rw [unscale, Binary64.ofNat_eq_finite h, Binary64.div_one, ← Binary64.ofNat_eq_finite h,
    nearest_ofNat h]

end Ostinato.ClockTime
