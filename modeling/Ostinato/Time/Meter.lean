import Ostinato.Text.Digits
import Ostinato.Time.Span

/-!
# Meters

A meter is a signature and a tempo: it fixes how many ticks pass in a minute, and so converts
between musical time and clock time. Both conversions round down and stop at the largest span.

## Main definitions

* `Ticks.perWhole`, `Ticks.ofNoteValue`: the ticks of whole notes and of their fractions.
* `Signature`, `Tempo`, `Meter`: how musical time is counted and how fast it passes.
* `Meter.toClock`, `Meter.toTicks`: the conversions.

## Main results

* `Meter.ticksPerMinute_pos`: time passes under every meter.
-/

namespace Ostinato

namespace Ticks

/-- Ticks in a sixteenth note: divisible by the small numbers that notes are divided into. -/
def perSixteenth : Nat :=
  1024 * 81 * 125 * 49

/-- Ticks in a whole note. -/
def perWhole : Nat :=
  16 * perSixteenth

/-- The ticks of the note `1 / value`; a value of zero counts as one. -/
def ofNoteValue (value : Nat) : Ticks :=
  Span.ofNat (perWhole / max value 1)

/-- The text of a number of ticks. -/
def write (ticks : Ticks) : String :=
  String.ofList (natDigits ticks.val) ++ "i"

end Ticks

/-- Beats in a bar and the note that a beat is, at most a sixteenth. -/
structure Signature where
  beats : UInt8
  noteValue : UInt8
  noteValue_pos : 0 < noteValue.toNat := by decide
  noteValue_le : noteValue.toNat ≤ 16 := by decide
  deriving DecidableEq

namespace Signature

/-- The signature with the given numbers, if the note is one of `1` to `16`. -/
def ofNumbers? (beats noteValue : UInt8) : Option Signature :=
  if h : 0 < noteValue.toNat ∧ noteValue.toNat ≤ 16 then some ⟨beats, noteValue, h.1, h.2⟩ else none

/-- Four quarters. -/
def common : Signature :=
  { beats := 4, noteValue := 4 }

/-- The ticks of a beat. -/
def beatTicks (signature : Signature) : Ticks :=
  Ticks.ofNoteValue signature.noteValue.toNat

/-- The ticks of a bar. -/
def barTicks (signature : Signature) : Ticks :=
  signature.beatTicks * signature.beats.toNat

end Signature

/-- Beats in a minute. -/
structure Tempo where
  beats : UInt16
  beats_pos : 0 < beats.toNat := by decide
  deriving DecidableEq

namespace Tempo

/-- The tempo of a number of beats, at least one. -/
def ofBeats (beats : UInt16) : Tempo :=
  if h : 0 < beats.toNat then ⟨beats, h⟩ else { beats := 1 }

/-- A hundred and twenty beats. -/
def moderate : Tempo :=
  { beats := 120 }

end Tempo

/-- A signature and a tempo. -/
structure Meter where
  signature : Signature := .common
  tempo : Tempo := .moderate
  deriving DecidableEq

namespace Meter

/-- The ticks that pass in a minute. -/
def ticksPerMinute (meter : Meter) : Nat :=
  Ticks.perWhole / meter.signature.noteValue.toNat * meter.tempo.beats.toNat

theorem ticksPerMinute_pos (meter : Meter) : 0 < meter.ticksPerMinute := by
  refine Nat.mul_pos (Nat.div_pos ?_ meter.signature.noteValue_pos) meter.tempo.beats_pos
  exact Nat.le_trans meter.signature.noteValue_le (by decide)

/-- The clock time at which a number of ticks has passed. -/
def toClock (meter : Meter) (ticks : Ticks) : ClockTime :=
  Span.ofNat (ticks.val * ClockTime.perMinute / meter.ticksPerMinute)

/-- The ticks that have passed at a clock time. -/
def toTicks (meter : Meter) (time : ClockTime) : Ticks :=
  Span.ofNat (time.val * meter.ticksPerMinute / ClockTime.perMinute)

end Meter

end Ostinato
