import Ostinato.Text.Blank
import Ostinato.Time.Clock
import Ostinato.Time.Meter

/-!
# Written durations

Durations are written as notes (`4n`), triplets (`8t`), dotted notes (`8n.`), measures (`2m`), ticks
(`480i`) or seconds (`0.5s`, or `0.5`). The last characters decide which of these a text is; blanks
around it do not count.

## Main definitions

* `Duration`: a written duration.
* `Duration.toTicks`, `Duration.toClock`: its length under a meter.
* `Duration.read`, `Duration.write`: its text.
* `DurationError`: why a text is not a duration.
-/

namespace Ostinato

/-- A duration as it is written. -/
inductive Duration
  | note (value : UInt16)
  | triplet (value : UInt16)
  | dotted (value : UInt16)
  | measures (count : UInt32)
  | ticks (count : Ticks)
  | seconds (amount : Binary64)
  deriving DecidableEq

/-- Why a text is not a duration. -/
inductive DurationError
  | empty
  | invalid (text : String)
  | zeroNoteValue (text : String)
  deriving DecidableEq

/-- The wording of an error. -/
def DurationError.message : DurationError → String
  | .empty => "Empty time notation"
  | .invalid text => "Invalid time notation '" ++ text ++ "'"
  | .zeroNoteValue text => "Note value must be greater than zero in '" ++ text ++ "'"

namespace Duration

/-! ### Length -/

/-- The length in ticks: a triplet is two thirds of its note, a dotted note three halves. -/
def toTicks (meter : Meter) : Duration → Ticks
  | .note value => Ticks.ofNoteValue value.toNat
  | .triplet value => Ticks.ofNoteValue value.toNat * 2 / 3
  | .dotted value => Ticks.ofNoteValue value.toNat * 3 / 2
  | .measures count => meter.signature.barTicks * count.toNat
  | .ticks count => count
  | .seconds amount => meter.toTicks (ClockTime.ofSeconds amount)

/-- The length in clock time, in which seconds are not rounded to ticks. -/
def toClock (meter : Meter) : Duration → ClockTime
  | .seconds amount => ClockTime.ofSeconds amount
  | duration => meter.toClock (duration.toTicks meter)

/-! ### Text -/

/-- Reads the note value of `word` from the part of it before the suffix. -/
def readNoteValue (word digits : List Char) : Except DurationError UInt16 :=
  match readCount? (UInt16.size - 1) digits with
  | none => .error (.invalid (String.ofList word))
  | some 0 => .error (.zeroNoteValue (String.ofList word))
  | some value => .ok (UInt16.ofNat value)

/-- Reads the seconds of `word` from the part of it before the suffix: a finite number, not below
zero. -/
def readSeconds (word digits : List Char) : Except DurationError Duration :=
  match Binary64.read? digits with
  | some amount =>
    if amount.isFinite ∧ Binary64.zero.le amount then .ok (.seconds amount)
    else .error (.invalid (String.ofList word))
  | none => .error (.invalid (String.ofList word))

/-- Reads a text that is not empty and has no blanks around it. -/
def readWord (word : List Char) : Except DurationError Duration :=
  match word.reverse with
  | '.' :: 'n' :: digits => (readNoteValue word digits.reverse).map .dotted
  | 'n' :: digits => (readNoteValue word digits.reverse).map .note
  | 't' :: digits => (readNoteValue word digits.reverse).map .triplet
  | 'm' :: digits =>
    match readCount? (UInt32.size - 1) digits.reverse with
    | some count => .ok (.measures (UInt32.ofNat count))
    | none => .error (.invalid (String.ofList word))
  | 'i' :: digits =>
    match readCount? maxCount digits.reverse with
    | some count => .ok (.ticks (Span.ofNat count))
    | none => .error (.invalid (String.ofList word))
  | 's' :: digits => readSeconds word digits.reverse
  | _ => readSeconds word word

/-- Reads a text. -/
def read (text : String) : Except DurationError Duration :=
  match trimBlanks text.toList with
  | [] => .error .empty
  | word => readWord word

/-- The text of a duration. -/
def write : Duration → String
  | .note value => String.ofList (natDigits value.toNat) ++ "n"
  | .triplet value => String.ofList (natDigits value.toNat) ++ "t"
  | .dotted value => String.ofList (natDigits value.toNat) ++ "n."
  | .measures count => String.ofList (natDigits count.toNat) ++ "m"
  | .ticks count => count.write
  | .seconds amount => amount.write ++ "s"

end Duration

end Ostinato
