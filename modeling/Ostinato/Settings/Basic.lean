import Ostinato.Part.Modes
import Ostinato.Time.Duration

/-!
# Settings

What can be configured, with the values that hold by default.

## Main definitions

* `TimingSettings`: the meter.
* `SequenceSettings`: how a pattern is laid out and played.
* `PlayerSettings`: what a player plays, and for how long.
* `Settings`, `SessionSettings`: the sections together.
-/

namespace Ostinato

/-- The section for the meter. -/
structure TimingSettings where
  tempo : UInt16 := 120
  beats : UInt8 := 4
  noteValue : UInt8 := 4
  deriving DecidableEq

namespace TimingSettings

/-- The nearest note value that a signature can have. -/
def clampedNoteValue (timing : TimingSettings) : UInt8 :=
  if timing.noteValue.toNat < 1 then 1
  else if 16 < timing.noteValue.toNat then 16
  else timing.noteValue

/-- The meter, of which a note value out of range is moved into it. -/
def meter (timing : TimingSettings) : Meter where
  signature :=
    { beats := timing.beats
      noteValue := timing.clampedNoteValue
      noteValue_pos := by
        unfold clampedNoteValue
        split
        · decide
        · split
          · decide
          · omega
      noteValue_le := by
        unfold clampedNoteValue
        split
        · decide
        · split
          · decide
          · omega }
  tempo := .ofBeats timing.tempo

end TimingSettings

/-- The setting for random deviations: the standard ones or none, or a written duration. -/
inductive HumanizeSetting
  | switch (on : Bool)
  | amount (text : String)
  deriving DecidableEq

/-- The deviations that a setting stands for under a meter. -/
def HumanizeSetting.resolve (meter : Meter) : HumanizeSetting → Except DurationError Humanize
  | .switch on => .ok (.ofBool on)
  | .amount text => (Duration.read text).map fun duration => .upTo (duration.toClock meter)

/-- The section for a sequence. -/
structure SequenceSettings where
  subdivision : String := "8n"
  loop : LoopMode := .forever
  loopStart : Nat := 0
  loopEnd : Nat := 0
  rate : Binary64 := .one
  probability : Binary64 := .one
  humanize : HumanizeSetting := .switch false
  mute : Bool := false
  deriving DecidableEq

/-- The section for a player: a pattern in mini-notation and two written durations. -/
structure PlayerSettings where
  pattern : String := ""
  duration : String := "4m"
  tick : String := "0.005s"
  deriving DecidableEq

namespace PlayerSettings

/-- The time between two readings of the clock. -/
def tickTime (settings : PlayerSettings) (meter : Meter) : Except DurationError ClockTime :=
  (Duration.read settings.tick).map (·.toClock meter)

/-- The time for which a player plays. -/
def playingTime (settings : PlayerSettings) (meter : Meter) : Except DurationError ClockTime :=
  (Duration.read settings.duration).map (·.toClock meter)

end PlayerSettings

/-- The settings of a sequence. -/
structure Settings where
  timing : TimingSettings := {}
  sequence : SequenceSettings := {}
  deriving DecidableEq

/-- The settings of a player. -/
structure SessionSettings extends Settings where
  player : PlayerSettings := {}
  deriving DecidableEq

end Ostinato
