import Ostinato.Time.Clock

/-!
# Modes of a part

## Main definitions

* `PlayState`: whether a part is playing.
* `LoopMode`, `Loop`: how often a window of positions is played.
* `Humanize`: how far a step may sound from its time.
-/

namespace Ostinato

/-- Whether a part is playing. -/
inductive PlayState
  | stopped
  | started
  deriving DecidableEq

/-- How often the loop window is played: not at all, without end, or a number of times. -/
inductive LoopMode
  | off
  | forever
  | count (times : UInt32)
  deriving DecidableEq

namespace LoopMode

/-- The mode that plays the window without end, or not at all. -/
def ofBool (enabled : Bool) : LoopMode :=
  if enabled then .forever else .off

/-- Whether the window is played at all. -/
def isEnabled : LoopMode → Bool
  | .off => false
  | .forever => true
  | .count times => 0 < times

/-- Whether a part is done once the window has been played a number of times. -/
def isDoneAfter (mode : LoopMode) (played : UInt32) : Bool :=
  match mode with
  | .count times => times ≤ played
  | _ => false

end LoopMode

/-- A loop window, from a start up to a finish, and how often it is played. -/
structure Loop where
  mode : LoopMode := .off
  start : ClockTime := 0
  finish : ClockTime := 0
  deriving DecidableEq

namespace Loop

/-- Whether there is a window to play. -/
def IsActive (loop : Loop) : Prop :=
  loop.mode.isEnabled ∧ loop.start < loop.finish

instance (loop : Loop) : Decidable loop.IsActive :=
  inferInstanceAs (Decidable (_ ∧ _))

/-- Whether playing from a position on to another reaches the end of the window from below. -/
def IsCrossed (loop : Loop) (position reach : ClockTime) : Prop :=
  loop.IsActive ∧ position < loop.finish ∧ loop.finish ≤ reach

instance (loop : Loop) (position reach : ClockTime) : Decidable (loop.IsCrossed position reach) :=
  inferInstanceAs (Decidable (_ ∧ _ ∧ _))

end Loop

/-- How far a step may sound from its time, either way. -/
inductive Humanize
  | off
  | standard
  | upTo (amount : ClockTime)
  deriving DecidableEq

namespace Humanize

/-- The setting with the standard amount, or none. -/
def ofBool (enabled : Bool) : Humanize :=
  if enabled then .standard else .off

/-- The largest deviation; the standard one is twenty milliseconds. -/
def amount : Humanize → ClockTime
  | .off => 0
  | .standard => ClockTime.ofMillis 20
  | .upTo amount => amount

end Humanize

end Ostinato
