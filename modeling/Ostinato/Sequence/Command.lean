import Ostinato.Sequence.Basic

/-!
# Commands of a sequence

Everything that can be done to a sequence, as data.

## Main definitions

* `Sequence.Command`: the commands.
* `Sequence.perform`, `Sequence.run`: what one command does, and what a list of them does.

## Main results

* `Sequence.run_append`: a run can be cut anywhere.
-/

namespace Ostinato.Sequence

/-- What can be done to a sequence. -/
inductive Command (α : Type)
  | start (time : Option ClockTime) (index : Option Nat)
  | stop (time : Option ClockTime)
  | clear
  | dispose
  | process (now : ClockTime)
  | setPattern (root : Slots α)
  | setAt (path : Path) (value : Pattern α)
  | insertAt (path : Path) (value : Pattern α)
  | removeAt (path : Path)
  | setLoopMode (mode : LoopMode)
  | setLoopStart (index : Nat)
  | setLoopEnd (index : Nat)
  | setStartOffset (offset : Ticks)
  | setRate (rate : Binary64)
  | setProbability (probability : Binary64)
  | setHumanize (humanize : Humanize)
  | setMute (mute : Bool)
  deriving DecidableEq

variable {γ α : Type} [Generator γ]

/-- What comes of a command. -/
def perform (sequence : Sequence γ α) : Command α → Outcome γ α
  | .start time index => sequence.start time index
  | .stop time => sequence.stop time
  | .clear => sequence.clear
  | .dispose => sequence.dispose
  | .process now => sequence.process now
  | .setPattern root => sequence.edit fun pattern => .ok (pattern.replace root)
  | .setAt path value => sequence.edit fun pattern => pattern.setAt path value
  | .insertAt path value => sequence.edit fun pattern => pattern.insertAt path value
  | .removeAt path => sequence.edit fun pattern => pattern.removeAt path
  | .setLoopMode mode => sequence.setLoopMode mode
  | .setLoopStart index => sequence.setLoopStart index
  | .setLoopEnd index => sequence.setLoopEnd index
  | .setStartOffset offset => sequence.setStartOffset offset
  | .setRate rate => sequence.setRate rate
  | .setProbability probability => sequence.setProbability probability
  | .setHumanize humanize => sequence.setHumanize humanize
  | .setMute mute => sequence.setMute mute

/-- What a list of commands does to a sequence, and the events on the way. -/
def run (sequence : Sequence γ α) :
    List (Command α) → Sequence γ α × List (SequenceEvent α)
  | [] => (sequence, [])
  | command :: commands =>
    let outcome := sequence.perform command
    let (last, rest) := outcome.sequence.run commands
    (last, outcome.events ++ rest)

@[simp] theorem run_nil (sequence : Sequence γ α) : sequence.run [] = (sequence, []) := rfl

@[simp] theorem run_cons (sequence : Sequence γ α) (command : Command α)
    (commands : List (Command α)) :
    sequence.run (command :: commands) =
      (((sequence.perform command).sequence.run commands).1,
        (sequence.perform command).events ++
          ((sequence.perform command).sequence.run commands).2) := rfl

/-- A run can be cut anywhere. -/
theorem run_append (sequence : Sequence γ α) (before after : List (Command α)) :
    sequence.run (before ++ after) =
      (((sequence.run before).1.run after).1,
        (sequence.run before).2 ++ ((sequence.run before).1.run after).2) := by
  induction before generalizing sequence with
  | nil => rfl
  | cons command before ih => simp [ih]

end Ostinato.Sequence
