import Ostinato.Sequence.Event

/-!
# Errors and events of a player

## Main definitions

* `PlayerError`: why there is no player for some settings.
* `PlayerError.message`: the wording.
* `PlayerEvent`: what a player makes known.
* `PlayerEvent.heard?`, `PlayerEvent.log`: the notes that sound, and the log line.
* `PlayerEvent.lines`: both, as they are shown.
-/

namespace Ostinato

/-- Why there is no player for some settings. -/
inductive PlayerError
  | invalidDuration (cause : DurationError)
  | invalidPattern (cause : PatternError)
  | noSequence (cause : SequenceError)
  deriving DecidableEq

/-- The wording of an error: that of its cause. -/
def PlayerError.message : PlayerError → String
  | .invalidDuration cause => cause.message
  | .invalidPattern cause => cause.message
  | .noSequence cause => cause.message

/-- What a player makes known. -/
inductive PlayerEvent
  | sequence (event : SequenceEvent String)
  | ready (steps : Nat) (tempo : Tempo) (slotTime : ClockTime)
  | playing (duration : ClockTime)
  | finished
  | closing (time position : ClockTime)
  deriving DecidableEq

namespace PlayerEvent

/-- A note that sounds. -/
def heard? : PlayerEvent → Option (Call String)
  | .sequence event => event.heard?
  | _ => none

/-- The log line of an event. -/
def log : PlayerEvent → LogLine
  | .sequence event => event.log
  | .ready steps tempo slotTime =>
    ⟨.info, "Sequence ready with " ++ String.ofList (natDigits steps) ++ " steps at " ++
      String.ofList (natDigits tempo.beats.toNat) ++ " bpm, one every " ++ slotTime.write⟩
  | .playing duration => ⟨.info, "Playing for " ++ duration.writeExact ++ " ..."⟩
  | .finished => ⟨.info, "Sequence finished"⟩
  | .closing time position =>
    ⟨.info, "Closing player at " ++ time.write ++ " (position " ++ position.write ++ ") ..."⟩

/-- The log lines of an event. A note that sounds has a line of its own. -/
def lines (event : PlayerEvent) : List LogLine :=
  event.log :: (event.heard?.map fun call =>
    ⟨.info, call.time.write ++ " " ++ call.step.payload?.getD ""⟩).toList

end PlayerEvent

end Ostinato
