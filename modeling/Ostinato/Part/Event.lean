import Ostinato.Log
import Ostinato.Part.Transport
import Ostinato.Pattern.Basic
import Ostinato.Text.Digits

/-!
# Events of a part

## Main definitions

* `Listener`: who is told of the steps that sound.
* `PartEvent`: what a part makes known.
* `PartEvent.heard?`: what the listener is told.
* `PartEvent.log`: the log line of an event.
-/

namespace Ostinato

/-- Who is told of the steps that sound, and whether of silent ones too. -/
structure Listener where
  name : String
  hearsSilence : Bool := true
  deriving DecidableEq

/-- A step told to a listener with the clock time at which it sounds. -/
structure Call (α : Type) where
  listener : Listener
  time : ClockTime
  step : Step α
  deriving DecidableEq

/-- What a part makes known. -/
inductive PartEvent (α : Type)
  | fired (entry : Nat) (call : Call α)
  | skipped (entry : Nat) (time : ClockTime)
  | starting (time position : ClockTime)
  | stopping (time : ClockTime)
  | finished (loops : UInt32) (time : ClockTime)
  | rateIgnored (rate : Binary64)
  | disposing (entries : Nat)
  deriving DecidableEq

namespace PartEvent

variable {α : Type}

/-- What the listener is told: the steps that sound, silent ones only if it hears them. -/
def heard? : PartEvent α → Option (Call α)
  | .fired _ call => if call.listener.hearsSilence || !call.step.isSilent then some call else none
  | _ => none

/-- The log line of an event. -/
def log : PartEvent α → LogLine
  | .fired entry call =>
    ⟨.trace, "Firing entry " ++ String.ofList (natDigits entry) ++ " at " ++ call.time.write⟩
  | .skipped entry time =>
    ⟨.trace, "Skipping entry " ++ String.ofList (natDigits entry) ++ " at " ++ time.write⟩
  | .starting time position =>
    ⟨.debug, "Starting part at " ++ time.write ++ " from position " ++ position.write⟩
  | .stopping time => ⟨.debug, "Stopping part at " ++ time.write⟩
  | .finished loops time =>
    ⟨.debug, "Part finished after " ++ String.ofList (natDigits loops.toNat) ++ " loops at " ++
      time.write⟩
  | .rateIgnored rate => ⟨.warn, "Ignoring invalid playback rate " ++ rate.write⟩
  | .disposing entries =>
    ⟨.debug, "Disposing part with " ++ String.ofList (natDigits entries) ++ " entries"⟩

end PartEvent

end Ostinato
