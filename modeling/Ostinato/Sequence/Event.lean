import Ostinato.Part.Event
import Ostinato.Pattern.Error
import Ostinato.Time.Duration

/-!
# Errors and events of a sequence

## Main definitions

* `SequenceError`: why a sequence is not made or changed.
* `SequenceError.message`: the wording.
* `SequenceEvent`: what a sequence makes known.
* `SequenceEvent.heard?`, `SequenceEvent.log`: what the listener is told, and the log line.
-/

namespace Ostinato

/-- Why a sequence is not made or changed. -/
inductive SequenceError
  | disposed
  | invalidPattern (cause : PatternError)
  | invalidSubdivision (text : String)
  | invalidHumanize (cause : DurationError)
  | invalidRate (rate : Binary64)
  | invalidProbability (probability : Binary64)
  deriving DecidableEq

/-- The wording of an error. -/
def SequenceError.message : SequenceError → String
  | .disposed => "The sequence has been disposed"
  | .invalidPattern cause => "Invalid pattern: " ++ cause.message
  | .invalidSubdivision text => "Invalid subdivision '" ++ text ++ "'"
  | .invalidHumanize cause => "Invalid humanize amount: " ++ cause.message
  | .invalidRate rate => "Playback rate must be greater than zero, got " ++ rate.write
  | .invalidProbability probability =>
    "Probability must be within [0, 1], got " ++ probability.write

/-- What a sequence makes known. -/
inductive SequenceEvent (α : Type)
  | part (event : PartEvent α)
  | rebuilt (revision steps : Nat)
  | editRejected (cause : SequenceError)
  | disposing (revision : Nat)
  deriving DecidableEq

namespace SequenceEvent

variable {α : Type}

/-- What the listener is told. -/
def heard? : SequenceEvent α → Option (Call α)
  | .part event => event.heard?
  | _ => none

/-- The log line of an event. -/
def log : SequenceEvent α → LogLine
  | .part event => event.log
  | .rebuilt revision steps =>
    ⟨.debug, "Rebuilt sequence at revision " ++ String.ofList (natDigits revision) ++
      " with " ++ String.ofList (natDigits steps) ++ " steps"⟩
  | .editRejected cause => ⟨.warn, "Rejected pattern edit: " ++ cause.message⟩
  | .disposing revision =>
    ⟨.debug, "Disposing sequence at revision " ++ String.ofList (natDigits revision)⟩

end SequenceEvent

end Ostinato
