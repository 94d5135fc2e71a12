import Ostinato.Part.Basic

/-!
# Commands of a part

Everything that can be done to a part, as data, so that runs of a part are lists of commands.

## Main definitions

* `Part.Command`: the commands.
* `Part.perform`, `Part.run`: what one command does, and what a list of them does.
* `Part.reply`: what a command is answered with.

## Main results

* `Part.run_append`: a run can be cut anywhere.
-/

namespace Ostinato.Part

/-- What can be done to a part. -/
inductive Command (α : Type)
  | listen (listener : Listener)
  | add (time : ClockTime) (step : Step α)
  | remove (id : Nat)
  | clear
  | start (time position : Option ClockTime)
  | stop (time : Option ClockTime)
  | setLoopMode (mode : LoopMode)
  | setLoopStart (time : ClockTime)
  | setLoopFinish (time : ClockTime)
  | setStartOffset (offset : Ticks)
  | setRate (rate : Binary64)
  | setProbability (probability : Binary64)
  | setHumanize (humanize : Humanize)
  | setMute (mute : Bool)
  | process (now : ClockTime)
  | dispose
  deriving DecidableEq

variable {γ α : Type} [Generator γ]

/-- What a command does to a part, and the events on the way. -/
def perform (part : Part γ α) : Command α → Part γ α × List (PartEvent α)
  | .listen listener => ({ part with listener := some listener }, [])
  | .add time step => (part.add time step, [])
  | .remove id => (part.remove id, [])
  | .clear => (part.clear, [])
  | .start time position => part.start time position
  | .stop time => part.stop time
  | .setLoopMode mode => (part.setLoop { part.transport.loop with mode }, [])
  | .setLoopStart time => (part.setLoop { part.transport.loop with start := time }, [])
  | .setLoopFinish time => (part.setLoop { part.transport.loop with finish := time }, [])
  | .setStartOffset offset => ({ part with startOffset := offset }, [])
  | .setRate rate => part.setRate rate
  | .setProbability probability => (part.setProbability probability, [])
  | .setHumanize humanize => ({ part with humanize }, [])
  | .setMute mute => ({ part with mute }, [])
  | .process now => part.process now
  | .dispose => part.dispose

/-- What a command is answered with: the id of the entry that is added, or whether there is an entry
to remove. -/
inductive Reply
  | added (id : Nat)
  | removed (found : Bool)
  | done
  deriving DecidableEq

/-- What a part answers to a command. -/
def reply (part : Part γ α) : Command α → Reply
  | .add _ _ => .added part.nextId
  | .remove id => .removed (part.schedule.contains id)
  | _ => .done

/-- What a list of commands does to a part, and the events on the way. -/
def run (part : Part γ α) : List (Command α) → Part γ α × List (PartEvent α)
  | [] => (part, [])
  | command :: commands =>
    let (next, events) := part.perform command
    let (last, rest) := next.run commands
    (last, events ++ rest)

@[simp] theorem run_nil (part : Part γ α) : part.run [] = (part, []) := rfl

@[simp] theorem run_cons (part : Part γ α) (command : Command α) (commands : List (Command α)) :
    part.run (command :: commands) =
      (((part.perform command).1.run commands).1,
        (part.perform command).2 ++ ((part.perform command).1.run commands).2) := rfl

/-- A run can be cut anywhere. -/
theorem run_append (part : Part γ α) (before after : List (Command α)) :
    part.run (before ++ after) =
      (((part.run before).1.run after).1,
        (part.run before).2 ++ ((part.run before).1.run after).2) := by
  induction before generalizing part with
  | nil => rfl
  | cons command before ih => simp [ih]

end Ostinato.Part
