import Ostinato.Proofs.Part.Interleaving

/-!
# Independence of the transport

What a part plays, and by which rules its entries sound, makes no difference to its transport. The
commands that steer the transport are a machine of their own, and a part follows it: whatever else
is done to the part in between, its transport goes the way of the machine, and the part stops when
the machine does. So two parts that are steered alike go alike, however different their entries,
listeners, rules and random numbers are.

## Main definitions

* `Transport.Control`: what can be done to a transport.
* `Transport.perform`, `Transport.run`: what a control does, and what a list of them does.
* `Transport.stopTimes`, `Transport.stopTimesAlong`: the clock times at which that stops it.
* `Part.Command.control?`: what a command does to the transport of a part.

## Main results

* `Part.transport_perform`, `Part.stopTimes_perform`: a command, seen from the transport.
* `Part.transport_run`, `Part.stopTimes_run`: a run, seen from the transport.
* `Part.agree_of_controls`: two parts that are steered alike.
-/

namespace Ostinato

variable {γ α δ β : Type} [Generator γ] [Generator δ]

/-! ### Steering a transport -/

namespace Transport

/-- What can be done to a transport. -/
inductive Control
  | start (time position : Option ClockTime)
  | stop (time : Option ClockTime)
  | setLoopMode (mode : LoopMode)
  | setLoopStart (time : ClockTime)
  | setLoopFinish (time : ClockTime)
  | setRate (rate : Binary64)
  | process (now : ClockTime)
  | dispose
  deriving DecidableEq

/-- What a control does to a transport. -/
def perform (transport : Transport) : Control → Transport
  | .start time position => transport.start time position
  | .stop time => transport.stop time
  | .setLoopMode mode => { transport with loop := { transport.loop with mode } }
  | .setLoopStart time => { transport with loop := { transport.loop with start := time } }
  | .setLoopFinish time => { transport with loop := { transport.loop with finish := time } }
  | .setRate rate => transport.setRate rate
  | .process now => (transport.process now).transport
  | .dispose => transport.dispose

/-- The clock times at which a control stops a transport: the one for which the stop is asked, and
the one at which the last loop ends. -/
def stopTimes (transport : Transport) : Control → List ClockTime
  | .stop time => (transport.stopTimeFor? time).toList
  | .process now => (transport.process now).finishedAt.toList
  | _ => []

/-- What a list of controls does to a transport. -/
def run (transport : Transport) (controls : List Control) : Transport :=
  controls.foldl perform transport

/-- The clock times at which a list of controls stops a transport. -/
def stopTimesAlong (transport : Transport) : List Control → List ClockTime
  | [] => []
  | control :: controls =>
    transport.stopTimes control ++ (transport.perform control).stopTimesAlong controls

end Transport

/-! ### Commands seen from the transport -/

/-- The clock time of an event that stops a part. -/
def PartEvent.stopTime? : PartEvent α → Option ClockTime
  | .stopping time => some time
  | .finished _ time => some time
  | _ => none

namespace Part

/-- What a command does to the transport, if it is not about the entries or the rules by which they
sound. -/
def Command.control? : Command α → Option Transport.Control
  | .start time position => some (.start time position)
  | .stop time => some (.stop time)
  | .setLoopMode mode => some (.setLoopMode mode)
  | .setLoopStart time => some (.setLoopStart time)
  | .setLoopFinish time => some (.setLoopFinish time)
  | .setRate rate => some (.setRate rate)
  | .process now => some (.process now)
  | .dispose => some .dispose
  | .listen _ | .add _ _ | .remove _ | .clear | .setStartOffset _ | .setProbability _
  | .setHumanize _ | .setMute _ => none

theorem stopTime?_fireAt (part : Part γ α) (listener : Listener) (time : ClockTime)
    (entry : Entry α)
    (draws : γ) : (part.fireAt listener time entry draws).1.stopTime? = none := by
  rw [fireAt]
  split
  split <;> rfl

theorem stopTimes_voice (part : Part γ α) (listener : Listener) (draws : γ)
    (soundings : List (ClockTime × Entry α)) :
    (part.voice listener draws soundings).1.filterMap PartEvent.stopTime? = [] := by
  induction soundings generalizing draws with
  | nil => rfl
  | cons sounding rest ih =>
    obtain ⟨time, entry⟩ := sounding
    rw [voice_cons, List.filterMap_cons_none (stopTime?_fireAt ..), ih]

theorem stopTimes_play (part : Part γ α) (stretches : List Stretch) :
    (part.play stretches).1.filterMap PartEvent.stopTime? = [] := by
  rw [play_eq_voice]
  cases part.audience with
  | none => rfl
  | some listener => exact part.stopTimes_voice listener _ _

theorem stopTimes_process (part : Part γ α) (now : ClockTime) :
    (part.process now).2.filterMap PartEvent.stopTime? =
      (part.transport.process now).finishedAt.toList := by
  rw [process]
  dsimp only
  rw [List.filterMap_append, stopTimes_play, List.nil_append]
  cases (part.transport.process now).finishedAt <;> rfl

/-- A command that does not steer the transport leaves it as it is. -/
theorem transport_perform (part : Part γ α) (command : Command α) :
    (part.perform command).1.transport =
      command.control?.elim part.transport part.transport.perform := by
  cases command <;> rfl

/-- A command that does not steer the transport does not stop the part. -/
theorem stopTimes_perform (part : Part γ α) (command : Command α) :
    (part.perform command).2.filterMap PartEvent.stopTime? =
      command.control?.elim [] part.transport.stopTimes := by
  cases command with
  | process now => exact part.stopTimes_process now
  | start time position =>
    rw [perform, start]
    split <;> rfl
  | stop time =>
    rw [perform, stop, Command.control?, Option.elim_some, Transport.stopTimes]
    cases part.transport.stopTimeFor? time <;> rfl
  | setRate rate =>
    rw [perform, setRate]
    split <;> rfl
  | dispose =>
    rw [perform, dispose]
    split <;> rfl
  | _ => rfl

/-! ### Runs seen from the transport -/

/-- A run takes the transport where the controls among its commands take it. -/
theorem transport_run (part : Part γ α) (commands : List (Command α)) :
    (part.run commands).1.transport =
      part.transport.run (commands.filterMap Command.control?) := by
  induction commands generalizing part with
  | nil => rfl
  | cons command commands ih =>
    rw [run_cons, ih, transport_perform]
    cases hcontrol : command.control? with
    | none => rw [List.filterMap_cons_none hcontrol, Option.elim_none]
    | some control =>
      rw [List.filterMap_cons_some hcontrol, Option.elim_some, Transport.run, Transport.run,
        List.foldl_cons]

/-- A run stops the part when the controls among its commands stop the transport. -/
theorem stopTimes_run (part : Part γ α) (commands : List (Command α)) :
    (part.run commands).2.filterMap PartEvent.stopTime? =
      part.transport.stopTimesAlong (commands.filterMap Command.control?) := by
  induction commands generalizing part with
  | nil => rfl
  | cons command commands ih =>
    rw [run_cons, List.filterMap_append, ih, stopTimes_perform, transport_perform]
    cases hcontrol : command.control? with
    | none =>
      rw [List.filterMap_cons_none hcontrol, Option.elim_none, Option.elim_none, List.nil_append]
    | some control =>
      rw [List.filterMap_cons_some hcontrol, Option.elim_some, Option.elim_some,
        Transport.stopTimesAlong]

/-! ### Two parts -/

/-- **The transport does not depend on what is played.** Let two parts have the same transport, and
nothing else in common. Steer them alike, and do to each between the controls whatever else can be
done to a part: to its entries, its listener, its start offset, and the rules by which it sounds.
Let one loop move the position and sound what it meets, lap by lap, whenever the clock advances.
Then their transports are the same again, and they have been stopped at the same clock times. The
same holds if all of a passage is covered before it sounds, which comes to the same parts and
events. -/
theorem agree_of_controls {part : Part γ α} {other : Part δ β}
    (htransport : part.transport = other.transport) {commands : List (Command α)}
    {others : List (Command β)}
    (hcontrols : commands.filterMap Command.control? = others.filterMap Command.control?) :
    ((part.runInOneLoop commands).1.transport = (other.runInOneLoop others).1.transport ∧
      (part.runInOneLoop commands).2.filterMap PartEvent.stopTime? =
        (other.runInOneLoop others).2.filterMap PartEvent.stopTime?) ∧
    ((part.run commands).1.transport = (other.run others).1.transport ∧
      (part.run commands).2.filterMap PartEvent.stopTime? =
        (other.run others).2.filterMap PartEvent.stopTime?) ∧
    part.runInOneLoop commands = part.run commands ∧
      other.runInOneLoop others = other.run others := by
  have hagree : (part.run commands).1.transport = (other.run others).1.transport ∧
      (part.run commands).2.filterMap PartEvent.stopTime? =
        (other.run others).2.filterMap PartEvent.stopTime? := by
    constructor
    · rw [transport_run, transport_run, htransport, hcontrols]
    · rw [stopTimes_run, stopTimes_run, htransport, hcontrols]
  refine ⟨?_, hagree, part.runInOneLoop_eq commands, other.runInOneLoop_eq others⟩
  rw [runInOneLoop_eq, runInOneLoop_eq]
  exact hagree

/-- A part that lays out and clears its entries, and lets them sound at random, goes like one that
has none and is mute: both play a window of twenty nanoseconds twice, and stop at the fortieth. -/
theorem agree_of_controls_counted :
    let part : Part SplitMix Char :=
      { draws := ⟨7⟩, transport := { loop := ⟨.count 2, 10, 30⟩ }
        listener := some { name := "bell" }
        probability := (Binary64.ofNat 1).div (Binary64.ofNat 2), humanize := .upTo 4 }
    let other : Part SplitMix Nat :=
      { draws := ⟨11⟩, transport := { loop := ⟨.count 2, 10, 30⟩ }, mute := true }
    let commands : List (Command Char) :=
      [.add 12 (.sound 'a'), .start none none, .process 15, .add 25 (.sound 'b'), .process 35,
        .clear, .setStartOffset 480, .process 100]
    let others : List (Command Nat) :=
      [.start none none, .process 15, .setHumanize .standard, .process 35, .add 20 (.sound 5),
        .process 100]
    (part.transport = other.transport ∧
        commands.filterMap Command.control? = others.filterMap Command.control?) ∧
      (part.runInOneLoop commands).1.transport = (other.runInOneLoop others).1.transport ∧
      (part.run commands).1.transport = (other.run others).1.transport ∧
      (part.run commands).1.transport.state = .stopped ∧
      (part.run commands).1.transport.position = 30 ∧
      (other.run others).2.filterMap PartEvent.stopTime? = [40] ∧
      (part.run commands).2.filterMap PartEvent.stopTime? = [40] := by
  intro part other commands others
  have hcontrols : commands.filterMap Command.control? = others.filterMap Command.control? := rfl
  have hbefore : part.transport = other.transport := rfl
  obtain ⟨⟨hloop, -⟩, ⟨htransport, hstops⟩, -⟩ := agree_of_controls hbefore hcontrols
  have hother : (other.run others).1.transport.state = .stopped ∧
      (other.run others).1.transport.position = 30 ∧
      (other.run others).2.filterMap PartEvent.stopTime? = [40] := by decide +kernel
  refine ⟨⟨hbefore, hcontrols⟩, hloop, htransport, ?_, ?_, hother.2.2, hstops.trans hother.2.2⟩
  · rw [htransport]
    exact hother.1
  · rw [htransport]
    exact hother.2.1

end Part

end Ostinato
