import Ostinato.Part.Basic
import Ostinato.Pattern.Edit
import Ostinato.Pattern.Layout
import Ostinato.Sequence.Event
import Ostinato.Sequence.Grid
import Ostinato.Settings.Basic

/-!
# Sequences

A sequence keeps a pattern laid out on a part. Every accepted edit lays out the whole pattern again,
also while the part plays; an edit that has no layout is undone. The loop window is given by indices
of root slots and moves with the pattern. The listener is told of sounds only.

## Main definitions

* `Sequence`: a pattern with the part that plays it.
* `Sequence.create`: a sequence over a part.
* `Sequence.rebuild`: laying out the pattern.
* `Sequence.edit`: writing to the pattern.
* `Sequence.start`, `Sequence.stop`, `Sequence.process`, `Sequence.dispose` and the setters: the
  controls.
-/

namespace Ostinato

/-- A pattern kept laid out on a part. -/
structure Sequence (γ α : Type) where
  part : Part γ α
  meter : Meter
  subdivision : Ticks
  pattern : TrackedPattern α
  loopStart : Nat
  loopEnd : Nat
  disposed : Bool := false
  deriving DecidableEq

variable {γ α : Type}

namespace Sequence

/-- What comes of an operation: the sequence afterwards, the events on the way, and the error if the
operation is refused. -/
structure Outcome (γ α : Type) where
  sequence : Sequence γ α
  events : List (SequenceEvent α) := []
  error : Option SequenceError := none
  deriving DecidableEq

/-- The grid on which the root slots lie. -/
def grid (sequence : Sequence γ α) : Grid :=
  ⟨sequence.meter, sequence.subdivision, sequence.part.startOffset⟩

/-- The duration of a root slot. -/
def slotTime (sequence : Sequence γ α) : ClockTime :=
  sequence.meter.toClock sequence.subdivision

/-! ### Laying out -/

/-- The part with the given placements as its only entries. -/
def place [Generator γ] (sequence : Sequence γ α) (placements : List (Placement α)) :
    Part γ α :=
  placements.foldl
    (fun part placement => part.add (sequence.meter.toClock placement.offset) placement.step)
    sequence.part.clear

/-- The loop of the part, with the window between the slots that the indices name. -/
def window (sequence : Sequence γ α) : Loop :=
  { sequence.part.transport.loop with
    start := sequence.grid.time sequence.loopStart
    finish := sequence.grid.endTime sequence.loopEnd sequence.pattern.root.length }

/-- Lays out the whole pattern. The part stays as it is if the pattern has no layout. -/
def rebuild [Generator γ] (sequence : Sequence γ α) :
    Except PatternError (Sequence γ α × SequenceEvent α) :=
  (sequence.pattern.root.layout sequence.subdivision sequence.part.startOffset).map
    fun placements =>
      let part := (sequence.place placements).setLoop sequence.window
      ({ sequence with part }, .rebuilt sequence.pattern.revision part.schedule.size)

/-! ### Making a sequence -/

/-- The length of a root slot: some ticks. -/
def subdivisionOf (settings : SequenceSettings) (meter : Meter) : Except SequenceError Ticks :=
  match Duration.read settings.subdivision with
  | .error _ => .error (.invalidSubdivision settings.subdivision)
  | .ok duration =>
    let ticks := duration.toTicks meter
    if ticks = 0 then .error (.invalidSubdivision settings.subdivision) else .ok ticks

/-- The probabilities that a sequence accepts. -/
def IsProbability (probability : Binary64) : Prop :=
  Binary64.zero.le probability ∧ probability.le .one

instance (probability : Binary64) : Decidable (IsProbability probability) :=
  inferInstanceAs (Decidable (_ ∧ _))

/-- Makes a sequence that plays a pattern on a part. Settings are checked in the order subdivision,
humanize, pattern, rate, probability. -/
def create [Generator γ] (part : Part γ α) (listener : String) (pattern : Slots α)
    (settings : SequenceSettings) (meter : Meter) :
    Except SequenceError (Sequence γ α) × List (SequenceEvent α) :=
  match subdivisionOf settings meter, settings.humanize.resolve meter with
  | .error e, _ => (.error e, [])
  | .ok _, .error e => (.error (.invalidHumanize e), [])
  | .ok subdivision, .ok humanize =>
    let bare : Sequence γ α :=
      { part := { part with listener := some { name := listener, hearsSilence := false } }
        meter, subdivision
        pattern := { root := pattern }
        loopStart := settings.loopStart
        loopEnd := settings.loopEnd }
    match bare.rebuild with
    | .error e => (.error (.invalidPattern e), [])
    | .ok (sequence, event) =>
      if ¬ Transport.IsPlayable settings.rate then (.error (.invalidRate settings.rate), [event])
      else if ¬ IsProbability settings.probability then
        (.error (.invalidProbability settings.probability), [event])
      else
        let loop := { sequence.part.transport.loop with mode := settings.loop }
        let part := sequence.part.setLoop loop
        let part := (part.setRate settings.rate).1.setProbability settings.probability
        (.ok { sequence with part := { part with humanize, mute := settings.mute } }, [event])

/-! ### Operations -/

/-- The outcome that changes nothing. -/
def refuse (sequence : Sequence γ α) (error : SequenceError) : Outcome γ α :=
  { sequence, error := some error }

/-- The outcome of an operation that is refused once the sequence is disposed. -/
def ifLive (sequence : Sequence γ α) (outcome : Outcome γ α) : Outcome γ α :=
  if sequence.disposed then sequence.refuse .disposed else outcome

/-- The outcome of an operation on the part. -/
def onPart (sequence : Sequence γ α) (result : Part γ α × List (PartEvent α)) :
    Outcome γ α :=
  { sequence := { sequence with part := result.1 }, events := result.2.map .part }

/-- Writes to the pattern and lays it out again. If the new pattern has no layout, the write is
undone. -/
def edit [Generator γ] (sequence : Sequence γ α)
    (write : TrackedPattern α → Except PatternError (TrackedPattern α × Edit α)) :
    Outcome γ α :=
  sequence.ifLive <|
    match write sequence.pattern with
    | .error e => sequence.refuse (.invalidPattern e)
    | .ok (pattern, edit) =>
      match { sequence with pattern }.rebuild with
      | .ok (sequence, event) => { sequence, events := [event] }
      | .error e =>
        let events := [.editRejected (.invalidPattern e)]
        match pattern.revert edit with
        | .ok pattern =>
          { sequence := { sequence with pattern }, events, error := some (.invalidPattern e) }
        | .error (.refused e) =>
          { sequence := { sequence with pattern }, events, error := some (.invalidPattern e) }
        -- never taken: the revision has just counted the write that is undone
        | .error .underflow =>
          { sequence := { sequence with pattern }, events, error := some (.invalidPattern e) }

/-- Starts playing at a clock time, from the slot with an index. -/
def start (sequence : Sequence γ α) (time : Option ClockTime) (index : Option Nat) :
    Outcome γ α :=
  sequence.ifLive <| sequence.onPart <| sequence.part.start time (index.map sequence.grid.time)

/-- Stops playing. -/
def stop (sequence : Sequence γ α) (time : Option ClockTime) : Outcome γ α :=
  sequence.onPart (sequence.part.stop time)

/-- Removes the entries of the part, until the pattern is laid out again. -/
def clear (sequence : Sequence γ α) : Outcome γ α :=
  sequence.onPart (sequence.part.clear, [])

/-- Advances the clock. -/
def process [Generator γ] (sequence : Sequence γ α) (now : ClockTime) : Outcome γ α :=
  sequence.onPart (sequence.part.process now)

/-- Ends the sequence: its part is disposed, and its pattern is empty. -/
def dispose (sequence : Sequence γ α) : Outcome γ α :=
  let (part, events) := sequence.part.dispose
  { sequence := { sequence with part, pattern := { root := [] }, disposed := true }
    events :=
      (if sequence.disposed then [] else [.disposing sequence.pattern.revision]) ++
        events.map .part }

/-- Changes how often the loop window is played. -/
def setLoopMode (sequence : Sequence γ α) (mode : LoopMode) : Outcome γ α :=
  sequence.ifLive <| sequence.onPart
    (sequence.part.setLoop { sequence.part.transport.loop with mode }, [])

/-- Changes the slot with which the loop window starts. -/
def setLoopStart (sequence : Sequence γ α) (index : Nat) : Outcome γ α :=
  sequence.ifLive <| { sequence with loopStart := index }.onPart
    (sequence.part.setLoop
      { sequence.part.transport.loop with start := sequence.grid.time index }, [])

/-- Changes the slot before which the loop window ends; zero stands for the end of the pattern. -/
def setLoopEnd (sequence : Sequence γ α) (index : Nat) : Outcome γ α :=
  sequence.ifLive <| { sequence with loopEnd := index }.onPart
    (sequence.part.setLoop
      { sequence.part.transport.loop with
        finish := sequence.grid.endTime index sequence.pattern.root.length }, [])

/-- Moves the whole pattern to another start, and lays it out again. -/
def setStartOffset [Generator γ] (sequence : Sequence γ α) (startOffset : Ticks) :
    Outcome γ α :=
  sequence.ifLive <|
    let moved := { sequence with part := { sequence.part with startOffset } }
    match moved.rebuild with
    | .ok (sequence, event) => { sequence, events := [event] }
    | .error e => moved.refuse (.invalidPattern e)

/-- Changes the playback rate. -/
def setRate (sequence : Sequence γ α) (rate : Binary64) : Outcome γ α :=
  sequence.ifLive <|
    if Transport.IsPlayable rate then sequence.onPart (sequence.part.setRate rate)
    else sequence.refuse (.invalidRate rate)

/-- Changes the probability with which a step sounds. -/
def setProbability (sequence : Sequence γ α) (probability : Binary64) : Outcome γ α :=
  sequence.ifLive <|
    if IsProbability probability then sequence.onPart (sequence.part.setProbability probability, [])
    else sequence.refuse (.invalidProbability probability)

/-- Changes how far a step may sound from its time. -/
def setHumanize (sequence : Sequence γ α) (humanize : Humanize) : Outcome γ α :=
  sequence.ifLive <| sequence.onPart ({ sequence.part with humanize }, [])

/-- Mutes the sequence, or lets it sound. -/
def setMute (sequence : Sequence γ α) (mute : Bool) : Outcome γ α :=
  sequence.ifLive <| sequence.onPart ({ sequence.part with mute }, [])

end Sequence

end Ostinato
