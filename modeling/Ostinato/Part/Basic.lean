import Ostinato.Part.Event
import Ostinato.Part.Generator
import Ostinato.Part.Schedule

/-!
# Parts

A part plays the entries of its schedule along its transport: an entry is met when playing leaves
its position, and then sounds at the clock time of that position. A part may leave entries out at
random, let them sound early or late at random, or be mute. Its listener is told of the steps that
sound. The random numbers and the ids of the entries are those of a generator.

## Main definitions

* `Part`: a schedule, a transport, and the rules by which entries sound.
* `Part.add`, `Part.remove`, `Part.clear`: the entries.
* `Part.met`, `Part.fire`, `Part.process`: playing.
* `Part.start`, `Part.stop`, `Part.dispose` and the setters: the controls.
-/

namespace Ostinato

/-- A schedule that is played along a transport. The number of entries that have been added tells
which id comes next. -/
structure Part (γ α : Type) where
  schedule : Schedule α := .empty
  nextEntry : Nat := 0
  transport : Transport := {}
  listener : Option Listener := none
  startOffset : Ticks := 0
  probability : Binary64 := .one
  humanize : Humanize := .off
  mute : Bool := false
  draws : γ
  deriving DecidableEq

variable {γ α : Type}

/-- Moves a clock time at random, back if the number that is drawn is below zero. Nothing is drawn
if the setting has no amount. -/
def Humanize.move [Generator γ] (humanize : Humanize) (time : ClockTime) (draws : γ) :
    ClockTime × γ :=
  if humanize.amount = 0 then (time, draws)
  else
    let (jitter, draws) := Generator.jitter draws
    let deviation := humanize.amount.scale jitter.abs
    (if jitter.lt .zero then time - deviation else time + deviation, draws)

namespace Part

/-! ### Entries -/

/-- The id of the entry that is added next. -/
def nextId [Generator γ] (part : Part γ α) : Nat :=
  Generator.entryId γ part.nextEntry

/-- Adds a step at a time, under the next id. -/
def add [Generator γ] (part : Part γ α) (time : ClockTime) (step : Step α) : Part γ α :=
  { part with
    schedule := part.schedule.insert ⟨part.nextId, time, step⟩
    nextEntry := part.nextEntry + 1 }

/-- Removes the entry with an id. -/
def remove (part : Part γ α) (id : Nat) : Part γ α :=
  { part with schedule := part.schedule.remove id }

/-- Removes every entry. -/
def clear (part : Part γ α) : Part γ α :=
  { part with schedule := .empty }

/-! ### Playing -/

/-- Who is told of the steps: nobody if the part is mute. -/
def audience (part : Part γ α) : Option Listener :=
  if part.mute then none else part.listener

/-- The entries met on stretches, each with its stretch. -/
def met (part : Part γ α) (stretches : List Stretch) : List (Stretch × Entry α) :=
  stretches.flatMap fun stretch =>
    (part.schedule.between stretch.start stretch.finish).map fun entry => (stretch, entry)

/-- The clock time at which the position of an entry is played. -/
def soundingTime (part : Part γ α) (stretch : Stretch) (entry : Entry α) : ClockTime :=
  stretch.clock + ClockTime.unscale (entry.time - stretch.start) part.transport.rate

/-- Whether an entry may sound: the number that is drawn must be below the probability. Nothing is
drawn if every entry sounds. -/
def drawAdmission [Generator γ] (part : Part γ α) (draws : γ) : Bool × γ :=
  if part.probability.lt .one then
    let (share, draws) := Generator.share draws
    (!part.probability.le share, draws)
  else (true, draws)

/-- What becomes of an entry that is met. -/
def fire [Generator γ] (part : Part γ α) (listener : Listener) (stretch : Stretch)
    (entry : Entry α) (draws : γ) : PartEvent α × γ :=
  let (admitted, draws) := part.drawAdmission draws
  if admitted then
    let (time, draws) := part.humanize.move (part.soundingTime stretch entry) draws
    (.fired entry.id ⟨listener, time, entry.step⟩, draws)
  else
    (.skipped entry.id entry.time, draws)

/-- What becomes of entries that are met, in order. The events before are given with the last one
first. -/
def fireAll [Generator γ] (part : Part γ α) (listener : Listener) (events : List (PartEvent α))
    (draws : γ) : List (Stretch × Entry α) → List (PartEvent α) × γ
  | [] => (events.reverse, draws)
  | (stretch, entry) :: rest =>
    let (event, draws) := part.fire listener stretch entry draws
    part.fireAll listener (event :: events) draws rest

/-- Plays stretches. Without an audience nothing is drawn. -/
def play [Generator γ] (part : Part γ α) (stretches : List Stretch) :
    List (PartEvent α) × γ :=
  match part.audience with
  | none => ([], part.draws)
  | some listener => part.fireAll listener [] part.draws (part.met stretches)

/-- Advances the clock, and plays what that passes. -/
def process [Generator γ] (part : Part γ α) (now : ClockTime) :
    Part γ α × List (PartEvent α) :=
  let passage := part.transport.process now
  let (events, draws) := part.play passage.stretches
  ({ part with transport := passage.transport, draws },
    events ++ (passage.finishedAt.map (.finished passage.transport.loopsPlayed)).toList)

/-! ### Controls -/

/-- Starts the part. -/
def start (part : Part γ α) (time position : Option ClockTime) :
    Part γ α × List (PartEvent α) :=
  let transport := part.transport.start time position
  ({ part with transport },
    if part.transport.disposed then [] else [.starting transport.startTime transport.position])

/-- Stops the part. -/
def stop (part : Part γ α) (time : Option ClockTime) : Part γ α × List (PartEvent α) :=
  ({ part with transport := part.transport.stop time },
    ((part.transport.stopTimeFor? time).map .stopping).toList)

/-- Changes the playback rate. -/
def setRate (part : Part γ α) (rate : Binary64) : Part γ α × List (PartEvent α) :=
  ({ part with transport := part.transport.setRate rate },
    if Transport.IsPlayable rate then [] else [.rateIgnored rate])

/-- Changes the probability with which an entry sounds. -/
def setProbability (part : Part γ α) (probability : Binary64) : Part γ α :=
  { part with probability := probability.clampUnit }

/-- Changes the loop. -/
def setLoop (part : Part γ α) (loop : Loop) : Part γ α :=
  { part with transport := { part.transport with loop } }

/-- Ends the part: it has no entries and no listener, and never plays again. -/
def dispose (part : Part γ α) : Part γ α × List (PartEvent α) :=
  ({ part with
      schedule := .empty
      listener := none
      transport := part.transport.dispose },
    if part.transport.disposed then [] else [.disposing part.schedule.size])

end Part

end Ostinato
