import Ostinato.Pattern.MiniNotation
import Ostinato.Player.Event
import Ostinato.Sequence.Basic

/-!
# Players

A player plays a sequence that settings describe, for a time that they limit. It is told the time
that has passed since it was started; how the readings of the clock come about is not its concern.

## Main definitions

* `Player`: a sequence with the times of a session.
* `Player.ofSettings`: the player that settings describe.
* `Player.start`, `Player.advance`, `Player.close`: the phases of a session.
* `Player.run`: a whole session.
-/

namespace Ostinato

/-- A sequence with the time between two readings of the clock and the time for which it plays. -/
structure Player (γ : Type) where
  sequence : Sequence γ String
  tick : ClockTime
  duration : ClockTime
  deriving DecidableEq

variable {γ : Type}

namespace Player

/-- The player that settings describe. They are checked in the order tick, duration, pattern,
sequence. -/
def ofSettings [Generator γ] (settings : SessionSettings) (listener : String) (draws : γ) :
    Except PlayerError (Player γ) × List PlayerEvent :=
  let meter := settings.timing.meter
  match settings.player.tickTime meter, settings.player.playingTime meter,
    Slots.read settings.player.pattern with
  | .error e, _, _ => (.error (.invalidDuration e), [])
  | .ok _, .error e, _ => (.error (.invalidDuration e), [])
  | .ok _, .ok _, .error e => (.error (.invalidPattern e), [])
  | .ok tick, .ok duration, .ok pattern =>
    match Sequence.create { draws } listener pattern settings.sequence meter with
    | (.error e, events) => (.error (.noSequence e), events.map .sequence)
    | (.ok sequence, events) =>
      (.ok { sequence, tick, duration },
        events.map .sequence ++
          [.ready sequence.part.schedule.size meter.tempo sequence.slotTime])

/-- The player after an operation on its sequence, with the events on the way. -/
def after (player : Player γ) (outcome : Sequence.Outcome γ String) :
    Player γ × List PlayerEvent :=
  ({ player with sequence := outcome.sequence }, outcome.events.map .sequence)

/-- Starts playing from the current position. A player that has been closed cannot be started. -/
def start (player : Player γ) : Except SequenceError (Player γ × List PlayerEvent) :=
  let outcome := player.sequence.start none none
  match outcome.error with
  | some e => .error e
  | none => .ok (player.after outcome)

/-- Moves the clock to a number of nanoseconds since the start, of which sixty-four bits count. -/
def advance [Generator γ] (player : Player γ) (elapsed : Nat) : Player γ × List PlayerEvent :=
  player.after (player.sequence.process (Span.ofNat (UInt64.ofNat elapsed).toNat))

/-- Whether the sequence has come to its end. -/
def isFinished (player : Player γ) : Bool :=
  player.sequence.part.transport.state = .stopped

/-- Ends the session: the sequence is stopped and disposed. -/
def close (player : Player γ) : Player γ × List PlayerEvent :=
  let transport := player.sequence.part.transport
  let (stopped, stopping) := player.after (player.sequence.stop none)
  let (closed, disposing) := stopped.after stopped.sequence.dispose
  (closed, .closing transport.clock transport.position :: stopping ++ disposing)

/-- Plays through readings of the clock, until the sequence comes to its end or `deadline` is
read. -/
def playThrough [Generator γ] (player : Player γ) (deadline : Nat) :
    List Nat → Player γ × List PlayerEvent
  | [] => player.advance deadline
  | elapsed :: readings =>
    let (player, events) := player.advance elapsed
    if player.isFinished then (player, events ++ [.finished])
    else
      let (last, rest) := player.playThrough deadline readings
      (last, events ++ rest)

/-- A whole session, with the readings of the clock before the last one at `deadline`. The error
says why it does not take place. -/
def run [Generator γ] (player : Player γ) (readings : List Nat) (deadline : Nat) :
    Player γ × List PlayerEvent × Option SequenceError :=
  match player.start with
  | .error e => (player, [.playing player.duration], some e)
  | .ok (started, starting) =>
    let (played, playing) := started.playThrough deadline readings
    let (closed, closing) := played.close
    (closed, .playing player.duration :: starting ++ playing ++ closing, none)

end Player

end Ostinato
