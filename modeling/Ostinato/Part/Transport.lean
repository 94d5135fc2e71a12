import Ostinato.Part.Modes

/-!
# Transport

The transport of a part knows what its clock shows, whether it plays and at which position it
stands. When the clock advances, a playing transport covers a length of positions: it goes forward
and, each time it reaches the end of the loop window from below, jumps back to the start of the
window. What it plays is a list of stretches, each a range of positions without a jump.

## Main definitions

* `Transport`: the state.
* `Stretch`, `Passage`: what is played while the clock advances.
* `Transport.windowTime`, `Transport.lapTime`: the clock time of a lap.
* `Transport.cover`: playing a length of positions.
* `Transport.process`: advancing the clock.
* `Transport.start`, `Transport.stop`, `Transport.setRate`, `Transport.dispose`: the other controls.

## Main results

* `Transport.lap_pos`, `Transport.lap_le`: reaching the end of the window uses up some of the
  length, and no more than there is.
* `Transport.lapTime_windowTime`: the time of a lap is that of the positions it covers.
-/

namespace Ostinato

/-- The state of a transport: positions are clock times at rate one. The laps since the last start
are counted in a word, which goes around where arithmetic is not checked. -/
structure Transport where
  state : PlayState := .stopped
  clock : ClockTime := 0
  startTime : ClockTime := 0
  stopTime : Option ClockTime := none
  position : ClockTime := 0
  loop : Loop := {}
  loopsPlayed : UInt32 := 0
  rate : Binary64 := .one
  disposed : Bool := false
  deriving DecidableEq

/-- The positions from `start` up to `finish`, of which the first is played at `clock`. -/
structure Stretch where
  start : ClockTime
  finish : ClockTime
  clock : ClockTime
  deriving DecidableEq

/-- What happens while the clock advances: the transport afterwards, the stretches played in order,
and the clock time at which the last loop ended, if it did. -/
structure Passage where
  transport : Transport
  stretches : List Stretch := []
  finishedAt : Option ClockTime := none
  deriving DecidableEq

namespace Transport

/-! ### Playing -/

/-- The length from a position to the end of the window is some of any length that reaches it. -/
theorem lap_pos {transport : Transport} {reach : ClockTime}
    (h : transport.loop.IsCrossed transport.position reach) :
    0 < (transport.loop.finish - transport.position).val :=
  Nat.sub_pos_of_lt h.2.1

/-- The end of the window is reached within the length that reaches it. -/
theorem lap_le {transport : Transport} {remaining : ClockTime}
    (h : transport.loop.IsCrossed transport.position (transport.position + remaining)) :
    (transport.loop.finish - transport.position).val ≤ remaining.val := by
  have h2 := h.2.2
  rw [Span.le_def, Span.val_add] at h2
  rw [Span.val_sub]
  omega

/-- The clock time in which the whole window is played. -/
def windowTime (transport : Transport) : ClockTime :=
  (transport.loop.finish - transport.loop.start).unscale transport.rate

/-- The clock time until the end of the window is reached, given that of the whole window, which is
played in every lap but the first. -/
def lapTime (transport : Transport) (whole : ClockTime) : ClockTime :=
  if transport.position = transport.loop.start then whole
  else (transport.loop.finish - transport.position).unscale transport.rate

/-- The time of a lap depends only on the positions that it covers. -/
theorem lapTime_windowTime (transport : Transport) :
    transport.lapTime transport.windowTime =
      (transport.loop.finish - transport.position).unscale transport.rate := by
  rw [lapTime]
  split
  · next h => rw [h, windowTime]
  · rfl

/-- Plays the positions that remain to be covered, from a clock time on, where `whole` is the time
of the whole window. The stretches played before are given with the last one first. -/
def coverFrom (transport : Transport) (whole clock remaining : ClockTime)
    (played : List Stretch) : Passage :=
  if remaining.val = 0 then { transport, stretches := played.reverse }
  else
    let reach := transport.position + remaining
    if _h : transport.loop.IsCrossed transport.position reach then
      let lap := transport.loop.finish - transport.position
      let stretch : Stretch := ⟨transport.position, transport.loop.finish, clock⟩
      let loops := transport.loopsPlayed + 1
      if transport.loop.mode.isDoneAfter loops then
        { transport :=
            { transport with
              state := .stopped, position := transport.loop.finish, loopsPlayed := loops }
          stretches := (stretch :: played).reverse
          finishedAt := some (clock + transport.lapTime whole) }
      else
        coverFrom { transport with position := transport.loop.start, loopsPlayed := loops }
          whole (clock + transport.lapTime whole) (remaining - lap) (stretch :: played)
    else
      { transport := { transport with position := reach }
        stretches := (⟨transport.position, reach, clock⟩ :: played).reverse }
termination_by remaining.val
decreasing_by
  have hpos := lap_pos _h
  have hle := lap_le _h
  rw [Span.val_sub]
  omega

/-- Plays a length of positions from a clock time on. -/
def cover (transport : Transport) (clock length : ClockTime) : Passage :=
  transport.coverFrom transport.windowTime clock length []

/-- Whether a stop is scheduled at a clock time or before. -/
def isStopDue (transport : Transport) (now : ClockTime) : Bool :=
  transport.stopTime.any (· ≤ now)

/-- The clock time up to which a transport plays when its clock advances: the scheduled stop, if
that comes first. -/
def playLimit (transport : Transport) (now : ClockTime) : ClockTime :=
  match transport.stopTime with
  | some stop => if stop < now then stop else now
  | none => now

/-- Plays from the clock, or from the scheduled start if that is later, up to a limit. -/
def playUpTo (transport : Transport) (limit : ClockTime) : Passage :=
  let first := max transport.clock transport.startTime
  if first < limit then transport.cover first ((limit - first).scale transport.rate)
  else { transport }

/-- Moves the clock to `now`, and stops the transport if a stop is due. -/
def settle (transport : Transport) (now : ClockTime) : Transport :=
  if transport.isStopDue now then
    { transport with state := .stopped, stopTime := none, clock := now }
  else
    { transport with clock := now }

/-- Advances the clock. A clock never goes back, and that of a disposed transport stands still. -/
def process (transport : Transport) (now : ClockTime) : Passage :=
  if transport.disposed ∨ now ≤ transport.clock then { transport }
  else
    match transport.state with
    | .stopped => { transport := { transport with clock := now } }
    | .started =>
      let passage := transport.playUpTo (transport.playLimit now)
      { passage with transport := passage.transport.settle now }

/-! ### Controls -/

/-- The position at which a transport starts by default. -/
def home (transport : Transport) : ClockTime :=
  if transport.loop.IsActive then transport.loop.start else 0

/-- Starts a transport at a clock time, now by default and never in the past, from a position. A
disposed transport does not start. -/
def start (transport : Transport) (time position : Option ClockTime) : Transport :=
  if transport.disposed then transport
  else
    { transport with
      state := .started
      startTime := max (time.getD transport.clock) transport.clock
      stopTime := none
      position := position.getD transport.home
      loopsPlayed := 0 }

/-- The clock time at which a stop asked for at `time` takes place, if the transport plays. -/
def stopTimeFor? (transport : Transport) (time : Option ClockTime) : Option ClockTime :=
  match transport.state with
  | .stopped => none
  | .started => some (max (time.getD transport.clock) transport.clock)

/-- Stops a transport at a clock time, at once by default. -/
def stop (transport : Transport) (time : Option ClockTime) : Transport :=
  match transport.stopTimeFor? time with
  | none => transport
  | some stop =>
    if transport.clock < stop then { transport with stopTime := some stop }
    else { transport with state := .stopped, stopTime := none }

/-- The rates at which a transport can play: finite and above zero. -/
def IsPlayable (rate : Binary64) : Prop :=
  Binary64.zero.lt rate ∧ rate.isFinite

instance (rate : Binary64) : Decidable (IsPlayable rate) :=
  inferInstanceAs (Decidable (_ ∧ _))

/-- Changes the playback rate, unless the rate is not playable. -/
def setRate (transport : Transport) (rate : Binary64) : Transport :=
  if IsPlayable rate then { transport with rate } else transport

/-- Stops a transport for good. -/
def dispose (transport : Transport) : Transport :=
  { transport with state := .stopped, stopTime := none, disposed := true }

end Transport

end Ostinato
