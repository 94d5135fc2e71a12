import Ostinato.Part.Command

/-!
# Execution of commands

What a command does to a part is computed a little differently from how it is described, and it is
not always computed.

A loop that is not counted comes back to the start of its window after every lap. If nobody is told
of what is played meanwhile, nothing is left of a lap but its number, so the laps need not be played
one after the other: how many there are, and where the last one breaks off, can be computed.

The laps are counted in words of thirty-two bits. The description lets a word go around, as it does
where arithmetic is not checked. Where arithmetic is checked, a lap that takes the count out of its
word ends everything; whether there will be such a lap can be computed as well.

## Main definitions

* `Loop.lapsWithin`, `Loop.positionAfter`: the laps within a length, and the position after it.
* `Transport.playedTime`: the length that is played while the clock advances.
* `Transport.lapsAhead`, `Transport.overflows`: the laps on this length, and whether there are too
  many of them.
* `Transport.skip`, `Transport.skipTo`: covering a length, and advancing the clock, without a trace.
* `Part.execute`, `Part.executeAll`: what a command does to a part, and what a list of them does,
  where arithmetic is checked.
-/

namespace Ostinato

/-- Whether the window is played a number of times. -/
def LoopMode.isCounted : LoopMode → Bool
  | .count _ => true
  | _ => false

namespace Loop

/-- How often the end of the window is reached while a length is covered from a position on. -/
def lapsWithin (loop : Loop) (position length : ClockTime) : Nat :=
  if loop.IsCrossed position (position + length) then
    (length - (loop.finish - position)).val / (loop.finish - loop.start).val + 1
  else 0

/-- The position after a length has been covered from another one on. -/
def positionAfter (loop : Loop) (position length : ClockTime) : ClockTime :=
  if loop.IsCrossed position (position + length) then
    loop.start + Span.ofNat
      ((length - (loop.finish - position)).val % (loop.finish - loop.start).val)
  else position + length

end Loop

namespace Transport

/-- Whether a transport plays anything while its clock advances to `now`. -/
def Plays (transport : Transport) (now : ClockTime) : Prop :=
  transport.disposed = false ∧ transport.clock < now ∧ transport.state = .started ∧
    max transport.clock transport.startTime < transport.playLimit now

instance (transport : Transport) (now : ClockTime) : Decidable (transport.Plays now) :=
  inferInstanceAs (Decidable (_ ∧ _ ∧ _ ∧ _))

/-- The length that a transport plays while its clock advances to `now`: the time that passes while
it plays, at its rate. -/
def playedTime (transport : Transport) (now : ClockTime) : ClockTime :=
  if transport.Plays now then
    (transport.playLimit now - max transport.clock transport.startTime).scale transport.rate
  else 0

/-- After how many laps more a loop ends, if it is counted. It does not end before the next lap. -/
def lapLimit? (transport : Transport) : Option Nat :=
  match transport.loop.mode with
  | .count count => some (count.toNat - (transport.loopsPlayed + 1).toNat + 1)
  | _ => none

/-- The laps within a length that is covered, up to the end of a counted loop. -/
def lapsAhead (transport : Transport) (length : ClockTime) : Nat :=
  let laps := transport.loop.lapsWithin transport.position length
  transport.lapLimit?.elim laps (min laps)

/-- Whether a lap takes the count out of its word while the clock advances to `now`. -/
def overflows (transport : Transport) (now : ClockTime) : Bool :=
  UInt32.size ≤ transport.loopsPlayed.toNat + transport.lapsAhead (transport.playedTime now)

/-- Covers a length without a trace, in a loop that is not counted. -/
def skip (transport : Transport) (length : ClockTime) : Transport :=
  { transport with
    position := transport.loop.positionAfter transport.position length
    loopsPlayed :=
      transport.loopsPlayed + .ofNat (transport.loop.lapsWithin transport.position length) }

/-- Advances the clock without a trace, in a loop that is not counted. -/
def skipTo (transport : Transport) (now : ClockTime) : Transport :=
  if transport.disposed ∨ now ≤ transport.clock then transport
  else
    match transport.state with
    | .stopped => { transport with clock := now }
    | .started =>
      let first := max transport.clock transport.startTime
      let limit := transport.playLimit now
      let passed :=
        if first < limit then transport.skip ((limit - first).scale transport.rate) else transport
      passed.settle now

end Transport

namespace Part

variable {γ α : Type} [Generator γ]

/-- Carries out a command as `perform` does, but does not count out the laps of an unheard loop.
Nothing comes of a command that counts too many laps. -/
def execute (part : Part γ α) : Command α → Option (Part γ α × List (PartEvent α))
  | .process now =>
    if part.transport.overflows now then none
    else if part.audience = none ∧ part.transport.loop.mode.isCounted = false then
      some ({ part with transport := part.transport.skipTo now }, [])
    else some (part.process now)
  | command => some (part.perform command)

/-- Carries out a list of commands. -/
def executeAll (part : Part γ α) : List (Command α) → Option (Part γ α × List (PartEvent α))
  | [] => some (part, [])
  | command :: commands => do
    let (next, events) ← part.execute command
    let (last, rest) ← next.executeAll commands
    return (last, events ++ rest)

end Part

end Ostinato
