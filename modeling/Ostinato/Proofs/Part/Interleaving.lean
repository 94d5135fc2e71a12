import Ostinato.Part.Command
import Ostinato.Proofs.Part.Granularity

/-!
# Playing in one loop

A part first moves its transport and then sounds the stretches that this has covered. It might as
well do both in one loop, in which each stretch is sounded as soon as the position has passed it,
before it is known where the next one begins: the listener is told and the random numbers are drawn
lap by lap, and a counted loop ends the part in the middle of it. Both ways come to the same part
and the same events. So what sounds has no say in where the position goes, although one loop does
both.

## Main definitions

* `Part.leave`: leaving a stretch behind.
* `Part.playFrom`, `Part.advance`: playing, and advancing the clock, in one loop.
* `Part.carry`: what comes of a part that is carried through a passage.
* `Part.runInOneLoop`: a run in which each step of the clock is one loop.

## Main results

* `Part.playFrom_eq_carry`: one loop comes to what a covered length comes to.
* `Part.process_eq_advance`: advancing the clock may be done in one loop.
* `Part.runInOneLoop_eq`: the same holds of runs.
-/

namespace Ostinato

variable {γ α : Type} [Generator γ]

namespace Part

/-! ### The loop -/

/-- Leaves a stretch behind: what is met on it sounds, and the draws go on. -/
def leave (part : Part γ α) (stretch : Stretch) : Part γ α × List (PartEvent α) :=
  ({ part with draws := (part.play [stretch]).2 }, (part.play [stretch]).1)

/-- Plays the positions that remain to be covered, from a clock time on, and sounds each stretch as
soon as the position has passed it. -/
def playFrom (part : Part γ α) (clock remaining : ClockTime) : Part γ α × List (PartEvent α) :=
  if remaining.val = 0 then (part, [])
  else
    let position := part.transport.position
    let loop := part.transport.loop
    let reach := position + remaining
    if _h : loop.IsCrossed position reach then
      let lap := loop.finish - position
      let loops := part.transport.loopsPlayed + 1
      let passed := part.leave ⟨position, loop.finish, clock⟩
      let clock := clock + lap.unscale part.transport.rate
      if loop.mode.isDoneAfter loops then
        ({ passed.1 with
            transport :=
              { passed.1.transport with
                state := .stopped, position := loop.finish, loopsPlayed := loops } },
          passed.2 ++ [.finished loops clock])
      else
        let rest := playFrom { passed.1 with transport := passed.1.transport.jumped } clock
          (remaining - lap)
        (rest.1, passed.2 ++ rest.2)
    else
      let passed := part.leave ⟨position, reach, clock⟩
      ({ passed.1 with transport := { passed.1.transport with position := reach } }, passed.2)
termination_by remaining.val
decreasing_by
  have hpos := Transport.lap_pos _h
  have hle := Transport.lap_le _h
  rw [Span.val_sub]
  omega

/-- What comes of a part that is carried through a passage. -/
def carry (part : Part γ α) (passage : Passage) : Part γ α × List (PartEvent α) :=
  ({ part with transport := passage.transport, draws := (part.play passage.stretches).2 },
    (part.play passage.stretches).1 ++
      passage.endings.map fun ending => .finished ending.1 ending.2)

theorem carry_cons (part : Part γ α) (stretch : Stretch) (passage : Passage) (transport : Transport)
    (hrate : transport.rate = part.transport.rate) :
    part.carry { passage with stretches := stretch :: passage.stretches } =
      (({ (part.leave stretch).1 with transport }.carry passage).1,
        (part.leave stretch).2 ++ ({ (part.leave stretch).1 with transport }.carry passage).2) := by
  have hcut : part.play (stretch :: passage.stretches) =
      ((part.leave stretch).2 ++
          ({ (part.leave stretch).1 with transport }.play passage.stretches).1,
        ({ (part.leave stretch).1 with transport }.play passage.stretches).2) := by
    rw [(part.leave stretch).1.play_setTransport hrate]
    exact part.play_append [stretch] passage.stretches
  rw [carry, hcut, carry, ← List.append_assoc]
  rfl

/-- **Playing in one loop** comes to what covering the length and then sounding its stretches
does. -/
theorem playFrom_eq_carry (part : Part γ α) (clock remaining : ClockTime) :
    part.playFrom clock remaining = part.carry (part.transport.cover clock remaining) := by
  induction part, clock, remaining using playFrom.induct with
  | case1 part clock remaining hzero =>
    rw [playFrom, if_pos hzero, Transport.cover, Transport.coverFrom_of_eq_zero _ _ _ hzero, carry,
      List.reverse_nil, play_nil]
    rfl
  | case2 part clock remaining hpos position loop reach hcrossed loops hdone =>
    rw [playFrom, if_neg hpos, Transport.cover,
      Transport.coverFrom_of_isDone _ _ hcrossed hdone, Transport.lapTime_windowTime]
    dsimp only
    rw [dif_pos hcrossed, if_pos hdone]
    rfl
  | case3 part clock remaining hpos position loop reach hcrossed lap loops passed after hdone ih =>
    have hmode := Bool.eq_false_iff.2 hdone
    -- the stretch of this lap, in front of those of the laps to come
    rw [Transport.cover, Transport.coverFrom_of_isCrossed _ _ hcrossed hmode,
      Transport.coverFrom_eq_append, List.reverse_singleton, List.singleton_append,
      Transport.lapTime_windowTime, carry_cons part _ _ part.transport.jumped rfl]
    rw [playFrom, if_neg hpos]
    dsimp only
    rw [dif_pos hcrossed, if_neg hdone, ih]
    rfl
  | case4 part clock remaining hpos position loop reach hcrossed =>
    rw [playFrom, if_neg hpos, Transport.cover,
      Transport.coverFrom_of_not_isCrossed _ _ hpos hcrossed, List.reverse_singleton, carry]
    dsimp only
    rw [dif_neg hcrossed]
    exact Prod.ext rfl (List.append_nil _).symm

/-! ### Advancing the clock -/

/-- Advances the clock, and plays what that passes in one loop. -/
def advance (part : Part γ α) (now : ClockTime) : Part γ α × List (PartEvent α) :=
  let transport := part.transport
  if transport.disposed ∨ now ≤ transport.clock then (part, [])
  else
    match transport.state with
    | .stopped => ({ part with transport := { transport with clock := now } }, [])
    | .started =>
      let first := max transport.clock transport.startTime
      let limit := transport.playLimit now
      let played :=
        if first < limit then part.playFrom first ((limit - first).scale transport.rate)
        else (part, [])
      ({ played.1 with transport := played.1.transport.settle now }, played.2)

theorem carry_transport (part : Part γ α) (transport : Transport) :
    part.carry { transport } = ({ part with transport }, []) := by
  rw [carry, play_nil]
  rfl

theorem carry_settle (part : Part γ α) (passage : Passage) (now : ClockTime) :
    part.carry { passage with transport := passage.transport.settle now } =
      ({ (part.carry passage).1 with transport := passage.transport.settle now },
        (part.carry passage).2) := by
  simp only [carry, Passage.endings, Transport.loopsPlayed_settle]

/-- **Advancing the clock may be done in one loop**: the same part comes of it, and the same events
in the same order. -/
theorem process_eq_advance (part : Part γ α) (now : ClockTime) :
    part.process now = part.advance now := by
  have hcarry : part.process now = part.carry (part.transport.process now) := part.process_eq now
  rw [advance]
  by_cases hidle : part.transport.disposed = true ∨ now ≤ part.transport.clock
  · rw [if_pos hidle, process_of_idle hidle]
  obtain ⟨hlive, hclock⟩ := not_or.1 hidle
  replace hlive := Bool.eq_false_iff.2 hlive
  replace hclock := Nat.lt_of_not_le hclock
  rw [if_neg hidle, hcarry]
  split
  · next hstate => rw [Transport.process_of_stopped hlive hclock hstate, carry_transport]
  · next hstate =>
    rw [Transport.process_of_started hlive hclock hstate, carry_settle, Transport.playUpTo]
    dsimp only
    split
    · rw [playFrom_eq_carry]
      rfl
    · rw [carry_transport]

/-! ### Runs -/

/-- What a command does to a part that advances its clock in one loop. -/
def performInOneLoop (part : Part γ α) : Command α → Part γ α × List (PartEvent α)
  | .process now => part.advance now
  | command => part.perform command

/-- What a list of commands does to a part that advances its clock in one loop. -/
def runInOneLoop (part : Part γ α) : List (Command α) → Part γ α × List (PartEvent α)
  | [] => (part, [])
  | command :: commands =>
    let (next, events) := part.performInOneLoop command
    let (last, rest) := next.runInOneLoop commands
    (last, events ++ rest)

theorem performInOneLoop_eq (part : Part γ α) (command : Command α) :
    part.performInOneLoop command = part.perform command := by
  cases command with
  | process now => exact (part.process_eq_advance now).symm
  | _ => rfl

theorem runInOneLoop_eq (part : Part γ α) (commands : List (Command α)) :
    part.runInOneLoop commands = part.run commands := by
  induction commands generalizing part with
  | nil => rfl
  | cons command commands ih =>
    rw [runInOneLoop, performInOneLoop_eq]
    dsimp only
    rw [ih, run_cons]

end Part

end Ostinato
