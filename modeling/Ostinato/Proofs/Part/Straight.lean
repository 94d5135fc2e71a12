import Ostinato.Proofs.Part.Heard
import Ostinato.Proofs.Part.Passages

/-!
# Playing straight on

A transport without a loop that has been started plays one position after the other for as long as
nothing stops it. At rate one its position is as far from the one where it began as the clock is
from the time of the start, however often the clock has been advanced in between, so every entry
comes up at a clock time that depends on nothing but its own time.

## Main definitions

* `Transport.RunsFrom`: transports that play straight on.

## Main results

* `Transport.RunsFrom.start`: a transport that is started plays straight on.
* `Transport.RunsFrom.process`: it still does after its clock has advanced, and the entries come up
  that lie between the two positions.
* `Part.IsPlain.heard_of_runsFrom`: what is heard meanwhile.
-/

namespace Ostinato

variable {γ α : Type} [Generator γ]

namespace Transport

/-- Whether a transport without a loop has been started at a clock time from a position, and has
been playing at rate one since. -/
structure RunsFrom (transport : Transport) (time position : ClockTime) : Prop where
  disposed : transport.disposed = false
  state : transport.state = .started
  startTime : transport.startTime = time
  stopTime : transport.stopTime = none
  mode : transport.loop.mode = .off
  rate : transport.rate = .one
  position : transport.position.val = position.val + (transport.clock.val - time.val)

/-- A transport that is started plays straight on. -/
theorem RunsFrom.start {transport : Transport} (hlive : transport.disposed = false)
    (hmode : transport.loop.mode = .off) (hrate : transport.rate = .one)
    (time position : Option ClockTime) :
    (transport.start time position).RunsFrom (transport.start time position).startTime
      (transport.start time position).position := by
  have hlater := clock_le_startTime hlive time position
  rw [start_of_live hlive] at hlater ⊢
  exact ⟨hlive, rfl, rfl, rfl, hmode, hrate, by rw [Nat.sub_eq_zero_of_le hlater, Nat.add_zero]⟩

namespace RunsFrom

variable {transport : Transport} {time position now : ClockTime}

theorem not_isCrossed (h : transport.RunsFrom time position) (reach : ClockTime) :
    ¬ transport.loop.IsCrossed transport.position reach := by
  intro hcrossed
  have henabled := hcrossed.1.1
  rw [h.mode] at henabled
  contradiction

theorem process_of_waiting (h : transport.RunsFrom time position) (hclock : transport.clock < now)
    (hwaiting : now ≤ time) :
    transport.process now = { transport := { transport with clock := now } } := by
  have hnot : ¬ max transport.clock transport.startTime < transport.playLimit now := by
    rw [playLimit_of_none now h.stopTime, h.startTime, Span.lt_def, Span.val_max]
    exact Nat.not_lt_of_le (Nat.le_trans hwaiting (Nat.le_max_right _ _))
  rw [process_of_started h.disposed hclock h.state, playUpTo_of_not_lt hnot,
    settle_of_not_isStopDue (not_isStopDue_of_none now h.stopTime)]

/-- From the start on, the position advances with the clock in one stretch. -/
theorem process_of_playing (h : transport.RunsFrom time position) (hlimit : now.val < exactLimit)
    (hclock : transport.clock < now) (hstart : time < now) :
    transport.process now =
      { transport :=
          { transport with
            position := transport.position + (now - max transport.clock time), clock := now }
        stretches := [⟨transport.position,
          transport.position + (now - max transport.clock time), max transport.clock time⟩] } := by
  rw [Span.lt_def] at hclock hstart
  have hlt : max transport.clock time < now := by
    rw [Span.lt_def, Span.val_max]
    omega
  have hplays : transport.Plays now := by
    refine ⟨h.disposed, hclock, h.state, ?_⟩
    rw [playLimit_of_none now h.stopTime, h.startTime]
    exact hlt
  have hpos : (now - max transport.clock time).val ≠ 0 := by
    rw [Span.lt_def] at hlt
    rw [Span.val_sub]
    omega
  have hfirst : max transport.clock transport.startTime = max transport.clock time := by
    rw [h.startTime]
  rw [process_of_plays_of_rate_one h.rate hlimit hplays, playLimit_of_none now h.stopTime, hfirst,
    cover, coverFrom_of_not_isCrossed _ _ hpos (h.not_isCrossed _)]
  have hgoing : { transport with
      position := transport.position + (now - max transport.clock time) }.isStopDue now = false :=
    not_isStopDue_of_none now h.stopTime
  dsimp only
  rw [settle_of_not_isStopDue hgoing]
  rfl

/-- **Advancing the clock of a transport that plays straight on.** It goes on so, its position does
not go back, and the entries between the two positions come up, each as long after the start as its
time is behind the position of the start. -/
theorem process (h : transport.RunsFrom time position) (hposition : position.val < exactLimit)
    (hlimit : now.val < exactLimit) :
    let passage := transport.process now
    passage.transport.RunsFrom time position ∧ transport.position ≤ passage.transport.position ∧
      ∀ schedule : Schedule α, schedule.soundings .one passage.stretches =
        (schedule.entries.filter fun entry =>
            transport.position ≤ entry.time ∧ entry.time < passage.transport.position).map
          fun entry => (time + (entry.time - position), entry) := by
  have hstill : ∀ schedule : Schedule α, schedule.soundings .one [] =
      (schedule.entries.filter fun entry =>
          transport.position ≤ entry.time ∧ entry.time < transport.position).map
        fun entry => (time + (entry.time - position), entry) := by
    intro schedule
    rw [List.filter_eq_nil_iff.2 fun entry _ hentry => ?_]
    · rfl
    · obtain ⟨hge, hlt⟩ := of_decide_eq_true hentry
      exact Nat.not_lt_of_le hge hlt
  have hstraight := h.position
  dsimp only
  by_cases hclock : transport.clock < now
  · by_cases hstart : time < now
    · rw [h.process_of_playing hlimit hclock hstart]
      rw [Span.lt_def] at hclock hstart
      have hlarge : 2 * exactLimit ≤ maxCount := by decide
      have hreach : (transport.position + (now - max transport.clock time)).val =
          position.val + (now.val - time.val) := by
        rw [Span.val_add, Span.val_sub, Span.val_max]
        omega
      refine ⟨⟨h.disposed, h.state, h.startTime, h.stopTime, h.mode, h.rate, hreach⟩, ?_, ?_⟩
      · rw [Span.le_def, hreach]
        omega
      · intro schedule
        rw [Schedule.soundings_singleton]
        · refine List.map_congr_left fun entry hentry => Prod.ext (Span.ext ?_) rfl
          -- what has passed since the last step is what the positions have advanced
          obtain ⟨hge, hlt⟩ := of_decide_eq_true (List.mem_filter.1 hentry).2
          rw [hreach] at hlt
          dsimp only at hge ⊢
          simp only [Span.val_add, Span.val_sub, Span.val_max]
          omega
        · simp only [Span.val_sub, hreach]
          omega
    · rw [h.process_of_waiting hclock (Nat.le_of_not_lt hstart)]
      rw [Span.lt_def] at hclock hstart
      have hposition : transport.position.val = position.val + (now.val - time.val) := by omega
      exact ⟨⟨h.disposed, h.state, h.startTime, h.stopTime, h.mode, h.rate, hposition⟩,
        Nat.le_refl _, hstill⟩
  · rw [process_of_idle (.inr (Nat.le_of_not_lt hclock))]
    exact ⟨h, Nat.le_refl _, hstill⟩

end RunsFrom

end Transport

namespace Part

/-- What is heard of a plain part that plays straight on: the sounds between the two positions, each
as long after the start as it is behind the position of the start. -/
theorem IsPlain.heard_of_runsFrom {part : Part γ α} (h : part.IsPlain) {listener : Listener}
    (hlistener : part.listener = some listener) (hsounds : listener.hearsSilence = false)
    {time position now : ClockTime} (hruns : part.transport.RunsFrom time position)
    (hposition : position.val < exactLimit) (hlimit : now.val < exactLimit) :
    (part.process now).2.filterMap PartEvent.heard? = listener.told
      ((part.schedule.sounds.filter fun sound => part.transport.position ≤ sound.1 ∧
          sound.1 < (part.process now).1.transport.position).map
        fun sound => (time + (sound.1 - position), sound.2)) := by
  obtain ⟨-, -, hsoundings⟩ := hruns.process (α := α) hposition hlimit
  have hchosen := part.schedule.audible_filter_map
    (fun t => part.transport.position ≤ t ∧ t < (part.transport.process now).transport.position)
    (fun t => time + (t - position))
  rw [h.heard_process hlistener hsounds, hsoundings, List.map_map]
  exact congrArg listener.told hchosen

end Part

end Ostinato
