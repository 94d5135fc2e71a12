import Ostinato.Proofs.Part.Heard
import Ostinato.Proofs.Part.Passages

/-!
# Laps of a loop without end

A transport that is started at the start of its loop window, with a loop without end, plays the
window over and over. At rate one the passes begin one after the other, as far apart as the window
is long: the period does not depend on how the clock is advanced, and no remainder is lost from one
pass to the next.

## Main definitions

* `Schedule.pass`, `Schedule.passes`: what comes up in one pass, and in a number of passes.
* `Transport.IsLooping`: transports that are started at the start of the window.

## Main results

* `Schedule.passes_eq_flatMap`: the passes in closed form.
* `Transport.soundings_coverFrom_passes`: covering a length from the start of the window on.
* `Transport.IsLooping.soundings_process`: what comes up while the clock advances.
* `Part.IsPlain.heard_of_isLooping`: what is heard meanwhile.
-/

namespace Ostinato

variable {γ α : Type} [Generator γ]

/-! ### Passes -/

/-- The length of the window. -/
def Loop.period (loop : Loop) : ClockTime :=
  loop.finish - loop.start

namespace Schedule

/-- What comes up in the pass through a loop window that begins at a clock time. -/
def pass (schedule : Schedule α) (loop : Loop) (clock : ClockTime) : List (ClockTime × Entry α) :=
  (schedule.entries.filter (·.isWithin loop.start.val loop.finish.val)).map
    fun entry => (clock + (entry.time - loop.start), entry)

/-- What comes up in a number of passes, the first of which begins at a clock time. -/
def passes (schedule : Schedule α) (loop : Loop) (clock : ClockTime) :
    Nat → List (ClockTime × Entry α)
  | 0 => []
  | n + 1 => schedule.pass loop clock ++ schedule.passes loop (clock + loop.period) n

theorem le_of_mem_pass {schedule : Schedule α} {loop : Loop} {clock : ClockTime}
    {sounding : ClockTime × Entry α} (h : sounding ∈ schedule.pass loop clock) :
    clock ≤ sounding.1 := by
  obtain ⟨entry, -, rfl⟩ := List.mem_map.1 h
  have hclock := clock.val_le
  rw [Span.le_def, Span.val_add]
  omega

theorem le_of_mem_passes {schedule : Schedule α} {loop : Loop} {clock : ClockTime} {n : Nat}
    {sounding : ClockTime × Entry α} (h : sounding ∈ schedule.passes loop clock n) :
    clock ≤ sounding.1 := by
  induction n generalizing clock with
  | zero => exact absurd h List.not_mem_nil
  | succ n ih =>
    rcases List.mem_append.1 h with h | h
    · exact le_of_mem_pass h
    · have hclock := clock.val_le
      have hle := ih h
      rw [Span.le_def, Span.val_add] at hle
      rw [Span.le_def]
      omega

theorem filter_passes_of_le (schedule : Schedule α) (loop : Loop) {clock limit : ClockTime}
    (h : limit ≤ clock) (n : Nat) :
    (schedule.passes loop clock n).filter (·.1 < limit) = [] := by
  refine List.filter_eq_nil_iff.2 fun sounding hmem hlt => ?_
  exact Nat.not_lt_of_le (Nat.le_trans h (le_of_mem_passes hmem)) (of_decide_eq_true hlt)

/-- The passes begin one period after the other. -/
theorem passes_eq_flatMap (schedule : Schedule α) (loop : Loop) (clock : ClockTime) (n : Nat) :
    schedule.passes loop clock n =
      (List.range n).flatMap fun k => schedule.pass loop (clock + loop.period * k) := by
  induction n generalizing clock with
  | zero => rfl
  | succ n ih =>
    have hfirst : clock + loop.period * 0 = clock := Span.ext (by
      have hclock := clock.val_le
      rw [Span.val_add, Span.val_mul]
      omega)
    have hlater : ∀ k, clock + loop.period + loop.period * k = clock + loop.period * (k + 1) := by
      intro k
      refine Span.ext ?_
      simp only [Span.val_add, Span.val_mul, Nat.mul_succ]
      omega
    rw [passes, ih, List.range_succ_eq_map, List.flatMap_cons, hfirst, List.flatMap_map]
    simp only [hlater, Nat.succ_eq_add_one]

/-- What comes up in a pass before a clock time that falls into it. -/
theorem filter_pass (schedule : Schedule α) {loop : Loop} {clock length : ClockTime}
    (hlimit : clock.val + length.val ≤ maxCount)
    (hreach : loop.start.val + length.val ≤ loop.finish.val) :
    (schedule.pass loop clock).filter (·.1 < clock + length) =
      (schedule.entries.filter (·.isWithin loop.start.val (loop.start + length).val)).map
        fun entry => (clock + (entry.time - loop.start), entry) := by
  have hfinish := loop.finish.val_le
  rw [pass, List.filter_map, List.filter_filter]
  congr 1
  refine List.filter_congr fun entry _ => ?_
  rw [Function.comp_apply, Entry.isWithin, Entry.isWithin, ← Bool.decide_and]
  refine decide_eq_decide.2 ?_
  simp only [Span.lt_def, Span.val_add, Span.val_sub]
  omega

theorem filter_pass_of_le (schedule : Schedule α) {loop : Loop} {clock limit : ClockTime}
    (h : clock.val + loop.period.val ≤ limit.val) :
    (schedule.pass loop clock).filter (·.1 < limit) = schedule.pass loop clock := by
  refine List.filter_eq_self.2 fun sounding hmem => decide_eq_true ?_
  obtain ⟨entry, hentry, rfl⟩ := List.mem_map.1 hmem
  obtain ⟨hge, hlt⟩ := of_decide_eq_true (List.mem_filter.1 hentry).2
  rw [Loop.period, Span.val_sub] at h
  simp only [Span.lt_def, Span.val_add, Span.val_sub]
  omega

end Schedule

namespace Transport

/-! ### Covering from the start of the window -/

/-- **Covering a length from the start of the window on**, in a loop without end and at rate one:
what comes up is what comes up in passes that last for the length, before the length has passed. -/
theorem soundings_coverFrom_passes (schedule : Schedule α) (n : Nat) {transport : Transport}
    {clock remaining : ClockTime} (hmode : transport.loop.mode = .forever)
    (hrate : transport.rate = .one) (hactive : transport.loop.IsActive)
    (hposition : transport.position = transport.loop.start)
    (hlimit : clock.val + remaining.val < exactLimit)
    (hlast : remaining.val ≤ n * transport.loop.period.val) :
    schedule.soundings .one
        (transport.coverFrom transport.windowTime clock remaining []).stretches =
      (schedule.passes transport.loop clock n).filter (·.1 < clock + remaining) := by
  induction n generalizing transport clock remaining with
  | zero =>
    rw [coverFrom_of_eq_zero _ _ _ (by omega)]
    rfl
  | succ n ih =>
    have hlarge : exactLimit ≤ maxCount := by decide
    have hwindow : transport.loop.start.val < transport.loop.finish.val := hactive.2
    have hperiod : transport.loop.period.val =
        transport.loop.finish.val - transport.loop.start.val := Span.val_sub _ _
    have hlap : transport.loop.finish - transport.position = transport.loop.period := by
      rw [hposition, Loop.period]
    by_cases hcrossed : transport.loop.IsCrossed transport.position (transport.position + remaining)
    · -- a whole pass, and the rest of the length from the next one on
      have hle : transport.loop.period.val ≤ remaining.val := hlap ▸ lap_le hcrossed
      have htime := lapTime_of_rate_one hrate (by rw [hlap]; omega)
      have hclock : (clock + transport.loop.period).val =
          clock.val + transport.loop.period.val := by
        rw [Span.val_add]
        omega
      have hend : clock + transport.loop.period + (remaining - transport.loop.period) =
          clock + remaining := add_add_eq clock (by rw [Span.val_sub]; omega)
      have hleft : (remaining - transport.loop.period).val ≤ n * transport.loop.period.val := by
        rw [Nat.succ_mul] at hlast
        rw [Span.val_sub]
        exact Nat.sub_le_of_le_add hlast
      have hexact : (clock + transport.loop.period).val + (remaining - transport.loop.period).val <
          exactLimit := by
        rw [hclock, Span.val_sub]
        omega
      have hrest := @ih transport.jumped _ _ hmode hrate hactive rfl hexact hleft
      have hfirst : schedule.soundings .one
          [⟨transport.position, transport.loop.finish, clock⟩] =
            schedule.pass transport.loop clock := by
        rw [hposition]
        exact schedule.soundings_singleton (by dsimp only; rw [Span.val_sub]; omega)
      rw [coverFrom_of_isCrossed _ _ hcrossed (by rw [hmode]; rfl), htime, hlap,
        coverFrom_eq_append, Schedule.passes, List.filter_append,
        schedule.filter_pass_of_le (by rw [Span.val_add]; omega), ← hend]
      dsimp only
      rw [Schedule.soundings_append, List.reverse_singleton, hfirst]
      exact congrArg _ hrest
    · -- the length ends within the pass
      have hshort : remaining.val < transport.loop.period.val := by
        refine Nat.lt_of_not_le fun hle => hcrossed ⟨hactive, hposition ▸ hactive.2, ?_⟩
        have hmax := transport.loop.finish.val_le
        rw [hposition, Span.le_def, Span.val_add]
        omega
      have hlater : clock + remaining ≤ clock + transport.loop.period := by
        rw [Span.le_def, Span.val_add, Span.val_add]
        omega
      rw [Schedule.passes, List.filter_append, schedule.filter_passes_of_le _ hlater,
        List.append_nil, schedule.filter_pass (by omega) (by omega)]
      by_cases hzero : remaining.val = 0
      · rw [coverFrom_of_eq_zero _ _ _ hzero, List.filter_eq_nil_iff.2 fun entry _ hentry => ?_]
        · rfl
        · have hwithin := of_decide_eq_true hentry
          rw [Span.val_add] at hwithin
          omega
      · rw [coverFrom_of_not_isCrossed _ _ hzero hcrossed, hposition]
        refine schedule.soundings_singleton ?_
        dsimp only
        rw [Span.val_sub, Span.val_add]
        omega

/-! ### Advancing the clock -/

/-- Whether a transport has been started at the start of its window, with a loop without end and at
rate one, and its clock has not come to the time of the start. -/
structure IsLooping (transport : Transport) : Prop where
  disposed : transport.disposed = false
  state : transport.state = .started
  clock : transport.clock ≤ transport.startTime
  stopTime : transport.stopTime = none
  mode : transport.loop.mode = .forever
  active : transport.loop.start < transport.loop.finish
  rate : transport.rate = .one
  position : transport.position = transport.loop.start

/-- A transport with a loop without end starts at the start of its window. -/
theorem IsLooping.start {transport : Transport} (hlive : transport.disposed = false)
    (hmode : transport.loop.mode = .forever)
    (hactive : transport.loop.start < transport.loop.finish) (hrate : transport.rate = .one)
    (time : Option ClockTime) : (transport.start time none).IsLooping := by
  have hhome : transport.home = transport.loop.start :=
    if_pos ⟨by rw [hmode]; rfl, hactive⟩
  have hlater := clock_le_startTime hlive time none
  rw [start_of_live hlive] at hlater ⊢
  exact ⟨hlive, rfl, hlater, rfl, hmode, hactive, hrate, hhome⟩

/-- What comes up while the clock of a transport that loops is advanced at once: what comes up in as
many passes as there is time for. -/
theorem IsLooping.soundings_process (schedule : Schedule α) {transport : Transport}
    (h : transport.IsLooping) {now : ClockTime} (hlimit : now.val < exactLimit) {n : Nat}
    (hlast : now.val ≤ transport.startTime.val + n * transport.loop.period.val) :
    schedule.soundings .one (transport.process now).stretches =
      (schedule.passes transport.loop transport.startTime n).filter (·.1 < now) := by
  have hactive : transport.loop.IsActive := ⟨by rw [h.mode]; rfl, h.active⟩
  have hfirst : max transport.clock transport.startTime = transport.startTime := Span.ext (by
    rw [Span.val_max]
    exact Nat.max_eq_right h.clock)
  by_cases hstart : transport.startTime < now
  · have hplays : transport.Plays now := by
      refine ⟨h.disposed, Nat.lt_of_le_of_lt h.clock hstart, h.state, ?_⟩
      rw [playLimit_of_none now h.stopTime, hfirst]
      exact hstart
    rw [Span.lt_def] at hstart
    have hend : transport.startTime + (now - transport.startTime) = now := Span.ext (by
      have hnow := now.val_le
      rw [Span.val_add, Span.val_sub]
      omega)
    have hexact : transport.startTime.val + (now - transport.startTime).val < exactLimit := by
      rw [Span.val_sub]
      omega
    have hcovered := soundings_coverFrom_passes schedule n h.mode h.rate hactive h.position hexact
      (by rw [Span.val_sub]; omega)
    rw [hend] at hcovered
    rw [process_of_plays_of_rate_one h.rate hlimit hplays, playLimit_of_none now h.stopTime, hfirst]
    exact hcovered
  · rw [schedule.filter_passes_of_le _ (Nat.le_of_not_lt hstart)]
    have hquiet : ¬ transport.Plays now := by
      rintro ⟨-, -, -, hplays⟩
      rw [playLimit_of_none now h.stopTime, hfirst] at hplays
      exact hstart hplays
    obtain ⟨state, clock, stopTime, hprocess⟩ := process_of_not_plays hquiet
    rw [hprocess]
    rfl

end Transport

namespace Part

/-- What is heard of a plain part that loops while its clock is advanced at once: the sounds of the
window, pass after pass, at clock times before the last. -/
theorem IsPlain.heard_of_isLooping {part : Part γ α} (h : part.IsPlain) {listener : Listener}
    (hlistener : part.listener = some listener) (hsounds : listener.hearsSilence = false)
    (hlooping : part.transport.IsLooping) {now : ClockTime} (hlimit : now.val < exactLimit)
    {n : Nat}
    (hlast : now.val ≤ part.transport.startTime.val + n * part.transport.loop.period.val) :
    let loop := part.transport.loop
    (part.process now).2.filterMap PartEvent.heard? = listener.told
      (((List.range n).flatMap fun k =>
          (part.schedule.sounds.filter fun sound =>
              loop.start ≤ sound.1 ∧ sound.1 < loop.finish).map fun sound =>
            (part.transport.startTime + loop.period * k + (sound.1 - loop.start), sound.2)).filter
        fun sound => sound.1 < now) := by
  intro loop
  have hpass : ∀ clock, audible ((part.schedule.pass loop clock).map fun s => (s.1, s.2.step)) =
      (part.schedule.sounds.filter fun sound =>
          loop.start ≤ sound.1 ∧ sound.1 < loop.finish).map fun sound =>
        (clock + (sound.1 - loop.start), sound.2) := by
    intro clock
    rw [Schedule.pass, List.map_map]
    exact part.schedule.audible_filter_map (fun t => loop.start ≤ t ∧ t < loop.finish)
      (fun t => clock + (t - loop.start))
  rw [h.heard_process hlistener hsounds, hlooping.soundings_process _ hlimit hlast,
    Schedule.passes_eq_flatMap]
  have hbefore := audible_filter (fun t => decide (t < now))
    (((List.range n).flatMap fun k => part.schedule.pass loop
      (part.transport.startTime + loop.period * k)).map fun s => (s.1, s.2.step))
  rw [List.map_flatMap, audible_flatMap] at hbefore
  simp only [hpass] at hbefore
  rw [← hbefore, ← List.map_flatMap, List.filter_map]
  rfl

end Part

end Ostinato
