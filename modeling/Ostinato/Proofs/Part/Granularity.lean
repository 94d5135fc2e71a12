import Mathlib.Algebra.Group.Nat.Defs
import Ostinato.Part.Command
import Ostinato.Proofs.Part.Passages

/-!
# Granularity of the clock

A part whose clock is set to one time and then to a later one tells its listener the same steps at
the same clock times, draws the same random numbers, and ends in the same state as if its clock had
been set to the later time at once. All that a reader of the fields could find is a stop that is
still scheduled for a part that has come to its end, and that no later operation can tell.

## Main definitions

* `Part.observable`: a part without a stop that nothing is left to stop.
* `Part.DiffersInLeftover`: parts that differ at most in such a stop.

## Main results

* `Part.process_cut`: a step of the clock is two steps.
* `Part.run_observable`: what cannot be observed makes no difference later.
* `Part.run_map_process`: many steps of the clock are one step to the latest time.
* `Part.process_in_two_steps`: independence of the granularity of the clock.
-/

namespace Ostinato

variable {γ α : Type} [Generator γ]

namespace Part

/-! ### Steps of a part -/

/-- A part as it can be observed. -/
def observable (part : Part γ α) : Part γ α :=
  { part with transport := part.transport.observable }

theorem process_eq (part : Part γ α) (now : ClockTime) :
    part.process now =
      let passage := part.transport.process now
      let played := part.play passage.stretches
      ({ part with transport := passage.transport, draws := played.2 },
        played.1 ++ passage.endings.map fun ending => .finished ending.1 ending.2) := by
  have hendings : ∀ passage : Passage,
      (passage.finishedAt.map (PartEvent.finished (α := α) passage.transport.loopsPlayed)).toList =
        passage.endings.map fun ending => .finished ending.1 ending.2 := by
    intro passage
    rw [Passage.endings]
    cases passage.finishedAt <;> rfl
  rw [process, hendings]

theorem play_nil (part : Part γ α) : part.play [] = ([], part.draws) := by
  rw [play_eq_voice]
  cases part.audience <;> rfl

theorem process_of_idle {part : Part γ α} {now : ClockTime}
    (h : part.transport.disposed = true ∨ now ≤ part.transport.clock) :
    part.process now = (part, []) := by
  simp only [process_eq, Transport.process_of_idle h, play_nil]
  rfl

/-- Stretches that bring up what two lists of stretches do are played as these are, one after the
other. -/
theorem play_cut (part : Part γ α) (hrate : part.transport.rate = .one) {transport : Transport}
    (hrate' : transport.rate = .one) {uncut front rest : List Stretch}
    (hsoundings : part.schedule.soundings .one uncut =
      part.schedule.soundings .one front ++ part.schedule.soundings .one rest) :
    let later : Part γ α := { part with transport, draws := (part.play front).2 }
    part.play uncut = ((part.play front).1 ++ (later.play rest).1, (later.play rest).2) := by
  intro later
  have hjoined : part.play uncut = part.play (front ++ rest) := by
    rw [play_eq_voice, play_eq_voice, hrate, hsoundings, Schedule.soundings_append]
  have hlater : later.play rest = { part with draws := (part.play front).2 }.play rest :=
    play_setTransport { part with draws := (part.play front).2 } (hrate'.trans hrate.symm) rest
  rw [hjoined, play_append, hlater]

/-- **A step of the clock with a cut**, at rate one: the events are those of both parts, and the
states in the end cannot be told apart. -/
theorem process_cut (part : Part γ α) (hrate : part.transport.rate = .one)
    {first second : ClockTime}
    (hle : first ≤ second) (hlimit : second.val < exactLimit) :
    (part.process second).2 = (part.process first).2 ++ ((part.process first).1.process second).2 ∧
      (part.process second).1.observable =
        ((part.process first).1.process second).1.observable := by
  obtain ⟨hsoundings, hendings, hquiet, hobservable⟩ :=
    Transport.process_cut part.schedule hrate hle hlimit
  have hrate' := (part.transport.rate_process first).trans hrate
  have hplay := part.play_cut hrate hrate' hsoundings
  simp only [process_eq]
  generalize part.transport.process second = uncut at *
  generalize part.transport.process first = front at *
  generalize front.transport.process second = rest at *
  rw [hplay, hendings]
  refine ⟨?_, ?_⟩
  · cases hfinished : front.finishedAt with
    | none =>
      have hnone : front.endings = [] := by rw [Passage.endings, hfinished]; rfl
      rw [hnone, List.nil_append, List.map_nil, List.append_nil, List.append_assoc]
    | some time =>
      rw [hquiet (by rw [hfinished]; exact Option.some_ne_none _), play_nil, List.append_nil,
        List.nil_append, List.map_append, List.append_assoc]
  · simp only [observable, hobservable]

/-! ### What cannot be observed -/

omit [Generator γ] in
theorem observable_of_started {part : Part γ α} (h : part.transport.state = .started) :
    part.observable = part := by
  rw [observable, Transport.observable_of_started h]

theorem perform_observable (part : Part γ α) (command : Command α) :
    (part.observable.perform command).2 = (part.perform command).2 ∧
      (part.observable.perform command).1.observable = (part.perform command).1.observable := by
  cases hstate : part.transport.state with
  | started =>
    rw [observable_of_started hstate]
    exact ⟨rfl, rfl⟩
  | stopped =>
    have hobservable : part.observable =
        { part with transport := { part.transport with stopTime := none } } := by
      rw [observable, Transport.observable_of_stopped hstate]
    rw [hobservable]
    cases command with
    | process now =>
      by_cases hidle : part.transport.disposed = true ∨ now ≤ part.transport.clock
      · simp only [perform]
        rw [process_of_idle hidle,
          @process_of_idle γ α _ { part with transport := { part.transport with stopTime := none } }
            now hidle]
        exact ⟨rfl, by simp [observable, Transport.observable, hstate]⟩
      · obtain ⟨hdisposed, hbehind⟩ := not_or.1 hidle
        have hlive := Bool.eq_false_iff.2 hdisposed
        have hclock := Nat.lt_of_not_le hbehind
        simp only [perform, process_eq]
        rw [Transport.process_of_stopped hlive hclock hstate,
          @Transport.process_of_stopped { part.transport with stopTime := none } now hlive hclock
            hstate]
        simp [play_nil, observable, Transport.observable, hstate, Passage.endings]
    | start time position =>
      cases hdisposed : part.transport.disposed <;>
        simp [perform, start, Transport.start, Transport.home, observable, Transport.observable,
          hdisposed, hstate]
    | stop time => simp [perform, stop, Transport.stop, Transport.stopTimeFor?, observable,
        Transport.observable, hstate]
    | setRate rate =>
      simp only [perform, setRate, Transport.setRate, observable, Transport.observable]
      split <;> simp [hstate]
    | dispose => simp [perform, dispose, observable, Transport.observable, Transport.dispose]
    | _ =>
      simp [perform, observable, Transport.observable, hstate, add, nextId, remove, clear, setLoop,
        setProbability]

/-- What cannot be observed makes no difference to what follows. -/
theorem run_observable {part other : Part γ α} (h : part.observable = other.observable)
    (commands : List (Command α)) :
    (part.run commands).2 = (other.run commands).2 ∧
      (part.run commands).1.observable = (other.run commands).1.observable := by
  induction commands generalizing part other with
  | nil => exact ⟨rfl, h⟩
  | cons command commands ih =>
    obtain ⟨hevents, hnext⟩ := part.perform_observable command
    obtain ⟨hevents', hnext'⟩ := other.perform_observable command
    rw [h] at hevents hnext
    obtain ⟨hrest, hlast⟩ := ih (hnext.symm.trans hnext')
    simp only [run_cons]
    rw [← hevents, hevents', hrest]
    exact ⟨rfl, hlast⟩

/-- Whether two parts are the same, but for a stop that may be left over where they have stopped. -/
def DiffersInLeftover (part other : Part γ α) : Prop :=
  part = other ∨ part.transport.state = .stopped ∧
    ∃ stopTime, part = { other with transport := { other.transport with stopTime } }

omit [Generator γ] in
theorem differsInLeftover_of_observable {part other : Part γ α}
    (h : part.observable = other.observable) : part.DiffersInLeftover other := by
  have hstates : ∀ transport : Transport, transport.observable.state = transport.state := by
    intro transport
    rw [Transport.observable]
    split <;> rfl
  have hstate : part.transport.state = other.transport.state := by
    rw [← hstates part.transport, ← hstates other.transport]
    exact congrArg (fun part : Part γ α => part.transport.state) h
  cases hstopped : part.transport.state with
  | started =>
    rw [observable_of_started hstopped, observable_of_started (hstate.symm.trans hstopped)] at h
    exact .inl h
  | stopped =>
    refine .inr ⟨hstopped, part.transport.stopTime, ?_⟩
    rw [observable, observable, Transport.observable_of_stopped hstopped,
      Transport.observable_of_stopped (hstate.symm.trans hstopped)] at h
    cases part with
    | mk schedule nextEntry transport listener startOffset probability humanize mute draws =>
      cases other
      cases transport
      simp_all

/-! ### Many steps for one -/

theorem idle_process (part : Part γ α) (now : ClockTime) :
    (part.process now).1.transport.disposed = true ∨
      now ≤ (part.process now).1.transport.clock := by
  by_cases hidle : part.transport.disposed = true ∨ now ≤ part.transport.clock
  · rw [process_of_idle hidle]
    exact hidle
  · obtain ⟨hdisposed, hbehind⟩ := not_or.1 hidle
    refine .inr (Nat.le_of_eq (congrArg Span.val ?_))
    exact (Transport.clock_process (Bool.eq_false_iff.2 hdisposed) (Nat.lt_of_not_le hbehind)).symm

theorem run_map_process_of_idle {part : Part γ α} {times : List ClockTime}
    (h : part.transport.disposed = true ∨ ∀ now ∈ times, now ≤ part.transport.clock) :
    part.run (times.map .process) = (part, []) := by
  induction times with
  | nil => rfl
  | cons now times ih =>
    have hhere : part.process now = (part, []) :=
      process_of_idle (h.imp_right fun h => h now List.mem_cons_self)
    have hrest := ih (h.imp_right fun h now hnow => h now (List.mem_cons_of_mem _ hnow))
    simp only [List.map_cons, run_cons, perform, hhere, hrest, List.nil_append]

/-- **Many steps of the clock are one step** to the latest time, at rate one, in whatever order they
come. -/
theorem run_map_process (part : Part γ α) (hrate : part.transport.rate = .one)
    {times : List ClockTime} {last : ClockTime} (hlast : last ∈ times)
    (hle : ∀ now ∈ times, now ≤ last) (hlimit : last.val < exactLimit) :
    (part.run (times.map .process)).2 = (part.process last).2 ∧
      (part.run (times.map .process)).1.observable = (part.process last).1.observable := by
  induction times generalizing part with
  | nil => exact absurd hlast List.not_mem_nil
  | cons now times ih =>
    have hle' : ∀ other ∈ times, other ≤ last :=
      fun other hother => hle other (List.mem_cons_of_mem _ hother)
    simp only [List.map_cons, run_cons, perform]
    by_cases hmem : last ∈ times
    · obtain ⟨hevents, hstate⟩ :=
        ih (part.process now).1 ((part.transport.rate_process now).trans hrate) hmem hle'
      obtain ⟨hcut, hend⟩ := part.process_cut hrate (hle now List.mem_cons_self) hlimit
      rw [hevents, hcut, hstate, hend]
      exact ⟨rfl, rfl⟩
    · have hnow : last = now := (List.mem_cons.1 hlast).resolve_right hmem
      have hidle : (part.process now).1.transport.disposed = true ∨
          ∀ other ∈ times, other ≤ (part.process now).1.transport.clock := by
        refine (part.idle_process now).imp_right fun hreached other hother => ?_
        exact Nat.le_trans (hnow ▸ hle' other hother) hreached
      rw [run_map_process_of_idle hidle, List.append_nil, hnow]
      exact ⟨rfl, rfl⟩

/-- **Independence of the granularity of the clock**, at rate one. A clock that is set to one time
and then to a later one brings about the same events, in the same order and at the same clock times,
as a clock that is set to the later time at once. The states in the end are the same, but for a stop
that may be left over for a part that has stopped, and whatever is done later has the same events
and again such states. -/
theorem process_in_two_steps (part : Part γ α) (hrate : part.transport.rate = .one)
    {first second : ClockTime} (hle : first ≤ second) (hlimit : second.val < 2 ^ 53) :
    let twice := (part.process first).1.process second
    let once := part.process second
    once.2 = (part.process first).2 ++ twice.2 ∧ once.1.DiffersInLeftover twice.1 ∧
      ∀ commands, (once.1.run commands).2 = (twice.1.run commands).2 ∧
        (once.1.run commands).1.DiffersInLeftover (twice.1.run commands).1 := by
  intro twice once
  obtain ⟨hevents, hobservable⟩ := part.process_cut hrate hle hlimit
  refine ⟨hevents, differsInLeftover_of_observable hobservable, fun commands => ?_⟩
  obtain ⟨hlater, hlast⟩ := run_observable hobservable commands
  exact ⟨hlater, differsInLeftover_of_observable hlast⟩

/-- The loop ends at the very time of the first step, before the stop that is scheduled: that is
left over there, and taken away where the clock goes past it at once. -/
theorem process_in_two_steps_loop_end :
    let schedule : Schedule Char := ((Schedule.empty.insert ⟨0, 10, .sound 'a'⟩).insert
      ⟨1, 25, .sound 'b'⟩).insert ⟨2, 30, .sound 'c'⟩
    let transport : Transport :=
      { state := .started, startTime := 5, stopTime := some 50, position := 10,
        loop := ⟨.count 2, 10, 30⟩ }
    let part : Part SplitMix Char :=
      { schedule, transport, listener := some { name := "bell" }, humanize := .upTo 4,
        probability := (Binary64.ofNat 1).div (Binary64.ofNat 2), draws := ⟨7⟩ }
    let twice := (part.process 45).1.process 100
    let once := part.process 100
    (part.transport.rate = .one ∧ (45 : ClockTime) ≤ 100 ∧ (100 : ClockTime).val < 2 ^ 53) ∧
      (once.2 = (part.process 45).2 ++ twice.2 ∧ once.1.DiffersInLeftover twice.1 ∧
        ∀ commands, (once.1.run commands).2 = (twice.1.run commands).2 ∧
          (once.1.run commands).1.DiffersInLeftover (twice.1.run commands).1) ∧
      once.1.transport.stopTime = none ∧ twice.1.transport.stopTime = some 50 ∧
      (once.2.filterMap PartEvent.heard?).length = 2 := by
  intro schedule transport part twice once
  have hle : (45 : ClockTime) ≤ 100 := by decide
  have hlimit : (100 : ClockTime).val < 2 ^ 53 := by decide
  exact ⟨⟨rfl, hle, hlimit⟩, part.process_in_two_steps rfl hle hlimit, by decide +kernel,
    by decide +kernel, by decide +kernel⟩

end Part

end Ostinato
