import Ostinato.Proofs.Part.Granularity
import Ostinato.Proofs.Part.Routes

/-!
# Chronology

A part without random deviations tells its listener of steps only while its clock advances, and only
of steps whose time has come: after the clock and the scheduled start, before the time that the
clock is set to and before the scheduled stop. So the clock times of all calls, whatever is done to
the part, are in order.

## Main definitions

* `firedTimes`: the clock times at which a listener is told of steps.
* `Part.IsSteady`, `Part.Command.IsSteady`: parts that play at rate one without deviations, and the
  commands that keep them so.
* `Part.TellsInOrder`: commands whose steps come up in order.

## Main results

* `Part.firedTimes_process_sublist`: a call tells of no steps but those on its stretches, in order.
* `Part.IsSteady.firedTimes_process`: when the steps of one call come up.
* `Part.firedTimes_run`: what is in order for every command is in order for a run.
* `Part.fired_on_time`: the steps of a run come up on time and in order.
-/

namespace Ostinato

variable {γ α : Type} [Generator γ]

/-- The clock time at which an event tells a listener of a step. -/
def PartEvent.firedAt? : PartEvent α → Option ClockTime
  | .fired _ call => some call.time
  | _ => none

/-- The clock times at which events tell a listener of steps. -/
def firedTimes (events : List (PartEvent α)) : List ClockTime :=
  events.filterMap PartEvent.firedAt?

@[simp] theorem firedTimes_append (before after : List (PartEvent α)) :
    firedTimes (before ++ after) = firedTimes before ++ firedTimes after :=
  List.filterMap_append

namespace Part

/-! ### One call -/

/-- Without deviations an entry that comes up is told of at that time, if at all. -/
theorem firedAt?_fireAt {part : Part γ α} (h : part.humanize = .off) (listener : Listener)
    (time : ClockTime) (entry : Entry α) (draws : γ) :
    (part.fireAt listener time entry draws).1.firedAt? = none ∨
      (part.fireAt listener time entry draws).1.firedAt? = some time := by
  have hmove : ∀ draws : γ, Humanize.off.move time draws = (time, draws) := fun _ => rfl
  rw [fireAt, h]
  simp only [hmove]
  split
  · exact .inr rfl
  · exact .inl rfl

theorem firedTimes_voice_sublist {part : Part γ α} (h : part.humanize = .off) (listener : Listener)
    (draws : γ) (soundings : List (ClockTime × Entry α)) :
    (firedTimes (part.voice listener draws soundings).1).Sublist (soundings.map Prod.fst) := by
  induction soundings generalizing draws with
  | nil => exact .slnil
  | cons sounding rest ih =>
    obtain ⟨time, entry⟩ := sounding
    rw [voice_cons, List.map_cons, firedTimes, List.filterMap_cons]
    rcases firedAt?_fireAt h listener time entry draws with hnone | hsome
    · rw [hnone]
      exact (ih _).cons _
    · rw [hsome]
      exact (ih _).cons_cons _

/-- The times of the calls while the clock advances are among those at which the entries on the
stretches come up. -/
theorem firedTimes_process_sublist {part : Part γ α} (h : part.humanize = .off) (now : ClockTime) :
    (firedTimes (part.process now).2).Sublist
      ((part.schedule.soundings part.transport.rate
        (part.transport.process now).stretches).map Prod.fst) := by
  have hquiet : firedTimes ((part.transport.process now).endings.map fun ending =>
      PartEvent.finished (α := α) ending.1 ending.2) = [] := by
    rw [firedTimes, List.filterMap_map, List.filterMap_eq_nil_iff]
    exact fun _ _ => rfl
  rw [process_eq]
  dsimp only
  rw [firedTimes_append, hquiet, List.append_nil, play_eq_voice]
  cases part.audience with
  | none => exact List.nil_sublist _
  | some listener => exact firedTimes_voice_sublist h listener part.draws _

theorem plays_of_mem_firedTimes {part : Part γ α} (h : part.humanize = .off) {now time : ClockTime}
    (hmem : time ∈ firedTimes (part.process now).2) : part.transport.Plays now := by
  refine Classical.byContradiction fun hnot => ?_
  obtain ⟨state, clock, stopTime, hprocess⟩ := Transport.process_of_not_plays hnot
  have hsub := (firedTimes_process_sublist h now).subset hmem
  rw [hprocess] at hsub
  exact List.not_mem_nil hsub

theorem le_of_mem_firedTimes {part : Part γ α} (h : part.humanize = .off) {now time : ClockTime}
    (hmem : time ∈ firedTimes (part.process now).2) :
    max part.transport.clock part.transport.startTime ≤ time := by
  obtain ⟨sounding, hsounding, rfl⟩ :=
    List.mem_map.1 ((firedTimes_process_sublist h now).subset hmem)
  exact (part.transport.isRoute_process now).le_of_mem_soundings hsounding

/-- The steps of one call are told of in order, at any playable rate. -/
theorem pairwise_firedTimes_process {part : Part γ α} (h : part.humanize = .off)
    (hrate : Transport.IsPlayable part.transport.rate) {now : ClockTime}
    (hlength : (part.transport.playedTime now).val < exactLimit) :
    (firedTimes (part.process now).2).Pairwise (· ≤ ·) := by
  refine List.Pairwise.sublist (firedTimes_process_sublist h now) (List.pairwise_map.2 ?_)
  exact (part.transport.isRoute_process now).pairwise_soundings hrate hlength part.schedule

/-- Whether a part plays at rate one and every step sounds at its own time. -/
structure IsSteady (part : Part γ α) : Prop where
  rate : part.transport.rate = .one
  humanize : part.humanize = .off

omit [Generator γ] in
theorem IsSteady.playedTime_lt {part : Part γ α} (h : part.IsSteady) {now : ClockTime}
    (hlimit : now.val < exactLimit) : (part.transport.playedTime now).val < exactLimit := by
  by_cases hplays : part.transport.Plays now
  · have hle := part.transport.playLimit_le now
    rw [Span.le_def] at hle
    rw [Transport.playedTime_of_rate_one h.rate hlimit hplays, Span.val_sub]
    omega
  · rw [Transport.playedTime, if_neg hplays]
    exact Nat.lt_of_le_of_lt (Nat.zero_le _) hlimit

theorem IsSteady.lt_playLimit {part : Part γ α} (h : part.IsSteady) {now time : ClockTime}
    (hlimit : now.val < exactLimit) (hmem : time ∈ firedTimes (part.process now).2) :
    time < part.transport.playLimit now := by
  have hplays := plays_of_mem_firedTimes h.humanize hmem
  have hlength := h.playedTime_lt hlimit
  have hroute := part.transport.isRoute_process now
  have hle := part.transport.playLimit_le now
  have hbegun := hplays.2.2.2
  rw [Span.le_def] at hle
  rw [Span.lt_def] at hbegun
  obtain ⟨sounding, hsounding, rfl⟩ :=
    List.mem_map.1 ((firedTimes_process_sublist h.humanize now).subset hmem)
  rw [h.rate] at hroute hsounding
  have hone : (1 : ClockTime).val = 1 := rfl
  -- the last clock time that is left is the one before the limit
  have hlast : sounding.1 ≤ part.transport.playLimit now - 1 := by
    refine hroute.soundings_le (by decide +kernel) hlength ?_ (fun stretch hstretch => ?_)
      (fun k hk => ?_) hsounding
    · rw [Span.val_sub]
      omega
    · have hshort := hroute.length_le stretch ((List.dropLast_sublist _).subset hstretch)
      exact Stretch.not_isDrawnOut_one (Nat.lt_of_le_of_lt hshort hlength)
    · rw [Transport.playedTime_of_rate_one h.rate hlimit hplays, Span.val_sub] at hk
      rw [Binary64.units_one, ← Nat.add_mul, Span.val_sub, hone]
      exact Nat.mul_le_mul_right _ (by omega)
  rw [Span.le_def, Span.val_sub, hone] at hlast
  rw [Span.lt_def]
  omega

/-- **The steps of one call** of a steady part: only a part that has been started tells of any, and
each comes up after the clock and the start, and before the time that the clock is set to and the
stop. -/
theorem IsSteady.firedTimes_process {part : Part γ α} (h : part.IsSteady) {now time : ClockTime}
    (hlimit : now.val < exactLimit) (hmem : time ∈ firedTimes (part.process now).2) :
    part.transport.state = .started ∧ max part.transport.clock part.transport.startTime ≤ time ∧
      time < now ∧ ∀ stop, part.transport.stopTime = some stop → time < stop := by
  have hlt := h.lt_playLimit hlimit hmem
  have hle := part.transport.playLimit_le now
  refine ⟨(plays_of_mem_firedTimes h.humanize hmem).2.2.1, le_of_mem_firedTimes h.humanize hmem,
    Nat.lt_of_lt_of_le hlt hle, fun stop hstop => ?_⟩
  rw [Span.lt_def, Transport.val_playLimit_of_some now hstop] at hlt
  rw [Span.lt_def]
  omega

/-! ### Commands -/

/-- The commands that leave a part at rate one and without deviations, and do not set its clock
beyond the times that are exact. -/
def Command.IsSteady : Command α → Prop
  | .setRate rate => rate = .one
  | .setHumanize humanize => humanize = .off
  | .process now => now.val < 2 ^ 53
  | _ => True

/-- Whether a command starts a part. -/
def Command.isStart : Command α → Bool
  | .start _ _ => true
  | _ => false

theorem exists_eq_process_of_mem_firedTimes {part : Part γ α} {command : Command α}
    {time : ClockTime}
    (hmem : time ∈ firedTimes (part.perform command).2) : ∃ now, command = .process now := by
  cases command with
  | process now => exact ⟨now, rfl⟩
  | start =>
    rw [perform, start] at hmem
    dsimp only at hmem
    split at hmem <;> exact absurd hmem List.not_mem_nil
  | stop stopTime =>
    rw [perform, stop] at hmem
    dsimp only at hmem
    cases hstop : part.transport.stopTimeFor? stopTime <;> rw [hstop] at hmem <;>
      exact absurd hmem List.not_mem_nil
  | setRate =>
    rw [perform, setRate] at hmem
    dsimp only at hmem
    split at hmem <;> exact absurd hmem List.not_mem_nil
  | dispose =>
    rw [perform, dispose] at hmem
    dsimp only at hmem
    split at hmem <;> exact absurd hmem List.not_mem_nil
  | _ => exact absurd hmem List.not_mem_nil

theorem IsSteady.perform {part : Part γ α} (h : part.IsSteady) {command : Command α}
    (hcommand : command.IsSteady) : (part.perform command).1.IsSteady := by
  obtain ⟨hrate, hhumanize⟩ := h
  cases command with
  | process now => exact ⟨(part.transport.rate_process now).trans hrate, hhumanize⟩
  | start time position =>
    refine ⟨?_, hhumanize⟩
    rw [Part.perform, start, Transport.start]
    split <;> exact hrate
  | stop time =>
    refine ⟨?_, hhumanize⟩
    rw [Part.perform, stop, Transport.stop]
    split
    · exact hrate
    · split <;> exact hrate
  | setRate rate =>
    refine ⟨?_, hhumanize⟩
    rw [Part.perform, setRate, Transport.setRate]
    split
    · exact hcommand
    · exact hrate
  | setHumanize humanize => exact ⟨hrate, hcommand⟩
  | _ => exact ⟨hrate, hhumanize⟩

theorem IsSteady.run {part : Part γ α} (h : part.IsSteady) {commands : List (Command α)}
    (hcommands : ∀ command ∈ commands, command.IsSteady) : (part.run commands).1.IsSteady := by
  induction commands generalizing part with
  | nil => exact h
  | cons command commands ih =>
    exact ih (h.perform (hcommands command List.mem_cons_self)) fun other hother =>
      hcommands other (List.mem_cons_of_mem _ hother)

/-- What a command leaves of the schedule of a part: the clock does not go back, a part that is
disposed stays so, and only a start sets the time of the start. -/
theorem perform_keeps (part : Part γ α) (command : Command α) :
    part.transport.clock ≤ (part.perform command).1.transport.clock ∧
      (part.transport.disposed = true → (part.perform command).1.transport.disposed = true) ∧
      (command.isStart = false →
        (part.perform command).1.transport.startTime = part.transport.startTime) := by
  have hsame : part.transport.clock ≤ part.transport.clock := Nat.le_refl _
  cases command with
  | process now =>
    obtain ⟨state, clock, stopTime, position, loopsPlayed, hclock, hprocess⟩ :=
      part.transport.exists_transport_process now
    rw [Part.perform, process_eq]
    dsimp only
    rw [hprocess]
    exact ⟨hclock, id, fun _ => rfl⟩
  | start time position =>
    rw [Part.perform, start, Transport.start]
    refine ⟨?_, ?_, fun hstart => ?_⟩
    · split <;> exact hsame
    · split <;> exact id
    · contradiction
  | stop time =>
    rw [Part.perform, stop, Transport.stop]
    split
    · exact ⟨hsame, id, fun _ => rfl⟩
    · split <;> exact ⟨hsame, id, fun _ => rfl⟩
  | setRate rate =>
    rw [Part.perform, setRate, Transport.setRate]
    split <;> exact ⟨hsame, id, fun _ => rfl⟩
  | dispose => exact ⟨hsame, fun _ => rfl, fun _ => rfl⟩
  | _ => exact ⟨hsame, id, fun _ => rfl⟩

/-! ### Runs -/

/-- What a run leaves of the schedule of a part: a part that is disposed stays so, and without a
start the time of the start stays as it is. -/
theorem run_keeps (part : Part γ α) (commands : List (Command α)) :
    (part.transport.disposed = true → (part.run commands).1.transport.disposed = true) ∧
      ((∀ command ∈ commands, command.isStart = false) →
        (part.run commands).1.transport.startTime = part.transport.startTime) := by
  induction commands generalizing part with
  | nil => exact ⟨id, fun _ => rfl⟩
  | cons command commands ih =>
    obtain ⟨-, hdisposed, hstart⟩ := part.perform_keeps command
    obtain ⟨hdisposed', hstart'⟩ := ih (part.perform command).1
    refine ⟨fun h => hdisposed' (hdisposed h), fun hothers => ?_⟩
    rw [run_cons, hstart' fun other hother => hothers other (List.mem_cons_of_mem _ hother),
      hstart (hothers command List.mem_cons_self)]

/-- Whether the steps that a command tells of come up in order, between the clock before it and the
clock after it. -/
def TellsInOrder (part : Part γ α) (command : Command α) : Prop :=
  (∀ time ∈ firedTimes (part.perform command).2,
      part.transport.clock ≤ time ∧ time ≤ (part.perform command).1.transport.clock) ∧
    (firedTimes (part.perform command).2).Pairwise (· ≤ ·)

/-- If the steps of every command of a run come up in order, so do the steps of the run. -/
theorem firedTimes_run (part : Part γ α) {commands : List (Command α)}
    (h : ∀ before command after, commands = before ++ command :: after →
      (part.run before).1.TellsInOrder command) :
    (∀ time ∈ firedTimes (part.run commands).2, part.transport.clock ≤ time) ∧
      (firedTimes (part.run commands).2).Pairwise (· ≤ ·) := by
  induction commands generalizing part with
  | nil => exact ⟨fun time hmem => absurd hmem List.not_mem_nil, .nil⟩
  | cons command commands ih =>
    obtain ⟨hhere, horder⟩ := h [] command commands rfl
    rw [run_nil] at hhere horder
    obtain ⟨hlater, horder'⟩ := ih (part.perform command).1 fun before other after hsplit =>
      h (command :: before) other after (by rw [hsplit, List.cons_append])
    rw [run_cons, firedTimes_append]
    refine ⟨fun time hmem => ?_, List.pairwise_append.2 ⟨horder, horder', ?_⟩⟩
    · rcases List.mem_append.1 hmem with hmem | hmem
      · exact (hhere time hmem).1
      · exact Nat.le_trans (part.perform_keeps command).1 (hlater time hmem)
    · exact fun time hmem later hmem' => Nat.le_trans (hhere time hmem).2 (hlater later hmem')

/-- A call whose steps come up in order, and no later than the clock is set to, tells of them in
order. -/
theorem tellsInOrder_process {part : Part γ α} (h : part.humanize = .off)
    (hrate : Transport.IsPlayable part.transport.rate) {now : ClockTime}
    (hlength : (part.transport.playedTime now).val < exactLimit)
    (hle : ∀ time ∈ firedTimes (part.process now).2, time ≤ now) :
    part.TellsInOrder (.process now) := by
  refine ⟨fun time hmem => ?_, pairwise_firedTimes_process h hrate hlength⟩
  obtain ⟨hlive, hclock, -⟩ := plays_of_mem_firedTimes h hmem
  have hreached : (part.perform (.process now)).1.transport.clock = now :=
    Transport.clock_process hlive hclock
  have hfrom := le_of_mem_firedTimes h hmem
  rw [Span.le_def, Span.val_max] at hfrom
  rw [hreached]
  exact ⟨Nat.le_trans (Nat.le_max_left _ _) hfrom, hle time hmem⟩

theorem IsSteady.tellsInOrder {part : Part γ α} (h : part.IsSteady) {command : Command α}
    (hcommand : command.IsSteady) : part.TellsInOrder command := by
  by_cases hprocess : ∃ now, command = .process now
  · obtain ⟨now, rfl⟩ := hprocess
    have hplayable : Transport.IsPlayable part.transport.rate := by
      rw [h.rate]
      decide +kernel
    exact tellsInOrder_process h.humanize hplayable (h.playedTime_lt hcommand) fun time hmem =>
      Nat.le_of_lt (h.firedTimes_process hcommand hmem).2.2.1
  · have hnone : firedTimes (part.perform command).2 = [] :=
      List.eq_nil_iff_forall_not_mem.2 fun _ hmem =>
        hprocess (exists_eq_process_of_mem_firedTimes hmem)
    rw [TellsInOrder, hnone]
    exact ⟨fun time hmem => absurd hmem List.not_mem_nil, .nil⟩

/-- **Steps come up on time and in order.** Whatever is done to a fresh part at rate one and without
deviations, steps are told of only while the clock of a part that has been started advances, at
clock times that the clock has not gone past before, from the latest start on, before the time that
the clock is set to, and before the stop if one is scheduled. The clock times of all the steps that
are told of in the course of a run are in order. -/
theorem fired_on_time (draws : γ) (commands : List (Command α))
    (hcommands : ∀ command ∈ commands, command.IsSteady) :
    let fresh : Part γ α := { draws }
    (∀ before command after, commands = before ++ command :: after →
      let here := (fresh.run before).1
      ∀ time ∈ firedTimes (here.perform command).2,
        ∃ now, command = .process now ∧ here.transport.state = .started ∧
          max here.transport.clock here.transport.startTime ≤ time ∧ time < now ∧
          (∀ stop, here.transport.stopTime = some stop → time < stop) ∧
          ∀ past start position rest, before = past ++ .start start position :: rest →
            (∀ other ∈ rest, other.isStart = false) →
            let clock := (fresh.run past).1.transport.clock
            here.transport.startTime = max (start.getD clock) clock) ∧
      (firedTimes (fresh.run commands).2).Pairwise (· ≤ ·) := by
  intro fresh
  have hsteady : ∀ before command after, commands = before ++ command :: after →
      (fresh.run before).1.IsSteady ∧ command.IsSteady := by
    intro before command after hsplit
    have hfresh : fresh.IsSteady := ⟨rfl, rfl⟩
    exact ⟨hfresh.run fun other hother => hcommands other (hsplit ▸ List.mem_append_left _ hother),
      hcommands command (hsplit ▸ List.mem_append_right _ List.mem_cons_self)⟩
  refine ⟨?_, (fresh.firedTimes_run fun before command after hsplit =>
    (hsteady before command after hsplit).1.tellsInOrder (hsteady before command after hsplit).2).2⟩
  intro before command after hsplit here time hmem
  obtain ⟨hhere, hcommand⟩ := hsteady before command after hsplit
  obtain ⟨now, rfl⟩ := exists_eq_process_of_mem_firedTimes hmem
  obtain ⟨hstate, hfrom, hlt, hstop⟩ := hhere.firedTimes_process hcommand hmem
  refine ⟨now, rfl, hstate, hfrom, hlt, hstop, fun past start position rest hpast hrest => ?_⟩
  intro clock
  -- the part was live when it was started, as it still is
  have hagain : here = (((fresh.run past).1.perform (.start start position)).1.run rest).1 := by
    simp only [here, hpast, run_append, run_cons]
  obtain ⟨hdisposed, hkept⟩ :=
    ((fresh.run past).1.perform (.start start position)).1.run_keeps rest
  have hlive : (fresh.run past).1.transport.disposed = false := by
    refine Bool.eq_false_iff.2 fun hover => ?_
    have hnever := hdisposed (((fresh.run past).1.perform_keeps (.start start position)).2.1 hover)
    rw [← hagain, (plays_of_mem_firedTimes hhere.humanize hmem).1] at hnever
    contradiction
  rw [hagain, hkept hrest]
  exact congrArg Transport.startTime (Transport.start_of_live hlive start position)

/-- A part is started late and stopped, started again at an earlier time, and its counted loop ends
within a call: the call that passes the late start and the stop tells of nothing outside of them. -/
theorem fired_on_time_restart :
    let fresh : Part SplitMix Char := { draws := ⟨7⟩ }
    let before : List (Command Char) := [.listen { name := "bell" }, .add 0 (.sound 'a'),
      .add 10 (.sound 'b'), .start (some 100) none, .stop (some 110), .process 50]
    let after : List (Command Char) := [.setLoopMode (.count 2), .setLoopFinish 20,
      .start (some 30) (some 5), .process 215, .process 1000]
    let commands := before ++ .process 200 :: after
    (∀ command ∈ commands, command.IsSteady) ∧
      (∀ time ∈ firedTimes ((fresh.run before).1.process 200).2, 100 ≤ time ∧ time < 110) ∧
      (firedTimes (fresh.run commands).2).map Span.val = [100, 205, 215, 225] ∧
      (firedTimes (fresh.run commands).2).Pairwise (· ≤ ·) := by
  intro fresh before after commands
  have hcommands : ∀ command ∈ commands, command.IsSteady := by
    simp only [commands, before, after, List.cons_append, List.nil_append, List.forall_mem_cons,
      Command.IsSteady]
    exact ⟨trivial, trivial, trivial, trivial, trivial, by decide, by decide, trivial, trivial,
      trivial, by decide, by decide, List.forall_mem_nil _⟩
  obtain ⟨hcalls, horder⟩ := fired_on_time (⟨7⟩ : SplitMix) commands hcommands
  refine ⟨hcommands, fun time hmem => ?_, by decide +kernel, horder⟩
  obtain ⟨now, -, -, hfrom, -, hstop, -⟩ := hcalls before (.process 200) after rfl time hmem
  exact ⟨hfrom, hstop 110 rfl⟩

end Part

end Ostinato
