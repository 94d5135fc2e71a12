import Ostinato.Proofs.Part.Walk

/-!
# Delivery of entries

What a part hands to its listener while its clock advances, and what all calls of a run hand over
together: the entries of one walk, each as often as the walk meets it.

## Main definitions

* `PartEvent.handed?`: the entry that an event hands to a listener.
* `Part.playedLength`: the length that is played in the course of a run.
* `Part.HasRoomThroughout`: no call of a run leaves the range of positions without a jump.

## Main results

* `Part.handed_process`: one call hands over the entries met on its walk.
* `Part.handed_run`: a run hands over the entries met on one walk.
-/

namespace Ostinato

variable {γ α : Type} [Generator γ]

/-- The entry that an event hands to a listener, as its number and its step. -/
def PartEvent.handed? : PartEvent α → Option (Listener × Nat × Step α)
  | .fired entry call => some (call.listener, entry, call.step)
  | _ => none

namespace Part

/-! ### One call -/

/-- With probability one, the entries that are met are handed over in order. -/
theorem handed_fireAll (part : Part γ α) (hprobability : part.probability = .one)
    (listener : Listener) (events : List (PartEvent α)) (draws : γ)
    (met : List (Stretch × Entry α)) :
    (part.fireAll listener events draws met).1.filterMap PartEvent.handed? =
      events.reverse.filterMap PartEvent.handed? ++
        met.map fun e => (listener, e.2.id, e.2.step) := by
  induction met generalizing events draws with
  | nil => simp [fireAll]
  | cons head rest ih =>
    obtain ⟨stretch, entry⟩ := head
    have hadmitted : part.drawAdmission draws = (true, draws) := by
      simp [drawAdmission, hprobability]
    rw [fireAll, fire, hadmitted]
    simp [ih, PartEvent.handed?]

omit [Generator γ] in
theorem map_snd_met (part : Part γ α) (stretches : List Stretch) :
    (part.met stretches).map Prod.snd = part.schedule.along stretches := by
  rw [met, List.map_flatMap, Schedule.along]
  simp only [List.map_map, Function.comp_def, List.map_id']

/-- An audible part hands over the entries along the stretches that it plays. -/
theorem handed_play (part : Part γ α) {listener : Listener}
    (hlistener : part.listener = some listener) (hmute : part.mute = false)
    (hprobability : part.probability = .one) (stretches : List Stretch) :
    (part.play stretches).1.filterMap PartEvent.handed? =
      (part.schedule.along stretches).map fun e => (listener, e.id, e.step) := by
  have haudience : part.audience = some listener := by simp [audience, hmute, hlistener]
  rw [play, haudience, ← map_snd_met, List.map_map]
  exact handed_fireAll part hprobability listener [] part.draws _

/-- A call hands over the entries along the stretches that it plays. -/
theorem handed_process_eq_along (part : Part γ α) {listener : Listener}
    (hlistener : part.listener = some listener) (hmute : part.mute = false)
    (hprobability : part.probability = .one) (now : ClockTime) :
    (part.process now).2.filterMap PartEvent.handed? =
      (part.schedule.along (part.transport.process now).stretches).map
        fun e => (listener, e.id, e.step) := by
  have hfinished : ∀ time : Option ClockTime, (time.map (PartEvent.finished (α := α)
      (part.transport.process now).transport.loopsPlayed)).toList.filterMap PartEvent.handed? =
        [] := by
    intro time
    cases time <;> rfl
  rw [process, List.filterMap_append, hfinished, List.append_nil]
  exact part.handed_play hlistener hmute hprobability (part.transport.process now).stretches

/-- **A call hands over the entries of a walk**: those met on the length that it plays. -/
theorem handed_process (part : Part γ α) {listener : Listener}
    (hlistener : part.listener = some listener) (hmute : part.mute = false)
    (hprobability : part.probability = .one)
    (hmode : ∀ loops, part.transport.loop.mode.isDoneAfter loops = false) (now : ClockTime)
    (hroom : part.transport.HasRoom (part.transport.playedTime now)) :
    (part.process now).2.filterMap PartEvent.handed? =
      (part.schedule.metOnWalk part.transport.loop (part.transport.playedTime now).val
        part.transport.position.val).map fun e => (listener, e.id, e.step) := by
  rw [part.handed_process_eq_along hlistener hmute hprobability now,
    (part.transport.process_eq_walk part.schedule now hmode hroom).2]

/-! ### Runs -/

/-- The commands that let time pass: advancing the clock and changing the rate. -/
def Command.IsPassing : Command α → Prop
  | .process _ => True
  | .setRate _ => True
  | _ => False

/-- The length that a command plays. -/
def playedBy (part : Part γ α) : Command α → Nat
  | .process now => (part.transport.playedTime now).val
  | _ => 0

/-- The length that is played in the course of a run. -/
def playedLength (part : Part γ α) : List (Command α) → Nat
  | [] => 0
  | command :: commands =>
    part.playedBy command + (part.perform command).1.playedLength commands

/-- Whether there is room for the length that a command plays. -/
def HasRoomFor (part : Part γ α) : Command α → Prop
  | .process now => part.transport.HasRoom (part.transport.playedTime now)
  | _ => True

/-- Each call of a run either reaches the end of the loop window or stays within the range of
positions. -/
def HasRoomThroughout (part : Part γ α) (commands : List (Command α)) : Prop :=
  ∀ before command after, commands = before ++ command :: after →
    (part.run before).1.HasRoomFor command

theorem hasRoomThroughout_cons {part : Part γ α} {command : Command α}
    {commands : List (Command α)} :
    part.HasRoomThroughout (command :: commands) ↔
      part.HasRoomFor command ∧ (part.perform command).1.HasRoomThroughout commands := by
  constructor
  · refine fun h => ⟨h [] command commands rfl, fun before other after hsplit => ?_⟩
    exact h (command :: before) other after (by rw [hsplit, List.cons_append])
  · rintro ⟨hhead, htail⟩ before other after hsplit
    cases before with
    | nil =>
      cases hsplit
      exact hhead
    | cons first before =>
      cases hsplit
      exact htail before other after rfl

theorem perform_of_isPassing (part : Part γ α) {command : Command α} (h : command.IsPassing) :
    ∃ transport draws, (part.perform command).1 = { part with transport, draws } ∧
      transport.loop = part.transport.loop := by
  cases command with
  | process now =>
    exact ⟨(part.transport.process now).transport, _, rfl, part.transport.loop_process now⟩
  | setRate rate =>
    refine ⟨part.transport.setRate rate, part.draws, rfl, ?_⟩
    rw [Transport.setRate]
    split <;> rfl
  | _ => exact h.elim

/-- A command that lets time pass moves the position to the end of a walk. -/
theorem position_perform (part : Part γ α)
    (hmode : ∀ loops, part.transport.loop.mode.isDoneAfter loops = false)
    {command : Command α} (hcommand : command.IsPassing) (hroom : part.HasRoomFor command) :
    (part.perform command).1.transport.position.val =
      part.transport.loop.walk (part.playedBy command) part.transport.position.val := by
  cases command with
  | process now => exact (part.transport.process_eq_walk part.schedule now hmode hroom).1
  | setRate rate =>
    rw [perform, setRate, Transport.setRate]
    split <;> rfl
  | _ => exact hcommand.elim

/-- A command that lets time pass hands over the entries of that walk. -/
theorem handed_perform (part : Part γ α) {listener : Listener}
    (hlistener : part.listener = some listener) (hmute : part.mute = false)
    (hprobability : part.probability = .one)
    (hmode : ∀ loops, part.transport.loop.mode.isDoneAfter loops = false)
    {command : Command α} (hcommand : command.IsPassing) (hroom : part.HasRoomFor command) :
    (part.perform command).2.filterMap PartEvent.handed? =
      (part.schedule.metOnWalk part.transport.loop (part.playedBy command)
        part.transport.position.val).map fun e => (listener, e.id, e.step) := by
  cases command with
  | process now => exact part.handed_process hlistener hmute hprobability hmode now hroom
  | setRate rate =>
    rw [perform, setRate]
    split <;> rfl
  | _ => exact hcommand.elim

/-- Below the end of an active window a run always has room, as it never leaves the window. -/
theorem hasRoomThroughout_of_lt (part : Part γ α) (hactive : part.transport.loop.IsActive)
    (hmode : ∀ loops, part.transport.loop.mode.isDoneAfter loops = false)
    (hlt : part.transport.position < part.transport.loop.finish) {commands : List (Command α)}
    (hcommands : ∀ command ∈ commands, command.IsPassing) : part.HasRoomThroughout commands := by
  induction commands generalizing part with
  | nil => exact fun before _ _ hsplit => by simp at hsplit
  | cons command commands ih =>
    have hcommand : command.IsPassing := hcommands command List.mem_cons_self
    have hothers : ∀ other ∈ commands, other.IsPassing :=
      fun other hother => hcommands other (List.mem_cons_of_mem _ hother)
    obtain ⟨transport, draws, hnext, hloop⟩ := part.perform_of_isPassing hcommand
    have hroom : part.HasRoomFor command := by
      cases command with
      | process now => exact Transport.hasRoom_of_lt hactive hlt _
      | _ => trivial
    have hposition := part.position_perform hmode hcommand hroom
    refine hasRoomThroughout_cons.2 ⟨hroom, ?_⟩
    rw [hnext] at hposition ⊢
    refine ih _ ?_ ?_ ?_ hothers
    · exact hloop ▸ hactive
    · exact hloop ▸ hmode
    · rw [Span.lt_def, hposition, hloop]
      exact hactive.walk_lt _ hlt

/-- **A run hands over the entries of one walk.** While time passes for a part that is audible,
whose entries all sound and whose loop is off or without end, the entries handed to the listener are
those met on a walk over the whole length that is played, and the position afterwards is its
end. -/
theorem handed_run (part : Part γ α) {listener : Listener}
    (hlistener : part.listener = some listener)
    (hmute : part.mute = false) (hprobability : part.probability = .one)
    (hmode : part.transport.loop.mode = .off ∨ part.transport.loop.mode = .forever)
    (commands : List (Command α)) (hcommands : ∀ command ∈ commands, command.IsPassing)
    (hroom : part.HasRoomThroughout commands) :
    (part.run commands).2.filterMap PartEvent.handed? =
        (part.schedule.metOnWalk part.transport.loop (part.playedLength commands)
          part.transport.position.val).map (fun e => (listener, e.id, e.step)) ∧
      (part.run commands).1.transport.position.val =
        part.transport.loop.walk (part.playedLength commands) part.transport.position.val := by
  induction commands generalizing part with
  | nil => exact ⟨rfl, rfl⟩
  | cons command commands ih =>
    have hcommand : command.IsPassing := hcommands command List.mem_cons_self
    obtain ⟨hhere, hbehind⟩ := hasRoomThroughout_cons.1 hroom
    have huncounted : ∀ loops, part.transport.loop.mode.isDoneAfter loops = false := by
      intro loops
      rcases hmode with hmode | hmode <;> rw [hmode] <;> rfl
    have hhanded := part.handed_perform hlistener hmute hprobability huncounted hcommand hhere
    have hposition := part.position_perform huncounted hcommand hhere
    obtain ⟨transport, draws, hnext, hloop⟩ := part.perform_of_isPassing hcommand
    have hrest := ih (part.perform command).1 (by rw [hnext]; exact hlistener)
      (by rw [hnext]; exact hmute) (by rw [hnext]; exact hprobability)
      (by rw [hnext]; exact hloop ▸ hmode)
      (fun other hother => hcommands other (List.mem_cons_of_mem _ hother)) hbehind
    have hschedule : (part.perform command).1.schedule = part.schedule := by rw [hnext]
    have hloop' : (part.perform command).1.transport.loop = part.transport.loop := by
      rw [hnext]
      exact hloop
    rw [hschedule, hloop', hposition] at hrest
    rw [run_cons, List.filterMap_append, hhanded, hrest.1, ← List.map_append,
      ← Schedule.metOnWalk_add, playedLength, Loop.walk_add]
    exact ⟨rfl, hrest.2⟩

/-- Two laps at two rates, with both calls ending where the window ends: the entry at the start of
the window and the last one before its end sound twice, the entry at its end does not. -/
theorem handed_run_two_laps :
    let listener : Listener := { name := "bell" }
    let schedule : Schedule Char := (((Schedule.empty.insert ⟨0, 10, .sound 'b'⟩).insert
      ⟨1, 99, .sound 'c'⟩).insert ⟨2, 100, .sound 'd'⟩).insert ⟨3, 4, .sound 'a'⟩
    let transport : Transport := { state := .started, position := 5, loop := ⟨.forever, 10, 100⟩ }
    let part : Part SplitMix Char :=
      { schedule, transport, listener := some listener, draws := ⟨7⟩ }
    let commands : List (Command Char) := [.process 95, .setRate (.ofNat 2), .process 140]
    (∀ command ∈ commands, command.IsPassing) ∧ part.HasRoomThroughout commands ∧
      (part.run commands).2.filterMap PartEvent.handed? =
        [(listener, 0, .sound 'b'), (listener, 1, .sound 'c'), (listener, 0, .sound 'b'),
          (listener, 1, .sound 'c')] ∧
      (part.run commands).1.transport.position.val = 10 := by
  intro listener schedule transport part commands
  have hcommands : ∀ command ∈ commands, command.IsPassing := by
    simp [commands, Command.IsPassing]
  have hroom : part.HasRoomThroughout commands :=
    part.hasRoomThroughout_of_lt (by decide) (fun _ => rfl) (by decide) hcommands
  obtain ⟨hhanded, hposition⟩ := part.handed_run rfl rfl rfl (.inr rfl) commands hcommands hroom
  exact ⟨hcommands, hroom, hhanded.trans (by decide +kernel), hposition.trans (by decide +kernel)⟩

end Part

end Ostinato
