import Ostinato.Proofs.Sequence.LiveEdits

/-!
# Staying inside the loop

A sequence that loops jumps back when playing reaches the end of the window from below. Advancing
the clock therefore never takes the position out of the window, however far it is advanced. Edits
and setters move the window and leave the position where it is, so they can put the end at or behind
it; from there playing goes straight on, and no end is ever reached again until the window is moved
once more.

## Main definitions

* `Transport.IsInside`: the position is not behind the end of an active window.
* `Sequence.Command.movesWindow`: the commands that can move the window.
* `Sequence.Command.IsWhileLooping`: these and the steps of the clock.

## Main results

* `Transport.position_process_of_lt`, `Transport.position_process_of_not_lt`: a step of the clock,
  by whether the position is below the end.
* `Transport.position_process_lt_iff`: it is below the end afterwards exactly if it was before.
* `Sequence.isInside_run`: a run stays inside if the commands that move the window do.
* `Sequence.isInside_of_forever`: the states of a sequence that loops.
* `Sequence.not_isInside_of_removeAt`: an edit that puts the end behind the position.
-/

namespace Ostinato

variable {γ α : Type} [Generator γ]

namespace Transport

/-! ### Steps of the clock -/

/-- The position is below the end of the loop window, if there is one. -/
def IsInside (transport : Transport) : Prop :=
  transport.loop.IsActive → transport.position < transport.loop.finish

instance (transport : Transport) : Decidable transport.IsInside :=
  inferInstanceAs (Decidable (_ → _))

theorem isInside_start {transport : Transport} (hlive : transport.disposed = false)
    (time : Option ClockTime) : (transport.start time none).IsInside := by
  rw [start_of_live hlive]
  intro hactive
  have hhome : transport.home = transport.loop.start := if_pos hactive
  exact hhome ▸ hactive.2

/-- A step of the clock below the end of the window is a walk. -/
theorem position_process_of_lt {transport : Transport} (hmode : transport.loop.mode = .forever)
    (hactive : transport.loop.IsActive) (hlt : transport.position < transport.loop.finish)
    (now : ClockTime) :
    (transport.process now).transport.position.val =
      transport.loop.walk (transport.playedTime now).val transport.position.val :=
  (transport.process_eq_walk (α := Unit) .empty now (fun _ => by rw [hmode]; rfl)
    (hasRoom_of_lt hactive hlt _)).1

/-- A step of the clock at the end of the window or behind it goes straight on. -/
theorem position_process_of_not_lt {transport : Transport}
    (h : ¬ transport.position < transport.loop.finish) (now : ClockTime) :
    (transport.process now).transport.position =
      transport.position + transport.playedTime now := by
  by_cases hplays : transport.Plays now
  · rw [process_of_plays hplays]
    dsimp only
    rw [position_settle, cover]
    by_cases hzero : (transport.playedTime now).val = 0
    · rw [coverFrom_of_eq_zero _ _ _ hzero, Span.add_eq_left hzero]
    · rw [coverFrom_of_not_isCrossed _ _ hzero fun hcrossed => h hcrossed.2.1]
  · obtain ⟨state, clock, stopTime, hprocess⟩ := process_of_not_plays hplays
    rw [hprocess, playedTime, if_neg hplays]
    exact (Span.add_eq_left rfl).symm

/-- A step of the clock neither leaves the window nor comes back to it. -/
theorem position_process_lt_iff {transport : Transport} (hmode : transport.loop.mode = .forever)
    (hactive : transport.loop.IsActive) (now : ClockTime) :
    (transport.process now).transport.position < transport.loop.finish ↔
      transport.position < transport.loop.finish := by
  by_cases hlt : transport.position < transport.loop.finish
  · refine iff_of_true ?_ hlt
    rw [Span.lt_def, position_process_of_lt hmode hactive hlt]
    exact hactive.walk_lt _ hlt
  · refine iff_of_false ?_ hlt
    have hmax := transport.position.val_le
    rw [position_process_of_not_lt hlt, Span.lt_def, Span.val_add]
    rw [Span.lt_def] at hlt
    omega

theorem isInside_process {transport : Transport} (hmode : transport.loop.mode = .forever)
    (h : transport.IsInside) (now : ClockTime) : (transport.process now).transport.IsInside := by
  intro hactive
  rw [loop_process] at hactive ⊢
  exact (position_process_lt_iff hmode hactive now).2 (h hactive)

end Transport

namespace Sequence

/-! ### Moving the window -/

/-- Whether a command can move the loop window: the edits and the bounds of the window. -/
def Command.movesWindow : Command α → Bool
  | .setLoopStart _ | .setLoopEnd _ => true
  | command => command.laysOut

/-- Whether a command advances the clock or can move the window. -/
def Command.IsWhileLooping : Command α → Prop
  | .process _ => True
  | command => command.movesWindow = true

/-- Moving the window leaves the transport as it is otherwise. -/
theorem exists_transport_perform_of_movesWindow {sequence : Sequence γ α} {command : Command α}
    (hlayout : sequence.disposed = false → sequence.pattern.root.HasNoEmptyGroup)
    (hmoves : command.movesWindow = true) :
    ∃ loop, loop.mode = sequence.part.transport.loop.mode ∧
      (sequence.perform command).sequence.part.transport =
        { sequence.part.transport with loop } := by
  cases hlays : command.laysOut with
  | true =>
    rcases perform_eq_of_laysOut hlayout hlays with
      ⟨pattern, startOffset, event, -, hperform⟩ | ⟨events, error, hperform⟩
    · obtain ⟨schedule, nextEntry, loop, hmode, hrelaid⟩ :=
        sequence.exists_relaid_with pattern startOffset
      rw [hperform, hrelaid]
      exact ⟨loop, hmode, rfl⟩
    · rw [hperform]
      exact ⟨_, rfl, rfl⟩
  | false =>
    cases command with
    | setLoopStart index =>
      rw [perform, setLoopStart, ifLive]
      split
      · exact ⟨sequence.part.transport.loop, rfl, rfl⟩
      · exact ⟨{ sequence.part.transport.loop with start := sequence.grid.time index }, rfl, rfl⟩
    | setLoopEnd index =>
      rw [perform, setLoopEnd, ifLive]
      split
      · exact ⟨sequence.part.transport.loop, rfl, rfl⟩
      · exact ⟨{ sequence.part.transport.loop with
          finish := sequence.grid.endTime index sequence.pattern.root.length }, rfl, rfl⟩
    | _ => exact absurd (hlays.symm.trans hmoves) Bool.false_ne_true

/-- The loop is without end as long as only the clock and the window move. -/
theorem mode_perform {sequence : Sequence γ α} {command : Command α}
    (hlayout : sequence.disposed = false → sequence.pattern.root.HasNoEmptyGroup)
    (hcommand : command.IsWhileLooping) :
    (sequence.perform command).sequence.part.transport.loop.mode =
      sequence.part.transport.loop.mode := by
  cases hmoves : command.movesWindow with
  | true =>
    obtain ⟨loop, hmode, htransport⟩ := exists_transport_perform_of_movesWindow hlayout hmoves
    rw [htransport]
    exact hmode
  | false =>
    cases command with
    | process now => exact congrArg Loop.mode (sequence.part.transport.loop_process now)
    | _ => exact absurd (hmoves.symm.trans hcommand) Bool.false_ne_true

/-! ### Runs -/

section Run

variable {sequence : Sequence γ α} {cleared : Bool}

theorem mode_run (hlayout : sequence.KeepsLayout cleared) {commands : List (Command α)}
    (hcommands : ∀ command ∈ commands, command.IsWhileLooping) :
    (sequence.run commands).1.part.transport.loop.mode =
      sequence.part.transport.loop.mode := by
  induction commands generalizing sequence cleared with
  | nil => rfl
  | cons command commands ih =>
    have hnext := mode_perform (fun hlive => (hlayout hlive).1)
      (hcommands command List.mem_cons_self)
    have hrest := ih (keepsLayout_perform hlayout command)
      fun other hother => hcommands other (List.mem_cons_of_mem _ hother)
    exact hrest.trans hnext

/-- A run that begins inside the window ends inside it, if every command that moves the window
leaves the position inside. -/
theorem isInside_run (hlayout : sequence.KeepsLayout cleared)
    (hmode : sequence.part.transport.loop.mode = .forever)
    (h : sequence.part.transport.IsInside) {commands : List (Command α)}
    (hcommands : ∀ command ∈ commands, command.IsWhileLooping)
    (hmoves : ∀ past command, past ++ [command] <+: commands → command.movesWindow = true →
      (sequence.run (past ++ [command])).1.part.transport.IsInside) :
    (sequence.run commands).1.part.transport.IsInside := by
  induction commands generalizing sequence cleared with
  | nil => exact h
  | cons command commands ih =>
    have hcommand := hcommands command List.mem_cons_self
    have hnext : (sequence.perform command).sequence.part.transport.IsInside := by
      cases hmove : command.movesWindow with
      | true => exact hmoves [] command ((List.prefix_cons_inj command).2 List.nil_prefix) hmove
      | false =>
        cases command with
        | process now => exact Transport.isInside_process hmode h now
        | _ => exact absurd (hmove.symm.trans hcommand) Bool.false_ne_true
    refine ih (keepsLayout_perform hlayout command)
      ((mode_perform (fun hlive => (hlayout hlive).1) hcommand).trans hmode) hnext
      (fun other hother => hcommands other (List.mem_cons_of_mem _ hother)) ?_
    intro past other hpast hmove
    exact hmoves (command :: past) other ((List.prefix_cons_inj command).2 hpast) hmove

end Run

/-! ### A live sequence -/

/-- **A sequence that loops leaves its loop only where the window is moved.** Let a sequence with a
loop without end be started without an index, in any state that it comes to while it is live.
However the clock is advanced from then on, and whatever is done to the pattern and the window in
between, a step of the clock leaves the position below the end of an active window exactly if it was
below before: from there it walks through the window, and from the end or behind it goes straight
on. So the position is below the end of an active window, after a step of the clock or between two,
as long as no command that moved the window has put its end at the position or behind it. -/
theorem isInside_of_forever {part : Part γ α} {listener : String} {pattern : Slots α}
    {settings : SequenceSettings} {meter : Meter} {made : Sequence γ α}
    (hmade : (create part listener pattern settings meter).1 = .ok made)
    (before : List (Command α)) (time : Option ClockTime) :
    let ready := (made.run before).1
    let begun := (made.run (before ++ [.start time none])).1
    ready.IsLive → ready.part.transport.loop.mode = .forever →
      ∀ commands : List (Command α), (∀ command ∈ commands, command.IsWhileLooping) →
        let here := (begun.run commands).1
        let transport := here.part.transport
        (∀ now,
          let next := (here.perform (.process now)).sequence.part.transport
          let length := transport.playedTime now
          next.loop = transport.loop ∧
            (transport.loop.IsActive →
              (next.position < transport.loop.finish ↔
                transport.position < transport.loop.finish)) ∧
            (transport.loop.IsActive → transport.position < transport.loop.finish →
              next.position.val = transport.loop.walk length.val transport.position.val) ∧
            (¬ transport.position < transport.loop.finish →
              next.position = transport.position + length)) ∧
        ((∀ past command, past ++ [command] <+: commands → command.movesWindow = true →
            (begun.run (past ++ [command])).1.part.transport.IsInside) →
          transport.IsInside) := by
  intro ready begun hlive hmode commands hcommands here transport
  have hlayout := keepsLayout_run (keepsLayout_of_create hmade) before
  have hbegun : begun = (ready.perform (.start time none)).sequence := by
    simp only [begun, run_append, run_cons, run_nil, ready]
  have hstarted : begun.part.transport = ready.part.transport.start time none := by
    rw [hbegun, perform, Sequence.start, ifLive_of_not_disposed hlive.1]
    rfl
  have hbegunMode : begun.part.transport.loop.mode = .forever := by
    rw [hstarted, Transport.loop_start]
    exact hmode
  have hbegunInside : begun.part.transport.IsInside := by
    rw [hstarted]
    exact Transport.isInside_start hlive.2 time
  have hbegunLayout := keepsLayout_perform hlayout (.start time none)
  rw [← hbegun] at hbegunLayout
  have hhereMode : transport.loop.mode = .forever :=
    (mode_run hbegunLayout hcommands).trans hbegunMode
  refine ⟨fun now => ⟨transport.loop_process now, fun hactive => ?_, fun hactive hlt => ?_,
    fun hle => ?_⟩, isInside_run hbegunLayout hbegunMode hbegunInside hcommands⟩
  · exact Transport.position_process_lt_iff hhereMode hactive now
  · exact Transport.position_process_of_lt hhereMode hactive hlt now
  · exact Transport.position_process_of_not_lt hle now

/-- Two steps of the clock around edits that leave the position inside: the slot that is removed is
behind it, and the window is then played from its second slot on. -/
theorem isInside_of_forever_narrowed :
    let result := (create (γ := SplitMix) (α := Char) { draws := ⟨7⟩ } "bass"
      [.sound 'a', .sound 'b', .sound 'c', .sound 'd'] { loop := .forever } {}).1
    let commands : List (Command Char) :=
      [.process 600000000, .removeAt [3], .setLoopStart 1, .process 800000000]
    ∃ made, result = .ok made ∧
      let begun := (made.run [.start none none]).1
      let transport := (begun.run commands).1.part.transport
      transport.loop.IsActive ∧ transport.state = .started ∧
        transport.loop.finish = 750000000 ∧ transport.position < transport.loop.finish ∧
        transport.position = 300000000 := by
  intro result commands
  have hcommands : ∀ command ∈ commands, command.IsWhileLooping := by
    simp only [commands, List.forall_mem_cons, Command.IsWhileLooping, Command.movesWindow,
      Command.laysOut]
    exact ⟨trivial, trivial, trivial, trivial, List.forall_mem_nil _⟩
  obtain ⟨made, hmade, ⟨hlive, hmode⟩, hmoves, hactive, hstate, hfinish, hposition⟩ :
      ∃ made, result = .ok made ∧
        let begun := (made.run [.start none none]).1
        let transport := (begun.run commands).1.part.transport
        (made.IsLive ∧ made.part.transport.loop.mode = .forever) ∧
          (∀ past ∈ commands.inits, (begun.run past).1.part.transport.IsInside) ∧
          transport.loop.IsActive ∧ transport.state = .started ∧
          transport.loop.finish = 750000000 ∧ transport.position = 300000000 :=
    exists_made_of_any (by decide +kernel)
  obtain ⟨-, hinside⟩ := isInside_of_forever hmade [] none hlive hmode commands hcommands
  refine ⟨made, hmade, hactive, hstate, hfinish, hinside (fun past command hpast _ => ?_) hactive,
    hposition⟩
  exact hmoves _ ((List.mem_inits _ commands).2 hpast)

/-- Removing the slot that is playing puts the end of the window behind the position, and playing
goes straight on. -/
theorem not_isInside_of_removeAt :
    let result := (create (γ := SplitMix) (α := Char) { draws := ⟨7⟩ } "bass"
      [.sound 'a', .sound 'b'] { loop := .forever } {}).1
    ∃ made, result = .ok made ∧
      let begun := (made.run [.start none none]).1
      let edited := (begun.run [.process 375000000]).1.perform (.removeAt [1])
      let here := edited.sequence.part.transport
      let next := (edited.sequence.perform (.process 400000000)).sequence.part.transport
      (made.IsLive ∧ made.part.transport.loop.mode = .forever ∧ edited.error = none) ∧
        (here.clock < next.clock ∧ next.startTime < next.clock ∧ next.state = .started ∧
          next.loop.IsActive) ∧
        next.loop.finish = 250000000 ∧ next.position = 400000000 ∧
        ¬ next.position < next.loop.finish := by
  exact exists_made_of_any (by decide +kernel)

end Sequence

end Ostinato
