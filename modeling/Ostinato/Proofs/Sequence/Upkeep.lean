import Mathlib.Algebra.Group.Nat.Defs
import Ostinato.Proofs.Part.Walk
import Ostinato.Proofs.Sequence.Creation
import Ostinato.Proofs.Sequence.Layout

/-!
# Upkeep of a sequence

Besides the layout, a live sequence keeps up three things whatever is done to it: its part tells the
listener that the sequence was made for, the loop window lies between the slots that the indices
name, and there are no entries at all once they have been cleared.

## Main definitions

* `Sequence.HasWindow`: the window is where the indices say.
* `Sequence.IsKept`: what is kept up.

## Main results

* `Sequence.isKept_perform`, `Sequence.isKept_run`: a command and a run keep it up.
* `Sequence.isKept_of_create`: it holds when a sequence is made.
* `Sequence.window_run`: the loop window of every state.
* `Sequence.heard_perform_of_laysOut`: nothing is heard of an edit.
-/

namespace Ostinato

variable {γ α : Type} [Generator γ]

namespace Transport

@[simp] theorem loop_start (transport : Transport) (time position : Option ClockTime) :
    (transport.start time position).loop = transport.loop := by
  rw [start]
  split <;> rfl

@[simp] theorem loop_stop (transport : Transport) (time : Option ClockTime) :
    (transport.stop time).loop = transport.loop := by
  rw [stop]
  split
  · rfl
  · split <;> rfl

@[simp] theorem loop_setRate (transport : Transport) (rate : Binary64) :
    (transport.setRate rate).loop = transport.loop := by
  rw [setRate]
  split <;> rfl

end Transport

theorem Grid.time_eq (grid : Grid) (index : Nat) :
    grid.time index = grid.meter.toClock
      (.ofNat (min (2 ^ 64 - 1) (index * grid.subdivision.val + grid.startOffset.val))) := by
  have hmax : 2 ^ 64 - 1 = maxCount := by decide
  have hticks : grid.ticks index =
      .ofNat (min (2 ^ 64 - 1) (index * grid.subdivision.val + grid.startOffset.val)) := by
    refine Span.ext ?_
    rw [ticks, Span.val_add, Span.val_mul, Span.val_ofNat, Nat.mul_comm index, hmax]
    omega
  rw [time, hticks]

namespace Sequence

/-! ### The window -/

/-- The loop window lies between the slots that the indices name. -/
def HasWindow (sequence : Sequence γ α) : Prop :=
  sequence.part.transport.loop.start = sequence.grid.time sequence.loopStart ∧
    sequence.part.transport.loop.finish =
      sequence.grid.endTime sequence.loopEnd sequence.pattern.root.length

omit [Generator γ] in
/-- An operation on the part that leaves the bounds of the window alone. -/
theorem HasWindow.onPart {sequence : Sequence γ α} (h : sequence.HasWindow)
    {result : Part γ α × List (PartEvent α)}
    (hoffset : result.1.startOffset = sequence.part.startOffset)
    (hstart : result.1.transport.loop.start = sequence.part.transport.loop.start)
    (hfinish : result.1.transport.loop.finish = sequence.part.transport.loop.finish) :
    (sequence.onPart result).sequence.HasWindow := by
  have hgrid : (sequence.onPart result).sequence.grid = sequence.grid :=
    congrArg (Grid.mk sequence.meter sequence.subdivision) hoffset
  rw [HasWindow, hgrid]
  exact ⟨hstart.trans h.1, hfinish.trans h.2⟩

/-- A command that neither lays out the pattern nor ends the sequence keeps the listener and the
window. -/
theorem hasWindow_perform {sequence : Sequence γ α} {command : Command α}
    (hlive : sequence.disposed = false) (hlays : command.laysOut = false)
    (hends : command ≠ .dispose) (h : sequence.HasWindow) :
    (sequence.perform command).sequence.part.listener = sequence.part.listener ∧
      (sequence.perform command).sequence.HasWindow := by
  cases command with
  | setPattern | setAt | insertAt | removeAt | setStartOffset => contradiction
  | dispose => contradiction
  | clear => exact ⟨rfl, h⟩
  | stop time =>
    exact ⟨rfl, h.onPart rfl (congrArg _ (Transport.loop_stop ..))
      (congrArg _ (Transport.loop_stop ..))⟩
  | process now =>
    exact ⟨rfl, h.onPart rfl (congrArg _ (Transport.loop_process ..))
      (congrArg _ (Transport.loop_process ..))⟩
  | start time index =>
    rw [perform, Sequence.start, ifLive_of_not_disposed hlive]
    exact ⟨rfl, h.onPart rfl (congrArg _ (Transport.loop_start ..))
      (congrArg _ (Transport.loop_start ..))⟩
  | setLoopMode mode =>
    rw [perform, setLoopMode, ifLive_of_not_disposed hlive]
    exact ⟨rfl, h.onPart rfl rfl rfl⟩
  | setLoopStart index =>
    have hfinish := h.2
    simp only [grid] at hfinish
    simp only [perform, setLoopStart, ifLive_of_not_disposed hlive, Sequence.onPart, Part.setLoop,
      HasWindow, grid, hfinish, and_self]
  | setLoopEnd index =>
    have hstart := h.1
    simp only [grid] at hstart
    simp only [perform, setLoopEnd, ifLive_of_not_disposed hlive, Sequence.onPart, Part.setLoop,
      HasWindow, grid, hstart, and_self]
  | setRate rate =>
    rw [perform, setRate, ifLive_of_not_disposed hlive]
    split
    · exact ⟨rfl, h.onPart rfl (congrArg _ (Transport.loop_setRate ..))
        (congrArg _ (Transport.loop_setRate ..))⟩
    · exact ⟨rfl, h⟩
  | setProbability probability =>
    rw [perform, setProbability, ifLive_of_not_disposed hlive]
    split
    · exact ⟨rfl, h.onPart rfl rfl rfl⟩
    · exact ⟨rfl, h⟩
  | setHumanize humanize =>
    rw [perform, setHumanize, ifLive_of_not_disposed hlive]
    exact ⟨rfl, h.onPart rfl rfl rfl⟩
  | setMute mute =>
    rw [perform, setMute, ifLive_of_not_disposed hlive]
    exact ⟨rfl, h.onPart rfl rfl rfl⟩

/-! ### What is kept up -/

/-- What a live sequence keeps up for a listener, where `cleared` says whether its entries have been
cleared and not been laid out since. -/
structure IsKept (sequence : Sequence γ α) (name : String) (cleared : Bool) : Prop where
  listener : sequence.part.listener = some { name, hearsSilence := false }
  window : sequence.HasWindow
  entries : cleared = true → sequence.part.schedule = .empty

theorem isKept_relaid {sequence : Sequence γ α} {name : String}
    (h : sequence.part.listener = some { name, hearsSilence := false }) :
    sequence.relaid.IsKept name false := by
  obtain ⟨schedule, nextEntry, hrelaid, -⟩ := sequence.exists_relaid
  rw [hrelaid]
  exact ⟨h, ⟨rfl, rfl⟩, nofun⟩

/-- A command that lays out the pattern does not clear the entries, and makes up for a clearing if
it is accepted. -/
theorem isClearedBy_of_laysOut {sequence : Sequence γ α} {command : Command α}
    (hlays : command.laysOut = true) (cleared : Bool) :
    sequence.isClearedBy cleared command =
      (cleared && !(sequence.perform command).error.isNone) := by
  have hkeeps : command.clears = false := by
    cases command <;> first | rfl | contradiction
  rw [isClearedBy, hlays, hkeeps, Bool.false_or, Bool.true_and]

/-- What one command keeps up. -/
theorem isKept_perform {sequence : Sequence γ α} {name : String} {cleared : Bool}
    (hlayout : sequence.KeepsLayout cleared)
    (h : sequence.disposed = false → sequence.IsKept name cleared) (command : Command α)
    (hlive : (sequence.perform command).sequence.disposed = false) :
    (sequence.perform command).sequence.IsKept name (sequence.isClearedBy cleared command) := by
  rcases sequence.perform_cases command with hlays | rfl | rfl | ⟨hlays, hshares⟩
  · rw [isClearedBy_of_laysOut hlays]
    rcases perform_eq_of_laysOut (fun hlive => (hlayout hlive).1) hlays with
      ⟨pattern, startOffset, event, -, hperform⟩ | ⟨events, error, hperform⟩
    · rw [hperform] at hlive ⊢
      rw [Option.isNone_none, Bool.not_true, Bool.and_false]
      exact isKept_relaid (h hlive).listener
    · rw [hperform] at hlive ⊢
      rw [Option.isNone_some, Bool.not_false, Bool.and_true]
      exact h hlive
  · obtain ⟨hlistener, hwindow, -⟩ := h hlive
    exact ⟨hlistener, hwindow, fun _ => rfl⟩
  · contradiction
  · have hbefore := hshares.disposed.symm.trans hlive
    obtain ⟨hlistener, hwindow, hentries⟩ := h hbefore
    have hends : command ≠ .dispose := fun heq => by
      rw [heq] at hlive
      contradiction
    obtain ⟨hsame, hkept⟩ := hasWindow_perform hbefore hlays hends hwindow
    refine ⟨hsame.trans hlistener, hkept, fun hcleared => ?_⟩
    cases hclears : command.clears with
    | true =>
      cases command with
      | clear => rfl
      | _ => contradiction
    | false =>
      rw [isClearedBy, hclears, hlays, Bool.false_and, Bool.not_false, Bool.and_true,
        Bool.false_or] at hcleared
      rw [hshares.schedule, hentries hcleared]

theorem isCleared_append (sequence : Sequence γ α) (cleared : Bool)
    (before after : List (Command α)) :
    sequence.isCleared cleared (before ++ after) =
      (sequence.run before).1.isCleared (sequence.isCleared cleared before) after := by
  induction before generalizing sequence cleared with
  | nil => rfl
  | cons command before ih => exact ih _ _

/-- What a run keeps up. -/
theorem isKept_run {sequence : Sequence γ α} {name : String} {cleared : Bool}
    (hlayout : sequence.KeepsLayout cleared)
    (h : sequence.disposed = false → sequence.IsKept name cleared) (commands : List (Command α))
    (hlive : (sequence.run commands).1.disposed = false) :
    (sequence.run commands).1.IsKept name (sequence.isCleared cleared commands) := by
  induction commands generalizing sequence cleared with
  | nil => exact h hlive
  | cons command commands ih =>
    exact ih (keepsLayout_perform hlayout command) (isKept_perform hlayout h command) hlive

/-- It holds when a sequence is made. -/
theorem isKept_of_create {part : Part γ α} {listener : String} {pattern : Slots α}
    {settings : SequenceSettings} {meter : Meter} {made : Sequence γ α}
    (h : (create part listener pattern settings meter).1 = .ok made) :
    made.IsKept listener false := by
  obtain ⟨subdivision, humanize, -, -, rfl⟩ := eq_tuned_of_create h
  have hkept : (bare part listener pattern settings meter subdivision).relaid.IsKept listener
      false := isKept_relaid rfl
  obtain ⟨hlistener, hwindow, -⟩ := hkept
  exact ⟨hlistener, hwindow, nofun⟩

/-! ### The window of every state -/

omit [Generator γ] in
theorem HasWindow.window_eq {sequence : Sequence γ α} (h : sequence.HasWindow) :
    sequence.window = sequence.part.transport.loop := by
  rw [window, ← h.1, ← h.2]

/-- **The loop window of every state.** In any state that a sequence comes to while it is live,
whatever has been done to it and whether or not it was accepted, the window that its part plays lies
between the clock times of the slots that the two indices name, where the end index zero names the
end of the pattern. So the setters and the edits agree: laying out the pattern once more goes
through, and leaves the window and the rest of the transport as they are. -/
theorem window_run {part : Part γ α} {listener : String} {pattern : Slots α}
    {settings : SequenceSettings} {meter : Meter} {made : Sequence γ α}
    (hmade : (create part listener pattern settings meter).1 = .ok made)
    (commands : List (Command α)) (hlive : (made.run commands).1.disposed = false) :
    let sequence := (made.run commands).1
    let boundary (index : Nat) : ClockTime := sequence.meter.toClock (.ofNat
      (min (2 ^ 64 - 1) (index * sequence.subdivision.val + sequence.part.startOffset.val)))
    let loop := sequence.part.transport.loop
    loop.start = boundary sequence.loopStart ∧
      loop.finish = boundary
        (if sequence.loopEnd = 0 then sequence.pattern.root.length else sequence.loopEnd) ∧
      ∃ laid event, sequence.rebuild = .ok (laid, event) ∧
        laid.part.transport = sequence.part.transport := by
  intro sequence boundary loop
  have hkeeps := keepsLayout_of_create hmade
  have hlayout := (keepsLayout_run hkeeps commands hlive).1
  have hwindow : sequence.HasWindow :=
    (isKept_run hkeeps (fun _ => isKept_of_create hmade) commands hlive).window
  refine ⟨hwindow.1.trans (sequence.grid.time_eq _), hwindow.2.trans ?_, sequence.relaid, _,
    rebuild_of_hasNoEmptyGroup hlayout, ?_⟩
  · rw [Grid.endTime]
    split
    · exact sequence.grid.time_eq _
    · exact sequence.grid.time_eq _
  · obtain ⟨schedule, nextEntry, hrelaid, -⟩ := sequence.exists_relaid
    rw [hrelaid, hwindow.window_eq]

/-- The window runs to the end of the pattern, which an accepted edit makes shorter. The last two
edits are refused, one at the group that it would empty and one at its path, and change nothing. -/
theorem window_run_after_refusals :
    let result := (create (γ := SplitMix) (α := Char) { draws := ⟨7⟩ } "bass"
      [.group [.sound 'a', .silence], .sound 'b', .sound 'c'] { loop := .forever } {}).1
    let commands : List (Command Char) :=
      [.setLoopStart 1, .start none none, .process 300000000, .removeAt [0, 1], .clear,
        .setStartOffset 508032000, .setLoopEnd 0, .removeAt [2], .removeAt [0, 0],
        .insertAt [9] .silence]
    ∃ made, result = .ok made ∧
      let sequence := (made.run commands).1
      sequence.disposed = false ∧ sequence.loopStart = 1 ∧ sequence.loopEnd = 0 ∧
        sequence.pattern.root.length = 2 ∧
        sequence.part.transport.loop.start = 375000000 ∧
        sequence.part.transport.loop.finish = 625000000 := by
  intro result commands
  obtain ⟨made, hmade, hlive, hindices, hlength, hgrid⟩ :
      ∃ made, result = .ok made ∧
        let sequence := (made.run commands).1
        sequence.disposed = false ∧ (sequence.loopStart = 1 ∧ sequence.loopEnd = 0) ∧
          sequence.pattern.root.length = 2 ∧ sequence.grid = ⟨{}, 1016064000, 508032000⟩ :=
    exists_made_of_any (by decide +kernel)
  obtain ⟨hstart, hfinish, -⟩ := window_run hmade commands hlive
  obtain ⟨hmeter, hsubdivision, hoffset⟩ := Grid.mk.inj hgrid
  rw [hindices.1, hmeter, hsubdivision, hoffset] at hstart
  rw [hindices.2, if_pos rfl, hlength, hmeter, hsubdivision, hoffset] at hfinish
  exact ⟨made, hmade, hlive, hindices.1, hindices.2, hlength, hstart.trans (by decide),
    hfinish.trans (by decide)⟩

/-! ### What is heard -/

/-- Nothing is heard of an edit. -/
theorem heard_perform_of_laysOut (sequence : Sequence γ α) {command : Command α}
    (hlays : command.laysOut = true) :
    (sequence.perform command).events.filterMap SequenceEvent.heard? = [] := by
  rcases Command.laysOut_iff.1 hlays with ⟨write, rfl⟩ | ⟨offset, rfl⟩
  · rw [perform_ofWrite, Sequence.edit, ifLive]
    split
    · rfl
    · split
      · rfl
      · split
        · next hrebuild => simp [heard?_of_rebuild hrebuild]
        · split <;> rfl
  · rw [perform, setStartOffset_eq, ifLive]
    split
    · rfl
    · split
      · next hrebuild => simp [heard?_of_rebuild hrebuild]
      · rfl

end Sequence

end Ostinato
