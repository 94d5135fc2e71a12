import Ostinato.Proofs.Pattern.Writes
import Ostinato.Proofs.Sequence.Creation

/-!
# Steps of a sequence

A command lays out the pattern, clears the entries, ends the sequence, or leaves alone everything
that a layout depends on. What holds along a run is shown for these four kinds of command, and those
that lay out the pattern either write to it or move its start.

## Main definitions

* `Sequence.Command.ofWrite`: the command for a write.
* `Sequence.Command.laysOut`: whether a command lays out the pattern.
* `Sequence.movedTo`: a sequence with another start.
* `Sequence.SharesLayout`: two sequences with the same pattern, entries and grid.

## Main results

* `Sequence.perform_cases`, `Sequence.Command.laysOut_iff`: the kinds of command.
* `Sequence.setStartOffset_of_hasNoEmptyGroup`: what moving the start does.
* `Sequence.sharesLayout_of_create`: a sequence starts out laid out.
-/

namespace Ostinato

variable {γ α : Type} [Generator γ]

namespace Sequence

/-- The command that performs a write. -/
def Command.ofWrite : Slots.Write α → Command α
  | .replace slots => .setPattern slots
  | .setAt path value => .setAt path value
  | .insertAt path value => .insertAt path value
  | .removeAt path => .removeAt path

theorem perform_ofWrite (sequence : Sequence γ α) (write : Slots.Write α) :
    sequence.perform (.ofWrite write) = sequence.edit fun pattern => pattern.write write := by
  cases write <;> rfl

/-- Whether a command lays out the pattern if it is accepted. -/
def Command.laysOut : Command α → Bool
  | .setPattern _ | .setAt _ _ | .insertAt _ _ | .removeAt _ | .setStartOffset _ => true
  | _ => false

/-- A command lays out the pattern exactly if it writes to it or moves its start. -/
theorem Command.laysOut_iff {command : Command α} :
    command.laysOut = true ↔
      (∃ write, command = .ofWrite write) ∨ ∃ offset, command = .setStartOffset offset := by
  constructor
  · intro h
    cases command with
    | setPattern root => exact .inl ⟨.replace root, rfl⟩
    | setAt path value => exact .inl ⟨.setAt path value, rfl⟩
    | insertAt path value => exact .inl ⟨.insertAt path value, rfl⟩
    | removeAt path => exact .inl ⟨.removeAt path, rfl⟩
    | setStartOffset offset => exact .inr ⟨offset, rfl⟩
    | _ => contradiction
  · rintro (⟨write, rfl⟩ | ⟨offset, rfl⟩)
    · cases write <;> rfl
    · rfl

omit [Generator γ] in
theorem ifLive_of_not_disposed {sequence : Sequence γ α} (h : sequence.disposed = false)
    (outcome : Outcome γ α) : sequence.ifLive outcome = outcome :=
  if_neg (Bool.eq_false_iff.1 h)

/-! ### Moving the start -/

/-- The sequence with another start, before it is laid out. -/
def movedTo (sequence : Sequence γ α) (offset : Ticks) : Sequence γ α :=
  { sequence with part := { sequence.part with startOffset := offset } }

theorem setStartOffset_eq (sequence : Sequence γ α) (offset : Ticks) :
    sequence.setStartOffset offset = sequence.ifLive
      (match (sequence.movedTo offset).rebuild with
      | .ok (laid, event) => { sequence := laid, events := [event] }
      | .error e => (sequence.movedTo offset).refuse (.invalidPattern e)) := rfl

/-- The start of a live sequence moves if its pattern has a layout. -/
theorem setStartOffset_of_hasNoEmptyGroup {sequence : Sequence γ α} (offset : Ticks)
    (hlive : sequence.disposed = false) (h : sequence.pattern.root.HasNoEmptyGroup) :
    ∃ event, sequence.setStartOffset offset =
      { sequence := (sequence.movedTo offset).relaid, events := [event] } := by
  have hrebuild : (sequence.movedTo offset).rebuild = .ok (_, _) := rebuild_of_hasNoEmptyGroup h
  rw [setStartOffset_eq, ifLive_of_not_disposed hlive, hrebuild]
  exact ⟨_, rfl⟩

theorem pattern_setStartOffset (sequence : Sequence γ α) (offset : Ticks) :
    (sequence.setStartOffset offset).sequence.pattern = sequence.pattern := by
  rw [setStartOffset_eq, ifLive]
  split
  · rfl
  · rcases (sequence.movedTo offset).rebuild_cases with ⟨event, h⟩ | ⟨path, h⟩
    · rw [h]
      rfl
    · rw [h]
      rfl

/-! ### What a layout depends on -/

/-- Two sequences have the same pattern, the same entries and the same grid, and both are live or
both are disposed. -/
structure SharesLayout (before after : Sequence γ α) : Prop where
  pattern : after.pattern = before.pattern
  meter : after.meter = before.meter
  subdivision : after.subdivision = before.subdivision
  startOffset : after.part.startOffset = before.part.startOffset
  schedule : after.part.schedule = before.part.schedule
  disposed : after.disposed = before.disposed

omit [Generator γ] in
theorem SharesLayout.refl (sequence : Sequence γ α) : sequence.SharesLayout sequence :=
  ⟨rfl, rfl, rfl, rfl, rfl, rfl⟩

omit [Generator γ] in
theorem SharesLayout.isLaidOut {before after : Sequence γ α} (h : before.SharesLayout after)
    (hbefore : before.IsLaidOut) : after.IsLaidOut := by
  obtain ⟨placements, hlayout, hentries⟩ := hbefore
  refine ⟨placements, ?_, ?_⟩
  · rw [h.pattern, h.subdivision, h.startOffset, hlayout]
  · rw [h.schedule, h.meter, hentries]

omit [Generator γ] in
theorem SharesLayout.onPart {before sequence : Sequence γ α} (h : before.SharesLayout sequence)
    {result : Part γ α × List (PartEvent α)}
    (hoffset : result.1.startOffset = before.part.startOffset)
    (hschedule : result.1.schedule = before.part.schedule) :
    before.SharesLayout (sequence.onPart result).sequence :=
  ⟨h.pattern, h.meter, h.subdivision, hoffset, hschedule, h.disposed⟩

omit [Generator γ] in
theorem SharesLayout.ifLive {sequence : Sequence γ α} {outcome : Outcome γ α}
    (h : sequence.SharesLayout outcome.sequence) :
    sequence.SharesLayout (sequence.ifLive outcome).sequence := by
  rw [Sequence.ifLive]
  split
  · exact .refl sequence
  · exact h

omit [Generator γ] in
theorem SharesLayout.setLoop {before sequence : Sequence γ α} (h : before.SharesLayout sequence)
    (loop : Loop) : before.SharesLayout (sequence.onPart (before.part.setLoop loop, [])).sequence :=
  .onPart h rfl rfl

/-- A command lays out the pattern, clears the entries, ends the sequence, or leaves the layout
alone. -/
theorem perform_cases (sequence : Sequence γ α) (command : Command α) :
    command.laysOut = true ∨ command = .clear ∨ command = .dispose ∨
      command.laysOut = false ∧ sequence.SharesLayout (sequence.perform command).sequence := by
  cases command with
  | setPattern | setAt | insertAt | removeAt | setStartOffset => exact .inl rfl
  | clear => exact .inr (.inl rfl)
  | dispose => exact .inr (.inr (.inl rfl))
  | stop | process => exact .inr (.inr (.inr ⟨rfl, .onPart (.refl sequence) rfl rfl⟩))
  | start | setHumanize | setMute =>
    refine .inr (.inr (.inr ⟨rfl, SharesLayout.ifLive ?_⟩))
    exact .onPart (.refl sequence) rfl rfl
  | setLoopMode | setLoopStart | setLoopEnd =>
    refine .inr (.inr (.inr ⟨rfl, SharesLayout.ifLive (SharesLayout.setLoop ?_ _)⟩))
    exact ⟨rfl, rfl, rfl, rfl, rfl, rfl⟩
  | setRate | setProbability =>
    refine .inr (.inr (.inr ⟨rfl, SharesLayout.ifLive ?_⟩))
    split
    · exact .onPart (.refl sequence) rfl rfl
    · exact .refl sequence

/-! ### The first state -/

omit [Generator γ] in
theorem sharesLayout_tuned (sequence : Sequence γ α) (settings : SequenceSettings)
    (humanize : Humanize) : sequence.SharesLayout (sequence.tuned settings humanize) :=
  ⟨rfl, rfl, rfl, rfl, rfl, rfl⟩

/-- A sequence that is made is laid out: what is set afterwards leaves the layout alone. -/
theorem sharesLayout_of_create {part : Part γ α} {listener : String} {pattern : Slots α}
    {settings : SequenceSettings} {meter : Meter} {made : Sequence γ α}
    (h : (create part listener pattern settings meter).1 = .ok made) :
    ∃ bare : Sequence γ α, bare.pattern = { root := pattern } ∧ pattern.HasNoEmptyGroup ∧
      bare.relaid.SharesLayout made := by
  obtain ⟨subdivision, humanize, -, hlayout, rfl⟩ := eq_tuned_of_create h
  exact ⟨bare part listener pattern settings meter subdivision, rfl, hlayout,
    sharesLayout_tuned _ settings humanize⟩

end Sequence

end Ostinato
