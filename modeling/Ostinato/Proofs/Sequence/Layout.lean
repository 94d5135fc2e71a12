import Ostinato.Proofs.Sequence.Edits

/-!
# Layout along a run

The entries of a live sequence are the layout of its pattern, except after they have been cleared
and until the pattern is laid out again. Every command keeps this up.

## Main definitions

* `Sequence.isClearedBy`, `Sequence.isCleared`: whether the entries have been cleared since the
  pattern was laid out.
* `Sequence.KeepsLayout`: what every state of a sequence has in common.

## Main results

* `Sequence.perform_eq_of_laysOut`, `Sequence.perform_of_laysOut`: an accepted command lays out the
  pattern, a refused one changes nothing.
* `Sequence.keepsLayout_perform`, `Sequence.keepsLayout_run`: what a command and a run keep up.
* `Sequence.isLaidOut_run`: the layout of every state that a sequence comes to.
-/

namespace Ostinato.Sequence

variable {γ α : Type} [Generator γ]

/-! ### Clearing -/

/-- Whether a command removes the entries. -/
def Command.clears : Command α → Bool
  | .clear => true
  | _ => false

/-- Whether, after a command, the entries have been cleared and not been laid out since. -/
def isClearedBy (sequence : Sequence γ α) (cleared : Bool) (command : Command α) : Bool :=
  command.clears || (cleared && !(command.laysOut && (sequence.perform command).error.isNone))

/-- Whether, after a run, the entries have been cleared and not been laid out since. -/
def isCleared (sequence : Sequence γ α) (cleared : Bool) : List (Command α) → Bool
  | [] => cleared
  | command :: commands =>
    (sequence.perform command).sequence.isCleared (sequence.isClearedBy cleared command) commands

theorem eq_false_of_isClearedBy {sequence : Sequence γ α} {cleared : Bool} {command : Command α}
    (hkeeps : command.laysOut = false ∨ (sequence.perform command).error.isNone = false)
    (h : sequence.isClearedBy cleared command = false) : cleared = false := by
  rw [isClearedBy, Bool.or_eq_false_iff] at h
  rcases hkeeps with hkeeps | hkeeps
  · simpa [hkeeps] using h.2
  · simpa [hkeeps] using h.2

/-! ### What a command keeps up -/

/-- What every state of a sequence has in common: as long as it is live, no group of the pattern is
empty, and the entries are laid out unless they have been cleared. -/
def KeepsLayout (sequence : Sequence γ α) (cleared : Bool) : Prop :=
  sequence.disposed = false →
    sequence.pattern.root.HasNoEmptyGroup ∧ (cleared = false → sequence.IsLaidOut)

/-- A command that lays out the pattern either does so, with another pattern or another start, or is
refused and changes nothing. -/
theorem perform_eq_of_laysOut {sequence : Sequence γ α} {command : Command α}
    (h : sequence.disposed = false → sequence.pattern.root.HasNoEmptyGroup)
    (hlays : command.laysOut = true) :
    (∃ (pattern : TrackedPattern α) (startOffset : Ticks) (event : SequenceEvent α),
        pattern.root.HasNoEmptyGroup ∧ sequence.perform command =
          { sequence := relaid
              { sequence with pattern, part := { sequence.part with startOffset } }
            events := [event] }) ∨
      ∃ events error, sequence.perform command = { sequence, events, error := some error } := by
  rcases Command.laysOut_iff.1 hlays with ⟨write, rfl⟩ | ⟨offset, rfl⟩
  · rcases sequence.refuses_or_hasLayout write with ⟨error, herror⟩ | ⟨hlive, hlayout⟩
    · obtain ⟨events, hperform⟩ := perform_ofWrite_of_refuses herror
      exact .inr ⟨events, error, hperform⟩
    · obtain ⟨edited, event, -, hedited, hperform⟩ := perform_ofWrite_of_hasLayout hlive hlayout
      exact .inl ⟨_, sequence.part.startOffset, event, hedited, hperform⟩
  · by_cases hlive : sequence.disposed = false
    · obtain ⟨event, hmoved⟩ := setStartOffset_of_hasNoEmptyGroup offset hlive (h hlive)
      exact .inl ⟨sequence.pattern, offset, event, h hlive, hmoved⟩
    · refine .inr ⟨[], .disposed, ?_⟩
      rw [perform, setStartOffset, ifLive, if_pos (Bool.not_eq_false _ ▸ hlive)]
      rfl

/-- A command that lays out the pattern either does so or is refused and changes nothing. -/
theorem perform_of_laysOut {sequence : Sequence γ α} {command : Command α}
    (h : sequence.disposed = false → sequence.pattern.root.HasNoEmptyGroup)
    (hlays : command.laysOut = true) :
    (∃ (bare : Sequence γ α) (event : SequenceEvent α), bare.pattern.root.HasNoEmptyGroup ∧
        sequence.perform command = { sequence := bare.relaid, events := [event] }) ∨
      ∃ events error, sequence.perform command = { sequence, events, error := some error } :=
  (perform_eq_of_laysOut h hlays).imp_left fun ⟨_, _, event, hlayout, hperform⟩ =>
    ⟨_, event, hlayout, hperform⟩

/-- What one command keeps up. -/
theorem keepsLayout_perform {sequence : Sequence γ α} {cleared : Bool}
    (h : sequence.KeepsLayout cleared) (command : Command α) :
    (sequence.perform command).sequence.KeepsLayout (sequence.isClearedBy cleared command) := by
  rcases sequence.perform_cases command with hlays | rfl | rfl | ⟨hlays, hshares⟩
  · rcases perform_of_laysOut (fun hlive => (h hlive).1) hlays with
      ⟨bare, event, hlayout, hperform⟩ | ⟨events, error, hperform⟩
    · rw [hperform]
      exact fun _ => ⟨hlayout, fun _ => isLaidOut_relaid hlayout⟩
    · have hrefused : (sequence.perform command).error.isNone = false := by
        rw [hperform]
        rfl
      intro hlive
      rw [hperform] at hlive ⊢
      refine ⟨(h hlive).1, fun hcleared => (h hlive).2 ?_⟩
      exact eq_false_of_isClearedBy (.inr hrefused) hcleared
  · exact fun hlive => ⟨(h hlive).1, nofun⟩
  · exact nofun
  · intro hlive
    obtain ⟨hlayout, hlaid⟩ := h (hshares.disposed.symm.trans hlive)
    refine ⟨hshares.pattern.symm ▸ hlayout, fun hcleared => hshares.isLaidOut (hlaid ?_)⟩
    exact eq_false_of_isClearedBy (.inl hlays) hcleared

/-- What a run keeps up. -/
theorem keepsLayout_run {sequence : Sequence γ α} {cleared : Bool}
    (h : sequence.KeepsLayout cleared)
    (commands : List (Command α)) :
    (sequence.run commands).1.KeepsLayout (sequence.isCleared cleared commands) := by
  induction commands generalizing sequence cleared with
  | nil => exact h
  | cons command commands ih => exact ih (keepsLayout_perform h command)

theorem keepsLayout_of_create {part : Part γ α} {listener : String} {pattern : Slots α}
    {settings : SequenceSettings} {meter : Meter} {made : Sequence γ α}
    (h : (create part listener pattern settings meter).1 = .ok made) : made.KeepsLayout false := by
  obtain ⟨bare, hpattern, hlayout, hshares⟩ := sharesLayout_of_create h
  have hbare : bare.pattern.root.HasNoEmptyGroup := hpattern.symm ▸ hlayout
  intro _
  exact ⟨hshares.pattern.symm ▸ hbare, fun _ => hshares.isLaidOut (isLaidOut_relaid hbare)⟩

/-! ### Every state -/

/-- **The layout of every state.** In any state that a sequence comes to while it is live, no group
of its pattern is empty, and unless its entries have been cleared, they are the layout of the
pattern, in the order in which they are stored. An accepted command that lays out the pattern makes
that so again, and moving the start is always accepted. -/
theorem isLaidOut_run {part : Part γ α} {listener : String} {pattern : Slots α}
    {settings : SequenceSettings} {meter : Meter} {made : Sequence γ α}
    (hmade : (create part listener pattern settings meter).1 = .ok made)
    (commands : List (Command α)) (hlive : (made.run commands).1.disposed = false) :
    let sequence := (made.run commands).1
    sequence.pattern.root.HasNoEmptyGroup ∧
      (made.isCleared false commands = false → sequence.IsLaidOut) ∧
      (∀ command : Command α, command.laysOut = true → (sequence.perform command).error = none →
        (sequence.perform command).sequence.IsLaidOut) ∧
      ∀ offset, (sequence.setStartOffset offset).error = none := by
  intro sequence
  obtain ⟨hlayout, hlaid⟩ := keepsLayout_run (keepsLayout_of_create hmade) commands hlive
  refine ⟨hlayout, hlaid, fun command hlays haccepted => ?_, fun offset => ?_⟩
  · rcases perform_of_laysOut (fun _ => hlayout) hlays with
      ⟨bare, event, hbare, hperform⟩ | ⟨events, error, hperform⟩
    · rw [hperform]
      exact isLaidOut_relaid hbare
    · rw [hperform] at haccepted
      contradiction
  · obtain ⟨event, hmoved⟩ := setStartOffset_of_hasNoEmptyGroup offset hlive hlayout
    rw [hmoved]

/-- The entries are laid out again when the start moves, and stay so when the last child of a group
is not removed. -/
theorem isLaidOut_run_after_clear :
    let result := (create (γ := SplitMix) (α := Char) { draws := ⟨7⟩ } "bass"
      [.group [.leaf (.sound 'a'), .leaf .silence], .leaf (.sound 'b')] {} {}).1
    let commands :=
      [.clear, .setStartOffset 240, .removeAt [0, 0], .removeAt [0, 0], .start none none]
    ∃ made, result = .ok made ∧ made.isCleared false commands = false ∧
      (made.run commands).1.part.schedule.size = 2 ∧ (made.run commands).1.IsLaidOut := by
  intro result commands
  have hfacts : result.toOption.any fun made =>
      (made.run commands).1.disposed = false ∧ made.isCleared false commands = false ∧
        (made.run commands).1.part.schedule.size = 2 := by decide +kernel
  cases hmade : result with
  | error e =>
    rw [hmade] at hfacts
    contradiction
  | ok made =>
    rw [hmade] at hfacts
    obtain ⟨hlive, huncleared, hsize⟩ := of_decide_eq_true hfacts
    obtain ⟨-, hlaid, -⟩ := isLaidOut_run hmade commands hlive
    exact ⟨made, rfl, huncleared, hsize, hlaid huncleared⟩

end Ostinato.Sequence
