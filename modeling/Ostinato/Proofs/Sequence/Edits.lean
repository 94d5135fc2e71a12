import Ostinato.Proofs.Sequence.Steps

/-!
# Edits of a sequence

A write changes the pattern first and is undone if the new pattern cannot be laid out. Seen from
outside it happens as a whole or not at all.

## Main definitions

* `Slots.Write.HasLayout`: whether a write gives a pattern that can be laid out.
* `Sequence.Refuses`: why a write is refused.

## Main results

* `Sequence.perform_ofWrite_of_refuses`, `Sequence.perform_ofWrite_of_hasLayout`: the ends of a
  write, of which `Sequence.refuses_or_hasLayout` says that there are no others.
* `Sequence.toNat_revision_run_le`: a run takes the revision no further than it has commands.
* `Sequence.perform_ofWrite_run`: writes are all or nothing, whatever was done before.
-/

namespace Ostinato

variable {γ α : Type} [Generator γ]

/-- Whether a write gives a root without empty groups. -/
def Slots.Write.HasLayout (root : Slots α) (write : Slots.Write α) : Prop :=
  ∃ edited, write.Gives root edited ∧ edited.HasNoEmptyGroup

namespace Sequence

/-! ### The ends of a write -/

/-- Why a write is refused: the sequence is disposed, the write has no place, or it leaves groups
empty, the first of which is named. -/
inductive Refuses (sequence : Sequence γ α) (write : Slots.Write α) : SequenceError → Prop
  | disposed (h : sequence.disposed = true) : Refuses sequence write .disposed
  | misplaced (hlive : sequence.disposed = false) (h : ¬ write.IsValid sequence.pattern.root) :
    Refuses sequence write (.invalidPattern (.invalidPath write.path))
  | emptied {edited : Slots α} {path : Path} (hlive : sequence.disposed = false)
    (hgives : write.Gives sequence.pattern.root edited) (h : edited.IsFirstEmptyGroup path) :
    Refuses sequence write (.invalidPattern (.emptyGroup path))

/-- A refused write changes nothing. -/
theorem perform_ofWrite_of_refuses {sequence : Sequence γ α} {write : Slots.Write α}
    {error : SequenceError} (h : sequence.Refuses write error) :
    ∃ events, sequence.perform (.ofWrite write) = { sequence, events, error := some error } := by
  rw [perform_ofWrite, Sequence.edit]
  cases h with
  | disposed h =>
    rw [ifLive, if_pos h]
    exact ⟨_, rfl⟩
  | misplaced hlive h =>
    rw [ifLive_of_not_disposed hlive, TrackedPattern.write_of_not_isValid h]
    exact ⟨_, rfl⟩
  | @emptied edited path hlive hgives h =>
    -- the layout fails, and putting back what was changed gives the pattern before
    obtain ⟨edit, undo, hwrite, hback⟩ := TrackedPattern.write_of_gives hgives
    have hrebuild : { sequence with pattern := sequence.pattern.advance edited }.rebuild =
        .error (.emptyGroup path) := rebuild_of_isFirstEmptyGroup h
    rw [ifLive_of_not_disposed hlive, hwrite]
    simp only [hrebuild, TrackedPattern.revert_of_putBack hback]
    exact ⟨_, rfl⟩

/-- A write that gives a pattern with a layout is performed and laid out. -/
theorem perform_ofWrite_of_hasLayout {sequence : Sequence γ α} {write : Slots.Write α}
    (hlive : sequence.disposed = false) (h : write.HasLayout sequence.pattern.root) :
    ∃ edited event, write.Gives sequence.pattern.root edited ∧ edited.HasNoEmptyGroup ∧
      sequence.perform (.ofWrite write) =
        { sequence := { sequence with pattern := sequence.pattern.advance edited }.relaid
          events := [event] } := by
  obtain ⟨edited, hgives, hlayout⟩ := h
  obtain ⟨edit, undo, hwrite, -⟩ := TrackedPattern.write_of_gives hgives
  let next : Sequence γ α := { sequence with pattern := sequence.pattern.advance edited }
  have hrebuild : next.rebuild = .ok (next.relaid, _) := rebuild_of_hasNoEmptyGroup hlayout
  simp only [next] at hrebuild
  rw [perform_ofWrite, Sequence.edit, ifLive_of_not_disposed hlive, hwrite]
  simp only [hrebuild]
  exact ⟨edited, _, hgives, hlayout, rfl⟩

omit [Generator γ] in
/-- There are no other ends. -/
theorem refuses_or_hasLayout (sequence : Sequence γ α) (write : Slots.Write α) :
    (∃ error, sequence.Refuses write error) ∨
      sequence.disposed = false ∧ write.HasLayout sequence.pattern.root := by
  by_cases hlive : sequence.disposed = false
  · by_cases hvalid : write.IsValid sequence.pattern.root
    · obtain ⟨edited, hgives⟩ := (Slots.Write.exists_gives_iff write).2 hvalid
      cases hempty : edited.firstEmptyGroup? with
      | none => exact .inr ⟨hlive, edited, hgives, Slots.firstEmptyGroup?_eq_none_iff.1 hempty⟩
      | some path =>
        exact .inl ⟨_, .emptied hlive hgives (Slots.firstEmptyGroup?_eq_some_iff.1 hempty)⟩
    · exact .inl ⟨_, .misplaced hlive hvalid⟩
  · exact .inl ⟨_, .disposed (Bool.not_eq_false _ ▸ hlive)⟩

theorem error_perform_ofWrite_eq_some_iff {sequence : Sequence γ α} {write : Slots.Write α}
    {error : SequenceError} :
    (sequence.perform (.ofWrite write)).error = some error ↔ sequence.Refuses write error := by
  constructor
  · intro h
    rcases sequence.refuses_or_hasLayout write with ⟨other, hother⟩ | ⟨hlive, hlayout⟩
    · obtain ⟨events, hperform⟩ := perform_ofWrite_of_refuses hother
      rw [hperform] at h
      exact Option.some.inj h ▸ hother
    · obtain ⟨edited, event, -, -, hperform⟩ := perform_ofWrite_of_hasLayout hlive hlayout
      rw [hperform] at h
      contradiction
  · intro h
    obtain ⟨events, hperform⟩ := perform_ofWrite_of_refuses h
    rw [hperform]

/-- A write ends without an error exactly if the sequence is live, the write has a place, and what
it gives has a layout. -/
theorem error_perform_ofWrite_eq_none_iff {sequence : Sequence γ α} {write : Slots.Write α} :
    (sequence.perform (.ofWrite write)).error = none ↔
      sequence.disposed = false ∧ write.IsValid sequence.pattern.root ∧
        write.HasLayout sequence.pattern.root := by
  constructor
  · intro h
    rcases sequence.refuses_or_hasLayout write with ⟨error, herror⟩ | ⟨hlive, hlayout⟩
    · rw [error_perform_ofWrite_eq_some_iff.2 herror] at h
      contradiction
    · have hvalid := (Slots.Write.exists_gives_iff write).1 (hlayout.imp fun _ => And.left)
      exact ⟨hlive, hvalid, hlayout⟩
  · rintro ⟨hlive, -, hlayout⟩
    obtain ⟨edited, event, -, -, hperform⟩ := perform_ofWrite_of_hasLayout hlive hlayout
    rw [hperform]

/-! ### Revisions along a run -/

theorem revision_write_le (sequence : Sequence γ α) (write : Slots.Write α) :
    (sequence.perform (.ofWrite write)).sequence.pattern.revision ≤
      sequence.pattern.revision + 1 := by
  rcases sequence.refuses_or_hasLayout write with ⟨error, herror⟩ | ⟨hlive, hlayout⟩
  · obtain ⟨events, hperform⟩ := perform_ofWrite_of_refuses herror
    rw [hperform]
    exact Nat.le_succ _
  · obtain ⟨edited, event, -, -, hperform⟩ := perform_ofWrite_of_hasLayout hlive hlayout
    rw [hperform]
    exact Nat.le_refl _

theorem revision_perform_le (sequence : Sequence γ α) (command : Command α) :
    (sequence.perform command).sequence.pattern.revision ≤ sequence.pattern.revision + 1 := by
  rcases sequence.perform_cases command with hlays | rfl | rfl | ⟨-, hshares⟩
  · rcases Command.laysOut_iff.1 hlays with ⟨write, rfl⟩ | ⟨offset, rfl⟩
    · exact sequence.revision_write_le write
    · rw [perform, pattern_setStartOffset]
      exact Nat.le_succ _
  · exact Nat.le_succ _
  · exact Nat.zero_le _
  · rw [hshares.pattern]
    exact Nat.le_succ _

theorem revision_run_le (sequence : Sequence γ α) (commands : List (Command α)) :
    (sequence.run commands).1.pattern.revision ≤
      sequence.pattern.revision + commands.length := by
  induction commands generalizing sequence with
  | nil => exact Nat.le_refl _
  | cons command commands ih =>
    have hstep := sequence.revision_perform_le command
    have hrest := ih (sequence.perform command).sequence
    simp only [run_cons, List.length_cons]
    omega

/-! ### All or nothing -/

/-- **Writes are all or nothing.** In any state that a sequence comes to, a write is accepted
exactly if the sequence is live, the write has a place and it leaves no group empty. The pattern is
then the edited one, a revision on. Otherwise the error says which of these fails, and nothing is
changed. Putting back what a write has changed always succeeds, and gives the pattern before it. The
revision is never further than the commands that there were, so a word has room for it. -/
theorem perform_ofWrite_run {part : Part γ α} {listener : String} {pattern : Slots α}
    {settings : SequenceSettings} {meter : Meter} {made : Sequence γ α}
    (hmade : (create part listener pattern settings meter).1 = .ok made)
    (commands : List (Command α)) (write : Slots.Write α) :
    let sequence := (made.run commands).1
    let outcome := sequence.perform (.ofWrite write)
    (outcome.error = none ↔ sequence.disposed = false ∧ write.IsValid sequence.pattern.root ∧
        write.HasLayout sequence.pattern.root) ∧
      (outcome.error = none → ∃ edited, write.Gives sequence.pattern.root edited ∧
        outcome.sequence.pattern = ⟨edited, sequence.pattern.revision + 1⟩) ∧
      (∀ error, outcome.error = some error ↔ sequence.Refuses write error) ∧
      (outcome.error ≠ none → outcome.sequence = sequence) ∧
      (∀ next edit, sequence.pattern.write write = .ok (next, edit) →
        next.revert edit = .ok sequence.pattern ∧
          ∃ restored undo, next.putBack edit = .ok (restored, undo) ∧
            restored.revision = sequence.pattern.revision + 2) ∧
      sequence.pattern.revision ≤ commands.length := by
  intro sequence outcome
  refine ⟨error_perform_ofWrite_eq_none_iff, ?_, fun _ => error_perform_ofWrite_eq_some_iff, ?_, ?_,
    ?_⟩
  · intro h
    obtain ⟨hlive, -, hlayout⟩ := error_perform_ofWrite_eq_none_iff.1 h
    obtain ⟨edited, event, hgives, -, hperform⟩ := perform_ofWrite_of_hasLayout hlive hlayout
    refine ⟨edited, hgives, ?_⟩
    simp only [outcome, hperform]
    rfl
  · intro h
    obtain ⟨error, herror⟩ := Option.ne_none_iff_exists'.1 h
    obtain ⟨events, hperform⟩ :=
      perform_ofWrite_of_refuses (error_perform_ofWrite_eq_some_iff.1 herror)
    simp only [outcome, hperform]
  · intro next edit hwrite
    obtain ⟨edited, undo, -, rfl, hback⟩ := TrackedPattern.exists_of_write hwrite
    exact ⟨TrackedPattern.revert_of_putBack hback, _, undo, hback, rfl⟩
  · obtain ⟨bare, hpattern, -, hshares⟩ := sharesLayout_of_create hmade
    have hfirst : made.pattern.revision = 0 := by
      rw [hshares.pattern, relaid, hpattern]
    have hle := made.revision_run_le commands
    rwa [hfirst, Nat.zero_add] at hle

/-- The last child of a group cannot be removed, also while the sequence plays. -/
theorem perform_ofWrite_run_last_child :
    let result := (create (γ := SplitMix) (α := Char) { draws := ⟨7⟩ } "bass"
      [.group [.leaf (.sound 'a')], .leaf (.sound 'b')] {} {}).1
    let commands := [.setAt [1] (.leaf .silence), .start none none, .process 600]
    ∃ made, result = .ok made ∧
      ((made.run commands).1.perform (.removeAt [0, 0])).error =
        some (.invalidPattern (.emptyGroup [0])) ∧
      ((made.run commands).1.perform (.removeAt [0, 0])).sequence = (made.run commands).1 := by
  intro result commands
  have herror : result.toOption.any fun made =>
      ((made.run commands).1.perform (.removeAt [0, 0])).error =
        some (.invalidPattern (.emptyGroup [0])) := by decide +kernel
  cases hmade : result with
  | error e =>
    rw [hmade] at herror
    contradiction
  | ok made =>
    rw [hmade] at herror
    have hrefused := of_decide_eq_true herror
    obtain ⟨-, -, -, hunchanged, -, -⟩ := perform_ofWrite_run hmade commands (.removeAt [0, 0])
    exact ⟨made, rfl, hrefused, hunchanged fun h => nomatch h.symm.trans hrefused⟩

end Sequence

end Ostinato
