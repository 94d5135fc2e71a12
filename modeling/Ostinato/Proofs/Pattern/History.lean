import Ostinato.Proofs.Pattern.Writes

/-!
# Undoing a history

A history of a tracked pattern is a row of writes. Every write that is accepted is a change: it
leaves an edit behind, with which it can be undone. Undone from the newest change to the oldest, a
history is walked back through the very patterns that it has come through, each with its root and
its revision.

## Main definitions

* `TrackedPattern.Change`: a change in a history.
* `TrackedPattern.record`: performing writes and keeping their changes.
* `TrackedPattern.revertAll`: undoing edits, and the patterns that this comes through.
* `TrackedPattern.IsWalkedBack`: changes that lead back from a pattern to another.

## Main results

* `TrackedPattern.revert_of_write`: an accepted write is undone.
* `TrackedPattern.IsWalkedBack.write`, `TrackedPattern.IsWalkedBack.record`: a write and a history
  keep the way back open.
* `TrackedPattern.revertAll_record`: the way back of every history.
-/

namespace Ostinato.TrackedPattern

open Slots

variable {α : Type}

/-! ### Histories -/

/-- A change in a history: the pattern before an accepted write, and the edit that undoes the
write. -/
structure Change (α : Type) where
  before : TrackedPattern α
  edit : Edit α
  deriving DecidableEq

/-- Performs writes one after the other, and passes over those that are refused. Gives the pattern
after all of them, and the changes, the newest first, in front of those before. -/
def record (pattern : TrackedPattern α) (changes : List (Change α)) :
    List (Write α) → TrackedPattern α × List (Change α)
  | [] => (pattern, changes)
  | write :: writes =>
    match pattern.write write with
    | .error _ => pattern.record changes writes
    | .ok (next, edit) => next.record (⟨pattern, edit⟩ :: changes) writes

/-- Undoes edits one after the other, and gives the pattern after each. -/
def revertAll (pattern : TrackedPattern α) :
    List (Edit α) → Except UndoError (List (TrackedPattern α))
  | [] => .ok []
  | edit :: edits =>
    match pattern.revert edit with
    | .error e => .error e
    | .ok previous => (previous.revertAll edits).map (previous :: ·)

/-! ### The way back -/

/-- An accepted write is undone by its edit, to the same root and the same revision. -/
theorem revert_of_write {pattern next : TrackedPattern α} {write : Write α} {edit : Edit α}
    (h : pattern.write write = .ok (next, edit)) : next.revert edit = .ok pattern := by
  obtain ⟨root, undo, -, rfl, hback⟩ := exists_of_write h
  exact revert_of_putBack hback

/-- Whether changes lead back from a pattern to the one at the start: each is undone to the pattern
before it, and from there the older ones go on. -/
def IsWalkedBack (start : TrackedPattern α) : TrackedPattern α → List (Change α) → Prop
  | pattern, [] => pattern = start
  | pattern, change :: changes =>
    pattern.revert change.edit = .ok change.before ∧ IsWalkedBack start change.before changes

namespace IsWalkedBack

variable {start pattern : TrackedPattern α} {changes : List (Change α)}

/-- A write adds a step to the way back. -/
theorem write (h : IsWalkedBack start pattern changes) {write : Write α} {next : TrackedPattern α}
    {edit : Edit α} (hwrite : pattern.write write = .ok (next, edit)) :
    IsWalkedBack start next (⟨pattern, edit⟩ :: changes) :=
  ⟨revert_of_write hwrite, h⟩

/-- A history keeps the way back open. -/
theorem record (h : IsWalkedBack start pattern changes) (writes : List (Write α)) :
    IsWalkedBack start (pattern.record changes writes).1 (pattern.record changes writes).2 := by
  induction writes generalizing pattern changes with
  | nil => exact h
  | cons write writes ih =>
    rw [TrackedPattern.record]
    split
    · exact ih h
    · next next edit hwrite => exact ih (h.write hwrite)

theorem revertAll_eq (h : IsWalkedBack start pattern changes) :
    pattern.revertAll (changes.map Change.edit) = .ok (changes.map Change.before) := by
  induction changes generalizing pattern with
  | nil => rfl
  | cons change changes ih =>
    rw [List.map_cons, revertAll, h.1]
    simp only [ih h.2, Except.map, List.map_cons]

theorem getLastD_eq (h : IsWalkedBack start pattern changes) :
    (changes.map Change.before).getLastD pattern = start := by
  induction changes generalizing pattern with
  | nil => exact h
  | cons change changes ih =>
    rw [List.map_cons, List.getLastD_cons]
    exact ih h.2

end IsWalkedBack

/-- **A history is undone in reverse order.** Whatever is written to a pattern, at whatever paths
and whether or not it leaves groups empty: undoing the edits of the accepted writes from the newest
to the oldest never fails. After each of them the pattern is the one before the write that it
undoes, with the same root and the same revision, and after all of them it is the pattern before the
first. -/
theorem revertAll_record (pattern : TrackedPattern α) (writes : List (Write α)) :
    let history := pattern.record [] writes
    history.1.revertAll (history.2.map Change.edit) = .ok (history.2.map Change.before) ∧
      (history.2.map Change.before).getLastD history.1 = pattern := by
  intro history
  have hstart : IsWalkedBack pattern pattern [] := rfl
  have hback : IsWalkedBack pattern history.1 history.2 := hstart.record writes
  exact ⟨hback.revertAll_eq, hback.getLastD_eq⟩

/-- A group is emptied, set and removed with what it holds, and the root replaced. One write is
refused. -/
example :
    let pattern : TrackedPattern Char := { root := [.sound 'a', .group [.sound 'b']] }
    let history := pattern.record []
      [.removeAt [1, 0], .setAt [1, 4] .silence, .insertAt [1, 0] (.group []),
        .setAt [1, 0] (.sound 'c'), .removeAt [1], .replace [], .insertAt [0] .silence]
    history.1 = ⟨[.silence], 6⟩ ∧
      history.2.map (·.before.revision) = [5, 4, 3, 2, 1, 0] := by
  decide

end Ostinato.TrackedPattern
