import Ostinato.Pattern.Error

/-!
# Edits of a pattern

A write replaces, inserts or removes the slot at a path, or replaces the whole root. Every accepted
write raises the revision by one and gives an edit, which undoes the write and takes the revision
back. The undoing is a write of its own, so it takes the revision back by two; a revision that has
not come that far goes below zero, which is an error of its own.

## Main definitions

* `Slots.set?`, `Slots.insert?`, `Slots.remove?`: writes to a root.
* `TrackedPattern`: a root with the number of its revision.
* `Edit`: what is needed to undo a write.
* `TrackedPattern.setAt`, `TrackedPattern.insertAt`, `TrackedPattern.removeAt`,
  `TrackedPattern.replace`: the writes.
* `TrackedPattern.revert`, `UndoError`: the undoing of a write, and why it fails.
-/

namespace Ostinato

variable {α : Type}

/-! ### Writes to a root -/

namespace Slots

/-- Modifies the group that holds the slot at a path, given the index of the slot in the group. -/
def modifyGroup? (modify : Nat → Slots α → Option (Slots α)) : Slots α → Path → Option (Slots α)
  | _, [] => none
  | slots, [i] => modify i slots
  | slots, i :: j :: path =>
    match slots[i]? with
    | some (.group children) =>
      (modifyGroup? modify children (j :: path)).map fun group => slots.set i (.group group)
    | _ => none

/-- Replaces the node at a path. -/
def set? (root : Slots α) (path : Path) (value : Pattern α) : Option (Slots α) :=
  modifyGroup?
    (fun i group => if i < group.length then some (group.set i value) else none) root path

/-- Inserts a node in front of the slot at a path, or after the last slot of a group. -/
def insert? (root : Slots α) (path : Path) (value : Pattern α) : Option (Slots α) :=
  modifyGroup?
    (fun i group => if i ≤ group.length then some (group.insertIdx i value) else none) root path

/-- Removes the node at a path. -/
def remove? (root : Slots α) (path : Path) : Option (Slots α) :=
  modifyGroup? (fun i group => if i < group.length then some (group.eraseIdx i) else none) root path

end Slots

/-! ### Tracked writes -/

/-- A root with the number of its revision. The revision counts single writes, for which a word of
sixty-four bits always has room. -/
structure TrackedPattern (α : Type) where
  root : Slots α
  revision : Nat := 0
  deriving DecidableEq

/-- An accepted write, with what is needed to undo it. -/
inductive Edit (α : Type)
  | set (path : Path) (previous : Pattern α)
  | insert (path : Path)
  | remove (path : Path) (removed : Pattern α)
  | replace (previous : Slots α)
  deriving DecidableEq

/-- Why an edit is not undone. Either the write that undoes it is refused, which is the answer to
the undoing, or the revision goes below zero, which ends everything without an answer. -/
inductive UndoError
  | refused (cause : PatternError)
  | underflow
  deriving DecidableEq

namespace TrackedPattern

/-- The pattern with a new root, one revision on. -/
def advance (pattern : TrackedPattern α) (root : Slots α) : TrackedPattern α :=
  ⟨root, pattern.revision + 1⟩

/-- Replaces the root. -/
def replace (pattern : TrackedPattern α) (root : Slots α) : TrackedPattern α × Edit α :=
  (pattern.advance root, .replace pattern.root)

/-- Replaces the node at a path. -/
def setAt (pattern : TrackedPattern α) (path : Path) (value : Pattern α) :
    Except PatternError (TrackedPattern α × Edit α) :=
  match pattern.root.get? path, pattern.root.set? path value with
  | some previous, some root => .ok (pattern.advance root, .set path previous)
  | _, _ => .error (.invalidPath path)

/-- Inserts a node in front of the slot at a path, or after the last slot of a group. -/
def insertAt (pattern : TrackedPattern α) (path : Path) (value : Pattern α) :
    Except PatternError (TrackedPattern α × Edit α) :=
  match pattern.root.insert? path value with
  | some root => .ok (pattern.advance root, .insert path)
  | none => .error (.invalidPath path)

/-- Removes the node at a path. -/
def removeAt (pattern : TrackedPattern α) (path : Path) :
    Except PatternError (TrackedPattern α × Edit α) :=
  match pattern.root.get? path, pattern.root.remove? path with
  | some removed, some root => .ok (pattern.advance root, .remove path removed)
  | _, _ => .error (.invalidPath path)

/-- The write that puts back what an edit has changed. -/
def putBack (pattern : TrackedPattern α) : Edit α → Except PatternError (TrackedPattern α × Edit α)
  | .set path previous => pattern.setAt path previous
  | .insert path => pattern.removeAt path
  | .remove path removed => pattern.insertAt path removed
  | .replace previous => .ok (pattern.replace previous)

/-- Undoes an edit. The revision goes back to the one before the edit, and is that of the undoing
write less two. -/
def revert (pattern : TrackedPattern α) (edit : Edit α) : Except UndoError (TrackedPattern α) :=
  match pattern.putBack edit with
  | .error e => .error (.refused e)
  | .ok (restored, _) =>
    if restored.revision < 2 then .error .underflow
    else .ok { restored with revision := restored.revision - 2 }

end TrackedPattern

end Ostinato
