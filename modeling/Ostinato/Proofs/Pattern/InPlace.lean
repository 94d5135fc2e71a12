import Ostinato.Proofs.Pattern.Reading

/-!
# Writes in place

Whoever holds a pattern sees each write in place: the root is exchanged first, the revision moves on
after it, and an error stops a write wherever it has come to. All the same a write is made as a
whole or not at all, since every error comes before the first change. An undoing that is refused has
not changed anything either; only where the revision goes below zero, its write has been made.

## Main definitions

* `TrackedPattern.Editing`: a change in place, which an error may stop halfway.
* `Slots.Write.inPlace`, `Edit.revertInPlace`: the writes and their undoing in place.
* `Edit.undoing`: the write that puts back what an edit has changed.

## Main results

* `TrackedPattern.outcome_inPlace`, `TrackedPattern.outcome_revertInPlace_of_gives`: done in place,
  writes and their undoing do what they do to a copy.
* `TrackedPattern.revert_of_gives`: what undoing an edit does.
* `TrackedPattern.outcome_write`: which writes are accepted, and what is read after them.
-/

namespace Ostinato

open Slots

variable {ε α β : Type}

/-! ### Changes in place -/

namespace TrackedPattern

/-- A change of a tracked pattern in place. An error stops it, and what it has changed by then stays
changed. -/
abbrev Editing (ε α β : Type) := ExceptT ε (StateM (TrackedPattern α)) β

namespace Editing

/-- What a change gives, and the pattern that it leaves. -/
def outcome (change : Editing ε α β) (pattern : TrackedPattern α) :
    Except ε β × TrackedPattern α :=
  (change.run.run pattern).run

/-- What is found in the root for a path; an error if it is nothing. -/
def find (path : Path) (found? : Slots α → Option β) : Editing PatternError α β := do
  match found? (← get).root with
  | some found => return found
  | none => throw (.invalidPath path)

/-- Exchanges the root, then moves on the revision. -/
def exchange (root : Slots α) : Editing ε α Unit := do
  modify fun pattern => { pattern with root := root }
  modify fun pattern => { pattern with revision := pattern.revision + 1 }

/-! ### Outcomes of steps -/

/-- What comes after a change is left out if the change is stopped. -/
theorem outcome_bind {γ : Type} (change : Editing ε α β) (next : β → Editing ε α γ)
    (pattern : TrackedPattern α) :
    (change >>= next).outcome pattern =
      match change.outcome pattern with
      | (.ok result, after) => (next result).outcome after
      | (.error e, after) => (.error e, after) := by
  simp only [outcome, ExceptT.run_bind, StateT.run_bind, Id.run_bind]
  rcases (change.run.run pattern).run with ⟨result | e, after⟩ <;> rfl

theorem outcome_get (pattern : TrackedPattern α) :
    (get : Editing ε α (TrackedPattern α)).outcome pattern = (.ok pattern, pattern) := rfl

theorem outcome_adapt {δ : Type} (causedBy : ε → δ) (change : Editing ε α β)
    (pattern : TrackedPattern α) :
    Editing.outcome (ExceptT.adapt causedBy change) pattern =
      match change.outcome pattern with
      | (.ok result, after) => (.ok result, after)
      | (.error e, after) => (.error (causedBy e), after) := by
  simp only [outcome, ExceptT.run_adapt, StateT.run_map, Id.run_map]
  rcases (change.run.run pattern).run with ⟨result | e, after⟩ <;> rfl

theorem outcome_find (path : Path) (found? : Slots α → Option β) (pattern : TrackedPattern α) :
    (find path found?).outcome pattern =
      match found? pattern.root with
      | some found => (.ok found, pattern)
      | none => (.error (.invalidPath path), pattern) := by
  rw [find, outcome_bind]
  simp only [outcome_get]
  cases found? pattern.root <;> rfl

end Editing

end TrackedPattern

open TrackedPattern

/-- Performs a write in place. -/
def Slots.Write.inPlace : Write α → Editing PatternError α (Edit α)
  | .replace slots => do
    let previous := (← get).root
    Editing.exchange slots
    return .replace previous
  | .setAt path value => do
    let previous ← Editing.find path (·.get? path)
    Editing.exchange (← Editing.find path (·.set? path value))
    return .set path previous
  | .insertAt path value => do
    Editing.exchange (← Editing.find path (·.insert? path value))
    return .insert path
  | .removeAt path => do
    let removed ← Editing.find path (·.get? path)
    Editing.exchange (← Editing.find path (·.remove? path))
    return .remove path removed

namespace Edit

/-- The write that puts back what an edit has changed. -/
def undoing : Edit α → Write α
  | .set path previous => .setAt path previous
  | .insert path => .removeAt path
  | .remove path removed => .insertAt path removed
  | .replace previous => .replace previous

/-- Undoes an edit in place: its write comes first, then the revision goes back. -/
def revertInPlace (edit : Edit α) : Editing UndoError α Unit := do
  let _ ← ExceptT.adapt UndoError.refused edit.undoing.inPlace
  if (← get).revision < 2 then throw .underflow
  else modify fun pattern => { pattern with revision := pattern.revision - 2 }

end Edit

namespace TrackedPattern

theorem putBack_eq_write (pattern : TrackedPattern α) (edit : Edit α) :
    pattern.putBack edit = pattern.write edit.undoing := by
  cases edit <;> rfl

/-! ### Outcomes -/

/-- A change that gives a result and another pattern leaves that pattern; one that is refused leaves
the pattern that it was given. -/
def settle (pattern : TrackedPattern α) :
    Except PatternError (TrackedPattern α × β) → Except PatternError β × TrackedPattern α
  | .ok (next, result) => (.ok result, next)
  | .error e => (.error e, pattern)

/-- A write in place does what a write to a copy does, and a refused one changes nothing. -/
theorem outcome_inPlace (pattern : TrackedPattern α) (write : Write α) :
    write.inPlace.outcome pattern = pattern.settle (pattern.write write) := by
  -- whatever may be missing is looked up before the root is exchanged
  cases write with
  | replace slots => rfl
  | setAt path value =>
    rw [Write.inPlace, Editing.outcome_bind, Editing.outcome_find, TrackedPattern.write, setAt]
    cases pattern.root.get? path with
    | none => rfl
    | some previous =>
      simp only [Editing.outcome_bind, Editing.outcome_find]
      cases pattern.root.set? path value <;> rfl
  | insertAt path value =>
    rw [Write.inPlace, Editing.outcome_bind, Editing.outcome_find, TrackedPattern.write, insertAt]
    cases pattern.root.insert? path value <;> rfl
  | removeAt path =>
    rw [Write.inPlace, Editing.outcome_bind, Editing.outcome_find, TrackedPattern.write, removeAt]
    cases pattern.root.get? path with
    | none => rfl
    | some removed =>
      simp only [Editing.outcome_bind, Editing.outcome_find]
      cases pattern.root.remove? path <;> rfl

theorem revert_of_not_isValid {pattern : TrackedPattern α} {edit : Edit α}
    (h : ¬ edit.undoing.IsValid pattern.root) :
    pattern.revert edit = .error (.refused (.invalidPath edit.undoing.path)) := by
  rw [revert, putBack_eq_write, write_of_not_isValid h]

/-- An edit with a place for what it puts back is undone, and takes the revision back by one. -/
theorem revert_of_gives {pattern : TrackedPattern α} {edit : Edit α} {root : Slots α}
    (h : edit.undoing.Gives pattern.root root) :
    pattern.revert edit =
      if pattern.revision = 0 then .error .underflow else .ok ⟨root, pattern.revision - 1⟩ := by
  obtain ⟨made, -, hwrite, -⟩ := write_of_gives h
  have hunder : pattern.revision + 1 < 2 ↔ pattern.revision = 0 := by omega
  have hback : pattern.revision + 1 - 2 = pattern.revision - 1 := by omega
  rw [revert, putBack_eq_write, hwrite]
  simp only [advance, hunder, hback]

theorem outcome_revertInPlace_of_not_isValid {pattern : TrackedPattern α} {edit : Edit α}
    (h : ¬ edit.undoing.IsValid pattern.root) :
    edit.revertInPlace.outcome pattern =
      (.error (.refused (.invalidPath edit.undoing.path)), pattern) := by
  rw [Edit.revertInPlace, Editing.outcome_bind, Editing.outcome_adapt, outcome_inPlace,
    write_of_not_isValid h]
  rfl

/-- Undone in place, an edit is undone as in a copy. If the revision goes below zero, what is put
back stays. -/
theorem outcome_revertInPlace_of_gives {pattern : TrackedPattern α} {edit : Edit α} {root : Slots α}
    (h : edit.undoing.Gives pattern.root root) :
    edit.revertInPlace.outcome pattern =
      if pattern.revision = 0 then (.error .underflow, pattern.advance root)
      else (.ok (), ⟨root, pattern.revision - 1⟩) := by
  obtain ⟨made, -, hwrite, -⟩ := write_of_gives h
  rw [Edit.revertInPlace, Editing.outcome_bind, Editing.outcome_adapt, outcome_inPlace, hwrite]
  simp only [settle, Editing.outcome_bind, Editing.outcome_get, advance]
  split <;> split
  · rfl
  · omega
  · omega
  · rfl

/-- **Path edit laws.** A write is accepted exactly if it has a place: setting and removing need a
node at their path, and inserting a group at the path without its last index, which is at most the
length of the group. An accepted write moves the revision on by one and is read back at its path,
while paths apart from it, or from its group, read as before. A refused write names its path and
leaves the root and the revision as they were. An edit is undone if what it puts back has a place
and there is a write to take back; this is read back in the same way, one revision before. An
undoing that is refused leaves the root and the revision as they were, too; any other that does not
succeed finds no write to take back, and ends everything. -/
theorem outcome_write (pattern : TrackedPattern α) (write : Write α) (edit : Edit α) :
    (write.IsValid pattern.root →
      ∃ next made, pattern.write write = .ok (next, made) ∧
        write.inPlace.outcome pattern = (.ok made, next) ∧
        next.revision = pattern.revision + 1 ∧
        write.IsReadBack pattern.root next.root) ∧
    (¬ write.IsValid pattern.root →
      pattern.write write = .error (.invalidPath write.path) ∧
        write.inPlace.outcome pattern = (.error (.invalidPath write.path), pattern)) ∧
    (edit.undoing.IsValid pattern.root → pattern.revision ≠ 0 →
      ∃ restored, pattern.revert edit = .ok restored ∧
        edit.revertInPlace.outcome pattern = (.ok (), restored) ∧
        restored.revision + 1 = pattern.revision ∧
        edit.undoing.IsReadBack pattern.root restored.root) ∧
    ∀ e after, edit.revertInPlace.outcome pattern = (.error e, after) →
      (e = .refused (.invalidPath edit.undoing.path) ∧ after = pattern) ∨
        (e = .underflow ∧ pattern.revision = 0) := by
  refine ⟨fun hvalid => ?_, fun hinvalid => ?_, fun hvalid hcount => ?_, fun e after hfails => ?_⟩
  · obtain ⟨root, hgives⟩ := (Write.exists_gives_iff write).2 hvalid
    obtain ⟨made, -, hwrite, -⟩ := write_of_gives hgives
    refine ⟨pattern.advance root, made, hwrite, ?_, rfl, hgives.isReadBack⟩
    rw [outcome_inPlace, hwrite, settle]
  · have hwrite := write_of_not_isValid hinvalid
    refine ⟨hwrite, ?_⟩
    rw [outcome_inPlace, hwrite, settle]
  · obtain ⟨root, hgives⟩ := (Write.exists_gives_iff edit.undoing).2 hvalid
    refine ⟨⟨root, pattern.revision - 1⟩, ?_, ?_, Nat.succ_pred hcount, hgives.isReadBack⟩
    · rw [revert_of_gives hgives, if_neg hcount]
    · rw [outcome_revertInPlace_of_gives hgives, if_neg hcount]
  · by_cases hvalid : edit.undoing.IsValid pattern.root
    · obtain ⟨root, hgives⟩ := (Write.exists_gives_iff edit.undoing).2 hvalid
      rw [outcome_revertInPlace_of_gives hgives] at hfails
      split at hfails
      · next hzero =>
        cases hfails
        exact .inr ⟨rfl, hzero⟩
      · cases hfails
    · rw [outcome_revertInPlace_of_not_isValid hvalid] at hfails
      cases hfails
      exact .inl ⟨rfl, rfl⟩

/-- A sound is inserted into a group: what stands behind it there is read one index further on, also
if the insertion undoes a removal. Into a sound, nothing is inserted. -/
theorem outcome_write_nested :
    let pattern : TrackedPattern Char :=
      ⟨[.sound 'a', .group [.sound 'b', .group [.sound 'c']]], 6⟩
    (∃ next made, (Write.insertAt [1, 1] (.sound 'd')).inPlace.outcome pattern = (.ok made, next) ∧
      next.revision = 7 ∧ next.root.get? [1, 2, 0] = some (.sound 'c')) ∧
    (∃ restored, (Edit.remove [1, 1] (.sound 'd')).revertInPlace.outcome pattern =
        (.ok (), restored) ∧
      restored.revision = 5 ∧ restored.root.get? [1, 2, 0] = some (.sound 'c')) ∧
    (Write.insertAt [0, 1] (.sound 'd')).inPlace.outcome pattern =
      (.error (.invalidPath [0, 1]), pattern) := by
  intro pattern
  have hvalid : (Write.insertAt [1, 1] (.sound 'd')).IsValid pattern.root :=
    ⟨[1], 1, _, rfl, rfl, by decide⟩
  have hinvalid : ¬ (Write.insertAt [0, 1] (.sound 'd')).IsValid pattern.root := by
    rintro ⟨parent, i, group, hpath, hgroup, -⟩
    obtain ⟨rfl, -⟩ := List.append_inj' (show [0] ++ [1] = parent ++ [i] from hpath) rfl
    cases hgroup
  -- wherever the sound is inserted from, it is read back in the same way
  have hread : ∀ root, (Write.insertAt [1, 1] (.sound 'd')).IsReadBack pattern.root root →
      root.get? [1, 2, 0] = some (.sound 'c') := by
    rintro root ⟨parent, i, hpath, hread⟩
    obtain ⟨rfl, hi⟩ := List.append_inj' (show [1] ++ [1] = parent ++ [i] from hpath) rfl
    cases hi
    exact hread.get?_of_gt 2 (by decide) [0]
  obtain ⟨hmade, hrefused, hundone, -⟩ :=
    outcome_write pattern (.insertAt [1, 1] (.sound 'd')) (.remove [1, 1] (.sound 'd'))
  obtain ⟨next, made, -, houtcome, hrevision, hback⟩ := hmade hvalid
  obtain ⟨restored, -, hrestored, hless, hundo⟩ := hundone hvalid (by decide)
  refine ⟨⟨next, made, houtcome, hrevision, hread _ hback⟩,
    ⟨restored, hrestored, Nat.succ.inj hless, hread _ hundo⟩, ?_⟩
  exact ((outcome_write pattern _ (.replace [])).2.1 hinvalid).2

end TrackedPattern

end Ostinato
