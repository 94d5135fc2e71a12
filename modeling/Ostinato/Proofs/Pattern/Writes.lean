import Ostinato.Proofs.Pattern.Splice

/-!
# Writes and their undoing

A write to a tracked pattern is a splice, or puts another root in place of the old one. The edit
that comes with it is what is needed for the opposite splice.

## Main definitions

* `Slots.Write`: the writes, as data.
* `Slots.Write.IsValid`: whether a write has a place in a root.
* `Slots.Write.Gives`: which root a write makes of a root.
* `TrackedPattern.write`: a write to a tracked pattern.

## Main results

* `Slots.Write.exists_gives_iff`: a write makes something of a root exactly if it has a place.
* `TrackedPattern.write_of_not_isValid`, `TrackedPattern.write_of_gives`: what a write does, and
  what putting back does.
* `TrackedPattern.exists_of_write`: what an accepted write leaves.
* `TrackedPattern.revert_of_putBack`: undoing a write gives the pattern before it.
-/

namespace Ostinato

variable {α : Type}

/-! ### Writes as data -/

namespace Slots

/-- A write to a root. -/
inductive Write (α : Type)
  | replace (slots : Slots α)
  | setAt (path : Path) (value : Pattern α)
  | insertAt (path : Path) (value : Pattern α)
  | removeAt (path : Path)
  deriving DecidableEq

namespace Write

/-- The path that a write goes to; the whole root is at the empty path. -/
def path : Write α → Path
  | .replace _ => []
  | .setAt path _ => path
  | .insertAt path _ => path
  | .removeAt path => path

/-- Whether a write has a place in a root: a node to set or to remove, or a group to insert into at
an index that is at most its length. -/
def IsValid (root : Slots α) : Write α → Prop
  | .replace _ => True
  | .setAt path _ => ∃ node, root.get? path = some node
  | .insertAt path _ => ∃ parent i group,
    path = parent ++ [i] ∧ root.groupAt? parent = some group ∧ i ≤ group.length
  | .removeAt path => ∃ node, root.get? path = some node

/-- Whether a write makes one root of another: it takes out the node that it sets or removes, and
puts in the node that it sets or inserts. -/
def Gives (root edited : Slots α) : Write α → Prop
  | .replace slots => edited = slots
  | .setAt path value => ∃ previous, Spliced [previous] [value] path root edited
  | .insertAt path value => Spliced [] [value] path root edited
  | .removeAt path => ∃ removed, Spliced [removed] [] path root edited

/-- A write makes something of a root exactly if it has a place. -/
theorem exists_gives_iff {root : Slots α} (write : Write α) :
    (∃ edited, write.Gives root edited) ↔ write.IsValid root := by
  cases write with
  | replace slots => exact ⟨fun _ => trivial, fun _ => ⟨slots, rfl⟩⟩
  | setAt path value =>
    refine exists_comm.trans (exists_congr fun node => ?_)
    exact exists_spliced_iff
  | insertAt path value => exact exists_spliced_nil_iff
  | removeAt path =>
    refine exists_comm.trans (exists_congr fun node => ?_)
    exact exists_spliced_iff

end Write

end Slots

/-! ### Writes to a tracked pattern -/

namespace TrackedPattern

open Slots

/-- Performs a write. -/
def write (pattern : TrackedPattern α) : Write α → Except PatternError (TrackedPattern α × Edit α)
  | .replace slots => .ok (pattern.replace slots)
  | .setAt path value => pattern.setAt path value
  | .insertAt path value => pattern.insertAt path value
  | .removeAt path => pattern.removeAt path

/-- A write without a place is refused at its path. -/
theorem write_of_not_isValid {pattern : TrackedPattern α} {write : Write α}
    (h : ¬ write.IsValid pattern.root) :
    pattern.write write = .error (.invalidPath write.path) := by
  have hnone : ∀ root, ¬ write.Gives pattern.root root :=
    fun root hgives => h ((Write.exists_gives_iff write).1 ⟨root, hgives⟩)
  cases write with
  | replace slots => exact absurd rfl (hnone slots)
  | setAt path value =>
    rw [TrackedPattern.write, setAt]
    split
    · next hroot => exact absurd (set?_eq_some_iff.1 hroot) (hnone _)
    · rfl
  | insertAt path value =>
    rw [TrackedPattern.write, insertAt]
    split
    · next hroot => exact absurd (insert?_eq_some_iff.1 hroot) (hnone _)
    · rfl
  | removeAt path =>
    rw [TrackedPattern.write, removeAt]
    split
    · next hroot => exact absurd (remove?_eq_some_iff.1 hroot) (hnone _)
    · rfl

/-! ### Splices of a tracked pattern -/

theorem setAt_of_spliced {pattern : TrackedPattern α} {path : Path} {previous value : Pattern α}
    {root : Slots α} (h : Spliced [previous] [value] path pattern.root root) :
    pattern.setAt path value = .ok (pattern.advance root, .set path previous) := by
  simp only [setAt, h.get?_eq, set?_eq_some_iff.2 ⟨previous, h⟩]

theorem insertAt_of_spliced {pattern : TrackedPattern α} {path : Path} {value : Pattern α}
    {root : Slots α} (h : Spliced [] [value] path pattern.root root) :
    pattern.insertAt path value = .ok (pattern.advance root, .insert path) := by
  simp only [insertAt, insert?_eq_some_iff.2 h]

theorem removeAt_of_spliced {pattern : TrackedPattern α} {path : Path} {removed : Pattern α}
    {root : Slots α} (h : Spliced [removed] [] path pattern.root root) :
    pattern.removeAt path = .ok (pattern.advance root, .remove path removed) := by
  simp only [removeAt, h.get?_eq, remove?_eq_some_iff.2 ⟨removed, h⟩]

/-- A write that has a place gives its root, one revision on, and an edit with which that is put
back. Putting it back gives the root before, another revision on. -/
theorem write_of_gives {pattern : TrackedPattern α} {write : Write α} {root : Slots α}
    (h : write.Gives pattern.root root) :
    ∃ edit undo, pattern.write write = .ok (pattern.advance root, edit) ∧
      (pattern.advance root).putBack edit =
        .ok ((pattern.advance root).advance pattern.root, undo) := by
  cases write with
  | replace slots =>
    cases h
    exact ⟨_, _, rfl, rfl⟩
  | setAt path value =>
    obtain ⟨previous, hspliced⟩ := h
    exact ⟨_, _, setAt_of_spliced hspliced, setAt_of_spliced hspliced.symm⟩
  | insertAt path value => exact ⟨_, _, insertAt_of_spliced h, removeAt_of_spliced h.symm⟩
  | removeAt path =>
    obtain ⟨removed, hspliced⟩ := h
    exact ⟨_, _, removeAt_of_spliced hspliced, insertAt_of_spliced hspliced.symm⟩

/-- An accepted write leaves a root that it gives, one revision on, and an edit with which the root
before is put back. -/
theorem exists_of_write {pattern next : TrackedPattern α} {write : Write α} {edit : Edit α}
    (h : pattern.write write = .ok (next, edit)) :
    ∃ root undo, write.Gives pattern.root root ∧ next = pattern.advance root ∧
      next.putBack edit = .ok (next.advance pattern.root, undo) := by
  by_cases hvalid : write.IsValid pattern.root
  · obtain ⟨root, hgives⟩ := (Write.exists_gives_iff write).2 hvalid
    obtain ⟨made, undo, hwrite, hback⟩ := write_of_gives hgives
    cases hwrite.symm.trans h
    exact ⟨root, undo, hgives, rfl, hback⟩
  · rw [write_of_not_isValid hvalid] at h
    contradiction

/-- Undoing a write gives the pattern before it. -/
theorem revert_of_putBack {pattern next : TrackedPattern α} {edit undo : Edit α} {root : Slots α}
    (h : next.putBack edit = .ok ((pattern.advance root).advance pattern.root, undo)) :
    next.revert edit = .ok pattern := by
  have hroom : ¬ pattern.revision + 1 + 1 < 2 := by omega
  rw [revert, h]
  exact if_neg hroom

end TrackedPattern

end Ostinato
