import Ostinato.Proofs.Pattern.EmptyGroups

/-!
# Layout in one traversal

A pattern can be laid out in one go through its slots, without a search for empty groups before it.
The traversal carries along the path to the slot where it is, which grows by an index when a slot is
entered and shrinks again when it is left, and the placements made so far. A group that has nobody
to share its slot with ends it with the path at hand. However deep it has been by then, and whatever
it has placed, that path is the one of the first empty group.

## Main definitions

* `Traversal`: what a traversal carries along.
* `Pattern.traverse`, `Slots.traverseFrom`: the traversal of a node and of slots.
* `Slots.layoutByTraversal`: the layout that a traversal makes.

## Main results

* `Pattern.run_traverse`, `Slots.run_traverseFrom`: a traversal comes back to the path that it
  started from, or ends at the first empty group.
* `Slots.layoutByTraversal_eq`: it makes the layout.
* `Slots.layout_by_empty_groups`: which patterns have no layout, and which group is named.
-/

namespace Ostinato

variable {α : Type}

/-! ### The traversal -/

/-- What a traversal carries along: the path to the slot where it is, and the placements made so
far. -/
structure Traversal (α : Type) where
  path : Path := []
  placements : List (Placement α) := []

namespace Traversal

/-- Goes into the slot with an index. -/
def enter (index : Nat) (traversal : Traversal α) : Traversal α :=
  { traversal with path := traversal.path ++ [index] }

/-- Goes out of a slot. -/
def leave (traversal : Traversal α) : Traversal α :=
  { traversal with path := traversal.path.dropLast }

/-- Makes placements. -/
def add (placements : List (Placement α)) (traversal : Traversal α) : Traversal α :=
  { traversal with placements := traversal.placements ++ placements }

end Traversal

/-- A part of a traversal. An error ends the whole, and nothing of it is kept. -/
abbrev Traversing (α β : Type) := StateT (Traversal α) (Except PatternError) β

mutual

/-- Traverses a node whose slot has the given length and start. -/
def Pattern.traverse (slot start : Ticks) : Pattern α → Traversing α Unit
  | .leaf step => modify (Traversal.add [⟨start, step⟩])
  | .group children =>
    match slot.share? children.length with
    | some share => Slots.traverseFrom share start 0 children
    | none => do throw (.emptyGroup (← get).path)

/-- Traverses slots of one length that are counted from `index` on, slot zero being at `start`. -/
def Slots.traverseFrom (slot start : Ticks) (index : Nat) : List (Pattern α) → Traversing α Unit
  | [] => return
  | child :: children => do
    modify (Traversal.enter index)
    child.traverse slot (start + slot * index)
    modify Traversal.leave
    Slots.traverseFrom slot start (index + 1) children

end

/-- The layout that a traversal makes of a root. -/
def Slots.layoutByTraversal (root : Slots α) (subdivision offset : Ticks) :
    Except PatternError (List (Placement α)) :=
  ((Slots.traverseFrom subdivision offset 0 root).run {}).map fun result => result.2.placements

/-! ### Where it comes to -/

namespace Traversal

/-- How a traversal goes on: it makes placements and is where it was, or ends at the path to an
empty group, if there is one. -/
def goOn (traversal : Traversal α) (placements : List (Placement α)) :
    Option Path → Except PatternError (Unit × Traversal α)
  | none => .ok ((), traversal.add placements)
  | some path => .error (.emptyGroup (traversal.path ++ path))

theorem leave_add_enter (traversal : Traversal α) (placements : List (Placement α)) (index : Nat) :
    ((traversal.enter index).add placements).leave = traversal.add placements := by
  rw [leave, add, enter, add, List.dropLast_concat]

theorem goOn_add (traversal : Traversal α) (front back : List (Placement α))
    (path? : Option Path) :
    (traversal.add front).goOn back path? = traversal.goOn (front ++ back) path? := by
  cases path? with
  | none => simp [goOn, add]
  | some path => rfl

end Traversal

mutual

/-- A traversal of a node makes its placements and comes back, or ends at its first empty group. -/
theorem Pattern.run_traverse (slot start : Ticks) : (node : Pattern α) → (traversal : Traversal α) →
    (node.traverse slot start).run traversal =
      traversal.goOn (node.place slot start) node.firstEmptyGroup?
  | .leaf step, traversal => rfl
  | .group [], traversal => by
    rw [Pattern.firstEmptyGroup?, Traversal.goOn, List.append_nil]
    rfl
  | .group (child :: children), traversal => by
    rw [Pattern.traverse]
    exact Slots.run_traverseFrom _ start 0 (child :: children) traversal

/-- A traversal of slots makes their placements and comes back, or ends at the first empty group. -/
theorem Slots.run_traverseFrom (slot start : Ticks) (index : Nat) :
    (slots : List (Pattern α)) → (traversal : Traversal α) →
    (Slots.traverseFrom slot start index slots).run traversal =
      traversal.goOn (Slots.placeFrom slot start index slots)
        (Slots.firstEmptyGroupFrom? index slots)
  | [], traversal => by
    rw [Slots.firstEmptyGroupFrom?, Slots.placeFrom, Traversal.goOn, Traversal.add, List.append_nil]
    rfl
  | child :: children, traversal => by
    simp only [Slots.traverseFrom, StateT.run_bind, StateT.run_modify, pure_bind,
      Pattern.run_traverse, Slots.firstEmptyGroupFrom?, Slots.placeFrom]
    cases child.firstEmptyGroup? with
    | none =>
      change (Slots.traverseFrom slot start (index + 1) children).run
        ((traversal.enter index).add _).leave = _
      rw [Traversal.leave_add_enter, Slots.run_traverseFrom slot start (index + 1) children,
        Traversal.goOn_add]
    | some path =>
      -- the path at hand ends with the index of the slot, and goes on inside it
      change Except.error (PatternError.emptyGroup (traversal.path ++ [index] ++ path)) = _
      rw [List.append_assoc]
      rfl

end

namespace Slots

/-- A traversal makes the layout of a root, or names its first empty group. -/
theorem layoutByTraversal_eq (root : Slots α) (subdivision offset : Ticks) :
    root.layoutByTraversal subdivision offset = root.layout subdivision offset := by
  rw [layoutByTraversal, run_traverseFrom, layout, firstEmptyGroup?, place]
  cases firstEmptyGroupFrom? 0 root with
  | none => rfl
  | some path => rfl

theorem layout_eq_error_iff {root : Slots α} {subdivision offset : Ticks} {e : PatternError} :
    root.layout subdivision offset = .error e ↔
      ∃ path, e = .emptyGroup path ∧ root.IsFirstEmptyGroup path := by
  simp only [← firstEmptyGroup?_eq_some_iff, layout]
  cases root.firstEmptyGroup? with
  | none => simp
  | some path => simp [eq_comm]

theorem exists_layout_eq_error_iff {root : Slots α} {subdivision offset : Ticks} :
    (∃ e, root.layout subdivision offset = .error e) ↔
      ∃ path, root.get? path = some (.group []) := by
  simp only [layout_eq_error_iff]
  constructor
  · rintro ⟨-, path, -, hpath⟩
    exact ⟨path, hpath.1⟩
  · rintro ⟨path, hpath⟩
    cases hfirst : root.firstEmptyGroup? with
    | none => exact absurd hpath (firstEmptyGroup?_eq_none_iff.1 hfirst path)
    | some first => exact ⟨_, first, rfl, firstEmptyGroup?_eq_some_iff.1 hfirst⟩

theorem isFirstEmptyGroup_iff {root : Slots α} {path : Path} :
    root.IsFirstEmptyGroup path ↔ root.get? path = some (.group []) ∧
      ∀ earlier < path, ∀ children, root.get? earlier = some (.group children) → children ≠ [] := by
  refine and_congr_right fun _ => forall₂_congr fun earlier _ => ⟨?_, ?_⟩
  · rintro h children hget rfl
    exact h hget
  · exact fun h hget => h [] hget rfl

/-- **Patterns without a layout.** A layout can be made in one traversal of the pattern, which ends
with an error exactly if some group below the root has no children. The error names the first one in
reading order: the path leads to a group without children, and every group at a lexicographically
smaller path has some. So neither the length of a slot nor the offset has a say in it. -/
theorem layout_by_empty_groups (root : Slots α) (subdivision offset : Ticks) :
    root.layoutByTraversal subdivision offset = root.layout subdivision offset ∧
    ((∃ e, root.layout subdivision offset = .error e) ↔
      ∃ path, root.get? path = some (.group [])) ∧
    (∀ e, root.layout subdivision offset = .error e ↔
      ∃ path, e = .emptyGroup path ∧ root.get? path = some (.group []) ∧
        ∀ earlier < path, ∀ children, root.get? earlier = some (.group children) →
          children ≠ []) ∧
    ∀ subdivision' offset' e,
      root.layout subdivision offset = .error e ↔ root.layout subdivision' offset' = .error e := by
  have herror : ∀ subdivision offset e, root.layout subdivision offset = .error e ↔
      ∃ path, e = .emptyGroup path ∧ root.get? path = some (.group []) ∧
        ∀ earlier < path, ∀ children, root.get? earlier = some (.group children) →
          children ≠ [] := fun subdivision offset e => by
    simp only [layout_eq_error_iff, isFirstEmptyGroup_iff]
  refine ⟨root.layoutByTraversal_eq subdivision offset, exists_layout_eq_error_iff,
    herror subdivision offset, fun subdivision' offset' e => ?_⟩
  rw [herror, herror]

/-- The second of the groups on the way is empty, and so is a later one. Slots of no length at the
end of time change nothing about that. -/
theorem layout_by_empty_groups_two :
    let root : Slots Char :=
      [.sound 'a', .group [.group [.sound 'b'], .group [], .sound 'c'], .group []]
    root.layoutByTraversal 100 7 = .error (.emptyGroup [1, 1]) ∧
      root.layout 0 18446744073709551615 = .error (.emptyGroup [1, 1]) := by
  intro root
  have hnamed : root.layoutByTraversal 100 7 = .error (.emptyGroup [1, 1]) := by rfl
  obtain ⟨htraversal, -, -, hindependent⟩ := layout_by_empty_groups root 100 7
  exact ⟨hnamed, (hindependent _ _ _).1 (htraversal.symm.trans hnamed)⟩

end Slots

end Ostinato
