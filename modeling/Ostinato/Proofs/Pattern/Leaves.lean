import Ostinato.Pattern.Layout

/-!
# Leaves of a pattern

A pattern is read by its leaves: each leaf has a step and a path that leads to it, and the leaves
come in lexicographic order of their paths. The functions that go through a list of slots by a
counter (`Slots.leavesFrom`, `Slots.placeFrom`) are restated over the numbered list `slots.zipIdx`,
so that a statement about a pattern needs one induction over nodes, and at a group only the children
with their indices.

## Main definitions

* `Pattern.leaves`, `Slots.leaves`: the leaves with their paths.

## Main results

* `Slots.mem_leaves`: the leaves are the steps at paths.
* `Slots.pairwise_leaves`: they come in lexicographic order of their paths.
* `Slots.length_leaves`: there are as many as the nodes of the root count.
-/

namespace Ostinato

variable {α : Type}

/-! ### Leaves and their paths -/

mutual

/-- The leaves at or below a node, each with the path that leads to it from the node. -/
def Pattern.leaves : Pattern α → List (Path × Step α)
  | .leaf step => [([], step)]
  | .group children => Slots.leavesFrom 0 children

/-- The leaves of slots that are counted from `index` on. -/
def Slots.leavesFrom (index : Nat) : List (Pattern α) → List (Path × Step α)
  | [] => []
  | child :: children =>
    (child.leaves.map fun leaf => (index :: leaf.1, leaf.2)) ++
      Slots.leavesFrom (index + 1) children

end

/-- The leaves of a root, each with the path that leads to it. -/
def Slots.leaves (root : Slots α) : List (Path × Step α) :=
  Slots.leavesFrom 0 root

/-! ### Numbered slots -/

namespace Slots

theorem leavesFrom_eq_flatMap (index : Nat) : (slots : Slots α) →
    leavesFrom index slots =
      (slots.zipIdx index).flatMap fun slot =>
        slot.1.leaves.map fun leaf => (slot.2 :: leaf.1, leaf.2)
  | [] => rfl
  | child :: children => by
    rw [leavesFrom, leavesFrom_eq_flatMap (index + 1) children, List.zipIdx_cons,
      List.flatMap_cons]

theorem placeFrom_eq_flatMap (slot start : Ticks) (index : Nat) : (slots : Slots α) →
    placeFrom slot start index slots =
      (slots.zipIdx index).flatMap fun child => child.1.place slot (start + slot * child.2)
  | [] => rfl
  | child :: children => by
    rw [placeFrom, placeFrom_eq_flatMap slot start (index + 1) children, List.zipIdx_cons,
      List.flatMap_cons]

theorem pairwise_zipIdx (slots : Slots α) :
    slots.zipIdx.Pairwise fun a b => a.2 < b.2 := by
  rw [← List.pairwise_map (f := Prod.snd) (R := (· < ·)), List.zipIdx_map_snd]
  exact List.pairwise_lt_range' 1

theorem get?_cons (slots : Slots α) (i : Nat) (path : Path) :
    slots.get? (i :: path) = slots[i]?.bind fun child => child.get? path := rfl

end Slots

/-! ### Leaves are the steps at paths -/

theorem Pattern.mem_leaves (step : Step α) (node : Pattern α) :
    ∀ path, (path, step) ∈ node.leaves ↔ node.get? path = some (.leaf step) := by
  induction node using Pattern.induction with
  | leaf other =>
    intro path
    cases path <;> simp [Pattern.leaves, Pattern.get?, eq_comm]
  | group children ih =>
    intro path
    rw [Pattern.leaves, Slots.leavesFrom_eq_flatMap, List.mem_flatMap]
    constructor
    · rintro ⟨⟨child, i⟩, hslot, hleaf⟩
      have hchild : children[i]? = some child := List.mem_zipIdx_iff_getElem?.1 hslot
      obtain ⟨⟨rest, step'⟩, hrest, heq⟩ := List.mem_map.1 hleaf
      cases heq
      rw [Pattern.get?, hchild]
      exact (ih child (List.mem_of_getElem? hchild) rest).1 hrest
    · intro h
      cases path with
      | nil => simp [Pattern.get?] at h
      | cons i rest =>
        obtain ⟨child, hchild, hrest⟩ := Option.bind_eq_some_iff.1 h
        refine ⟨(child, i), List.mem_zipIdx_iff_getElem?.2 hchild, List.mem_map.2 ?_⟩
        exact ⟨(rest, step), (ih child (List.mem_of_getElem? hchild) rest).2 hrest, rfl⟩

/-- The leaves of a root are the steps at paths. -/
theorem Slots.mem_leaves {root : Slots α} {path : Path} {step : Step α} :
    (path, step) ∈ root.leaves ↔ root.get? path = some (.leaf step) := by
  have h := Pattern.mem_leaves step (.group root) path
  cases path with
  | nil => simpa [Pattern.leaves, Pattern.get?, Slots.leaves] using h
  | cons i rest => exact h

theorem Pattern.pairwise_leaves (node : Pattern α) :
    node.leaves.Pairwise fun a b => a.1 < b.1 := by
  induction node using Pattern.induction with
  | leaf step => exact List.pairwise_singleton _ _
  | group children ih =>
    rw [Pattern.leaves, Slots.leavesFrom_eq_flatMap, List.pairwise_flatMap]
    constructor
    · rintro ⟨child, i⟩ hslot
      have hchild := List.mem_of_getElem? (List.mem_zipIdx_iff_getElem?.1 hslot)
      refine List.pairwise_map.2 ((ih child hchild).imp fun hlt => ?_)
      exact List.cons_lt_cons_iff.2 (.inr ⟨rfl, hlt⟩)
    · refine (Slots.pairwise_zipIdx children).imp fun hlt a ha b hb => ?_
      obtain ⟨leaf, -, rfl⟩ := List.mem_map.1 ha
      obtain ⟨leaf', -, rfl⟩ := List.mem_map.1 hb
      exact List.cons_lt_cons_iff.2 (.inl hlt)

/-- The leaves of a root come in lexicographic order of their paths. -/
theorem Slots.pairwise_leaves (root : Slots α) : root.leaves.Pairwise fun a b => a.1 < b.1 :=
  Pattern.pairwise_leaves (.group root)

/-! ### Counting leaves -/

theorem Slots.leafCount_eq_foldr : (slots : Slots α) →
    Slots.leafCount slots = slots.foldr (fun child count => child.leafCount + count) 0
  | [] => rfl
  | child :: children => by
    rw [Slots.leafCount, Slots.leafCount_eq_foldr children, List.foldr_cons]

mutual

theorem Pattern.length_leaves : (node : Pattern α) → node.leaves.length = node.leafCount
  | .leaf _ => rfl
  | .group children => Slots.length_leavesFrom 0 children

theorem Slots.length_leavesFrom (index : Nat) : (slots : List (Pattern α)) →
    (Slots.leavesFrom index slots).length = Slots.leafCount slots
  | [] => rfl
  | child :: children => by
    rw [Slots.leavesFrom, List.length_append, List.length_map, Pattern.length_leaves child,
      Slots.length_leavesFrom (index + 1) children, Slots.leafCount]

end

/-- A root has as many leaves as its nodes count. -/
theorem Slots.length_leaves (root : Slots α) :
    root.leaves.length = Slots.leafCount root :=
  Slots.length_leavesFrom 0 root

end Ostinato
