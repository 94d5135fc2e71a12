import Ostinato.Proofs.Pattern.Offsets

/-!
# Silencing leaves

Leaves of a pattern can be made silent without moving any other: the pattern keeps its shape, so
each path leads to the same slot as before, at the same offset.

## Main definitions

* `Slots.silenced`: a root with the leaves at some paths made silent.

## Main results

* `Slots.get?_silenced`: the nodes of the root that is left.
* `Slots.leaves_silenced`: its leaves.
* `Slots.offsetAt_silenced`, `Slots.hasNoEmptyGroup_silenced`: it is laid out as before.
-/

namespace Ostinato

variable {α : Type}

/-- A step that is made silent if asked for. -/
def Step.silencedIf (silent : Bool) (step : Step α) : Step α :=
  if silent then .silence else step

mutual

/-- A node with the leaves at some paths made silent. -/
def Pattern.silenced (silent : Path → Bool) : Pattern α → Pattern α
  | .leaf step => .leaf (step.silencedIf (silent []))
  | .group children => .group (Slots.silencedFrom silent 0 children)

/-- Slots that are counted from `index` on, with the leaves at some paths made silent. -/
def Slots.silencedFrom (silent : Path → Bool) (index : Nat) : List (Pattern α) → List (Pattern α)
  | [] => []
  | child :: children =>
    child.silenced (fun path => silent (index :: path)) ::
      Slots.silencedFrom silent (index + 1) children

end

/-- A root with the leaves at some paths made silent. -/
def Slots.silenced (silent : Path → Bool) (root : Slots α) : Slots α :=
  Slots.silencedFrom silent 0 root

/-! ### The shape of a pattern -/

namespace Slots

theorem silencedFrom_eq_map (silent : Path → Bool) (index : Nat) : (slots : Slots α) →
    silencedFrom silent index slots =
      (slots.zipIdx index).map fun slot => slot.1.silenced fun path => silent (slot.2 :: path)
  | [] => rfl
  | child :: children => by
    rw [silencedFrom, silencedFrom_eq_map silent (index + 1) children, List.zipIdx_cons,
      List.map_cons]

theorem length_silenced (silent : Path → Bool) (root : Slots α) :
    (root.silenced silent).length = root.length := by
  rw [silenced, silencedFrom_eq_map, List.length_map, List.length_zipIdx]

theorem getElem?_silenced (silent : Path → Bool) (root : Slots α) (i : Nat) :
    (root.silenced silent)[i]? =
      root[i]?.map fun child => child.silenced fun path => silent (i :: path) := by
  rw [silenced, silencedFrom_eq_map, List.getElem?_map, List.getElem?_zipIdx, Option.map_map,
    Nat.zero_add]
  rfl

end Slots

/-- A path leads to the node that it led to before, with its leaves made silent. -/
theorem Pattern.get?_silenced (path : Path) : ∀ (silent : Path → Bool) (node : Pattern α),
    (node.silenced silent).get? path =
      (node.get? path).map (·.silenced fun rest => silent (path ++ rest)) := by
  induction path with
  | nil =>
    intro silent node
    rw [Pattern.get?, Pattern.get?, Option.map_some]
    rfl
  | cons i path ih =>
    intro silent node
    cases node with
    | leaf step => rfl
    | group children =>
      have hchild := Slots.getElem?_silenced silent children i
      rw [Pattern.silenced, Pattern.get?, Pattern.get?]
      rw [Slots.silenced] at hchild
      rw [hchild]
      cases children[i]? with
      | none => rfl
      | some child => exact ih (fun path => silent (i :: path)) child

theorem Pattern.size_silenced (silent : Path → Bool) (node : Pattern α) :
    (node.silenced silent).size = node.size := by
  cases node with
  | leaf step => rfl
  | group children => exact Slots.length_silenced silent children

namespace Slots

/-- A path from the root leads to the node that it led to before, with its leaves made silent. -/
theorem get?_silenced (silent : Path → Bool) (root : Slots α) (path : Path) :
    (root.silenced silent).get? path =
      (root.get? path).map (·.silenced fun rest => silent (path ++ rest)) := by
  cases path with
  | nil => rfl
  | cons i path =>
    rw [get?_cons, get?_cons, getElem?_silenced]
    cases root[i]? with
    | none => rfl
    | some child => exact Pattern.get?_silenced path _ child

/-- A path has the offset that it had before. -/
theorem offsetAt_silenced (silent : Path → Bool) (root : Slots α) (subdivision offset : Nat)
    (path : Path) :
    (root.silenced silent).offsetAt subdivision offset path =
      root.offsetAt subdivision offset path := by
  have hsize : ∀ path, (root.silenced silent).sizeAt path = root.sizeAt path := by
    intro path
    rw [sizeAt, sizeAt, get?_silenced, Option.map_map]
    congr 2
    exact funext fun node => node.size_silenced _
  simp only [offsetAt, hsize]

/-- No group loses its children. -/
theorem hasNoEmptyGroup_silenced {root : Slots α} (silent : Path → Bool)
    (h : root.HasNoEmptyGroup) : (root.silenced silent).HasNoEmptyGroup := by
  intro path hempty
  rw [get?_silenced] at hempty
  obtain ⟨node, hnode, hsilenced⟩ := Option.map_eq_some_iff.1 hempty
  cases node with
  | leaf step => contradiction
  | group children =>
    have hlength := Slots.length_silenced (fun rest => silent (path ++ rest)) children
    rw [Slots.silenced, (Pattern.group.inj hsilenced), List.length_nil] at hlength
    exact h path (List.eq_nil_of_length_eq_zero hlength.symm ▸ hnode)

end Slots

/-! ### Leaves -/

/-- A leaf with its step made silent if its path says so. -/
def silencedLeaf (silent : Path → Bool) (leaf : Path × Step α) : Path × Step α :=
  (leaf.1, leaf.2.silencedIf (silent leaf.1))

mutual

theorem Pattern.leaves_silenced (silent : Path → Bool) : (node : Pattern α) →
    (node.silenced silent).leaves = node.leaves.map (silencedLeaf silent)
  | .leaf _ => rfl
  | .group children => Slots.leavesFrom_silencedFrom silent 0 children

theorem Slots.leavesFrom_silencedFrom (silent : Path → Bool) (index : Nat) :
    (slots : List (Pattern α)) →
      Slots.leavesFrom index (Slots.silencedFrom silent index slots) =
        (Slots.leavesFrom index slots).map (silencedLeaf silent)
  | [] => rfl
  | child :: children => by
    rw [Slots.silencedFrom, Slots.leavesFrom, Slots.leavesFrom,
      Pattern.leaves_silenced _ child, Slots.leavesFrom_silencedFrom silent (index + 1) children,
      List.map_append, List.map_map, List.map_map]
    rfl

end

/-- The leaves of a root, some of which are made silent. -/
theorem Slots.leaves_silenced (silent : Path → Bool) (root : Slots α) :
    (root.silenced silent).leaves = root.leaves.map (silencedLeaf silent) :=
  Slots.leavesFrom_silencedFrom silent 0 root

end Ostinato
