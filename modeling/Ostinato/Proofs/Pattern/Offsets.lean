import Mathlib.Algebra.BigOperators.Group.Finset.Basic
import Ostinato.Proofs.Pattern.EmptyGroups

/-!
# Offsets of leaves

Laying out a pattern divides a slot again at every level, rounds down each time, and stops every sum
at the largest span. The offset of a leaf has a closed form all the same: dividing by one length
after the other and rounding down each time is dividing by their product and rounding down once, and
stopping every sum of a chain is stopping the last.

## Main definitions

* `Slots.sizeAt`: the number of children of the group at a path.
* `Slots.offsetAt`: the offset of a path in unbounded arithmetic.
* `Pattern.spread`: the part of that offset that comes from the indices below a node.

## Main results

* `Pattern.place_eq_map_leaves`: the placements of a node are those of its leaves.
* `Slots.layout_eq_leaves`: the layout of a root places each leaf at its offset, or at the largest
  span if that is less.
-/

namespace Ostinato

open Finset (range)

variable {α : Type}

/-! ### The closed form -/

/-- The number of children of a node. -/
def Pattern.size : Pattern α → Nat
  | .leaf _ => 0
  | .group children => children.length

/-- The number of children of the node at a path from a node. -/
def Pattern.sizeAt (node : Pattern α) (path : Path) : Nat :=
  ((node.get? path).map Pattern.size).getD 0

/-- The number of children of the node at a path from a root. -/
def Slots.sizeAt (root : Slots α) (path : Path) : Nat :=
  ((root.get? path).map Pattern.size).getD 0

/-- The offset of the node at a path: each index counts the slots before the node on one level, and
a slot on a level lasts a subdivision divided by the sizes of all groups that it lies in. -/
def Slots.offsetAt (root : Slots α) (subdivision offset : Nat) (path : Path) : Nat :=
  offset + ∑ j ∈ range path.length,
    path.getD j 0 * (subdivision / ∏ l ∈ range j, root.sizeAt (path.take (l + 1)))

/-- The offset of a path from a node on, if the node lies in groups that divide a subdivision into
`parts`. -/
def Pattern.spread (node : Pattern α) (subdivision parts : Nat) (path : Path) : Nat :=
  ∑ j ∈ range path.length,
    path.getD j 0 * (subdivision / (parts * ∏ l ∈ range (j + 1), node.sizeAt (path.take l)))

theorem Pattern.sizeAt_cons {children : Slots α} {child : Pattern α} {i : Nat}
    (h : children[i]? = some child) (path : Path) :
    Pattern.sizeAt (.group children) (i :: path) = child.sizeAt path := by
  rw [Pattern.sizeAt, Pattern.get?, h, Option.bind_some, Pattern.sizeAt]

/-- The first index of a path counts slots of the node, the others slots of its child. -/
theorem Pattern.spread_cons {children : Slots α} {child : Pattern α} {i : Nat}
    (h : children[i]? = some child) (subdivision parts : Nat) (path : Path) :
    Pattern.spread (.group children) subdivision parts (i :: path) =
      i * (subdivision / (parts * children.length)) +
        child.spread subdivision (parts * children.length) path := by
  have hsize : ∀ l, Pattern.sizeAt (.group children) ((i :: path).take (l + 1)) =
      child.sizeAt (path.take l) := fun l => Pattern.sizeAt_cons h (path.take l)
  have hroot : Pattern.sizeAt (.group children) ((i :: path).take 0) = children.length := rfl
  have hparts : ∀ j, parts * ∏ l ∈ range (j + 1 + 1),
        Pattern.sizeAt (.group children) ((i :: path).take l) =
      parts * children.length * ∏ l ∈ range (j + 1), child.sizeAt (path.take l) := by
    intro j
    rw [Finset.prod_range_succ', hroot, Nat.mul_comm (Finset.prod _ _), Nat.mul_assoc]
    simp only [hsize]
  rw [Pattern.spread, List.length_cons, Finset.sum_range_succ', Nat.add_comm, Pattern.spread]
  congr 1
  · rw [Finset.prod_range_one, hroot, List.getD_cons_zero]
  · refine Finset.sum_congr rfl fun j _ => ?_
    rw [hparts, List.getD_cons_succ]

/-- The offset of a path from a root: its first index counts whole subdivisions. -/
theorem Slots.offsetAt_cons {root : Slots α} {child : Pattern α} {i : Nat}
    (h : root[i]? = some child) (subdivision offset : Nat) (path : Path) :
    root.offsetAt subdivision offset (i :: path) =
      offset + i * subdivision + child.spread subdivision 1 path := by
  have hsize : ∀ l, root.sizeAt ((i :: path).take (l + 1)) = child.sizeAt (path.take l) :=
    fun l => Pattern.sizeAt_cons h (path.take l)
  rw [Slots.offsetAt, List.length_cons, Finset.sum_range_succ', Pattern.spread, Nat.add_assoc,
    Nat.add_comm (i * subdivision)]
  congr 2
  · refine Finset.sum_congr rfl fun j _ => ?_
    simp only [hsize, List.getD_cons_succ, Nat.one_mul]
  · rw [Finset.prod_range_zero, Nat.div_one, List.getD_cons_zero]

/-! ### Placements of leaves -/

theorem Span.ofNat_add_mul {unit : TimeUnit} (start : Nat) (slot : Span unit) (count : Nat) :
    (Span.ofNat start : Span unit) + slot * count = Span.ofNat (start + count * slot.val) := by
  refine Span.ext ?_
  rw [Span.val_add, Span.val_mul, Span.val_ofNat, Span.val_ofNat, Nat.mul_comm count]
  omega

/-- A node whose slot is a subdivision divided into `parts` places its leaves at their offsets. -/
theorem Pattern.place_eq_map_leaves (subdivision : Nat) (node : Pattern α) :
    ∀ (parts start : Nat) (slot : Ticks), slot.val = subdivision / parts →
      node.place slot (Span.ofNat start) = node.leaves.map fun leaf =>
        ⟨Span.ofNat (start + node.spread subdivision parts leaf.1), leaf.2⟩ := by
  induction node using Pattern.induction with
  | leaf step =>
    intro parts start slot _
    rfl
  | group children ih =>
    intro parts start slot hslot
    have hshare : (slot / children.length).val = subdivision / (parts * children.length) := by
      rw [Span.val_div, hslot, Nat.div_div_eq_div_mul]
    rw [Pattern.place, Pattern.leaves, Slots.placeFrom_eq_flatMap, Slots.leavesFrom_eq_flatMap,
      List.map_flatMap]
    refine List.flatMap_congr ?_
    rintro ⟨child, i⟩ hmem
    have hchild : children[i]? = some child := List.mem_zipIdx_iff_getElem?.1 hmem
    rw [Span.ofNat_add_mul, ih child (List.mem_of_getElem? hchild) _ _ _ hshare, List.map_map]
    refine List.map_congr_left fun leaf _ => ?_
    rw [Function.comp_apply, Pattern.spread_cons hchild, hshare, Nat.add_assoc]

/-- The placements of a root are those of its leaves, each at its offset. -/
theorem Slots.place_eq_map_leaves (root : Slots α) (subdivision offset : Ticks) :
    root.place subdivision offset = root.leaves.map fun leaf =>
      ⟨Span.ofNat (root.offsetAt subdivision.val offset.val leaf.1), leaf.2⟩ := by
  rw [Slots.place, Slots.leaves, Slots.placeFrom_eq_flatMap, Slots.leavesFrom_eq_flatMap,
    List.map_flatMap]
  refine List.flatMap_congr ?_
  rintro ⟨child, i⟩ hmem
  have hchild : root[i]? = some child := List.mem_zipIdx_iff_getElem?.1 hmem
  have hstart : offset + subdivision * i = Span.ofNat (offset.val + i * subdivision.val) := by
    rw [← Span.ofNat_add_mul, Span.ofNat_val]
  rw [hstart, child.place_eq_map_leaves subdivision.val 1 _ subdivision (Nat.div_one _).symm,
    List.map_map]
  refine List.map_congr_left fun leaf _ => ?_
  rw [Function.comp_apply, Slots.offsetAt_cons hchild]

/-- **The layout in closed form.** A root without empty groups is laid out as one placement for each
leaf, in lexicographic order of the paths. A leaf is placed at the offset of its path, computed
without bounds and stopped once at the largest span. -/
theorem Slots.layout_eq_leaves (root : Slots α) (h : root.HasNoEmptyGroup)
    (subdivision offset : Ticks) :
    ∃ placements, root.layout subdivision offset = .ok placements ∧
      placements.map (fun placement => (placement.offset.val, placement.step)) =
        root.leaves.map (fun leaf =>
          (min (2 ^ 64 - 1) (root.offsetAt subdivision.val offset.val leaf.1), leaf.2)) ∧
      placements.length = root.foldr (fun node count => node.leafCount + count) 0 ∧
      root.leaves.Pairwise (fun a b => a.1 < b.1) ∧
      ∀ path step, (path, step) ∈ root.leaves ↔ root.get? path = some (.leaf step) := by
  refine ⟨root.place subdivision offset, ?_, ?_, ?_, root.pairwise_leaves,
    fun _ _ => Slots.mem_leaves⟩
  · rw [Slots.layout, Slots.firstEmptyGroup?_eq_none_iff.2 h]
  · have hmax : 2 ^ 64 - 1 = maxCount := by decide
    rw [Slots.place_eq_map_leaves, List.map_map, hmax]
    refine List.map_congr_left fun leaf _ => ?_
    rw [Function.comp_apply, Span.val_ofNat, Nat.min_comm]
  · rw [Slots.length_place, Slots.leafCount_eq_foldr]

/-- Two groups, one in the other, laid out close to the largest span: the second leaf of the inner
group would be at `166` behind the offset. -/
theorem Slots.layout_eq_leaves_nested :
    let root : Slots Char :=
      [.sound 'a', .group [.sound 'b', .group [.sound 'c', .sound 'd', .silence]]]
    root.HasNoEmptyGroup ∧
      ∃ placements, root.layout 100 18446744073709551460 = .ok placements ∧
        placements.map (fun placement => (placement.offset.val, placement.step)) =
          [(18446744073709551460, .sound 'a'), (18446744073709551560, .sound 'b'),
            (18446744073709551610, .sound 'c'), (18446744073709551615, .sound 'd'),
            (18446744073709551615, .silence)] := by
  intro root
  have hfull : root.HasNoEmptyGroup := Slots.firstEmptyGroup?_eq_none_iff.1 rfl
  obtain ⟨placements, hlayout, hoffsets, -⟩ :=
    Slots.layout_eq_leaves root hfull 100 18446744073709551460
  exact ⟨hfull, placements, hlayout, hoffsets.trans (by decide)⟩

end Ostinato
