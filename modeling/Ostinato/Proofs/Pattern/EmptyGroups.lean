import Ostinato.Proofs.Pattern.Leaves

/-!
# Empty groups

A pattern has a layout unless one of its groups has no children. The search for such a group goes
through the slots in reading order, and what it finds is the empty group whose path is least in
lexicographic order. An empty group has nothing below it, so this is also the order in which the
search meets them.

## Main definitions

* `Slots.HasNoEmptyGroup`: every group below the root has a child.
* `Slots.IsFirstEmptyGroup`: the first group that has none.

## Main results

* `Slots.firstEmptyGroup?_eq_some_iff`: the search finds the first empty group.
* `Slots.firstEmptyGroup?_eq_none_iff`: it finds nothing exactly if no group is empty.
-/

namespace Ostinato

variable {α : Type}

/-- No group below the root is without children. The root itself may be empty. -/
def Slots.HasNoEmptyGroup (root : Slots α) : Prop :=
  ∀ path, root.get? path ≠ some (.group [])

/-- A path leads to a group without children, and no path before it does. -/
def Slots.IsFirstEmptyGroup (root : Slots α) (path : Path) : Prop :=
  root.get? path = some (.group []) ∧ ∀ earlier < path, root.get? earlier ≠ some (.group [])

/-! ### The search among numbered slots -/

theorem Slots.firstEmptyGroupFrom?_eq_findSome? (index : Nat) : (slots : Slots α) →
    Slots.firstEmptyGroupFrom? index slots =
      (slots.zipIdx index).findSome? fun slot => slot.1.firstEmptyGroup?.map (slot.2 :: ·)
  | [] => rfl
  | child :: children => by
    rw [firstEmptyGroupFrom?, firstEmptyGroupFrom?_eq_findSome? (index + 1) children,
      List.zipIdx_cons, List.findSome?_cons]
    cases child.firstEmptyGroup? <;> rfl

/-- Of numbered slots, the first that has an empty group at or below it. -/
theorem Slots.firstEmptyGroup?_eq_some {root : Slots α} {path : Path}
    (h : root.firstEmptyGroup? = some path) :
    ∃ i rest child, path = i :: rest ∧ root[i]? = some child ∧
      child.firstEmptyGroup? = some rest ∧
      ∀ j < i, ∀ other, root[j]? = some other → other.firstEmptyGroup? = none := by
  rw [Slots.firstEmptyGroup?, firstEmptyGroupFrom?_eq_findSome?,
    List.findSome?_eq_some_iff] at h
  obtain ⟨before, ⟨child, i⟩, after, hsplit, hfound, hbefore⟩ := h
  obtain ⟨rest, hrest, rfl⟩ := Option.map_eq_some_iff.1 hfound
  have hmem : (child, i) ∈ root.zipIdx := by simp [hsplit]
  refine ⟨i, rest, child, rfl, List.mem_zipIdx_iff_getElem?.1 hmem, hrest, ?_⟩
  intro j hj other hother
  have hslot : (other, j) ∈ root.zipIdx := List.mem_zipIdx_iff_getElem?.2 hother
  have hsorted := Slots.pairwise_zipIdx root
  rw [hsplit] at hslot hsorted
  rcases List.mem_append.1 hslot with hin | hin
  · exact Option.map_eq_none_iff.1 (hbefore _ hin)
  · -- the slots from the found one on have indices from `i` on
    have hafter := (List.pairwise_cons.1 (List.pairwise_append.1 hsorted).2.1).1
    rcases List.mem_cons.1 hin with heq | hin
    · cases heq
      exact absurd hj (Nat.lt_irrefl _)
    · exact absurd (hafter _ hin) (Nat.not_lt_of_lt hj)

theorem Slots.firstEmptyGroup?_eq_none {root : Slots α} :
    root.firstEmptyGroup? = none ↔ ∀ child ∈ root, child.firstEmptyGroup? = none := by
  rw [Slots.firstEmptyGroup?, firstEmptyGroupFrom?_eq_findSome?, List.findSome?_eq_none_iff]
  constructor
  · intro h child hchild
    obtain ⟨i, hi⟩ := List.mem_iff_getElem?.1 hchild
    exact Option.map_eq_none_iff.1 (h (child, i) (List.mem_zipIdx_iff_getElem?.2 hi))
  · rintro h ⟨child, i⟩ hslot
    exact Option.map_eq_none_iff.2
      (h child (List.mem_of_getElem? (List.mem_zipIdx_iff_getElem?.1 hslot)))

theorem Pattern.get?_ne_of_firstEmptyGroup? (node : Pattern α) :
    node.firstEmptyGroup? = none → ∀ path, node.get? path ≠ some (.group []) := by
  induction node using Pattern.induction with
  | leaf step =>
    intro _ path
    cases path <;> simp [Pattern.get?]
  | group children ih =>
    intro h path hpath
    cases children with
    | nil => simp [Pattern.firstEmptyGroup?] at h
    | cons first others =>
      cases path with
      | nil => simp [Pattern.get?] at hpath
      | cons i rest =>
        obtain ⟨child, hchild, hrest⟩ := Option.bind_eq_some_iff.1 hpath
        have hmem := List.mem_of_getElem? hchild
        exact ih child hmem (Slots.firstEmptyGroup?_eq_none.1 h child hmem) rest hrest

theorem Pattern.get?_of_firstEmptyGroup? (node : Pattern α) :
    ∀ path, node.firstEmptyGroup? = some path →
      node.get? path = some (.group []) ∧
        ∀ earlier < path, node.get? earlier ≠ some (.group []) := by
  induction node using Pattern.induction with
  | leaf step => simp [Pattern.firstEmptyGroup?]
  | group children ih =>
    intro path h
    cases children with
    | nil =>
      cases Option.some.inj h
      exact ⟨rfl, fun earlier hlt => absurd hlt (List.not_lt_nil earlier)⟩
    | cons first others =>
      obtain ⟨i, rest, child, rfl, hchild, hfound, hbefore⟩ := Slots.firstEmptyGroup?_eq_some h
      obtain ⟨hget, hleast⟩ := ih child (List.mem_of_getElem? hchild) rest hfound
      refine ⟨by rw [Pattern.get?, hchild]; exact hget, fun earlier hlt hempty => ?_⟩
      cases earlier with
      | nil => simp [Pattern.get?] at hempty
      | cons j rest' =>
        obtain ⟨other, hother, hrest'⟩ := Option.bind_eq_some_iff.1 hempty
        rcases List.cons_lt_cons_iff.1 hlt with hj | ⟨rfl, hrest⟩
        · exact other.get?_ne_of_firstEmptyGroup? (hbefore j hj other hother) rest' hrest'
        · cases hchild.symm.trans hother
          exact hleast rest' hrest hrest'

namespace Slots

/-- No empty group is found exactly if there is none. -/
theorem firstEmptyGroup?_eq_none_iff {root : Slots α} :
    root.firstEmptyGroup? = none ↔ root.HasNoEmptyGroup := by
  constructor
  · intro h path hpath
    cases path with
    | nil => simp at hpath
    | cons i rest =>
      obtain ⟨child, hchild, hrest⟩ := Option.bind_eq_some_iff.1 hpath
      have hnone := firstEmptyGroup?_eq_none.1 h child (List.mem_of_getElem? hchild)
      exact child.get?_ne_of_firstEmptyGroup? hnone rest hrest
  · intro h
    cases hfound : root.firstEmptyGroup? with
    | none => rfl
    | some path =>
      obtain ⟨i, rest, child, rfl, hchild, hrest, -⟩ := firstEmptyGroup?_eq_some hfound
      refine absurd ?_ (h (i :: rest))
      rw [get?_cons, hchild]
      exact (child.get?_of_firstEmptyGroup? rest hrest).1

theorem isFirstEmptyGroup_of_firstEmptyGroup? {root : Slots α} {path : Path}
    (h : root.firstEmptyGroup? = some path) : root.IsFirstEmptyGroup path := by
  cases root with
  | nil => simp [Slots.firstEmptyGroup?, firstEmptyGroupFrom?] at h
  | cons first others =>
    obtain ⟨hget, hleast⟩ := Pattern.get?_of_firstEmptyGroup? (.group (first :: others)) path h
    cases path with
    | nil => simp [Pattern.get?] at hget
    | cons i rest =>
      refine ⟨hget, fun earlier hlt => ?_⟩
      cases earlier with
      | nil => simp
      | cons j rest' => exact hleast (j :: rest') hlt

/-- The empty group that is found is the first one. -/
theorem firstEmptyGroup?_eq_some_iff {root : Slots α} {path : Path} :
    root.firstEmptyGroup? = some path ↔ root.IsFirstEmptyGroup path := by
  refine ⟨isFirstEmptyGroup_of_firstEmptyGroup?, fun h => ?_⟩
  cases hfound : root.firstEmptyGroup? with
  | none => exact absurd h.1 (firstEmptyGroup?_eq_none_iff.1 hfound path)
  | some other =>
    have hother := isFirstEmptyGroup_of_firstEmptyGroup? hfound
    have hle : ¬ other < path := fun hlt => h.2 other hlt hother.1
    have hge : ¬ path < other := fun hlt => hother.2 path hlt h.1
    rw [List.le_antisymm hge hle]

end Slots

end Ostinato
