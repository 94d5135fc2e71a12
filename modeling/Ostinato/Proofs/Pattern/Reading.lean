import Ostinato.Proofs.Pattern.Leaves
import Ostinato.Proofs.Pattern.Writes

/-!
# Reading an edited root

A write is read back where it was made. In the group that it was made in, the slots ahead of it read
as before, and those behind it have moved by one index or not at all. Whatever lies apart from that
group reads as before.

## Main definitions

* `Path.Apart`: neither of two paths leads through the other.
* `Slots.IsSetAt`, `Slots.IsInsertedAt`, `Slots.IsRemovedAt`: what is read after each kind of write.
* `Slots.Write.IsReadBack`: what is read after a write.

## Main results

* `Slots.get?_append_cons`: a path is read through the groups on it.
* `Slots.Spliced.exists_groupAt?`: a splice changes one group, and nothing apart from it.
* `Slots.Write.Gives.isReadBack`: every write is read back.
-/

namespace Ostinato

variable {α : Type}

/-! ### Paths apart -/

namespace Path

/-- Neither of two paths leads through the other: neither is a prefix of the other. -/
def Apart (path other : Path) : Prop :=
  ¬ path <+: other ∧ ¬ other <+: path

theorem Apart.ne_nil {path other : Path} (h : path.Apart other) : path ≠ [] := by
  rintro rfl
  exact h.1 List.nil_prefix

theorem not_apart_nil (path : Path) : ¬ path.Apart [] :=
  fun h => h.2 List.nil_prefix

theorem apart_cons_cons {i j : Nat} {path other : Path} :
    Path.Apart (i :: path) (j :: other) ↔ (i = j → path.Apart other) := by
  simp only [Apart, List.cons_prefix_cons]
  grind

theorem Apart.of_concat {path parent : Path} {i : Nat} (h : path.Apart (parent ++ [i])) :
    path.Apart parent ∨ ∃ j rest, j ≠ i ∧ path = parent ++ j :: rest := by
  by_cases hbelow : parent <+: path
  · obtain ⟨rest, rfl⟩ := hbelow
    cases rest with
    | nil => exact absurd (by simp) h.1
    | cons j rest =>
      refine .inr ⟨j, rest, ?_, rfl⟩
      rintro rfl
      exact h.2 ⟨rest, by simp⟩
  · exact .inl ⟨fun habove => h.1 (habove.trans (List.prefix_append parent [i])), hbelow⟩

end Path

namespace Slots

/-! ### Reading through groups -/

/-- A path that goes on below a group is read from its children. -/
theorem get?_append_cons {root group : Slots α} {parent : Path}
    (h : root.groupAt? parent = some group) (i : Nat) (rest : Path) :
    root.get? (parent ++ i :: rest) = group.get? (i :: rest) := by
  induction parent generalizing root with
  | nil =>
    cases h
    rfl
  | cons j parent ih =>
    rw [groupAt?_cons] at h
    split at h
    · next children hchild =>
      rw [List.cons_append, get?_cons_of_ne_nil (by simp), hchild]
      exact ih h
    · contradiction

theorem getElem?_append_cons_of_ne {before after : Slots α} (node other : Pattern α) {j : Nat}
    (h : j ≠ before.length) : (before ++ node :: after)[j]? = (before ++ other :: after)[j]? := by
  rcases Nat.lt_or_gt_of_ne h with hlt | hgt
  · rw [List.getElem?_append_left hlt, List.getElem?_append_left hlt]
  · obtain ⟨k, rfl⟩ := Nat.exists_eq_add_of_lt hgt
    have hk : before.length + k + 1 - before.length = k + 1 := by omega
    rw [List.getElem?_append_right (by omega), List.getElem?_append_right (by omega), hk,
      List.getElem?_cons_succ, List.getElem?_cons_succ]

theorem get?_append_of_lt {before rest : Slots α} (others : Slots α) {j : Nat}
    (h : j < before.length) (path : Path) :
    Slots.get? (before ++ rest) (j :: path) = Slots.get? (before ++ others) (j :: path) := by
  rw [get?_cons, get?_cons, List.getElem?_append_left h, List.getElem?_append_left h]

/-- The slots behind a node are one index further on than they are without it. -/
theorem get?_append_of_gt {before after : Slots α} (node : Pattern α) {j : Nat}
    (h : before.length ≤ j) (path : Path) :
    Slots.get? (before ++ node :: after) ((j + 1) :: path) =
      Slots.get? (before ++ after) (j :: path) := by
  have hj : j + 1 - before.length = j - before.length + 1 := by omega
  rw [get?_cons, get?_cons, List.getElem?_append_right (by omega), hj, List.getElem?_cons_succ,
    List.getElem?_append_right h]

/-- A splice takes place in one group, and a path apart from that group leads to the node that it
led to before. -/
theorem Spliced.exists_groupAt? {old new root edited : Slots α} {path : Path}
    (h : Spliced old new path root edited) :
    ∃ parent before after, path = parent ++ [before.length] ∧
      root.groupAt? parent = some (before ++ (old ++ after)) ∧
      edited.groupAt? parent = some (before ++ (new ++ after)) ∧
      ∀ other : Path, other.Apart parent → edited.get? other = root.get? other := by
  induction h with
  | here before after =>
    exact ⟨[], before, after, rfl, rfl, rfl, fun other h => absurd h other.not_apart_nil⟩
  | within front back _ ih =>
    obtain ⟨parent, before, after, rfl, hroot, hedited, hapart⟩ := ih
    refine ⟨front.length :: parent, before, after, rfl, ?_, ?_, fun other hother => ?_⟩
    · rw [groupAt?_cons, getElem?_length_append]
      exact hroot
    · rw [groupAt?_cons, getElem?_length_append]
      exact hedited
    · -- it leads through the group that is put together again, or through another slot
      obtain ⟨j, rest, rfl⟩ := List.exists_cons_of_ne_nil hother.ne_nil
      by_cases hj : j = front.length
      · subst hj
        have hrest : Path.Apart rest parent := Path.apart_cons_cons.1 hother rfl
        rw [get?_cons_of_ne_nil hrest.ne_nil, get?_cons_of_ne_nil hrest.ne_nil,
          getElem?_length_append, getElem?_length_append]
        exact hapart rest hrest
      · rw [get?_cons, get?_cons, getElem?_append_cons_of_ne _ _ hj]

/-! ### Reading writes back -/

/-- The node at a path is a value. Paths apart from it lead to the nodes that they led to before. -/
structure IsSetAt (root edited : Slots α) (path : Path) (value : Pattern α) : Prop where
  get?_append : ∀ rest, edited.get? (path ++ rest) = value.get? rest
  get?_of_apart : ∀ other : Path, other.Apart path → edited.get? other = root.get? other

/-- In the group at a path, a value stands at an index, and what stood there and behind it stands
one index further on. -/
structure IsInsertedAt (root edited : Slots α) (parent : Path) (i : Nat) (value : Pattern α) :
    Prop where
  get?_of_lt : ∀ j < i, ∀ rest,
    edited.get? (parent ++ j :: rest) = root.get? (parent ++ j :: rest)
  get?_self : ∀ rest, edited.get? (parent ++ i :: rest) = value.get? rest
  get?_of_gt : ∀ j > i, ∀ rest,
    edited.get? (parent ++ j :: rest) = root.get? (parent ++ (j - 1) :: rest)
  get?_of_apart : ∀ other : Path, other.Apart parent → edited.get? other = root.get? other

/-- In the group at a path, what stood behind an index stands one index further to the front. -/
structure IsRemovedAt (root edited : Slots α) (parent : Path) (i : Nat) : Prop where
  get?_of_lt : ∀ j < i, ∀ rest,
    edited.get? (parent ++ j :: rest) = root.get? (parent ++ j :: rest)
  get?_of_ge : ∀ j ≥ i, ∀ rest,
    edited.get? (parent ++ j :: rest) = root.get? (parent ++ (j + 1) :: rest)
  get?_of_apart : ∀ other : Path, other.Apart parent → edited.get? other = root.get? other

namespace Spliced

variable {root edited : Slots α} {path : Path} {node value : Pattern α}

theorem isSetAt (h : Spliced [node] [value] path root edited) :
    IsSetAt root edited path value := by
  obtain ⟨parent, before, after, rfl, hroot, hedited, hapart⟩ := h.exists_groupAt?
  constructor
  · intro rest
    rw [List.append_assoc, List.singleton_append, get?_append_cons hedited, get?_cons,
      List.singleton_append, getElem?_length_append, Option.bind_some]
  · intro other hother
    obtain hother | ⟨j, rest, hj, rfl⟩ := hother.of_concat
    · exact hapart other hother
    · rw [get?_append_cons hedited, get?_append_cons hroot, get?_cons, get?_cons,
        List.singleton_append, List.singleton_append, getElem?_append_cons_of_ne _ _ hj]

theorem isInsertedAt (h : Spliced [] [value] path root edited) :
    ∃ parent i, path = parent ++ [i] ∧ IsInsertedAt root edited parent i value := by
  obtain ⟨parent, before, after, rfl, hroot, hedited, hapart⟩ := h.exists_groupAt?
  refine ⟨parent, before.length, rfl, ?_, ?_, ?_, hapart⟩
  · intro j hj rest
    rw [get?_append_cons hedited, get?_append_cons hroot, get?_append_of_lt _ hj]
  · intro rest
    rw [get?_append_cons hedited, get?_cons, List.singleton_append, getElem?_length_append,
      Option.bind_some]
  · intro j hj rest
    obtain ⟨k, rfl⟩ : ∃ k, j = k + 1 := ⟨j - 1, by omega⟩
    rw [get?_append_cons hedited, get?_append_cons hroot, List.singleton_append,
      get?_append_of_gt value (by omega), List.nil_append, Nat.add_sub_cancel]

theorem isRemovedAt (h : Spliced [node] [] path root edited) :
    ∃ parent i, path = parent ++ [i] ∧ IsRemovedAt root edited parent i := by
  obtain ⟨parent, before, after, rfl, hroot, hedited, hapart⟩ := h.exists_groupAt?
  refine ⟨parent, before.length, rfl, ?_, ?_, hapart⟩
  · intro j hj rest
    rw [get?_append_cons hedited, get?_append_cons hroot, get?_append_of_lt _ hj]
  · intro j hj rest
    rw [get?_append_cons hedited, get?_append_cons hroot, List.singleton_append,
      get?_append_of_gt node hj, List.nil_append]

end Spliced

namespace Write

/-- What is read from an edited root, compared with the root before the write. -/
def IsReadBack (root edited : Slots α) : Write α → Prop
  | .replace slots => edited = slots
  | .setAt path value => IsSetAt root edited path value
  | .insertAt path value => ∃ parent i, path = parent ++ [i] ∧
    IsInsertedAt root edited parent i value
  | .removeAt path => ∃ parent i, path = parent ++ [i] ∧ IsRemovedAt root edited parent i

/-- Every write is read back. -/
theorem Gives.isReadBack {root edited : Slots α} {write : Write α} (h : write.Gives root edited) :
    write.IsReadBack root edited := by
  cases write with
  | replace slots => exact h
  | setAt path value =>
    obtain ⟨previous, hspliced⟩ := h
    exact hspliced.isSetAt
  | insertAt path value => exact Spliced.isInsertedAt h
  | removeAt path =>
    obtain ⟨removed, hspliced⟩ := h
    exact hspliced.isRemovedAt

end Write

end Slots

end Ostinato
