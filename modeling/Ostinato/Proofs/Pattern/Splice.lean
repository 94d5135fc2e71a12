import Ostinato.Pattern.Edit

/-!
# Splices

Writes to a pattern differ in the nodes that they take out at a path and in those that they put in.
What a splice takes out and puts in can be exchanged, and that undoes it.

## Main definitions

* `Slots.Spliced`: nodes at a path give way to others, and the rest of the tree stays.
* `Slots.groupAt?`: the group at a path, the root itself for the empty path.

## Main results

* `Slots.Spliced.symm`: a splice is undone by a splice.
* `Slots.set?_eq_some_iff`, `Slots.insert?_eq_some_iff`, `Slots.remove?_eq_some_iff`: writes are
  splices.
* `Slots.exists_spliced_iff`, `Slots.exists_spliced_nil_iff`: where there is something to splice.
-/

namespace Ostinato.Slots

variable {α : Type}

/-! ### Splices -/

/-- At a path and behind it on its level, the nodes `old` give way to the nodes `new`, and the rest
of the tree stays. -/
inductive Spliced (old new : Slots α) : Path → Slots α → Slots α → Prop
  | here (before after : Slots α) :
    Spliced old new [before.length] (before ++ (old ++ after)) (before ++ (new ++ after))
  | within (before after : Slots α) {path : Path} {children edited : Slots α}
    (h : Spliced old new path children edited) :
    Spliced old new (before.length :: path) (before ++ .group children :: after)
      (before ++ .group edited :: after)

namespace Spliced

variable {old new root edited : Slots α} {path : Path}

/-- A splice is undone by the splice that exchanges what is taken out and what is put in. -/
theorem symm (h : Spliced old new path root edited) : Spliced new old path edited root := by
  induction h with
  | here before after => exact .here before after
  | within before after _ ih => exact .within before after ih

theorem ne_nil (h : Spliced old new path root edited) : path ≠ [] := by
  cases h <;> exact List.cons_ne_nil _ _

end Spliced

theorem getElem?_length_append (before after : Slots α) (node : Pattern α) :
    (before ++ node :: after)[before.length]? = some node := by
  rw [List.getElem?_append_right (Nat.le_refl _), Nat.sub_self, List.getElem?_cons_zero]

theorem exists_eq_append {slots : Slots α} {i : Nat} (h : i ≤ slots.length) :
    ∃ before after, slots = before ++ after ∧ before.length = i :=
  ⟨slots.take i, slots.drop i, (List.take_append_drop i slots).symm, List.length_take_of_le h⟩

theorem exists_eq_append_cons {slots : Slots α} {i : Nat} {node : Pattern α}
    (h : slots[i]? = some node) :
    ∃ before after, slots = before ++ node :: after ∧ before.length = i := by
  obtain ⟨hi, rfl⟩ := List.getElem?_eq_some_iff.1 h
  refine ⟨slots.take i, slots.drop (i + 1), ?_, List.length_take_of_le (Nat.le_of_lt hi)⟩
  rw [← List.drop_eq_getElem_cons hi, List.take_append_drop]

theorem get?_cons_of_ne_nil {path : Path} (h : path ≠ []) (slots : Slots α) (i : Nat) :
    slots.get? (i :: path) =
      match slots[i]? with
      | some (.group children) => Slots.get? children path
      | _ => none := by
  obtain ⟨j, rest, rfl⟩ := List.exists_cons_of_ne_nil h
  exact get?_cons_cons slots i j rest

theorem Spliced.get?_eq {node : Pattern α} {old new root edited : Slots α} {path : Path}
    (h : Spliced (node :: old) new path root edited) : root.get? path = some node := by
  induction h with
  | here before after => rw [get?_singleton, List.cons_append, getElem?_length_append]
  | within before after h ih =>
    rw [get?_cons_of_ne_nil h.ne_nil, getElem?_length_append]
    exact ih

/-- A node can be taken out exactly at its path. -/
theorem exists_spliced_iff {node : Pattern α} {new : Slots α} : ∀ {path : Path} {root : Slots α},
    (∃ edited, Spliced [node] new path root edited) ↔ root.get? path = some node := by
  intro path root
  refine ⟨fun ⟨_, h⟩ => h.get?_eq, fun h => ?_⟩
  induction path generalizing root with
  | nil => simp at h
  | cons i path ih =>
    obtain ⟨slot, hslot, hrest⟩ := Option.bind_eq_some_iff.1 h
    obtain ⟨before, after, rfl, rfl⟩ := exists_eq_append_cons hslot
    cases path with
    | nil =>
      cases hrest
      exact ⟨_, .here before after⟩
    | cons j path =>
      cases slot with
      | leaf step => simp [Pattern.get?] at hrest
      | group children =>
        obtain ⟨edited, hedited⟩ := ih hrest
        exact ⟨_, .within before after hedited⟩

/-! ### Groups at paths -/

/-- The children of the group at a path; the root is the group at the empty path. -/
def groupAt? (root : Slots α) : Path → Option (Slots α)
  | [] => some root
  | i :: path =>
    match root.get? (i :: path) with
    | some (.group children) => some children
    | _ => none

theorem groupAt?_cons (root : Slots α) (i : Nat) (path : Path) :
    root.groupAt? (i :: path) =
      match root[i]? with
      | some (.group children) => groupAt? children path
      | _ => none := by
  cases path with
  | nil => rw [groupAt?, get?_singleton]; rfl
  | cons j path =>
    rw [groupAt?, get?_cons_cons]
    cases root[i]? with
    | none => rfl
    | some node => cases node <;> rfl

/-- Nodes can be put in exactly in front of the slots of a group or behind the last one. -/
theorem exists_spliced_nil_iff {new : Slots α} {path : Path} {root : Slots α} :
    (∃ edited, Spliced [] new path root edited) ↔
      ∃ parent i group, path = parent ++ [i] ∧ root.groupAt? parent = some group ∧
        i ≤ group.length := by
  constructor
  · rintro ⟨edited, h⟩
    induction h with
    | here before after => exact ⟨[], before.length, _, rfl, rfl, by simp⟩
    | within before after _ ih =>
      obtain ⟨parent, i, group, rfl, hgroup, hi⟩ := ih
      refine ⟨before.length :: parent, i, group, rfl, ?_, hi⟩
      rw [groupAt?_cons, getElem?_length_append]
      exact hgroup
  · rintro ⟨parent, i, group, rfl, hgroup, hi⟩
    induction parent generalizing root with
    | nil =>
      cases hgroup
      obtain ⟨before, after, rfl, rfl⟩ := exists_eq_append hi
      exact ⟨_, .here before after⟩
    | cons j parent ih =>
      rw [groupAt?_cons] at hgroup
      split at hgroup
      · next children hchild =>
        obtain ⟨edited, hedited⟩ := ih hgroup
        obtain ⟨before, after, rfl, rfl⟩ := exists_eq_append_cons hchild
        exact ⟨_, .within before after hedited⟩
      · contradiction

/-! ### Writes are splices -/

/-- A change of a group in a tree puts together again what surrounds the group. -/
theorem modifyGroup?_cons {path : Path} (h : path ≠ [])
    (modify : Nat → Slots α → Option (Slots α)) (root : Slots α) (i : Nat) :
    modifyGroup? modify root (i :: path) =
      match root[i]? with
      | some (.group children) =>
        (modifyGroup? modify children path).map fun group => root.set i (.group group)
      | _ => none := by
  obtain ⟨j, rest, rfl⟩ := List.exists_cons_of_ne_nil h
  rfl

theorem Spliced.modifyGroup?_eq {modify : Nat → Slots α → Option (Slots α)}
    {old new root edited : Slots α} {path : Path}
    (hmodify : ∀ before after, modify before.length (before ++ (old ++ after)) =
      some (before ++ (new ++ after)))
    (h : Spliced old new path root edited) : modifyGroup? modify root path = some edited := by
  induction h with
  | here before after => exact hmodify before after
  | within before after h ih =>
    rw [modifyGroup?_cons h.ne_nil, getElem?_length_append]
    simp only [ih, Option.map_some, List.set_append_right _ _ (Nat.le_refl _), Nat.sub_self,
      List.set_cons_zero]

/-- If changing a group only ever splices, so does changing a group in a tree. -/
theorem exists_spliced_of_modifyGroup? {modify : Nat → Slots α → Option (Slots α)} {new : Slots α}
    (IsOld : Slots α → Prop)
    (hmodify : ∀ i group changed, modify i group = some changed →
      ∃ old, IsOld old ∧ Spliced old new [i] group changed)
    {path : Path} {root edited : Slots α} (h : modifyGroup? modify root path = some edited) :
    ∃ old, IsOld old ∧ Spliced old new path root edited := by
  induction path generalizing root edited with
  | nil => simp [modifyGroup?] at h
  | cons i path ih =>
    by_cases hpath : path = []
    · subst hpath
      exact hmodify i root edited h
    · rw [modifyGroup?_cons hpath] at h
      split at h
      · next children hchild =>
        obtain ⟨group, hgroup, rfl⟩ := Option.map_eq_some_iff.1 h
        obtain ⟨old, hold, hspliced⟩ := ih hgroup
        obtain ⟨before, after, rfl, rfl⟩ := exists_eq_append_cons hchild
        refine ⟨old, hold, ?_⟩
        rw [List.set_append_right _ _ (Nat.le_refl _), Nat.sub_self, List.set_cons_zero]
        exact .within before after hspliced
      · contradiction

/-- Changing a slot of a group is taking out the node at its path. -/
theorem modifyGroup?_slot_eq_some_iff {change : Nat → Slots α → Slots α} {new : Slots α}
    (hchange : ∀ before node after,
      change before.length (before ++ node :: after) = before ++ (new ++ after))
    {path : Path} {root edited : Slots α} :
    modifyGroup? (fun i group => if i < group.length then some (change i group) else none) root
        path = some edited ↔
      ∃ node, Spliced [node] new path root edited := by
  constructor
  · intro h
    obtain ⟨_, ⟨node, rfl⟩, hspliced⟩ := exists_spliced_of_modifyGroup? (∃ node, · = [node]) (by
      intro i group changed hmodify
      obtain ⟨hi, hchanged⟩ := Option.ite_none_right_eq_some.1 hmodify
      obtain ⟨node, hnode⟩ : ∃ node, group[i]? = some node := ⟨_, List.getElem?_eq_getElem hi⟩
      obtain ⟨before, after, rfl, rfl⟩ := exists_eq_append_cons hnode
      cases (Option.some.inj hchanged).symm.trans (hchange before node after)
      exact ⟨[node], ⟨node, rfl⟩, .here before after⟩) h
    exact ⟨node, hspliced⟩
  · rintro ⟨node, h⟩
    refine h.modifyGroup?_eq fun before after => ?_
    rw [if_pos (by simp), List.singleton_append, hchange]

/-- Setting a node takes out the one at its path and puts in the other. -/
theorem set?_eq_some_iff {root edited : Slots α} {path : Path} {value : Pattern α} :
    root.set? path value = some edited ↔
      ∃ previous, Spliced [previous] [value] path root edited :=
  modifyGroup?_slot_eq_some_iff fun before node after => by
    rw [List.set_append_right _ _ (Nat.le_refl _), Nat.sub_self, List.set_cons_zero]
    rfl

/-- Removing a node takes it out. -/
theorem remove?_eq_some_iff {root edited : Slots α} {path : Path} :
    root.remove? path = some edited ↔ ∃ removed, Spliced [removed] [] path root edited :=
  modifyGroup?_slot_eq_some_iff fun before node after => by
    rw [List.eraseIdx_append_of_length_le (Nat.le_refl _), Nat.sub_self, List.eraseIdx_cons_zero]
    rfl

/-- Inserting a node puts it in. -/
theorem insert?_eq_some_iff {root edited : Slots α} {path : Path} {value : Pattern α} :
    root.insert? path value = some edited ↔ Spliced [] [value] path root edited := by
  have hinsert : ∀ before after : Slots α,
      (before ++ after).insertIdx before.length value = before ++ ([value] ++ after) := by
    intro before after
    induction before with
    | nil => rfl
    | cons first before ih =>
      rw [List.cons_append, List.length_cons, List.insertIdx_succ_cons, ih]
      rfl
  constructor
  · intro h
    obtain ⟨_, rfl, hspliced⟩ := exists_spliced_of_modifyGroup? (· = []) (by
      intro i group changed hmodify
      obtain ⟨hi, hchanged⟩ := Option.ite_none_right_eq_some.1 hmodify
      obtain ⟨before, after, rfl, rfl⟩ := exists_eq_append hi
      cases (Option.some.inj hchanged).symm.trans (hinsert before after)
      exact ⟨[], rfl, .here before after⟩) h
    exact hspliced
  · intro h
    refine h.modifyGroup?_eq fun before after => ?_
    rw [if_pos (by simp), List.nil_append, hinsert]

end Ostinato.Slots
