import Ostinato.Proofs.Pattern.EmptyGroups
import Ostinato.Proofs.Pattern.Writes

/-!
# Locality of edits

A node has its slot from the groups that it lies in, whatever stands beside it in the other slots.
So a write is heard in the layout only where it was made: a node that is set changes the placements
of that node, and a node that is inserted or removed in a group, and makes the group share its slot
anew, those of the group. A slot of the root is not shared. A node that is inserted there moves all
that stands behind it on by one subdivision.

## Main definitions

* `Located`: a placement with the path of its leaf.
* `Slots.located`: the placements of a root, each with the path of its leaf.
* `ChangesOnlyUnder`: two layouts differ in one block, that of a path.
* `OpensSlot`: in one of two layouts there is a slot more than in the other.
* `Slots.Write.IsLocal`: how the layout before a write and the one after it differ.

## Main results

* `Slots.Spliced.exists_located`: where a node gives way to another, the other is placed in the
  slot of the first, and all else where it was.
* `Slots.locatedFrom_succ`: slots counted one further on are placed one slot further on.
* `TrackedPattern.layout_write`: every write is local.
-/

namespace Ostinato

variable {α : Type}

/-! ### Entries with their paths -/

/-- A placement with the path that leads to its leaf. -/
abbrev Located (α : Type) := Path × Placement α

namespace Located

/-- The entry of a leaf seen from where a path leads to the node that it is seen from. -/
def under (path : Path) (entry : Located α) : Located α :=
  (path ++ entry.1, entry.2)

/-- The entry with its offset moved on. -/
def delayed (span : Ticks) (entry : Located α) : Located α :=
  (entry.1, ⟨entry.2.offset + span, entry.2.step⟩)

/-- The entry one slot further on: at the next first index, and delayed by the length of a slot. -/
def inNextSlot (slot : Ticks) : Located α → Located α
  | ([], placement) => ([], ⟨placement.offset + slot, placement.step⟩)
  | (i :: rest, placement) => ((i + 1) :: rest, ⟨placement.offset + slot, placement.step⟩)

end Located

mutual

/-- The placements of a node whose slot has the given length and start, each with the path that
leads to its leaf from the node. -/
def Pattern.located (slot start : Ticks) : Pattern α → List (Located α)
  | .leaf step => [([], ⟨start, step⟩)]
  | .group children => Slots.locatedFrom (slot / children.length) start 0 children

/-- The placements of slots of one length that are counted from `index` on, each with the path of
its leaf. -/
def Slots.locatedFrom (slot start : Ticks) (index : Nat) : List (Pattern α) → List (Located α)
  | [] => []
  | child :: children =>
    (child.located slot (start + slot * index)).map (Located.under [index]) ++
      Slots.locatedFrom slot start (index + 1) children

end

/-- The placements of a root with slots of one subdivision, each with the path of its leaf. -/
def Slots.located (root : Slots α) (subdivision offset : Ticks) : List (Located α) :=
  Slots.locatedFrom subdivision offset 0 root

mutual

theorem Pattern.map_snd_located (slot start : Ticks) : (node : Pattern α) →
    (node.located slot start).map Prod.snd = node.place slot start
  | .leaf _ => rfl
  | .group children => Slots.map_snd_locatedFrom _ start 0 children

theorem Slots.map_snd_locatedFrom (slot start : Ticks) (index : Nat) :
    (slots : List (Pattern α)) →
      (Slots.locatedFrom slot start index slots).map Prod.snd =
        Slots.placeFrom slot start index slots
  | [] => rfl
  | child :: children => by
    rw [Slots.locatedFrom, List.map_append, List.map_map, Slots.placeFrom,
      ← Pattern.map_snd_located slot _ child,
      Slots.map_snd_locatedFrom slot start (index + 1) children]
    rfl

end

mutual

theorem Pattern.map_step_located (slot start : Ticks) : (node : Pattern α) →
    (node.located slot start).map (fun entry => (entry.1, entry.2.step)) = node.leaves
  | .leaf _ => rfl
  | .group children => Slots.map_step_locatedFrom _ start 0 children

theorem Slots.map_step_locatedFrom (slot start : Ticks) (index : Nat) :
    (slots : List (Pattern α)) →
      (Slots.locatedFrom slot start index slots).map (fun entry => (entry.1, entry.2.step)) =
        Slots.leavesFrom index slots
  | [] => rfl
  | child :: children => by
    rw [Slots.locatedFrom, List.map_append, List.map_map, Slots.leavesFrom,
      ← Pattern.map_step_located slot (start + slot * index) child, List.map_map,
      Slots.map_step_locatedFrom slot start (index + 1) children]
    rfl

end

namespace Slots

theorem locatedFrom_append (slot start : Ticks) (index : Nat) (slots others : Slots α) :
    locatedFrom slot start index (slots ++ others) =
      locatedFrom slot start index slots ++
        locatedFrom slot start (index + slots.length) others := by
  induction slots generalizing index with
  | nil => rfl
  | cons child children ih =>
    rw [List.cons_append, locatedFrom, ih, locatedFrom, List.append_assoc, List.length_cons,
      Nat.add_right_comm, Nat.add_assoc index]

theorem exists_index_of_mem_locatedFrom {slot start : Ticks} {index : Nat} {slots : Slots α}
    {entry : Located α} (h : entry ∈ locatedFrom slot start index slots) :
    ∃ j rest, entry.1 = j :: rest ∧ index ≤ j ∧ j < index + slots.length := by
  induction slots generalizing index with
  | nil => exact absurd h List.not_mem_nil
  | cons child children ih =>
    rw [List.length_cons]
    rcases List.mem_append.1 h with hchild | hchildren
    · obtain ⟨inner, -, rfl⟩ := List.mem_map.1 hchild
      exact ⟨index, inner.1, rfl, Nat.le_refl _, by omega⟩
    · obtain ⟨j, rest, hpath, hge, hlt⟩ := ih hchildren
      exact ⟨j, rest, hpath, by omega, by omega⟩

end Slots

/-! ### Moving on -/

namespace Span

variable {unit : TimeUnit}

theorem add_right_comm (a b c : Span unit) : a + b + c = a + c + b := by
  refine Span.ext ?_
  simp only [val_add]
  omega

theorem add_mul_succ (start slot : Span unit) (count : Nat) :
    start + slot * (count + 1) = start + slot * count + slot := by
  refine Span.ext ?_
  simp only [val_add, val_mul, Nat.mul_succ]
  omega

end Span

mutual

theorem Pattern.located_add (span slot start : Ticks) : (node : Pattern α) →
    node.located slot (start + span) = (node.located slot start).map (Located.delayed span)
  | .leaf _ => rfl
  | .group children => Slots.locatedFrom_add span _ start 0 children

theorem Slots.locatedFrom_add (span slot start : Ticks) (index : Nat) :
    (slots : List (Pattern α)) →
      Slots.locatedFrom slot (start + span) index slots =
        (Slots.locatedFrom slot start index slots).map (Located.delayed span)
  | [] => rfl
  | child :: children => by
    rw [Slots.locatedFrom, Span.add_right_comm, Pattern.located_add span slot _ child,
      Slots.locatedFrom_add span slot start (index + 1) children, Slots.locatedFrom,
      List.map_append, List.map_map, List.map_map]
    rfl

end

/-- Slots that are counted one further on are placed one slot further on. -/
theorem Slots.locatedFrom_succ (slot start : Ticks) (index : Nat) (slots : Slots α) :
    locatedFrom slot start (index + 1) slots =
      (locatedFrom slot start index slots).map (Located.inNextSlot slot) := by
  induction slots generalizing index with
  | nil => rfl
  | cons child children ih =>
    rw [locatedFrom, Span.add_mul_succ, child.located_add, ih, locatedFrom, List.map_append,
      List.map_map, List.map_map]
    rfl

/-! ### Blocks -/

/-- Two layouts differ only in the block of a path: all entries of the block, and no others, have
paths that lead through it. -/
def ChangesOnlyUnder (path : Path) (before after : List (Located α)) : Prop :=
  ∃ front old new back, before = front ++ (old ++ back) ∧ after = front ++ (new ++ back) ∧
    (∀ entry ∈ front ++ back, ¬ path <+: entry.1) ∧ ∀ entry ∈ old ++ new, path <+: entry.1

/-- Of two layouts, the second has the slot of a node more, at an index of the root. What stands in
slots before it is the same, and what stands in slots from the index on comes one slot later. -/
def OpensSlot (i : Nat) (node : Pattern α) (subdivision offset : Ticks)
    (before after : List (Located α)) : Prop :=
  ∃ front back, before = front ++ back ∧
    after = front ++ ((node.located subdivision (offset + subdivision * i)).map
      (Located.under [i]) ++ back.map (Located.inNextSlot subdivision)) ∧
    (∀ entry ∈ front, ∃ j rest, entry.1 = j :: rest ∧ j < i) ∧
    ∀ entry ∈ back, ∃ j rest, entry.1 = j :: rest ∧ i ≤ j

theorem changesOnlyUnder_nil (before after : List (Located α)) :
    ChangesOnlyUnder [] before after :=
  ⟨[], before, after, [], by simp, by simp, by simp, fun _ _ => List.nil_prefix⟩

namespace Slots

theorem Spliced.length_eq {old new root edited : Slots α} {path : Path}
    (h : Spliced old new path root edited) (hlength : new.length = old.length) :
    edited.length = root.length := by
  cases h <;> simp [hlength]

theorem not_prefix_of_mem_locatedFrom {slot start : Ticks} {index n : Nat} {slots : Slots α}
    {entry : Located α} (h : entry ∈ locatedFrom slot start index slots)
    (hn : n < index ∨ index + slots.length ≤ n) (path : Path) : ¬ n :: path <+: entry.1 := by
  obtain ⟨j, rest, hpath, hge, hlt⟩ := exists_index_of_mem_locatedFrom h
  rw [hpath, List.cons_prefix_cons]
  omega

/-- Where a node gives way to another, the other is placed in the slot of the first, and all else
where it was. -/
theorem Spliced.exists_located {node other : Pattern α} {root edited : Slots α} {path : Path}
    (h : Spliced [node] [other] path root edited) : ∀ slot start : Ticks,
    ∃ front back slot' start',
      locatedFrom slot start 0 root =
        front ++ ((node.located slot' start').map (Located.under path) ++ back) ∧
      locatedFrom slot start 0 edited =
        front ++ ((other.located slot' start').map (Located.under path) ++ back) ∧
      ∀ entry ∈ front ++ back, ¬ path <+: entry.1 := by
  induction h with
  | here before after =>
    intro slot start
    refine ⟨locatedFrom slot start 0 before, locatedFrom slot start (before.length + 1) after, slot,
      start + slot * before.length, ?_, ?_, fun entry hentry => ?_⟩
    · rw [List.singleton_append, locatedFrom_append, Nat.zero_add, locatedFrom]
    · rw [List.singleton_append, locatedFrom_append, Nat.zero_add, locatedFrom]
    · rcases List.mem_append.1 hentry with hfront | hback
      · exact not_prefix_of_mem_locatedFrom hfront (.inr (by omega)) []
      · exact not_prefix_of_mem_locatedFrom hback (.inl (by omega)) []
  | @within before after path children edited h ih =>
    intro slot start
    -- the group keeps its size, so its children keep their share of its slot
    obtain ⟨front, back, slot', start', hroot, hedited, hothers⟩ :=
      ih (slot / children.length) (start + slot * before.length)
    refine ⟨locatedFrom slot start 0 before ++ front.map (Located.under [before.length]),
      back.map (Located.under [before.length]) ++ locatedFrom slot start (before.length + 1) after,
      slot', start', ?_, ?_, fun entry hentry => ?_⟩
    · rw [locatedFrom_append, Nat.zero_add, locatedFrom, Pattern.located, hroot]
      simp only [List.map_append, List.map_map, List.append_assoc]
      rfl
    · rw [locatedFrom_append, Nat.zero_add, locatedFrom, Pattern.located, h.length_eq rfl, hedited]
      simp only [List.map_append, List.map_map, List.append_assoc]
      rfl
    · have hinside : ∀ inner ∈ front ++ back,
          ¬ before.length :: path <+: (inner.under [before.length]).1 :=
        fun inner hinner hprefix => hothers inner hinner (List.cons_prefix_cons.1 hprefix).2
      rcases List.mem_append.1 hentry with hfront | hback
      · rcases List.mem_append.1 hfront with hbefore | hgroup
        · exact not_prefix_of_mem_locatedFrom hbefore (.inr (by omega)) path
        · obtain ⟨inner, hinner, rfl⟩ := List.mem_map.1 hgroup
          exact hinside inner (List.mem_append_left back hinner)
      · rcases List.mem_append.1 hback with hgroup | hafter
        · obtain ⟨inner, hinner, rfl⟩ := List.mem_map.1 hgroup
          exact hinside inner (List.mem_append_right front hinner)
        · exact not_prefix_of_mem_locatedFrom hafter (.inl (by omega)) path

theorem Spliced.changesOnlyUnder {node other : Pattern α} {root edited : Slots α} {path : Path}
    (h : Spliced [node] [other] path root edited) (subdivision offset : Ticks) :
    ChangesOnlyUnder path (root.located subdivision offset)
      (edited.located subdivision offset) := by
  obtain ⟨front, back, slot, start, hroot, hedited, hothers⟩ :=
    h.exists_located subdivision offset
  refine ⟨front, _, _, back, hroot, hedited, hothers, fun entry hentry => ?_⟩
  obtain ⟨inner, rfl⟩ : ∃ inner : Located α, entry = inner.under path := by
    rcases List.mem_append.1 hentry with hold | hnew
    · obtain ⟨inner, -, rfl⟩ := List.mem_map.1 hold
      exact ⟨inner, rfl⟩
    · obtain ⟨inner, -, rfl⟩ := List.mem_map.1 hnew
      exact ⟨inner, rfl⟩
  exact List.prefix_append path inner.1

/-- A node that is put in among the slots of a root opens a slot. -/
theorem opensSlot (before after : Slots α) (node : Pattern α) (subdivision offset : Ticks) :
    OpensSlot before.length node subdivision offset
      (Slots.located (before ++ after) subdivision offset)
      (Slots.located (before ++ node :: after) subdivision offset) := by
  refine ⟨locatedFrom subdivision offset 0 before,
    locatedFrom subdivision offset before.length after, ?_, ?_, fun entry hentry => ?_,
    fun entry hentry => ?_⟩
  · rw [located, locatedFrom_append, Nat.zero_add]
  · rw [located, locatedFrom_append, Nat.zero_add, locatedFrom, locatedFrom_succ]
  · obtain ⟨j, rest, hpath, -, hlt⟩ := exists_index_of_mem_locatedFrom hentry
    exact ⟨j, rest, hpath, by omega⟩
  · obtain ⟨j, rest, hpath, hge, -⟩ := exists_index_of_mem_locatedFrom hentry
    exact ⟨j, rest, hpath, hge⟩

/-! ### Splices in groups -/

/-- A splice is made among the slots of the root, or makes another group of a group. -/
theorem Spliced.root_or_group {old new root edited : Slots α} {path : Path}
    (h : Spliced old new path root edited) :
    (∃ before after, path = [before.length] ∧ root = before ++ (old ++ after) ∧
      edited = before ++ (new ++ after)) ∨
    ∃ parent i children others, parent ≠ [] ∧ path = parent ++ [i] ∧
      Spliced [.group children] [.group others] parent root edited := by
  induction h with
  | here before after => exact .inl ⟨before, after, rfl, rfl, rfl⟩
  | @within front back path children edited h ih =>
    refine .inr ?_
    obtain ⟨before, after, rfl, -, -⟩ | ⟨parent, i, inner, others, -, rfl, hparent⟩ := ih
    · exact ⟨[front.length], before.length, children, edited, List.cons_ne_nil _ _, rfl,
        .here front back⟩
    · exact ⟨front.length :: parent, i, inner, others, List.cons_ne_nil _ _, rfl,
        .within front back hparent⟩

/-! ### Writes -/

/-- How the layout before a write and the one after it differ. A node that is set changes its block.
A node that is inserted or removed below the root changes the block of its group. A node that is
inserted in the root opens a slot, and one that is removed from the root leaves such a slot. -/
def Write.IsLocal (root : Slots α) (subdivision offset : Ticks)
    (before after : List (Located α)) : Write α → Prop
  | .replace _ => ChangesOnlyUnder [] before after
  | .setAt path _ => ChangesOnlyUnder path before after
  | .insertAt path value =>
    (∃ i, path = [i] ∧ OpensSlot i value subdivision offset before after) ∨
      ∃ parent i, parent ≠ [] ∧ path = parent ++ [i] ∧ ChangesOnlyUnder parent before after
  | .removeAt path =>
    (∃ i removed, path = [i] ∧ root[i]? = some removed ∧
      OpensSlot i removed subdivision offset after before) ∨
      ∃ parent i, parent ≠ [] ∧ path = parent ++ [i] ∧ ChangesOnlyUnder parent before after

/-- Every write is local. -/
theorem Write.Gives.isLocal {root edited : Slots α} {write : Write α} (h : write.Gives root edited)
    (subdivision offset : Ticks) :
    write.IsLocal root subdivision offset (root.located subdivision offset)
      (edited.located subdivision offset) := by
  cases write with
  | replace slots => exact changesOnlyUnder_nil _ _
  | setAt path value =>
    obtain ⟨previous, hspliced⟩ := h
    exact hspliced.changesOnlyUnder subdivision offset
  | insertAt path value =>
    obtain ⟨before, after, hpath, rfl, rfl⟩ | ⟨parent, i, children, others, hne, hpath, hparent⟩ :=
      Spliced.root_or_group h
    · exact .inl ⟨before.length, hpath, opensSlot before after value subdivision offset⟩
    · exact .inr ⟨parent, i, hne, hpath, hparent.changesOnlyUnder subdivision offset⟩
  | removeAt path =>
    obtain ⟨removed, hspliced⟩ := h
    obtain ⟨before, after, hpath, rfl, rfl⟩ | ⟨parent, i, children, others, hne, hpath, hparent⟩ :=
      hspliced.root_or_group
    · exact .inl ⟨before.length, removed, hpath, getElem?_length_append before after removed,
        opensSlot before after removed subdivision offset⟩
    · exact .inr ⟨parent, i, hne, hpath, hparent.changesOnlyUnder subdivision offset⟩

theorem layout_eq_located {root : Slots α} (h : root.HasNoEmptyGroup) (subdivision offset : Ticks) :
    root.layout subdivision offset = .ok ((root.located subdivision offset).map Prod.snd) := by
  rw [layout, firstEmptyGroup?_eq_none_iff.2 h, located, map_snd_locatedFrom, place]

end Slots

namespace TrackedPattern

open Slots

/-- **Edits are local in the layout.** Whatever is written to a pattern, laid out from whatever
offset: if neither the pattern nor what the write makes of it has an empty group, then both have
layouts, and the entries of these belong to the leaves of the two roots, each with its path. A node
that is set changes the entries of one block, those below its path, and a node that is inserted or
removed in a group those below the path of the group. All other entries keep their offsets and their
steps, in front of the block or behind it. A node that is inserted among the slots of the root
leaves the entries of the slots before it, and those of the slots behind it come one subdivision
later, or at the largest span. A node that is removed there undoes that. -/
theorem layout_write {pattern next : TrackedPattern α} {write : Write α} {edit : Edit α}
    (h : pattern.write write = .ok (next, edit)) (hbefore : pattern.root.HasNoEmptyGroup)
    (hafter : next.root.HasNoEmptyGroup) (subdivision offset : Ticks) :
    ∃ before after,
      pattern.root.layout subdivision offset = .ok (before.map Prod.snd) ∧
      before.map (fun entry => (entry.1, entry.2.step)) = pattern.root.leaves ∧
      next.root.layout subdivision offset = .ok (after.map Prod.snd) ∧
      after.map (fun entry => (entry.1, entry.2.step)) = next.root.leaves ∧
      write.IsLocal pattern.root subdivision offset before after := by
  obtain ⟨edited, undo, hgives, rfl, -⟩ := exists_of_write h
  exact ⟨pattern.root.located subdivision offset, edited.located subdivision offset,
    layout_eq_located hbefore subdivision offset, map_step_locatedFrom _ _ 0 _,
    layout_eq_located hafter subdivision offset, map_step_locatedFrom _ _ 0 _,
    hgives.isLocal subdivision offset⟩

/-- A sound is inserted in front of a group, close to the largest span: the sounds of the group fall
together there. -/
theorem layout_write_at_end :
    let pattern : TrackedPattern Char := ⟨[.sound 'a', .group [.sound 'b', .sound 'c']], 0⟩
    let next : TrackedPattern Char :=
      ⟨[.sound 'a', .sound 'x', .group [.sound 'b', .sound 'c']], 1⟩
    pattern.write (.insertAt [1] (.sound 'x')) = .ok (next, .insert [1]) ∧
      pattern.root.HasNoEmptyGroup ∧ next.root.HasNoEmptyGroup ∧
      ∃ before after,
        pattern.root.layout 100 18446744073709551460 = .ok (before.map Prod.snd) ∧
        next.root.layout 100 18446744073709551460 = .ok (after.map Prod.snd) ∧
        (after.map Prod.snd).map (·.offset.val) = [18446744073709551460, 18446744073709551560,
          18446744073709551615, 18446744073709551615] ∧
        OpensSlot 1 (.sound 'x') 100 18446744073709551460 before after := by
  intro pattern next
  have hwrite : pattern.write (.insertAt [1] (.sound 'x')) = .ok (next, .insert [1]) := rfl
  have hbefore : pattern.root.HasNoEmptyGroup := firstEmptyGroup?_eq_none_iff.1 rfl
  have hafter : next.root.HasNoEmptyGroup := firstEmptyGroup?_eq_none_iff.1 rfl
  obtain ⟨before, after, hlayout, -, hlayout', -, hlocal⟩ :=
    layout_write hwrite hbefore hafter 100 18446744073709551460
  have hplaced : after.map Prod.snd = next.root.place 100 18446744073709551460 :=
    (Except.ok.inj hlayout').symm
  refine ⟨hwrite, hbefore, hafter, before, after, hlayout, hlayout', ?_, ?_⟩
  · rw [hplaced]
    decide
  · obtain ⟨i, hi, hopens⟩ | ⟨parent, i, hne, hpath, -⟩ := hlocal
    · cases hi
      exact hopens
    · have hparent := (List.append_inj' (show [] ++ [1] = parent ++ [i] from hpath) rfl).1
      exact absurd hparent.symm hne

end TrackedPattern

end Ostinato
