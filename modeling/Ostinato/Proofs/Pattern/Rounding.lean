import Mathlib.Algebra.Order.BigOperators.Group.Finset
import Mathlib.Algebra.Order.Floor.Semifield
import Mathlib.Algebra.BigOperators.Ring.Finset
import Mathlib.Data.Nat.Cast.Field
import Mathlib.Data.Nat.Cast.Order.Field
import Mathlib.Data.Rat.Floor
import Ostinato.Proofs.Pattern.Locality
import Ostinato.Proofs.Pattern.Offsets
import Ostinato.Time.Meter

/-!
# Rounding of a layout

If ticks could be divided, a leaf would stand at an exact position, where each of its indices counts
slots of a subdivision divided by the sizes of the groups around. A layout rounds the length of each
slot down, so it places a leaf early, by less than a tick for each slot that an index counts within
a group. Slots of the root are not rounded, and if the sizes of the groups divide the subdivision,
nothing is.

## Main definitions

* `Slots.partsAt`: into how many parts the groups along a path divide a subdivision.
* `Slots.exactAt`: the exact position of a path.
* `lost`: what rounding the length of a slot down takes away.

## Main results

* `Slots.exactAt_sub_offsetAt`: a path is early by what its slots have lost.
* `Slots.layout_rounding`: how early the leaves of a layout are.
-/

namespace Ostinato

open Finset (range)

variable {α : Type}

/-! ### Exact positions -/

namespace Slots

/-- Into how many parts a subdivision is divided by the first `depth` groups along a path. -/
def partsAt (root : Slots α) (path : Path) (depth : Nat) : Nat :=
  ∏ l ∈ range depth, root.sizeAt (path.take (l + 1))

/-- The position of the node at a path if ticks could be divided. -/
def exactAt (root : Slots α) (subdivision offset : Nat) (path : Path) : ℚ :=
  offset + ∑ j ∈ range path.length, path.getD j 0 * ((subdivision : ℚ) / root.partsAt path j)

end Slots

/-! ### Losses -/

/-- What a slot loses by rounding down, if it is one of equal parts of a subdivision. -/
def lost (subdivision parts : Nat) : ℚ :=
  (subdivision : ℚ) / parts - (subdivision / parts : Nat)

theorem lost_nonneg (subdivision parts : Nat) : 0 ≤ lost subdivision parts :=
  sub_nonneg.2 Nat.cast_div_le

theorem lost_lt_one (subdivision parts : Nat) : lost subdivision parts < 1 := by
  have h := Nat.lt_floor_add_one ((subdivision : ℚ) / parts)
  rw [Nat.floor_div_eq_div] at h
  rw [lost]
  linarith

theorem lost_of_dvd {subdivision parts : Nat} (h : parts ∣ subdivision) :
    lost subdivision parts = 0 := by
  rw [lost, Nat.cast_div_charZero h, sub_self]

theorem lost_one (subdivision : Nat) : lost subdivision 1 = 0 :=
  lost_of_dvd (one_dvd subdivision)

namespace Slots

/-- A path is early by what its slots have lost: each index behind the first one counts slots of a
group. -/
theorem exactAt_sub_offsetAt (root : Slots α) (subdivision offset : Nat) (path : Path) :
    root.exactAt subdivision offset path - root.offsetAt subdivision offset path =
      ∑ j ∈ range path.tail.length,
        path.tail.getD j 0 * lost subdivision (root.partsAt path (j + 1)) := by
  have hsum : root.exactAt subdivision offset path - root.offsetAt subdivision offset path =
      ∑ j ∈ range path.length, path.getD j 0 * lost subdivision (root.partsAt path j) := by
    simp only [exactAt, offsetAt, lost, partsAt, Nat.cast_add, Nat.cast_sum, Nat.cast_mul,
      add_sub_add_left_eq_sub, ← Finset.sum_sub_distrib, mul_sub]
  rw [hsum]
  cases path with
  | nil => rfl
  | cons i rest =>
    rw [List.length_cons, Finset.sum_range_succ', partsAt, Finset.prod_range_zero, lost_one,
      mul_zero, add_zero]
    rfl

theorem sum_tail_eq (path : Path) :
    path.tail.sum = ∑ j ∈ range path.tail.length, path.tail.getD j 0 := by
  induction path.tail with
  | nil => rfl
  | cons i rest ih =>
    rw [List.sum_cons, ih, List.length_cons, Finset.sum_range_succ', Nat.add_comm]
    rfl

variable (root : Slots α) (subdivision offset : Nat) {path : Path}

theorem offsetAt_le_exactAt (path : Path) :
    (root.offsetAt subdivision offset path : ℚ) ≤ root.exactAt subdivision offset path := by
  rw [← sub_nonneg, exactAt_sub_offsetAt]
  exact Finset.sum_nonneg fun j _ => mul_nonneg (Nat.cast_nonneg _) (lost_nonneg _ _)

theorem exactAt_sub_offsetAt_lt (h : 0 < path.tail.sum) :
    root.exactAt subdivision offset path - root.offsetAt subdivision offset path <
      path.tail.sum := by
  rw [exactAt_sub_offsetAt, sum_tail_eq, Nat.cast_sum]
  refine Finset.sum_lt_sum
    (fun j _ => mul_le_of_le_one_right (Nat.cast_nonneg _) (lost_lt_one _ _).le) ?_
  rw [sum_tail_eq] at h
  obtain ⟨j, hj, hne⟩ := Finset.exists_ne_zero_of_sum_ne_zero h.ne'
  exact ⟨j, hj, mul_lt_of_lt_one_right (Nat.cast_pos.2 (Nat.pos_of_ne_zero hne)) (lost_lt_one _ _)⟩

theorem exactAt_eq_offsetAt_of_sum_eq_zero (h : path.tail.sum = 0) :
    root.exactAt subdivision offset path = root.offsetAt subdivision offset path := by
  rw [sum_tail_eq, Finset.sum_eq_zero_iff] at h
  rw [← sub_eq_zero, exactAt_sub_offsetAt]
  refine Finset.sum_eq_zero fun j hj => ?_
  rw [h j hj, Nat.cast_zero, zero_mul]

theorem exactAt_eq_offsetAt_of_dvd (h : root.partsAt path path.tail.length ∣ subdivision) :
    root.exactAt subdivision offset path = root.offsetAt subdivision offset path := by
  rw [← sub_eq_zero, exactAt_sub_offsetAt]
  refine Finset.sum_eq_zero fun j hj => ?_
  -- the groups down to a level are some of all groups
  have hdvd : root.partsAt path (j + 1) ∣ root.partsAt path path.tail.length :=
    Finset.prod_dvd_prod_of_subset _ _ _ (Finset.range_subset_range.2 (Finset.mem_range.1 hj))
  rw [lost_of_dvd (hdvd.trans h), mul_zero]

/-! ### Leaves of a layout -/

variable {root} in
theorem offset_of_mem_located {subdivision offset : Ticks} {entry : Located α}
    (h : entry ∈ root.located subdivision offset) :
    entry.2.offset = Span.ofNat (root.offsetAt subdivision.val offset.val entry.1) := by
  have hplaced : (root.located subdivision offset).map Prod.snd =
      (root.located subdivision offset).map fun entry =>
        ⟨Span.ofNat (root.offsetAt subdivision.val offset.val entry.1), entry.2.step⟩ := by
    rw [located, map_snd_locatedFrom, ← place, place_eq_map_leaves, leaves, ← map_step_locatedFrom,
      List.map_map]
    rfl
  exact congrArg Placement.offset (List.map_inj_left.1 hplaced entry h)

end Slots

theorem Ticks.val_ofNoteValue (value : Nat) :
    (Ticks.ofNoteValue value).val = Ticks.perWhole / max value 1 :=
  Nat.min_eq_left (Nat.le_trans (Nat.div_le_self _ _) (by decide))

/-- **Rounding of a layout.** A root without empty groups is laid out with one entry for each leaf,
in reading order. An entry whose offset is in range is not late, and it is early by less than a tick
for each slot that the indices of its path count within groups; if they count none, it is not early
at all. Nor is it if the sizes of the groups around, multiplied, divide the subdivision, such as the
ticks of a note. -/
theorem Slots.layout_rounding (root : Slots α) (h : root.HasNoEmptyGroup)
    (subdivision offset : Ticks) :
    ∃ entries : List (Located α),
      root.layout subdivision offset = .ok (entries.map Prod.snd) ∧
      entries.map (fun entry => (entry.1, entry.2.step)) = root.leaves ∧
      ∀ entry ∈ entries, root.offsetAt subdivision.val offset.val entry.1 ≤ 2 ^ 64 - 1 →
        let exact : ℚ := root.exactAt subdivision.val offset.val entry.1
        let placed : ℚ := entry.2.offset.val
        let parts := root.partsAt entry.1 entry.1.tail.length
        0 ≤ exact - placed ∧
        (0 < entry.1.tail.sum → exact - placed < entry.1.tail.sum) ∧
        (entry.1.tail.sum = 0 → exact - placed = 0) ∧
        (parts ∣ subdivision.val → exact = placed) ∧
        ∀ value, subdivision = Ticks.ofNoteValue value →
          parts ∣ Ticks.perWhole / max value 1 → exact = placed := by
  refine ⟨root.located subdivision offset, layout_eq_located h subdivision offset,
    map_step_locatedFrom _ _ 0 _, fun entry hentry hrange => ?_⟩
  have hmax : 2 ^ 64 - 1 = maxCount := by decide
  have hplaced : entry.2.offset.val = root.offsetAt subdivision.val offset.val entry.1 := by
    rw [offset_of_mem_located hentry, Span.val_ofNat, Nat.min_eq_left (hmax ▸ hrange)]
  intro exact placed parts
  simp only [exact, placed, hplaced]
  refine ⟨sub_nonneg.2 (root.offsetAt_le_exactAt _ _ _), root.exactAt_sub_offsetAt_lt _ _,
    fun hsum => sub_eq_zero.2 (root.exactAt_eq_offsetAt_of_sum_eq_zero _ _ hsum), ?_, ?_⟩
  · exact root.exactAt_eq_offsetAt_of_dvd _ _
  · rintro value rfl hnote
    exact root.exactAt_eq_offsetAt_of_dvd _ _ (Ticks.val_ofNoteValue value ▸ hnote)

/-- A third of ten ticks, and half of that: the last sound is early by four thirds of a tick, and
its path counts three slots in groups. Halves of thirds of a quarter are exact. -/
theorem Slots.layout_rounding_nested :
    let root : Slots Char :=
      [.sound 'a', .group [.sound 'b', .sound 'c', .group [.sound 'd', .sound 'e']]]
    root.HasNoEmptyGroup ∧
      (∃ entries : List (Located Char), root.layout 10 1 = .ok (entries.map Prod.snd) ∧
        ∃ entry ∈ entries, entry.1 = [1, 2, 1] ∧ root.offsetAt 10 1 [1, 2, 1] ≤ 2 ^ 64 - 1 ∧
          root.exactAt 10 1 [1, 2, 1] = 58 / 3 ∧
          0 ≤ 58 / 3 - (entry.2.offset.val : ℚ) ∧ 58 / 3 - (entry.2.offset.val : ℚ) < 3) ∧
      ∃ entries : List (Located Char),
        root.layout (.ofNoteValue 4) 1 = .ok (entries.map Prod.snd) ∧
        ∃ entry ∈ entries, entry.1 = [1, 2, 1] ∧
          root.partsAt [1, 2, 1] 2 ∣ Ticks.perWhole / max 4 1 ∧
          root.exactAt (Ticks.ofNoteValue 4).val 1 [1, 2, 1] = entry.2.offset.val := by
  intro root
  have hfull : root.HasNoEmptyGroup := Slots.firstEmptyGroup?_eq_none_iff.1 rfl
  have hleaf : ([1, 2, 1], Step.sound 'e') ∈ root.leaves := by decide
  have hexact : root.exactAt 10 1 [1, 2, 1] = 58 / 3 := by decide +kernel
  refine ⟨hfull, ?_, ?_⟩
  · obtain ⟨entries, hlayout, hleaves, hearly⟩ := layout_rounding root hfull 10 1
    rw [← hleaves] at hleaf
    obtain ⟨⟨path, placement⟩, hentry, hpath⟩ := List.mem_map.1 hleaf
    obtain ⟨rfl, -⟩ := Prod.mk.inj hpath
    have hrange : root.offsetAt 10 1 [1, 2, 1] ≤ 2 ^ 64 - 1 := by decide
    have hsum : 0 < ([1, 2, 1] : Path).tail.sum := by decide
    obtain ⟨hnotLate, hless, -⟩ := hearly _ hentry hrange
    exact ⟨entries, hlayout, _, hentry, rfl, hrange, hexact, hexact ▸ hnotLate,
      hexact ▸ hless hsum⟩
  · obtain ⟨entries, hlayout, hleaves, hearly⟩ := layout_rounding root hfull (.ofNoteValue 4) 1
    rw [← hleaves] at hleaf
    obtain ⟨⟨path, placement⟩, hentry, hpath⟩ := List.mem_map.1 hleaf
    obtain ⟨rfl, -⟩ := Prod.mk.inj hpath
    have hrange : root.offsetAt (Ticks.ofNoteValue 4).val 1 [1, 2, 1] ≤ 2 ^ 64 - 1 := by decide
    have hdvd : root.partsAt [1, 2, 1] 2 ∣ Ticks.perWhole / max 4 1 := by decide
    obtain ⟨-, -, -, -, hnote⟩ := hearly _ hentry hrange
    exact ⟨entries, hlayout, _, hentry, rfl, hdvd, hnote 4 rfl hdvd⟩

end Ostinato
