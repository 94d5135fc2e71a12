import Ostinato.Proofs.Pattern.Leaves

/-!
# Order of a layout

Each node is placed within its slot, so the placements of a layout come in the order of their
offsets. Where sums are stopped at the largest span, placements may fall together, but they never
change places.

## Main results

* `Pattern.le_offset_of_mem_place`, `Pattern.offset_le_of_mem_place`: a node is placed within its
  slot.
* `Pattern.offset_lt_of_mem_place`: it is placed before the end of a slot that ends within the
  range.
* `Slots.pairwise_place`: the offsets of a layout do not descend.
-/

namespace Ostinato

variable {α : Type}

/-- Nothing of a node is placed before its slot. -/
theorem Pattern.le_offset_of_mem_place (node : Pattern α) :
    ∀ (slot start : Ticks), ∀ p ∈ node.place slot start, start ≤ p.offset := by
  induction node using Pattern.induction with
  | leaf step =>
    intro slot start p hp
    cases List.mem_singleton.1 hp
    exact Nat.le_refl _
  | group children ih =>
    intro slot start p hp
    rw [Pattern.place, Slots.placeFrom_eq_flatMap] at hp
    obtain ⟨⟨child, i⟩, hmem, hp⟩ := List.mem_flatMap.1 hp
    have hchild := List.mem_of_getElem? (List.mem_zipIdx_iff_getElem?.1 hmem)
    have hle : start + slot / children.length * i ≤ p.offset := ih child hchild _ _ p hp
    rw [Span.le_def, Span.val_add, Span.val_mul] at hle
    have hmax := start.val_le
    rw [Span.le_def]
    omega

/-- Nothing of a node is placed behind its slot. -/
theorem Pattern.offset_le_of_mem_place (node : Pattern α) :
    ∀ (slot start : Ticks), ∀ p ∈ node.place slot start, p.offset ≤ start + slot := by
  induction node using Pattern.induction with
  | leaf step =>
    intro slot start p hp
    cases List.mem_singleton.1 hp
    have hmax := start.val_le
    change start.val ≤ (start + slot).val
    rw [Span.val_add]
    omega
  | group children ih =>
    intro slot start p hp
    rw [Pattern.place, Slots.placeFrom_eq_flatMap] at hp
    obtain ⟨⟨child, i⟩, hmem, hp⟩ := List.mem_flatMap.1 hp
    have hget : children[i]? = some child := List.mem_zipIdx_iff_getElem?.1 hmem
    have hle : p.offset ≤ start + slot / children.length * i + slot / children.length :=
      ih child (List.mem_of_getElem? hget) _ _ p hp
    have hi : i < children.length := (List.getElem?_eq_some_iff.1 hget).1
    have hshares : slot.val / children.length * (i + 1) ≤ slot.val :=
      Nat.le_trans (Nat.mul_le_mul_left _ hi) (Nat.div_mul_le_self _ _)
    rw [Span.le_def, Span.val_add, Span.val_add, Span.val_mul, Span.val_div] at hle
    rw [Nat.mul_succ] at hshares
    rw [Span.le_def, Span.val_add]
    omega

/-- Nothing of a node is placed at the end of its slot, if the slot has a length and its end is in
range. -/
theorem Pattern.offset_lt_of_mem_place (node : Pattern α) :
    ∀ slot start : Ticks, 0 < slot.val → start.val + slot.val ≤ maxCount →
      ∀ p ∈ node.place slot start, p.offset < start + slot := by
  induction node using Pattern.induction with
  | leaf step =>
    intro slot start hpos hrange p hp
    cases List.mem_singleton.1 hp
    change start.val < (start + slot).val
    rw [Span.val_add]
    omega
  | group children ih =>
    intro slot start hpos hrange p hp
    rw [Pattern.place, Slots.placeFrom_eq_flatMap] at hp
    obtain ⟨⟨child, i⟩, hmem, hp⟩ := List.mem_flatMap.1 hp
    have hget : children[i]? = some child := List.mem_zipIdx_iff_getElem?.1 hmem
    have hi : i < children.length := (List.getElem?_eq_some_iff.1 hget).1
    have hshares : slot.val / children.length * (i + 1) ≤ slot.val :=
      Nat.le_trans (Nat.mul_le_mul_left _ hi) (Nat.div_mul_le_self _ _)
    rw [Nat.mul_succ] at hshares
    -- a share of no ticks puts the whole group at the start of its slot
    rcases Nat.eq_zero_or_pos (slot.val / children.length) with hzero | hshare
    · have hle := child.offset_le_of_mem_place _ _ p hp
      rw [Span.le_def, Span.val_add, Span.val_add, Span.val_mul, Span.val_div, hzero] at hle
      rw [Span.lt_def, Span.val_add]
      omega
    · have hstart : (start + slot / children.length * i).val =
          start.val + slot.val / children.length * i := by
        rw [Span.val_add, Span.val_mul, Span.val_div]
        omega
      have hlt := ih child (List.mem_of_getElem? hget) (slot / children.length) _ hshare
        (by rw [hstart, Span.val_div]; omega) p hp
      rw [Span.lt_def, Span.val_add, hstart, Span.val_div] at hlt
      rw [Span.lt_def, Span.val_add]
      omega

/-- Slots of one length are placed one after the other. -/
theorem Slots.pairwise_flatMap_place (slots : Slots α) (slot start : Ticks)
    (h : ∀ child ∈ slots, ∀ slot start : Ticks,
      (child.place slot start).Pairwise fun p q => p.offset ≤ q.offset) :
    (slots.zipIdx.flatMap fun child =>
      child.1.place slot (start + slot * child.2)).Pairwise fun p q => p.offset ≤ q.offset := by
  refine List.pairwise_flatMap.2 ⟨?_, ?_⟩
  · rintro ⟨child, i⟩ hmem
    exact h child (List.mem_of_getElem? (List.mem_zipIdx_iff_getElem?.1 hmem)) _ _
  · refine (Slots.pairwise_zipIdx slots).imp fun {a b} hlt p hp q hq => ?_
    have hle := a.1.offset_le_of_mem_place _ _ p hp
    have hge := b.1.le_offset_of_mem_place _ _ q hq
    have hslots : slot.val * (a.2 + 1) ≤ slot.val * b.2 := Nat.mul_le_mul_left _ hlt
    rw [Nat.mul_succ] at hslots
    rw [Span.le_def, Span.val_add, Span.val_add, Span.val_mul] at hle
    rw [Span.le_def, Span.val_add, Span.val_mul] at hge
    rw [Span.le_def]
    omega

theorem Pattern.pairwise_place (node : Pattern α) : ∀ slot start : Ticks,
    (node.place slot start).Pairwise fun p q => p.offset ≤ q.offset := by
  induction node using Pattern.induction with
  | leaf step => exact fun _ _ => List.pairwise_singleton _ _
  | group children ih =>
    intro slot start
    rw [Pattern.place, Slots.placeFrom_eq_flatMap]
    exact Slots.pairwise_flatMap_place children _ start ih

/-- The offsets of a layout do not descend. -/
theorem Slots.pairwise_place (root : Slots α) (subdivision offset : Ticks) :
    (root.place subdivision offset).Pairwise fun p q => p.offset ≤ q.offset := by
  rw [Slots.place, Slots.placeFrom_eq_flatMap]
  exact Slots.pairwise_flatMap_place root _ _ fun child _ => child.pairwise_place

end Ostinato
