import Ostinato.Proofs.Pattern.Locality
import Ostinato.Proofs.Sequence.Sounds

/-!
# Layouts on the grid

A layout goes down from the root into the groups, and the grid of a sequence counts root slots,
which is what a start from a slot and the loop window rely on. Both meet at every slot: the first
leaf of a slot is placed on the line of the slot, its other leaves between that line and the next,
and the leaves of later slots on the next line or behind it. On the clock, where lines may fall
together, that holds without the next line being kept clear.

## Main definitions

* `Grid.Divides`: the entries of a layout, divided at the lines of a slot.

## Main results

* `Pattern.exists_located_eq_cons`: the first leaf of a node is placed at the start of its slot.
* `Grid.divides_located`: the lines of the grid divide a layout.
* `Sequence.start_of_isLive`, `Sequence.IsLaidOut.exists_entry`: a start from a slot finds the entry
  of its first leaf.
* `Sequence.layout_on_grid`: layouts and starts agree.
-/

namespace Ostinato

variable {γ α : Type}

/-! ### Entries of nodes and slots -/

/-- The first leaf of a node is placed at the start of its slot, however deep it lies. -/
theorem Pattern.exists_located_eq_cons (node : Pattern α) :
    node.firstEmptyGroup? = none → ∀ slot start : Ticks, ∃ path step rest,
      node.located slot start = (path, ⟨start, step⟩) :: rest := by
  induction node using Pattern.induction with
  | leaf step => exact fun _ slot start => ⟨[], step, [], rfl⟩
  | group children ih =>
    intro hfull slot start
    cases children with
    | nil => simp [Pattern.firstEmptyGroup?] at hfull
    | cons child others =>
      have hchild := Slots.firstEmptyGroup?_eq_none.1 hfull child List.mem_cons_self
      have hstart : start + slot / (child :: others).length * 0 = start :=
        Span.add_eq_left (by simp)
      obtain ⟨path, step, rest, hfirst⟩ := ih child List.mem_cons_self hchild
        (slot / (child :: others).length) start
      rw [Pattern.located, Slots.locatedFrom, hstart, hfirst]
      exact ⟨0 :: path, step, _, rfl⟩

theorem Pattern.mem_place_of_mem_located {node : Pattern α} {slot start : Ticks} {entry : Located α}
    (h : entry ∈ node.located slot start) : entry.2 ∈ node.place slot start := by
  rw [← node.map_snd_located slot start]
  exact List.mem_map_of_mem h

namespace Slots

theorem le_offset_of_mem_locatedFrom {slot start : Ticks} {index : Nat} {slots : Slots α}
    {entry : Located α} (h : entry ∈ locatedFrom slot start index slots) :
    start + slot * index ≤ entry.2.offset := by
  induction slots generalizing index with
  | nil => exact absurd h List.not_mem_nil
  | cons child children ih =>
    rcases List.mem_append.1 h with hchild | hchildren
    · obtain ⟨inner, hinner, rfl⟩ := List.mem_map.1 hchild
      exact child.le_offset_of_mem_place _ _ inner.2 (Pattern.mem_place_of_mem_located hinner)
    · have hnext := ih hchildren
      have hmax := (start + slot * index).val_le
      rw [Span.add_mul_succ, Span.le_def, Span.val_add] at hnext
      rw [Span.le_def]
      omega

/-- A layout is what is placed before a slot, the entries of the slot, and what is placed behind. -/
theorem located_eq_append {root : Slots α} {i : Nat} {child : Pattern α} (h : root[i]? = some child)
    (subdivision offset : Ticks) :
    ∃ before after : Slots α, before.length = i ∧ root.located subdivision offset =
      locatedFrom subdivision offset 0 before ++
        ((child.located subdivision (offset + subdivision * i)).map (Located.under [i]) ++
          locatedFrom subdivision offset (i + 1) after) := by
  obtain ⟨before, after, rfl, rfl⟩ := exists_eq_append_cons h
  refine ⟨before, after, rfl, ?_⟩
  rw [located, locatedFrom_append, Nat.zero_add, locatedFrom]

theorem pairwise_located (root : Slots α) (subdivision offset : Ticks) :
    (root.located subdivision offset).Pairwise fun a b => a.2.offset ≤ b.2.offset := by
  have h := root.pairwise_place subdivision offset
  rw [place, ← map_snd_locatedFrom, List.pairwise_map] at h
  exact h

end Slots

/-! ### Lines of the grid -/

namespace Grid

theorem ticks_eq (grid : Grid) (index : Nat) :
    grid.ticks index = grid.startOffset + grid.subdivision * index := by
  refine Span.ext ?_
  rw [ticks, Span.val_add, Span.val_add, Nat.add_comm]

theorem ticks_succ (grid : Grid) (index : Nat) :
    grid.ticks (index + 1) = grid.ticks index + grid.subdivision := by
  rw [ticks_eq, ticks_eq, Span.add_mul_succ]

/-- The entries of a layout, divided at the lines of the slot with an index: those of the slots
before it, those of the slot, of which the first is on the line of the slot and none behind the next
line or, if that is in range, on it, and those of the slots behind, none of which is before the next
line. -/
structure Divides (grid : Grid) (i : Nat) (front : List (Located α)) (first : Located α)
    (others back : List (Located α)) : Prop where
  slot_front : ∀ entry ∈ front, ∃ j rest, entry.1 = j :: rest ∧ j < i
  slot_within : ∀ entry ∈ first :: others, ∃ rest, entry.1 = i :: rest
  slot_back : ∀ entry ∈ back, ∃ j rest, entry.1 = j :: rest ∧ i < j
  offset_first : first.2.offset = grid.ticks i
  ticks_le : ∀ entry ∈ first :: others, grid.ticks i ≤ entry.2.offset
  le_ticks_succ : ∀ entry ∈ first :: others, entry.2.offset ≤ grid.ticks (i + 1)
  lt_ticks_succ : grid.subdivision.val * (i + 1) + grid.startOffset.val ≤ maxCount →
    ∀ entry ∈ first :: others, entry.2.offset < grid.ticks (i + 1)
  ticks_succ_le : ∀ entry ∈ back, grid.ticks (i + 1) ≤ entry.2.offset

/-- The lines of a slot divide a layout. -/
theorem divides_located (grid : Grid) {root : Slots α} (h : root.HasNoEmptyGroup)
    (hpos : 0 < grid.subdivision) {i : Nat} (hi : i < root.length) :
    ∃ front first others back,
      root.located grid.subdivision grid.startOffset = front ++ (first :: others ++ back) ∧
      grid.Divides i front first others back := by
  obtain ⟨child, hchild⟩ : ∃ child, root[i]? = some child :=
    ⟨root[i], List.getElem?_eq_getElem hi⟩
  have hfull : child.firstEmptyGroup? = none :=
    Slots.firstEmptyGroup?_eq_none.1 (Slots.firstEmptyGroup?_eq_none_iff.2 h) child
      (List.mem_of_getElem? hchild)
  obtain ⟨before, after, hlength, hlocated⟩ :=
    Slots.located_eq_append hchild grid.subdivision grid.startOffset
  rw [← ticks_eq] at hlocated
  obtain ⟨path, step, rest, hfirst⟩ :=
    child.exists_located_eq_cons hfull grid.subdivision (grid.ticks i)
  have hslot : (child.located grid.subdivision (grid.ticks i)).map (Located.under [i]) =
      (i :: path, ⟨grid.ticks i, step⟩) :: rest.map (Located.under [i]) := by
    rw [hfirst]
    rfl
  -- what holds of the placements of the child holds of the entries of its slot
  have hwithin : ∀ p : Ticks → Prop,
      (∀ q ∈ child.place grid.subdivision (grid.ticks i), p q.offset) →
      ∀ entry ∈ (i :: path, ⟨grid.ticks i, step⟩) :: rest.map (Located.under [i]),
        p entry.2.offset := by
    intro p hp entry hentry
    rw [← hslot] at hentry
    obtain ⟨inner, hinner, rfl⟩ := List.mem_map.1 hentry
    exact hp inner.2 (Pattern.mem_place_of_mem_located hinner)
  refine ⟨Slots.locatedFrom grid.subdivision grid.startOffset 0 before, _, _,
    Slots.locatedFrom grid.subdivision grid.startOffset (i + 1) after, hslot ▸ hlocated, ?_⟩
  constructor
  case slot_front =>
    intro entry hentry
    obtain ⟨j, inner, hpath, -, hlt⟩ := Slots.exists_index_of_mem_locatedFrom hentry
    exact ⟨j, inner, hpath, by omega⟩
  case slot_within =>
    intro entry hentry
    rw [← hslot] at hentry
    obtain ⟨inner, -, rfl⟩ := List.mem_map.1 hentry
    exact ⟨inner.1, rfl⟩
  case slot_back =>
    intro entry hentry
    obtain ⟨j, inner, hpath, hle, -⟩ := Slots.exists_index_of_mem_locatedFrom hentry
    exact ⟨j, inner, hpath, hle⟩
  case offset_first => rfl
  case ticks_le => exact hwithin (grid.ticks i ≤ ·) (child.le_offset_of_mem_place _ _)
  case le_ticks_succ =>
    rw [ticks_succ]
    exact hwithin (· ≤ grid.ticks i + grid.subdivision) (child.offset_le_of_mem_place _ _)
  case lt_ticks_succ =>
    intro hrange
    rw [ticks_succ]
    refine hwithin (· < grid.ticks i + grid.subdivision)
      (child.offset_lt_of_mem_place _ _ hpos ?_)
    rw [Nat.mul_succ] at hrange
    rw [ticks, Span.val_add, Span.val_mul]
    omega
  case ticks_succ_le =>
    rw [ticks_eq]
    exact fun entry hentry => Slots.le_offset_of_mem_locatedFrom hentry

/-- The lines divide a layout on the clock, too, but entries may fall together with the next
line. -/
theorem Divides.onClock {grid : Grid} {i : Nat} {front others back : List (Located α)}
    {first : Located α} (h : grid.Divides i front first others back) :
    grid.meter.toClock first.2.offset = grid.time i ∧
      (∀ entry ∈ first :: others, grid.time i ≤ grid.meter.toClock entry.2.offset ∧
        grid.meter.toClock entry.2.offset ≤ grid.time (i + 1)) ∧
      ∀ entry ∈ back, grid.time (i + 1) ≤ grid.meter.toClock entry.2.offset := by
  refine ⟨congrArg grid.meter.toClock h.offset_first, fun entry hentry => ⟨?_, ?_⟩,
    fun entry hentry => ?_⟩
  · exact grid.meter.toClock_le_toClock (h.ticks_le entry hentry)
  · exact grid.meter.toClock_le_toClock (h.le_ticks_succ entry hentry)
  · exact grid.meter.toClock_le_toClock (h.ticks_succ_le entry hentry)

end Grid

/-! ### Starts -/

namespace Sequence

/-- The entries of a sequence that is laid out are those of its layout, on the clock. -/
theorem IsLaidOut.map_timed {sequence : Sequence γ α} (h : sequence.IsLaidOut)
    (hfull : sequence.pattern.root.HasNoEmptyGroup) :
    sequence.part.schedule.entries.map Entry.timed =
      (sequence.pattern.root.located sequence.grid.subdivision sequence.grid.startOffset).map
        fun entry => entry.2.onClock sequence.meter := by
  obtain ⟨placements, hlayout, hentries⟩ := h
  have hplacements := Slots.layout_eq_located hfull sequence.subdivision sequence.part.startOffset
  rw [hlayout] at hplacements
  rw [hentries, Except.ok.inj hplacements, List.map_map]
  rfl

/-- A live sequence is started from a slot at the clock time of its line. -/
theorem start_of_isLive {sequence : Sequence γ α} (h : sequence.IsLive) (time : Option ClockTime)
    (i : Nat) :
    (sequence.start time (some i)).error = none ∧
      (sequence.start time (some i)).sequence.part.transport.position = sequence.grid.time i ∧
      (sequence.start time (some i)).sequence.part.schedule = sequence.part.schedule := by
  rw [start, ifLive_of_not_disposed h.1]
  refine ⟨rfl, ?_, rfl⟩
  simp [onPart, Part.start, Transport.start, h.2]

/-- Where the lines of a slot divide the layout of a sequence, they divide its entries: there are as
many before the slot, then comes the one of its first leaf, and no other is earlier than that. -/
theorem IsLaidOut.exists_entry {sequence : Sequence γ α} (h : sequence.IsLaidOut)
    (hfull : sequence.pattern.root.HasNoEmptyGroup) {front others back : List (Located α)}
    {first : Located α}
    (hlocated : sequence.pattern.root.located sequence.grid.subdivision sequence.grid.startOffset =
      front ++ (first :: others ++ back)) :
    ∃ earlier found later, sequence.part.schedule.entries = earlier ++ found :: later ∧
      earlier.length = front.length ∧ found.timed = first.2.onClock sequence.meter ∧
      ∀ entry ∈ later, found.time ≤ entry.time := by
  have hentries := h.map_timed hfull
  rw [hlocated, List.map_append, List.cons_append, List.map_cons,
    List.map_eq_append_iff] at hentries
  obtain ⟨earlier, rest, hsplit, hearlier, hrest⟩ := hentries
  obtain ⟨found, later, rfl, hfound, -⟩ := List.map_eq_cons_iff.1 hrest
  refine ⟨earlier, found, later, hsplit, ?_, hfound, ?_⟩
  · simpa using congrArg List.length hearlier
  · have horder := sequence.part.schedule.inOrder_entries
    rw [hsplit] at horder
    exact (List.pairwise_cons.1 (List.pairwise_append.1 horder).2.1).1

/-- **Layouts and the grid agree.** A root without empty groups, laid out with a subdivision of some
ticks from whatever offset, has entries whose offsets do not descend, and neither do their clock
times under any meter. Around each slot, the lines of the grid divide them: the first entry of the
slot is on its line, no other is before that, and all are before the next line, or on it at most if
it is out of range, and behind the slot none is before the next line. The clock times of the lines
divide the clock times of the entries in the same way, except that an entry may fall together with
the next line. So a live sequence with this root on this grid that is started from the slot stands
at the clock time of its first leaf, and if it is laid out, that is the time of the entry of this
leaf, and the entries behind it are at this time or later. -/
theorem layout_on_grid (grid : Grid) (root : Slots α) (h : root.HasNoEmptyGroup)
    (hpos : 0 < grid.subdivision) :
    ∃ entries : List (Located α),
      root.layout grid.subdivision grid.startOffset = .ok (entries.map Prod.snd) ∧
      entries.map (fun entry => (entry.1, entry.2.step)) = root.leaves ∧
      entries.Pairwise (fun a b => a.2.offset ≤ b.2.offset) ∧
      entries.Pairwise (fun a b =>
        grid.meter.toClock a.2.offset ≤ grid.meter.toClock b.2.offset) ∧
      ∀ i < root.length, ∃ front first others back,
        entries = front ++ (first :: others ++ back) ∧
        grid.Divides i front first others back ∧
        grid.meter.toClock first.2.offset = grid.time i ∧
        (∀ entry ∈ first :: others, grid.time i ≤ grid.meter.toClock entry.2.offset ∧
          grid.meter.toClock entry.2.offset ≤ grid.time (i + 1)) ∧
        (∀ entry ∈ back, grid.time (i + 1) ≤ grid.meter.toClock entry.2.offset) ∧
        ∀ sequence : Sequence γ α, sequence.grid = grid → sequence.pattern.root = root →
          sequence.IsLive → ∀ time,
            let started := (sequence.start time (some i)).sequence.part
            (sequence.start time (some i)).error = none ∧
            started.transport.position = grid.meter.toClock first.2.offset ∧
            (sequence.IsLaidOut →
              ∃ earlier found later, started.schedule.entries = earlier ++ found :: later ∧
                earlier.length = front.length ∧ found.timed = first.2.onClock grid.meter ∧
                started.transport.position = found.time ∧
                ∀ entry ∈ later, started.transport.position ≤ entry.time) := by
  have horder := root.pairwise_located grid.subdivision grid.startOffset
  refine ⟨root.located grid.subdivision grid.startOffset,
    Slots.layout_eq_located h grid.subdivision grid.startOffset,
    Slots.map_step_locatedFrom _ _ 0 _, horder,
    horder.imp fun hle => grid.meter.toClock_le_toClock hle, fun i hi => ?_⟩
  obtain ⟨front, first, others, back, hlocated, hdivides⟩ := grid.divides_located h hpos hi
  obtain ⟨hfirst, hwithin, hback⟩ := hdivides.onClock
  refine ⟨front, first, others, back, hlocated, hdivides, hfirst, hwithin, hback, ?_⟩
  rintro sequence rfl rfl hlive time started
  obtain ⟨herror, hposition, hschedule⟩ := start_of_isLive hlive time i
  refine ⟨herror, hposition.trans hfirst.symm, fun hlaid => ?_⟩
  obtain ⟨earlier, found, later, hentries, hlength, hfound, hlater⟩ :=
    hlaid.exists_entry h hlocated
  have htime : started.transport.position = found.time :=
    (hposition.trans hfirst.symm).trans (congrArg Prod.fst hfound).symm
  exact ⟨earlier, found, later, (congrArg Schedule.entries hschedule).trans hentries, hlength,
    hfound, htime, htime ▸ hlater⟩

/-- The slot in the middle is a group, and so is its first child, whose shares of the subdivision
are rounded down twice. A start from it finds its first leaf, which lies two groups deep. -/
theorem layout_on_grid_nested :
    let root : Slots Char :=
      [.sound 'a', .group [.group [.sound 'b', .sound 'c', .silence], .sound 'd'], .sound 'e']
    let sequence : Sequence SplitMix Char := relaid
      { part := { draws := ⟨7⟩, startOffset := 5 }, meter := {}, subdivision := 800000000017
        pattern := { root }, loopStart := 0, loopEnd := 0 }
    (root.HasNoEmptyGroup ∧ 0 < sequence.grid.subdivision ∧ sequence.pattern.root = root ∧
      sequence.IsLive ∧ sequence.IsLaidOut) ∧
    ∃ front first others back, sequence.grid.Divides 1 front first others back ∧
      root.layout sequence.grid.subdivision sequence.grid.startOffset =
        .ok ((front ++ (first :: others ++ back)).map Prod.snd) ∧
      first.2.offset.val = 800000000022 ∧
      (∀ entry ∈ back, 1600000000039 ≤ entry.2.offset.val) ∧
      (∀ entry ∈ first :: others, entry.2.offset.val < 1600000000039) ∧
      let started := (sequence.start none (some 1)).sequence.part
      started.transport.position = sequence.grid.meter.toClock first.2.offset ∧
      ∃ earlier found later, started.schedule.entries = earlier ++ found :: later ∧
        found.timed = first.2.onClock sequence.grid.meter ∧ earlier.length = front.length := by
  intro root sequence
  have hfull : root.HasNoEmptyGroup := Slots.firstEmptyGroup?_eq_none_iff.1 rfl
  have hpos : 0 < sequence.grid.subdivision := by decide +kernel
  have hlive : sequence.IsLive := by decide +kernel
  have hroot : sequence.pattern.root = root := rfl
  have hlaid : sequence.IsLaidOut := isLaidOut_relaid hfull
  refine ⟨⟨hfull, hpos, hroot, hlive, hlaid⟩, ?_⟩
  obtain ⟨entries, hlayout, -, -, -, hslots⟩ :=
    layout_on_grid (γ := SplitMix) sequence.grid root hfull hpos
  obtain ⟨front, first, others, back, rfl, hdivides, -, -, -, hstart⟩ := hslots 1 (by decide)
  obtain ⟨-, hposition, hentries⟩ := hstart sequence rfl hroot hlive none
  obtain ⟨earlier, found, later, hsplit, hlength, hfound, -, -⟩ := hentries hlaid
  have hline : (sequence.grid.ticks 1).val = 800000000022 := by decide +kernel
  have hnext : (sequence.grid.ticks 2).val = 1600000000039 := by decide +kernel
  refine ⟨front, first, others, back, hdivides, hlayout, ?_, fun entry hentry => ?_,
    fun entry hentry => ?_, hposition, earlier, found, later, hsplit, hfound, hlength⟩
  · rw [hdivides.offset_first, hline]
  · rw [← hnext]
    exact hdivides.ticks_succ_le entry hentry
  · rw [← hnext]
    exact hdivides.lt_ticks_succ (by decide +kernel) entry hentry

end Sequence

end Ostinato
