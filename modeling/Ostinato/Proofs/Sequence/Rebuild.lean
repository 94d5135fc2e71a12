import Ostinato.Proofs.Pattern.EmptyGroups
import Ostinato.Proofs.Pattern.Order
import Ostinato.Proofs.Time.Conversion
import Ostinato.Sequence.Command

/-!
# Laying out a sequence

To lay out a sequence is to clear its part and to add the placements of its pattern one by one. They
come in order of time, so each is added behind all others, and the entries stand as the pattern
lists them.

## Main definitions

* `Entry.timed`, `Placement.onClock`: what entries and placements have in common.
* `Sequence.IsLaidOut`: the entries of the part are the layout of the pattern.
* `Sequence.relaid`: the sequence after laying out its pattern.

## Main results

* `Part.exists_foldl_add`: placements in order are added in order.
* `Sequence.rebuild_of_hasNoEmptyGroup`, `Sequence.rebuild_of_isFirstEmptyGroup`: what laying out
  gives.
* `Sequence.exists_relaid`: it changes the entries and the loop window, and nothing else.
* `Sequence.isLaidOut_relaid`: afterwards the sequence is laid out.
-/

namespace Ostinato

variable {γ α : Type} [Generator γ]

/-- An entry without its number. -/
def Entry.timed (entry : Entry α) : ClockTime × Step α :=
  (entry.time, entry.step)

/-- A placement at the clock time of its offset. -/
def Placement.onClock (meter : Meter) (placement : Placement α) : ClockTime × Step α :=
  (meter.toClock placement.offset, placement.step)

/-! ### Adding in order -/

theorem Schedule.entries_insert_of_le {schedule : Schedule α} {entry : Entry α}
    (h : ∀ e ∈ schedule.entries, e.time ≤ entry.time) :
    (schedule.insert entry).entries = schedule.entries ++ [entry] := by
  have hlater : ∀ e ∈ schedule.entries, ¬ decide (entry.time < e.time) = true :=
    fun e he hd => Nat.not_lt_of_le (h e he) (of_decide_eq_true hd)
  rw [entries_insert, List.filter_eq_self.2 fun e he => decide_eq_true (h e he),
    List.filter_eq_nil_iff.2 hlater]

/-- Placements in order of their offsets are added in that order, behind entries that are not
later. -/
theorem Part.exists_foldl_add (meter : Meter) :
    ∀ (placements : List (Placement α)) (part : Part γ α),
    placements.Pairwise (fun p q => p.offset ≤ q.offset) →
    (∀ e ∈ part.schedule.entries, ∀ p ∈ placements, e.time ≤ meter.toClock p.offset) →
    ∃ schedule nextEntry,
      placements.foldl (fun part p => part.add (meter.toClock p.offset) p.step) part =
        { part with schedule, nextEntry } ∧
      schedule.entries.map Entry.timed =
        part.schedule.entries.map Entry.timed ++ placements.map (·.onClock meter)
  | [], part, _, _ => ⟨part.schedule, part.nextEntry, rfl, (List.append_nil _).symm⟩
  | p :: placements, part, hsorted, hbefore => by
    obtain ⟨hfirst, hrest⟩ := List.pairwise_cons.1 hsorted
    have hentries : (part.add (meter.toClock p.offset) p.step).schedule.entries =
        part.schedule.entries ++ [⟨part.nextId, meter.toClock p.offset, p.step⟩] :=
      Schedule.entries_insert_of_le fun e he => hbefore e he p List.mem_cons_self
    obtain ⟨schedule, nextEntry, hfold, htimed⟩ :=
      exists_foldl_add meter placements (part.add (meter.toClock p.offset) p.step) hrest (by
        intro e he q hq
        rw [hentries] at he
        rcases List.mem_append.1 he with he | he
        · exact hbefore e he q (List.mem_cons_of_mem _ hq)
        · cases List.mem_singleton.1 he
          exact meter.toClock_le_toClock (hfirst q hq))
    refine ⟨schedule, nextEntry, hfold, ?_⟩
    rw [htimed, hentries, List.map_append, List.append_assoc, List.map_cons]
    rfl

namespace Sequence

/-! ### Laying out -/

/-- The entries of the part, in the order in which they are stored, are the layout of the pattern
with each offset on the clock. -/
def IsLaidOut (sequence : Sequence γ α) : Prop :=
  ∃ placements,
    sequence.pattern.root.layout sequence.subdivision sequence.part.startOffset = .ok placements ∧
    sequence.part.schedule.entries.map Entry.timed = placements.map (·.onClock sequence.meter)

/-- The sequence after laying out its pattern. -/
def relaid (sequence : Sequence γ α) : Sequence γ α :=
  { sequence with
    part := (sequence.place (sequence.pattern.root.place sequence.subdivision
      sequence.part.startOffset)).setLoop sequence.window }

/-- A pattern without empty groups is laid out. -/
theorem rebuild_of_hasNoEmptyGroup {sequence : Sequence γ α}
    (h : sequence.pattern.root.HasNoEmptyGroup) :
    sequence.rebuild = .ok (sequence.relaid,
      .rebuilt sequence.pattern.revision sequence.relaid.part.schedule.size) := by
  rw [rebuild, Slots.layout, Slots.firstEmptyGroup?_eq_none_iff.2 h]
  rfl

/-- A pattern with an empty group is refused at the first one. -/
theorem rebuild_of_isFirstEmptyGroup {sequence : Sequence γ α} {path : Path}
    (h : sequence.pattern.root.IsFirstEmptyGroup path) :
    sequence.rebuild = .error (.emptyGroup path) := by
  rw [rebuild, Slots.layout, Slots.firstEmptyGroup?_eq_some_iff.2 h]
  rfl

theorem rebuild_cases (sequence : Sequence γ α) :
    (∃ event, sequence.rebuild = .ok (sequence.relaid, event)) ∨
      ∃ path, sequence.rebuild = .error (.emptyGroup path) := by
  cases hempty : sequence.pattern.root.firstEmptyGroup? with
  | none =>
    exact .inl ⟨_, rebuild_of_hasNoEmptyGroup (Slots.firstEmptyGroup?_eq_none_iff.1 hempty)⟩
  | some path =>
    exact .inr ⟨path, rebuild_of_isFirstEmptyGroup (Slots.firstEmptyGroup?_eq_some_iff.1 hempty)⟩

/-- Laying out changes the entries and the loop window of the part, and nothing else. The entries
are the placements of the pattern. -/
theorem exists_relaid (sequence : Sequence γ α) :
    ∃ schedule nextEntry, sequence.relaid = { sequence with part := { sequence.part with
        schedule
        nextEntry
        transport := { sequence.part.transport with loop := sequence.window } } } ∧
      schedule.entries.map Entry.timed =
        (sequence.pattern.root.place sequence.subdivision sequence.part.startOffset).map
          (·.onClock sequence.meter) := by
  obtain ⟨schedule, nextEntry, hfold, htimed⟩ := Part.exists_foldl_add sequence.meter
    (sequence.pattern.root.place sequence.subdivision sequence.part.startOffset)
    sequence.part.clear (Slots.pairwise_place _ _ _) (fun _ he => nomatch he)
  refine ⟨schedule, nextEntry, ?_, htimed⟩
  rw [relaid, place, hfold]
  rfl

/-- After laying out a pattern without empty groups, the sequence is laid out. -/
theorem isLaidOut_relaid {sequence : Sequence γ α} (h : sequence.pattern.root.HasNoEmptyGroup) :
    sequence.relaid.IsLaidOut := by
  obtain ⟨schedule, nextEntry, hrelaid, htimed⟩ := sequence.exists_relaid
  refine ⟨sequence.pattern.root.place sequence.subdivision sequence.part.startOffset, ?_, ?_⟩
  · rw [hrelaid, Slots.layout, Slots.firstEmptyGroup?_eq_none_iff.2 h]
  · rw [hrelaid]
    exact htimed

end Sequence

end Ostinato
