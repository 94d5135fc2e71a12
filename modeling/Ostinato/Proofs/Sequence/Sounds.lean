import Ostinato.Part.Command
import Ostinato.Proofs.Part.Heard
import Ostinato.Proofs.Pattern.Offsets
import Ostinato.Proofs.Sequence.Upkeep

/-!
# Sounds of a sequence

The sounds of a sequence are those of the leaves of its pattern, each at the clock time of the
offset of its path. As long as the entries of the part are laid out, they have these sounds.

## Main definitions

* `Sequence.tickAt`, `Sequence.clockAt`: the offset of a path, and its clock time.
* `Sequence.soundsOf`, `Sequence.sounds`: the sounds of leaves, and of all leaves.
* `Sequence.soundsUnless`: the sounds of all leaves, unless the entries have been cleared.
* `Sequence.IsLive`: whether neither the sequence nor its part has been disposed.

## Main results

* `Sequence.IsLaidOut.sounds_schedule`, `Sequence.sounds_schedule`: the sounds of the entries.
* `Sequence.run_map_process`: the clock of a sequence is that of its part.
-/

namespace Ostinato.Sequence

variable {γ α : Type}

/-! ### Sounds of leaves -/

/-- The offset of the node at a path, at most the largest span. -/
def tickAt (sequence : Sequence γ α) (path : Path) : Ticks :=
  .ofNat <|
    sequence.pattern.root.offsetAt sequence.subdivision.val sequence.part.startOffset.val path

/-- The clock time of the offset of the node at a path. -/
def clockAt (sequence : Sequence γ α) (path : Path) : ClockTime :=
  sequence.meter.toClock (sequence.tickAt path)

/-- The sounds of leaves, each with its clock time, in the order of the leaves. -/
def soundsOf (sequence : Sequence γ α) (leaves : List (Path × Step α)) : List (ClockTime × α) :=
  audible (leaves.map fun leaf => (sequence.clockAt leaf.1, leaf.2))

/-- The sounds of all leaves of the pattern. -/
def sounds (sequence : Sequence γ α) : List (ClockTime × α) :=
  sequence.soundsOf sequence.pattern.root.leaves

/-- The sounds that the entries should have: those of all leaves, unless the entries have been
cleared. -/
def soundsUnless (sequence : Sequence γ α) (cleared : Bool) : List (ClockTime × α) :=
  if cleared then [] else sequence.sounds

theorem IsLaidOut.entries_eq {sequence : Sequence γ α} (h : sequence.IsLaidOut) :
    sequence.part.schedule.entries.map Entry.timed =
      sequence.pattern.root.leaves.map fun leaf => (sequence.clockAt leaf.1, leaf.2) := by
  obtain ⟨placements, hlayout, hentries⟩ := h
  have hplacements : placements =
      sequence.pattern.root.place sequence.subdivision sequence.part.startOffset := by
    rw [Slots.layout] at hlayout
    split at hlayout
    · contradiction
    · exact (Except.ok.inj hlayout).symm
  rw [hentries, hplacements, Slots.place_eq_map_leaves, List.map_map]
  rfl

/-- The entries of a sequence that is laid out have the sounds of its pattern. -/
theorem IsLaidOut.sounds_schedule {sequence : Sequence γ α} (h : sequence.IsLaidOut) :
    sequence.part.schedule.sounds = sequence.sounds :=
  congrArg audible h.entries_eq

/-- The sounds of the entries, also after they have been cleared. -/
theorem sounds_schedule {sequence : Sequence γ α} {name : String} {cleared : Bool}
    (hlive : sequence.disposed = false) (hlayout : sequence.KeepsLayout cleared)
    (hkept : sequence.IsKept name cleared) :
    sequence.part.schedule.sounds = sequence.soundsUnless cleared := by
  cases cleared with
  | true => rw [hkept.entries rfl]; rfl
  | false => exact ((hlayout hlive).2 rfl).sounds_schedule

/-! ### The clock of a live sequence -/

/-- Whether neither a sequence nor its part has been disposed. -/
def IsLive (sequence : Sequence γ α) : Prop :=
  sequence.disposed = false ∧ sequence.part.transport.disposed = false

instance (sequence : Sequence γ α) : Decidable sequence.IsLive :=
  inferInstanceAs (Decidable (_ ∧ _))

theorem heard_start (sequence : Sequence γ α) (time : Option ClockTime) (index : Option Nat) :
    (sequence.start time index).events.filterMap SequenceEvent.heard? = [] := by
  rw [start, ifLive]
  split
  · rfl
  · rw [onPart, Part.start]
    split <;> rfl

variable [Generator γ]

theorem heard_process (sequence : Sequence γ α) (now : ClockTime) :
    (sequence.process now).events.filterMap SequenceEvent.heard? =
      (sequence.part.process now).2.filterMap PartEvent.heard? :=
  List.filterMap_map

/-- The clock of a sequence is that of its part. -/
theorem run_map_process (sequence : Sequence γ α) (times : List ClockTime) :
    sequence.run (times.map .process) =
      ({ sequence with part := (sequence.part.run (times.map .process)).1 },
        (sequence.part.run (times.map .process)).2.map .part) := by
  induction times generalizing sequence with
  | nil => rfl
  | cons now times ih =>
    rw [List.map_cons, run_cons, ih, List.map_cons, Part.run_cons, List.map_append]
    rfl

end Ostinato.Sequence
