import Ostinato.Proofs.Part.Granularity
import Ostinato.Proofs.Part.Laps
import Ostinato.Proofs.Sequence.Sounds

/-!
# Passes through a loop

The window of a loop is given by slots of the root, but it is played by clock times. Musical time is
rounded down to whole nanoseconds, so the two agree if no leaf lies so close before a bound of the
window that the clock cannot tell them apart. A loop without end then plays the leaves of its slots,
once in every pass.

## Main definitions

* `Path.slot`: the slot of the root that a path leads into.
* `Sequence.lastSlot`: the slot before which the window ends.
* `Sequence.HasLead`: whether the leaves before a slot are before it on the clock.
* `Sequence.soundsBetween`: the sounds of a range of slots.

## Main results

* `Sequence.time_le_clockAt`, `Sequence.clockAt_lt_time`: slots and clock times agree.
* `Sequence.filter_sounds`: the sounds in the window are those of its slots.
* `Sequence.heard_of_loop`: a loop pass plays exactly its slots.
-/

namespace Ostinato

variable {γ α : Type}

/-- The index of the slot of the root that a path leads into. -/
def Path.slot (path : Path) : Nat :=
  path.headD 0

namespace Sequence

/-! ### Slots on the clock -/

/-- The index of the slot before which the loop window ends, where zero stands for the end of the
pattern. -/
def lastSlot (sequence : Sequence γ α) : Nat :=
  if sequence.loopEnd = 0 then sequence.pattern.root.length else sequence.loopEnd

/-- Whether every leaf before a slot is before it by as many ticks as last a nanosecond. -/
def HasLead (sequence : Sequence γ α) (index : Nat) : Prop :=
  ∀ leaf ∈ sequence.pattern.root.leaves, leaf.1.slot < index →
    (sequence.tickAt leaf.1).val + sequence.meter.nanosecondTicks ≤ (sequence.grid.ticks index).val

instance (sequence : Sequence γ α) (index : Nat) : Decidable (sequence.HasLead index) :=
  inferInstanceAs (Decidable (∀ leaf ∈ _, _))

/-- The sounds of the leaves in the slots from one index on and before another. -/
def soundsBetween (sequence : Sequence γ α) (first last : Nat) : List (ClockTime × α) :=
  sequence.soundsOf <| sequence.pattern.root.leaves.filter fun leaf =>
    first ≤ leaf.1.slot ∧ leaf.1.slot < last

theorem endTime_eq (sequence : Sequence γ α) :
    sequence.grid.endTime sequence.loopEnd sequence.pattern.root.length =
      sequence.grid.time sequence.lastSlot := by
  rw [Grid.endTime, lastSlot]
  split <;> rfl

/-- A leaf is not before the slot that it is in, nor before the slots in front of that. -/
theorem time_le_clockAt {sequence : Sequence γ α} {leaf : Path × Step α}
    (hleaf : leaf ∈ sequence.pattern.root.leaves) {index : Nat} (h : index ≤ leaf.1.slot) :
    sequence.grid.time index ≤ sequence.clockAt leaf.1 := by
  obtain ⟨path, step⟩ := leaf
  refine sequence.meter.toClock_le_toClock ?_
  have hget := Slots.mem_leaves.1 hleaf
  cases path with
  | nil => contradiction
  | cons i path =>
    obtain ⟨child, hchild, -⟩ := Option.bind_eq_some_iff.1 hget
    have hslots : index * sequence.subdivision.val ≤ i * sequence.subdivision.val :=
      Nat.mul_le_mul_right _ h
    simp only [Span.le_def, Grid.ticks, grid, tickAt, Span.val_add, Span.val_mul, Span.val_ofNat,
      Slots.offsetAt_cons hchild, Nat.mul_comm sequence.subdivision.val]
    omega

/-- A leaf is before the slots behind the one that it is in, if it has a lead. -/
theorem clockAt_lt_time {sequence : Sequence γ α} {index : Nat} (hlead : sequence.HasLead index)
    (hrange : (sequence.grid.ticks index).val * ClockTime.perMinute /
      sequence.meter.ticksPerMinute ≤ maxCount)
    {leaf : Path × Step α} (hleaf : leaf ∈ sequence.pattern.root.leaves) (h : leaf.1.slot < index) :
    sequence.clockAt leaf.1 < sequence.grid.time index :=
  sequence.meter.toClock_lt_toClock (hlead leaf hleaf h) hrange

/-- The sounds at the clock times of a range of slots are those of the slots. -/
theorem filter_sounds {sequence : Sequence γ α} {first last : Nat}
    (hwindow : sequence.grid.time first < sequence.grid.time last)
    (hrange : (sequence.grid.ticks last).val * ClockTime.perMinute / sequence.meter.ticksPerMinute ≤
      maxCount) (hfirst : sequence.HasLead first) (hlast : sequence.HasLead last) :
    (sequence.sounds.filter fun sound =>
        sequence.grid.time first ≤ sound.1 ∧ sound.1 < sequence.grid.time last) =
      sequence.soundsBetween first last := by
  have hslots : ∀ leaf ∈ sequence.pattern.root.leaves,
      (sequence.grid.time first ≤ sequence.clockAt leaf.1 ∧
          sequence.clockAt leaf.1 < sequence.grid.time last) ↔
        first ≤ leaf.1.slot ∧ leaf.1.slot < last := by
    intro leaf hleaf
    refine and_congr ⟨fun h => ?_, time_le_clockAt hleaf⟩
      ⟨fun h => ?_, clockAt_lt_time hlast hrange hleaf⟩
    · refine Nat.le_of_not_lt fun hlt => Nat.not_lt_of_le h ?_
      exact clockAt_lt_time hfirst (sequence.meter.range_of_toClock_lt hwindow) hleaf hlt
    · exact Nat.lt_of_not_le fun hle => Nat.not_lt_of_le (time_le_clockAt hleaf hle) h
  have hfilter := audible_filter
    (fun t => decide (sequence.grid.time first ≤ t ∧ t < sequence.grid.time last))
    (sequence.pattern.root.leaves.map fun leaf => (sequence.clockAt leaf.1, leaf.2))
  rw [sounds, soundsOf, ← hfilter, List.filter_map, soundsBetween, soundsOf]
  congr 2
  refine List.filter_congr fun leaf hleaf => ?_
  rw [Function.comp_apply]
  exact decide_eq_decide.2 (hslots leaf hleaf)

/-! ### Playing a loop -/

variable [Generator γ]

theorem heard_of_started {sequence : Sequence γ α} {name : String} (hlive : sequence.IsLive)
    (hlistener : sequence.part.listener = some { name, hearsSilence := false })
    (hplain : sequence.part.IsPlain) (hmode : sequence.part.transport.loop.mode = .forever)
    (hactive : sequence.part.transport.loop.start < sequence.part.transport.loop.finish)
    {t final : ClockTime} {times : List ClockTime} {passes : Nat}
    (hclock : sequence.part.transport.clock ≤ t) (hfinal : final ∈ times)
    (hle : ∀ now ∈ times, now ≤ final) (hlimit : final.val < 2 ^ 53)
    (hpasses : final.val ≤ t.val + passes * sequence.part.transport.loop.period.val) :
    let loop := sequence.part.transport.loop
    (sequence.run (.start (some t) none :: times.map .process)).2.filterMap SequenceEvent.heard? =
      Listener.told { name, hearsSilence := false }
        (((List.range passes).flatMap fun k =>
            (sequence.part.schedule.sounds.filter fun sound =>
                loop.start ≤ sound.1 ∧ sound.1 < loop.finish).map fun sound =>
              (t + loop.period * k + (sound.1 - loop.start), sound.2)).filter
          fun sound => sound.1 < final) := by
  have hlooping := Transport.IsLooping.start hlive.2 hmode hactive hplain.rate (some t)
  have hbegun : (sequence.perform (.start (some t) none)).sequence =
      (sequence.onPart (sequence.part.start (some t) none)).sequence := by
    rw [perform, start, ifLive_of_not_disposed hlive.1]
    rfl
  let begun : Part γ α := (sequence.part.start (some t) none).1
  have hloop : begun.transport.loop = sequence.part.transport.loop := Transport.loop_start ..
  have hstart : begun.transport.startTime = t := by
    simp only [begun, Part.start, Transport.start_of_live hlive.2]
    refine Span.ext ?_
    rw [Option.getD_some, Span.val_max]
    exact Nat.max_eq_left hclock
  have hplain' : begun.IsPlain := ⟨hlooping.rate, hplain.probability, hplain.humanize, hplain.mute⟩
  -- the clock may as well be advanced at once
  have honce := (begun.run_map_process hlooping.rate hfinal hle hlimit).1
  have hheard := hplain'.heard_of_isLooping hlistener rfl hlooping hlimit (n := passes)
    (by rw [hstart, hloop]; exact hpasses)
  dsimp only at hheard
  rw [← honce, hstart, hloop] at hheard
  dsimp only
  rw [run_cons, List.filterMap_append, hbegun, run_map_process, perform, heard_start,
    List.nil_append, List.filterMap_map]
  exact hheard

/-- **A loop pass plays exactly its slots.** Take any state that a sequence comes to while it is
live and laid out, in which it is plain and loops without end. Its window must not be empty on the
clock and must end within the range of the clock, and the leaves before a bound of the window must
have a lead on it. Started at a clock time and advanced in whatever steps, it is heard as the sounds
of the slots in the window, in reading order and once in every pass. The passes follow each other in
a period that is the length of the window, and each leaf sounds as long after its pass begins as it
lies behind the start of the window. -/
theorem heard_of_loop {part : Part γ α} {listener : String} {pattern : Slots α}
    {settings : SequenceSettings} {meter : Meter} {made : Sequence γ α}
    (hmade : (create part listener pattern settings meter).1 = .ok made)
    (before : List (Command α)) :
    let sequence := (made.run before).1
    let first := sequence.loopStart
    let last := sequence.lastSlot
    let grid := sequence.grid
    let period := grid.time last - grid.time first
    sequence.IsLive → made.isCleared false before = false → sequence.part.IsPlain →
      sequence.part.transport.loop.mode = .forever →
      grid.time first < grid.time last →
      (grid.ticks last).val * ClockTime.perMinute / sequence.meter.ticksPerMinute ≤ 2 ^ 64 - 1 →
      sequence.HasLead first → sequence.HasLead last →
      ∀ (t : ClockTime) (times : List ClockTime) (final : ClockTime) (passes : Nat),
        sequence.part.transport.clock ≤ t → final ∈ times → (∀ now ∈ times, now ≤ final) →
        final.val < 2 ^ 53 → final.val ≤ t.val + passes * period.val →
        (sequence.run (.start (some t) none :: times.map .process)).2.filterMap
            SequenceEvent.heard? =
          Listener.told { name := listener, hearsSilence := false }
            (((List.range passes).flatMap fun k =>
                (sequence.soundsBetween first last).map fun sound =>
                  (t + period * k + (sound.1 - grid.time first), sound.2)).filter
              fun sound => sound.1 < final) := by
  intro sequence first last grid period hlive hlaid hplain hmode hwindow hrange hfirst hlast
    t times final passes hclock hfinal hle hlimit hpasses
  have hlayout := keepsLayout_run (keepsLayout_of_create hmade) before
  have hkept := isKept_run (keepsLayout_of_create hmade) (fun _ => isKept_of_create hmade) before
    hlive.1
  rw [hlaid] at hlayout hkept
  obtain ⟨hstart, hfinish⟩ := hkept.window
  rw [endTime_eq] at hfinish
  have hperiod : sequence.part.transport.loop.period = period := by
    rw [Loop.period, hstart, hfinish]
  have hheard := heard_of_started hlive hkept.listener hplain hmode
    (by rw [hstart, hfinish]; exact hwindow) hclock hfinal hle hlimit
    (by rw [hperiod]; exact hpasses)
  have hsounds : sequence.part.schedule.sounds = sequence.sounds :=
    ((hlayout hlive.1).2 rfl).sounds_schedule
  dsimp only at hheard
  rw [hheard, hperiod, hstart, hfinish, hsounds, filter_sounds hwindow hrange hfirst hlast]

/-- Two of four slots are played, from the fiftieth millisecond on. The third pass is cut where its
last sound would come. -/
theorem heard_of_loop_third_pass :
    let result := (create (γ := SplitMix) (α := Char) { draws := ⟨7⟩ } "bass"
      [.sound 'a', .group [.sound 'b', .sound 'c', .silence], .sound 'd', .sound 'e']
      { loopStart := 1, loopEnd := 3 } {}).1
    let times : List ClockTime := [600000000, 100000000, 1300000000]
    ∃ made, result = .ok made ∧
      ((made.run (.start (some 50000000) none :: times.map .process)).2.filterMap
          SequenceEvent.heard?).map (fun call => (call.time.val, call.step)) =
        [(50000000, .sound 'b'), (133333333, .sound 'c'), (300000000, .sound 'd'),
          (550000000, .sound 'b'), (633333333, .sound 'c'), (800000000, .sound 'd'),
          (1050000000, .sound 'b'), (1133333333, .sound 'c')] := by
  intro result times
  have hfacts : result.toOption.any fun made =>
      (made.IsLive ∧ made.part.transport.rate = .one ∧ made.part.probability = .one ∧
        made.part.humanize = .off ∧ made.part.mute = false ∧
        made.part.transport.loop.mode = .forever) ∧
      (made.grid.time made.loopStart < made.grid.time made.lastSlot ∧
        (made.grid.ticks made.lastSlot).val * ClockTime.perMinute / made.meter.ticksPerMinute ≤
          2 ^ 64 - 1 ∧
        made.HasLead made.loopStart ∧ made.HasLead made.lastSlot ∧
        made.part.transport.clock ≤ 50000000 ∧
        1300000000 ≤ 50000000 +
          3 * (made.grid.time made.lastSlot - made.grid.time made.loopStart).val) ∧
      ((((List.range 3).flatMap fun k =>
          (made.soundsBetween made.loopStart made.lastSlot).map fun sound =>
            ((50000000 : ClockTime) +
                (made.grid.time made.lastSlot - made.grid.time made.loopStart) * k +
              (sound.1 - made.grid.time made.loopStart), sound.2)).filter
          fun sound => sound.1 < 1300000000).map fun sound => (sound.1.val, sound.2)) =
        [(50000000, 'b'), (133333333, 'c'), (300000000, 'd'), (550000000, 'b'), (633333333, 'c'),
          (800000000, 'd'), (1050000000, 'b'), (1133333333, 'c')] := by decide +kernel
  cases hmade : result with
  | error e =>
    rw [hmade] at hfacts
    contradiction
  | ok made =>
    rw [hmade] at hfacts
    obtain ⟨⟨hlive, hrate, hprobability, hhumanize, hmute, hmode⟩,
      ⟨hwindow, hrange, hfirst, hlast, hclock, hpasses⟩, hsounds⟩ := of_decide_eq_true hfacts
    have hheard := heard_of_loop hmade [] hlive rfl ⟨hrate, hprobability, hhumanize, hmute⟩ hmode
      hwindow hrange hfirst hlast 50000000 times 1300000000 3 hclock (by decide) (by decide)
      (by decide) hpasses
    refine ⟨made, rfl, ?_⟩
    rw [run_nil] at hheard
    rw [hheard, Listener.told, List.map_map]
    have htold :=
      congrArg (List.map fun sound : Nat × Char => (sound.1, Step.sound sound.2)) hsounds
    rw [List.map_map] at htold
    exact htold

end Sequence

end Ostinato
