import Ostinato.Proofs.Part.Passages
import Ostinato.Proofs.Part.Rates

/-!
# Routes

The stretches that are played while the clock advances follow one another: each begins on the clock
when the one before it is over, and together they cover no more than the length that is played. Such
a list of stretches is a route. It knows nothing of loops and of scheduled times, but it is enough
to say when the entries that are met come up: not before the route begins, in order, and, as long as
no stretch but the last is given more time than it takes, while there is time left for the length.

## Main definitions

* `Stretch.length`, `Stretch.duration`: the positions of a stretch, and the time it is given.
* `Stretch.IsDrawnOut`: stretches that are given more time than they take.
* `IsRoute`: stretches that follow one another.

## Main results

* `Transport.isRoute_coverFrom`, `Transport.isRoute_process`: what is played is a route.
* `IsRoute.le_of_mem_soundings`, `IsRoute.pairwise_soundings`, `IsRoute.soundings_le`: when the
  entries that are met on a route come up.
-/

namespace Ostinato

open Binary64 (unitsPerOne)

variable {α : Type}

/-! ### Stretches -/

namespace Stretch

/-- The length of the positions of a stretch. -/
def length (stretch : Stretch) : ClockTime :=
  stretch.finish - stretch.start

/-- The time that a stretch is given on the clock at a rate. -/
def duration (stretch : Stretch) (rate : Binary64) : ClockTime :=
  stretch.length.unscale rate

/-- Whether rounding gives a stretch more time on the clock than its positions take. -/
def IsDrawnOut (rate : Binary64) (stretch : Stretch) : Prop :=
  stretch.length.val * unitsPerOne < (stretch.duration rate).val * rate.units

instance (rate : Binary64) (stretch : Stretch) : Decidable (stretch.IsDrawnOut rate) :=
  inferInstanceAs (Decidable (_ < _))

theorem not_isDrawnOut_one {stretch : Stretch} (h : stretch.length.val < exactLimit) :
    ¬ stretch.IsDrawnOut .one := by
  rw [IsDrawnOut, duration, ClockTime.unscale_one h, Binary64.units_one]
  exact Nat.lt_irrefl _

end Stretch

/-- Whether stretches follow one another on the clock from a clock time on, and cover no more than a
length together. -/
def IsRoute (rate : Binary64) : ClockTime → Nat → List Stretch → Prop
  | _, _, [] => True
  | clock, length, stretch :: rest =>
    stretch.clock = clock ∧ stretch.length.val ≤ length ∧
      IsRoute rate (clock + stretch.duration rate) (length - stretch.length.val) rest

/-! ### What is played is a route -/

namespace Transport

/-- **Covering a length is taking a route**, behind the stretches that have been played before. -/
theorem isRoute_coverFrom (whole clock remaining : ClockTime) (transport : Transport)
    (played : List Stretch) : whole = transport.windowTime →
      ∃ route, (transport.coverFrom whole clock remaining played).stretches =
        played.reverse ++ route ∧ IsRoute transport.rate clock remaining.val route := by
  induction transport, clock, remaining, played using coverFrom.induct whole with
  | case1 transport clock remaining played hzero =>
    intro _
    rw [coverFrom_of_eq_zero transport whole clock hzero]
    exact ⟨[], (List.append_nil _).symm, trivial⟩
  | case2 transport clock remaining played _ reach hcrossed loops hdone =>
    intro _
    rw [coverFrom_of_isDone whole clock hcrossed hdone]
    exact ⟨[_], List.reverse_cons, rfl, lap_le hcrossed, trivial⟩
  | case3 transport clock remaining played _ reach hcrossed lap stretch loops hdone ih =>
    intro hwhole
    obtain ⟨route, hstretches, hroute⟩ := ih hwhole
    rw [coverFrom_of_isCrossed whole clock hcrossed (Bool.eq_false_iff.2 hdone)]
    refine ⟨stretch :: route, hstretches.trans ?_, rfl, lap_le hcrossed, ?_⟩
    · rw [List.reverse_cons, List.append_assoc, List.singleton_append]
    · have htime : transport.lapTime whole = stretch.duration transport.rate := by
        rw [hwhole, lapTime_windowTime, Stretch.duration, Stretch.length]
      rw [htime] at hroute
      exact hroute
  | case4 transport clock remaining played hpos reach hcrossed =>
    intro _
    rw [coverFrom_of_not_isCrossed whole clock hpos hcrossed]
    refine ⟨[_], List.reverse_cons, rfl, ?_, trivial⟩
    have hlength : (transport.position + remaining - transport.position).val ≤ remaining.val := by
      rw [Span.val_sub, Span.val_add]
      omega
    exact hlength

/-- **Advancing the clock is taking a route** that begins when the transport begins to play. -/
theorem isRoute_process (transport : Transport) (now : ClockTime) :
    IsRoute transport.rate (max transport.clock transport.startTime)
      (transport.playedTime now).val (transport.process now).stretches := by
  by_cases h : transport.Plays now
  · obtain ⟨route, hstretches, hroute⟩ := isRoute_coverFrom transport.windowTime
      (max transport.clock transport.startTime) (transport.playedTime now) transport [] rfl
    rw [process_of_plays h, cover, hstretches]
    exact hroute
  · obtain ⟨state, clock, stopTime, hprocess⟩ := process_of_not_plays h
    rw [hprocess]
    trivial

end Transport

/-! ### When entries come up -/

namespace Schedule

theorem soundings_cons (schedule : Schedule α) (rate : Binary64) (stretch : Stretch)
    (stretches : List Stretch) :
    schedule.soundings rate (stretch :: stretches) =
      ((schedule.between stretch.start stretch.finish).map fun entry =>
        (stretch.clock + ClockTime.unscale (entry.time - stretch.start) rate, entry)) ++
      schedule.soundings rate stretches :=
  List.flatMap_cons

theorem lt_length_of_mem_between {schedule : Schedule α} {stretch : Stretch} {entry : Entry α}
    (h : entry ∈ schedule.between stretch.start stretch.finish) :
    (entry.time - stretch.start).val < stretch.length.val := by
  rw [between_eq_filter_isWithin] at h
  obtain ⟨hge, hlt⟩ := of_decide_eq_true (List.mem_filter.1 h).2
  rw [Stretch.length, Span.val_sub, Span.val_sub]
  omega

theorem inOrder_between (schedule : Schedule α) (start finish : ClockTime) :
    InOrder (schedule.between start finish) := by
  rw [between_eq_filter_isWithin]
  exact schedule.inOrder_entries.sublist List.filter_sublist

end Schedule

namespace IsRoute

variable {rate : Binary64} {clock : ClockTime} {length : Nat} {stretches : List Stretch}

theorem length_le (h : IsRoute rate clock length stretches) :
    ∀ stretch ∈ stretches, stretch.length.val ≤ length := by
  induction stretches generalizing clock length with
  | nil => exact fun stretch hmem => absurd hmem List.not_mem_nil
  | cons first rest ih =>
    obtain ⟨-, hle, hrest⟩ := h
    intro stretch hmem
    rcases List.mem_cons.1 hmem with rfl | hmem
    · exact hle
    · exact Nat.le_trans (ih hrest stretch hmem) (Nat.sub_le _ _)

/-- Nothing comes up before the route begins. -/
theorem le_of_mem_soundings (h : IsRoute rate clock length stretches) {schedule : Schedule α}
    {sounding : ClockTime × Entry α} (hmem : sounding ∈ schedule.soundings rate stretches) :
    clock ≤ sounding.1 := by
  induction stretches generalizing clock length with
  | nil => exact absurd hmem List.not_mem_nil
  | cons stretch rest ih =>
    obtain ⟨hclock, -, hrest⟩ := h
    have hmax := clock.val_le
    rw [schedule.soundings_cons, List.mem_append] at hmem
    rw [Span.le_def]
    rcases hmem with hhere | hlater
    · obtain ⟨entry, -, rfl⟩ := List.mem_map.1 hhere
      rw [hclock, Span.val_add]
      omega
    · have hle := ih hrest hlater
      rw [Span.le_def, Span.val_add] at hle
      omega

/-- **What is met on a route comes up in order**: later positions of a stretch are not played
earlier, and no position is played after the stretch is over. -/
theorem pairwise_soundings (h : IsRoute rate clock length stretches)
    (hrate : Transport.IsPlayable rate) (hlength : length < exactLimit) (schedule : Schedule α) :
    (schedule.soundings rate stretches).Pairwise fun first second => first.1 ≤ second.1 := by
  induction stretches generalizing clock length with
  | nil => exact .nil
  | cons stretch rest ih =>
    obtain ⟨hclock, hle, hrest⟩ := h
    have hexact : stretch.length.val < exactLimit := Nat.lt_of_le_of_lt hle hlength
    rw [schedule.soundings_cons, List.pairwise_append, List.pairwise_map, hclock]
    refine ⟨?_, ih hrest (Nat.lt_of_le_of_lt (Nat.sub_le _ _) hlength), ?_⟩
    · refine (schedule.inOrder_between _ _).imp_of_mem fun {first second} _ hsecond htimes => ?_
      have hbehind := Schedule.lt_length_of_mem_between hsecond
      have hmono : (first.time - stretch.start).unscale rate ≤
          (second.time - stretch.start).unscale rate :=
        hrate.unscale_mono (Nat.lt_trans hbehind hexact) (Nat.sub_le_sub_right htimes _)
      rw [Span.le_def] at hmono
      rw [Span.le_def, Span.val_add, Span.val_add]
      omega
    · intro sounding hhere later hlater
      obtain ⟨entry, hentry, rfl⟩ := List.mem_map.1 hhere
      have hover := hrest.le_of_mem_soundings hlater
      have hmono := hrate.unscale_mono hexact
        (Nat.le_of_lt (Schedule.lt_length_of_mem_between hentry))
      rw [Stretch.duration, Span.le_def, Span.val_add] at hover
      rw [Span.le_def] at hmono
      rw [Span.le_def, Span.val_add]
      omega

/-- **What is met on a route comes up in time**, unless a stretch other than the last is drawn out:
if there is time up to a limit for all but the last unit of the length, nothing comes up after the
limit. -/
theorem soundings_le (h : IsRoute rate clock length stretches) (hrate : Transport.IsPlayable rate)
    (hlength : length < exactLimit) {limit : ClockTime} (hlimit : limit.val < exactLimit)
    (hdrawn : ∀ stretch ∈ stretches.dropLast, ¬ stretch.IsDrawnOut rate)
    (hroom : ∀ k < length, k * unitsPerOne + clock.val * rate.units ≤ limit.val * rate.units)
    {schedule : Schedule α} {sounding : ClockTime × Entry α}
    (hmem : sounding ∈ schedule.soundings rate stretches) : sounding.1 ≤ limit := by
  induction stretches generalizing clock length with
  | nil => exact absurd hmem List.not_mem_nil
  | cons stretch rest ih =>
    obtain ⟨hclock, hle, hrest⟩ := h
    rw [schedule.soundings_cons, List.mem_append] at hmem
    rcases hmem with hhere | hlater
    · obtain ⟨entry, hentry, rfl⟩ := List.mem_map.1 hhere
      have hbehind := Schedule.lt_length_of_mem_between hentry
      have htime := hroom _ (Nat.lt_of_lt_of_le hbehind hle)
      have hbegun : clock.val ≤ limit.val :=
        Nat.le_of_mul_le_mul_right (Nat.le_trans (Nat.le_add_left _ _) htime) hrate.units_pos
      have hplayed : ((entry.time - stretch.start).unscale rate).val ≤ limit.val - clock.val := by
        refine hrate.unscale_le (by omega) (by omega) ?_
        rw [Nat.sub_mul]
        omega
      rw [hclock, Span.le_def, Span.val_add]
      omega
    · cases rest with
      | nil => exact absurd hlater List.not_mem_nil
      | cons second rest =>
        have hnot := hdrawn stretch List.mem_cons_self
        rw [Stretch.IsDrawnOut, Nat.not_lt] at hnot
        refine ih hrest (Nat.lt_of_le_of_lt (Nat.sub_le _ _) hlength)
          (fun other hother => hdrawn other (List.mem_cons_of_mem _ hother)) (fun k hk => ?_) hlater
        -- the time that the stretch is given is no more than its positions make up
        have htime := hroom (k + stretch.length.val) (by omega)
        have hsum : (clock + stretch.duration rate).val * rate.units ≤
            clock.val * rate.units + (stretch.duration rate).val * rate.units := by
          rw [← Nat.add_mul, Span.val_add]
          exact Nat.mul_le_mul_right _ (Nat.min_le_left _ _)
        rw [Nat.add_mul] at htime
        omega

end IsRoute

end Ostinato
