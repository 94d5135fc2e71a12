import Ostinato.Proofs.Part.Delivery
import Ostinato.Proofs.Part.Granularity

/-!
# Counted loops

A part whose loop is counted plays the window as often as the count says, of which the first time
begins where the part is started, and stops at the end of the window. How much is left to play until
then is known at every moment, and each call takes as much of it as it plays, so it makes no
difference to the entries in which calls the laps end.

## Main definitions

* `Loop.countedLength`, `Schedule.counted`: the length of a number of laps, and the entries in them.
* `Transport.IsCounting`: transports that play a counted loop and have laps left.
* `Transport.lengthLeft`: the length that is left to play.

## Main results

* `Schedule.metOnWalk_countedLength`: the entries of a number of laps are those of a walk.
* `Transport.IsCounting.process_of_lt`, `Transport.IsCounting.process_of_le`: one call, by whether
  it plays all that is left.
* `Part.run_of_isCounting`: a run of calls.
* `Part.handed_of_count`: what a part hands over from its start on.
-/

namespace Ostinato

variable {γ α : Type} [Generator γ]

/-! ### A number of laps -/

/-- The length of a number of laps, the first of which begins at a position. -/
def Loop.countedLength (loop : Loop) (laps position : Nat) : Nat :=
  (loop.finish.val - position) + (laps - 1) * (loop.finish.val - loop.start.val)

/-- The entries of a number of laps, the first of which begins at a position. -/
def Schedule.counted (schedule : Schedule α) (loop : Loop) (laps position : Nat) :
    List (Entry α) :=
  schedule.entries.filter (·.isWithin position loop.finish.val) ++
    (List.replicate (laps - 1)
      (schedule.entries.filter (·.isWithin loop.start.val loop.finish.val))).flatten

theorem Loop.countedLength_add_two (loop : Loop) (laps position : Nat) :
    loop.countedLength (laps + 2) position =
      (loop.finish.val - position) + loop.countedLength (laps + 1) loop.start.val := by
  have hlaps : laps + 2 - 1 = laps + 1 := rfl
  rw [countedLength, countedLength, hlaps, Nat.add_sub_cancel, Nat.succ_mul,
    Nat.add_comm (laps * _)]

/-- Walking a number of laps meets the entries of that number of laps. -/
theorem Schedule.metOnWalk_countedLength (schedule : Schedule α) {loop : Loop}
    (h : loop.IsActive) (laps : Nat) {position : ClockTime} (hlt : position < loop.finish) :
    schedule.metOnWalk loop (loop.countedLength (laps + 1) position.val) position.val =
      schedule.counted loop (laps + 1) position.val := by
  induction laps generalizing position with
  | zero =>
    simp only [Loop.countedLength, counted, Nat.zero_add, Nat.sub_self, Nat.zero_mul, Nat.add_zero,
      List.replicate_zero, List.flatten_nil, List.append_nil]
    exact Loop.metOnWalk_lap hlt schedule
  | succ laps ih =>
    have hlaps : (laps + 1 + 1) - 1 = laps + 1 := rfl
    rw [Loop.countedLength_add_two, h.metOnWalk_lap_add schedule hlt, ih h.2,
      between_eq_filter_isWithin, counted, counted, hlaps, Nat.add_sub_cancel, List.replicate_succ,
      List.flatten_cons]

theorem Schedule.metOnWalk_prefix (schedule : Schedule α) (loop : Loop) {units total : Nat}
    (h : units ≤ total) (position : Nat) :
    schedule.metOnWalk loop units position <+: schedule.metOnWalk loop total position := by
  obtain ⟨rest, rfl⟩ := Nat.exists_eq_add_of_le h
  rw [schedule.metOnWalk_add]
  exact List.prefix_append _ _

namespace Transport

/-! ### Counting laps -/

/-- Whether a transport plays a counted loop from below the end of the window, and has laps left. -/
structure IsCounting (transport : Transport) (count : UInt32) : Prop where
  disposed : transport.disposed = false
  state : transport.state = .started
  stopTime : transport.stopTime = none
  mode : transport.loop.mode = .count count
  window : transport.loop.start < transport.loop.finish
  position : transport.position < transport.loop.finish
  loopsPlayed : transport.loopsPlayed.toNat < count.toNat

/-- The length that is left to play until a counted loop ends. -/
def lengthLeft (transport : Transport) (count : UInt32) : Nat :=
  transport.loop.countedLength (count.toNat - transport.loopsPlayed.toNat) transport.position.val

/-- A counted loop can be started below the end of its window. -/
theorem isCounting_start {transport : Transport} (hlive : transport.disposed = false)
    {count : UInt32} (hmode : transport.loop.mode = .count count) (hcount : 0 < count)
    (hwindow : transport.loop.start < transport.loop.finish) (time : Option ClockTime)
    {position : Option ClockTime}
    (hposition : position.getD transport.home < transport.loop.finish) :
    (transport.start time position).IsCounting count := by
  rw [start_of_live hlive]
  exact ⟨hlive, rfl, rfl, hmode, hwindow, hposition, UInt32.lt_iff_toNat_lt.1 hcount⟩

namespace IsCounting

variable {transport : Transport} {count : UInt32}

theorem isActive (h : transport.IsCounting count) : transport.loop.IsActive := by
  have hcount : 0 < count := UInt32.lt_iff_toNat_lt.2 (Nat.zero_lt_of_lt h.loopsPlayed)
  exact ⟨by rw [h.mode]; exact decide_eq_true hcount, h.window⟩

theorem toNat_loopsPlayed_succ (h : transport.IsCounting count) :
    (transport.loopsPlayed + 1).toNat = transport.loopsPlayed.toNat + 1 := by
  have hcount := count.toNat_lt
  have hlaps := h.loopsPlayed
  rw [UInt32.toNat_add]
  exact Nat.mod_eq_of_lt (by simp only [UInt32.reduceToNat]; omega)

theorem isDoneAfter_iff (h : transport.IsCounting count) :
    transport.loop.mode.isDoneAfter (transport.loopsPlayed + 1) = true ↔
      count.toNat - transport.loopsPlayed.toNat = 1 := by
  have hlaps := h.loopsPlayed
  rw [h.mode, LoopMode.isDoneAfter, decide_eq_true_iff, UInt32.le_iff_toNat_le,
    h.toNat_loopsPlayed_succ]
  omega

theorem lap_le_lengthLeft (transport : Transport) (count : UInt32) :
    transport.loop.finish.val - transport.position.val ≤ transport.lengthLeft count :=
  Nat.le_add_right _ _

theorem lengthLeft_pos (h : transport.IsCounting count) : 0 < transport.lengthLeft count :=
  Nat.lt_of_lt_of_le (Nat.sub_pos_of_lt h.position) (lap_le_lengthLeft transport count)

/-- After a lap that is not the last one the transport still counts, with the lap less to play. -/
theorem jumped (h : transport.IsCounting count)
    (hmore : transport.loop.mode.isDoneAfter (transport.loopsPlayed + 1) = false) :
    transport.jumped.IsCounting count ∧
      transport.lengthLeft count = (transport.loop.finish.val - transport.position.val) +
        transport.jumped.lengthLeft count := by
  have hlaps := h.loopsPlayed
  have hnext := h.toNat_loopsPlayed_succ
  have hleft : count.toNat - transport.loopsPlayed.toNat ≠ 1 :=
    fun heq => Bool.eq_false_iff.1 hmore (h.isDoneAfter_iff.2 heq)
  refine ⟨⟨h.disposed, h.state, h.stopTime, h.mode, h.window, h.window, ?_⟩, ?_⟩
  · change (transport.loopsPlayed + 1).toNat < count.toNat
    omega
  · obtain ⟨laps, hlaps⟩ : ∃ laps, count.toNat - transport.loopsPlayed.toNat = laps + 2 :=
      ⟨count.toNat - transport.loopsPlayed.toNat - 2, by omega⟩
    have hlaps' : count.toNat - transport.jumped.loopsPlayed.toNat = laps + 1 := by
      change count.toNat - (transport.loopsPlayed + 1).toNat = laps + 1
      omega
    rw [lengthLeft, lengthLeft, hlaps, hlaps']
    exact transport.loop.countedLength_add_two laps transport.position.val

theorem lengthLeft_of_isDone (h : transport.IsCounting count)
    (hdone : transport.loop.mode.isDoneAfter (transport.loopsPlayed + 1) = true) :
    transport.lengthLeft count = transport.loop.finish.val - transport.position.val := by
  rw [lengthLeft, h.isDoneAfter_iff.1 hdone, Loop.countedLength, Nat.sub_self, Nat.zero_mul,
    Nat.add_zero]

theorem isCrossed_of_le (h : transport.IsCounting count) {length : ClockTime}
    (hle : transport.lengthLeft count ≤ length.val) :
    transport.loop.IsCrossed transport.position (transport.position + length) := by
  have hlap := lap_le_lengthLeft transport count
  have hfinish := transport.loop.finish.val_le
  refine ⟨h.isActive, h.position, ?_⟩
  rw [Span.le_def, Span.val_add]
  omega

/-- Walking what is left meets the entries of the laps that are left. -/
theorem metOnWalk_lengthLeft (h : transport.IsCounting count) (schedule : Schedule α) :
    schedule.metOnWalk transport.loop (transport.lengthLeft count) transport.position.val =
      schedule.counted transport.loop (count.toNat - transport.loopsPlayed.toNat)
        transport.position.val := by
  obtain ⟨laps, hlaps⟩ : ∃ laps, count.toNat - transport.loopsPlayed.toNat = laps + 1 :=
    Nat.exists_eq_succ_of_ne_zero (Nat.sub_ne_zero_of_lt h.loopsPlayed)
  rw [lengthLeft, hlaps, schedule.metOnWalk_countedLength h.isActive laps h.position]

/-! ### Covering -/

/-- Covering less than what is left leaves the transport counting, with that much less to play. -/
theorem coverFrom_of_lt (whole clock remaining : ClockTime) (transport : Transport)
    (played : List Stretch) (h : transport.IsCounting count)
    (hlt : remaining.val < transport.lengthLeft count) :
    let passage := transport.coverFrom whole clock remaining played
    passage.finishedAt = none ∧ passage.transport.IsCounting count ∧
      passage.transport.lengthLeft count + remaining.val = transport.lengthLeft count := by
  induction transport, clock, remaining, played using coverFrom.induct whole with
  | case1 transport clock remaining played hzero =>
    rw [coverFrom_of_eq_zero transport whole clock hzero, hzero]
    exact ⟨rfl, h, rfl⟩
  | case2 transport clock remaining played _ reach hcrossed loops hdone =>
    -- the last lap is all that is left, and the length reaches its end
    have hlap := lap_le hcrossed
    rw [h.lengthLeft_of_isDone hdone] at hlt
    exact absurd hlt (Nat.not_lt_of_le hlap)
  | case3 transport clock remaining played _ reach hcrossed lap stretch loops hdone ih =>
    have hmode := Bool.eq_false_iff.2 hdone
    have hlap : lap.val ≤ remaining.val := lap_le hcrossed
    have hrest : (remaining - lap).val = remaining.val - lap.val := Span.val_sub ..
    have hlength : lap.val = transport.loop.finish.val - transport.position.val := Span.val_sub ..
    obtain ⟨hcounting, hleft⟩ := h.jumped hmode
    let next := transport.jumped.coverFrom whole (clock + transport.lapTime whole)
      (remaining - lap) (stretch :: played)
    have hlt' : (remaining - lap).val < transport.jumped.lengthLeft count := by omega
    obtain ⟨hgoing, hends, hless⟩ : next.finishedAt = none ∧ next.transport.IsCounting count ∧
        next.transport.lengthLeft count + (remaining - lap).val =
          transport.jumped.lengthLeft count := ih hcounting hlt'
    rw [coverFrom_of_isCrossed whole clock hcrossed hmode]
    refine ⟨hgoing, hends, ?_⟩
    change next.transport.lengthLeft count + remaining.val = _
    omega
  | case4 transport clock remaining played hpos reach hcrossed =>
    rw [coverFrom_of_not_isCrossed whole clock hpos hcrossed]
    have hstraight := isStraight_of_not_isCrossed hcrossed h.isActive h.position
    have hfinish := transport.loop.finish.val_le
    have hreach : reach.val = transport.position.val + remaining.val :=
      (Span.val_add ..).trans (Nat.min_eq_left (by omega))
    have hbelow : reach < transport.loop.finish := by
      rw [Span.lt_def, hreach]
      exact hstraight
    refine ⟨rfl, ⟨h.disposed, h.state, h.stopTime, h.mode, h.window, hbelow, h.loopsPlayed⟩, ?_⟩
    change transport.loop.countedLength (count.toNat - transport.loopsPlayed.toNat) reach.val +
      remaining.val = _
    rw [lengthLeft, Loop.countedLength, Loop.countedLength, hreach]
    omega

/-- Covering what is left and more ends the loop where the window ends, and what is more is not
played. -/
theorem coverFrom_of_le (schedule : Schedule α) (whole clock remaining : ClockTime)
    (transport : Transport) (played : List Stretch) (h : transport.IsCounting count)
    (hle : transport.lengthLeft count ≤ remaining.val) :
    let passage := transport.coverFrom whole clock remaining played
    passage.transport =
        { transport with
          state := .stopped, position := transport.loop.finish, loopsPlayed := count } ∧
      schedule.along passage.stretches = schedule.along played.reverse ++
        schedule.metOnWalk transport.loop (transport.lengthLeft count)
          transport.position.val := by
  induction transport, clock, remaining, played using coverFrom.induct whole with
  | case1 transport clock remaining played hzero =>
    have hpos := h.lengthLeft_pos
    omega
  | case2 transport clock remaining played _ reach hcrossed loops hdone =>
    have hloops : transport.loopsPlayed + 1 = count := by
      have hlaps := h.isDoneAfter_iff.1 hdone
      refine UInt32.toNat_inj.1 ?_
      rw [h.toNat_loopsPlayed_succ]
      omega
    rw [coverFrom_of_isDone whole clock hcrossed hdone, hloops, h.lengthLeft_of_isDone hdone,
      Loop.metOnWalk_lap h.position]
    refine ⟨rfl, ?_⟩
    dsimp only
    rw [List.reverse_cons, schedule.along_append, schedule.along_singleton,
      schedule.between_eq_filter_isWithin]
  | case3 transport clock remaining played _ reach hcrossed lap stretch loops hdone ih =>
    have hmode := Bool.eq_false_iff.2 hdone
    have hrest : (remaining - lap).val = remaining.val - lap.val := Span.val_sub ..
    have hlength : lap.val = transport.loop.finish.val - transport.position.val := Span.val_sub ..
    obtain ⟨hcounting, hleft⟩ := h.jumped hmode
    have hle' : transport.jumped.lengthLeft count ≤ (remaining - lap).val := by omega
    obtain ⟨htransport, halong⟩ := ih hcounting hle'
    rw [coverFrom_of_isCrossed whole clock hcrossed hmode, hleft,
      h.isActive.metOnWalk_lap_add schedule h.position]
    refine ⟨htransport, halong.trans ?_⟩
    rw [List.reverse_cons, schedule.along_append, schedule.along_singleton, List.append_assoc]
    rfl
  | case4 transport clock remaining played hpos reach hcrossed =>
    exact absurd (h.isCrossed_of_le hle) hcrossed

/-! ### Advancing the clock -/

/-- A call that plays less than what is left leaves the transport counting. -/
theorem process_of_lt (h : transport.IsCounting count) {now : ClockTime}
    (hlt : (transport.playedTime now).val < transport.lengthLeft count) :
    (transport.process now).finishedAt = none ∧
      (transport.process now).transport.IsCounting count ∧
      (transport.process now).transport.lengthLeft count + (transport.playedTime now).val =
        transport.lengthLeft count := by
  obtain ⟨hgoing, hends, hless⟩ := coverFrom_of_lt transport.windowTime
    (max transport.clock transport.startTime) (transport.playedTime now) transport [] h hlt
  obtain ⟨clock, hprocess⟩ := exists_process_eq_cover h.disposed h.state h.stopTime now
  rw [hprocess]
  exact ⟨hgoing, ⟨hends.disposed, hends.state, hends.stopTime, hends.mode, hends.window,
    hends.position, hends.loopsPlayed⟩, hless⟩

/-- A call that plays what is left stops the transport at the end of the window. -/
theorem process_of_le (h : transport.IsCounting count) (schedule : Schedule α) {now : ClockTime}
    (hle : transport.lengthLeft count ≤ (transport.playedTime now).val) :
    (∃ clock, (transport.process now).transport =
      { transport with
        state := .stopped, position := transport.loop.finish, loopsPlayed := count, clock }) ∧
      schedule.along (transport.process now).stretches =
        schedule.metOnWalk transport.loop (transport.lengthLeft count)
          transport.position.val := by
  obtain ⟨htransport, halong⟩ := coverFrom_of_le schedule transport.windowTime
    (max transport.clock transport.startTime) (transport.playedTime now) transport [] h hle
  obtain ⟨clock, hprocess⟩ := exists_process_eq_cover h.disposed h.state h.stopTime now
  rw [hprocess]
  refine ⟨⟨clock, ?_⟩, halong⟩
  dsimp only [cover]
  rw [htransport]

end IsCounting

end Transport

namespace Part

/-! ### Runs -/

/-- Once a part has stopped, only its clock goes on. -/
theorem run_of_stopped (part : Part γ α) (h : part.transport.state = .stopped)
    (times : List ClockTime) :
    (∃ clock, (part.run (times.map .process)).1.transport = { part.transport with clock }) ∧
      (part.run (times.map .process)).2 = [] ∧ part.playedLength (times.map .process) = 0 := by
  induction times generalizing part with
  | nil => exact ⟨⟨_, rfl⟩, rfl, rfl⟩
  | cons now times ih =>
    obtain ⟨clock, hhere⟩ : ∃ clock, part.transport.process now =
        { transport := { part.transport with clock } } := by
      by_cases hidle : part.transport.disposed = true ∨ now ≤ part.transport.clock
      · exact ⟨part.transport.clock, Transport.process_of_idle hidle⟩
      · obtain ⟨hdisposed, hbehind⟩ := not_or.1 hidle
        exact ⟨now, Transport.process_of_stopped (Bool.eq_false_iff.2 hdisposed)
          (Nat.lt_of_not_le hbehind) h⟩
    have hzero : part.transport.playedTime now = 0 := if_neg fun hplays =>
      absurd (h.symm.trans hplays.2.2.1) (by decide)
    have hnext : (part.process now).1.transport = { part.transport with clock } :=
      congrArg Passage.transport hhere
    have hquiet : (part.process now).2 = [] := by
      rw [process, hhere, play_nil]
      rfl
    obtain ⟨⟨clock', hends⟩, hevents, hlength⟩ := ih (part.process now).1 (by rw [hnext]; exact h)
    simp only [List.map_cons, run_cons, perform, playedLength, playedBy, hquiet, hzero]
    rw [hends, hevents, hlength, hnext]
    exact ⟨⟨clock', rfl⟩, rfl, rfl⟩

/-- **A run of calls** takes from what is left as much as it plays. If that is not all, the part
goes on; if it is, or more, the part has stopped at the end of the window. Either way the entries
that are handed over are those of the length that there was to play. -/
theorem run_of_isCounting (part : Part γ α) {listener : Listener}
    (hlistener : part.listener = some listener) (hmute : part.mute = false)
    (hprobability : part.probability = .one) {count : UInt32}
    (h : part.transport.IsCounting count) (times : List ClockTime) :
    let ended := (part.run (times.map .process)).1.transport
    let played := part.playedLength (times.map .process)
    let total := part.transport.lengthLeft count
    (part.run (times.map .process)).2.filterMap PartEvent.handed? =
        (part.schedule.metOnWalk part.transport.loop (min played total)
          part.transport.position.val).map (fun e => (listener, e.id, e.step)) ∧
      (played < total → ended.IsCounting count ∧ ended.lengthLeft count + played = total) ∧
      (total ≤ played → ended.state = .stopped ∧ ended.position = part.transport.loop.finish ∧
        ended.loopsPlayed = count) := by
  induction times generalizing part with
  | nil =>
    refine ⟨?_, fun _ => ⟨h, rfl⟩, fun hle => absurd h.lengthLeft_pos (Nat.not_lt_of_le hle)⟩
    simp only [List.map_nil, run_nil, playedLength, Nat.zero_min, Schedule.metOnWalk,
      List.filterMap_nil]
  | cons now times ih =>
    have hhanded := part.handed_process_eq_along hlistener hmute hprobability now
    have hkept : (part.process now).1.schedule = part.schedule ∧
        (part.process now).1.transport.loop = part.transport.loop :=
      ⟨rfl, part.transport.loop_process now⟩
    simp only [List.map_cons, run_cons, perform, playedLength, playedBy, List.filterMap_append]
    rcases Nat.lt_or_ge (part.transport.playedTime now).val (part.transport.lengthLeft count) with
      hlt | hle
    · obtain ⟨hgoing, hnext, hleft⟩ := h.process_of_lt hlt
      obtain ⟨hposition, halong⟩ := Transport.process_eq_walk_of_going part.schedule hgoing
        (Transport.hasRoom_of_lt h.isActive h.position _)
      obtain ⟨hrest, hon, hover⟩ := ih (part.process now).1 hlistener hmute hprobability hnext
      change (part.process now).1.transport.position.val = _ at hposition
      change (part.process now).1.transport.lengthLeft count + _ = _ at hleft
      rw [hkept.1, hkept.2, hposition] at hrest
      have hsplit : min ((part.transport.playedTime now).val +
            (part.process now).1.playedLength (times.map .process))
          (part.transport.lengthLeft count) =
            (part.transport.playedTime now).val +
              min ((part.process now).1.playedLength (times.map .process))
                ((part.process now).1.transport.lengthLeft count) := by omega
      rw [hkept.2] at hover
      refine ⟨?_, fun hless => ?_, fun hall => hover (by omega)⟩
      · rw [hhanded, halong, hrest, ← List.map_append, hsplit, Schedule.metOnWalk_add]
      · obtain ⟨hcounting, hends⟩ := hon (by omega)
        exact ⟨hcounting, by omega⟩
    · obtain ⟨⟨clock, hnext⟩, halong⟩ := h.process_of_le part.schedule hle
      obtain ⟨⟨clock', hends⟩, hevents, hlength⟩ := run_of_stopped (part.process now).1
        (congrArg Transport.state hnext) times
      rw [hevents, hlength, Nat.add_zero, Nat.min_eq_right hle, hhanded, halong, hends]
      change (part.process now).1.transport = _ at hnext
      rw [hnext]
      exact ⟨List.append_nil _, fun hlt => absurd hlt (Nat.not_lt_of_le hle),
        fun _ => ⟨rfl, rfl, rfl⟩⟩

/-- **A counted loop is played as often as the count says, and then the part stops.** From the start
of a part on whose loop is counted, the entries handed over are always the first of those before the
end of the window and then of all the other laps. As long as less than their length has been played,
the part goes on, with laps of the count left. From then on all of them have been handed over, the
part has stopped at the end of the window, whatever else there was to play, and no call hands over
anything more. -/
theorem handed_of_count (part : Part γ α) (hlive : part.transport.disposed = false)
    {listener : Listener} (hlistener : part.listener = some listener) (hmute : part.mute = false)
    (hprobability : part.probability = .one) {count : UInt32}
    (hmode : part.transport.loop.mode = .count count) (hcount : 0 < count)
    (hwindow : part.transport.loop.start < part.transport.loop.finish)
    (time position : Option ClockTime)
    (hposition : position.getD part.transport.home < part.transport.loop.finish)
    (times : List ClockTime) :
    let loop := part.transport.loop
    let begun := (part.perform (.start time position)).1
    let ended := (begun.run (times.map .process)).1
    let handed := (begun.run (times.map .process)).2.filterMap PartEvent.handed?
    let counted := (part.schedule.counted loop count.toNat begun.transport.position.val).map
      fun e => (listener, e.id, e.step)
    let total := loop.countedLength count.toNat begun.transport.position.val
    let played := begun.playedLength (times.map .process)
    handed <+: counted ∧ ended.transport.loopsPlayed ≤ count ∧
      (played < total → ended.transport.state = .started ∧
        ended.transport.lengthLeft count + played = total) ∧
      (total ≤ played → handed = counted ∧ ended.transport.state = .stopped ∧
        ended.transport.position = loop.finish ∧ ∀ later : List ClockTime,
          (ended.run (later.map .process)).2 = [] ∧
            ∃ clock, (ended.run (later.map .process)).1.transport =
              { ended.transport with clock }) := by
  intro loop begun ended handed counted total played
  have hcounting : begun.transport.IsCounting count :=
    Transport.isCounting_start hlive hmode hcount hwindow time hposition
  have hbegun : begun.transport.loopsPlayed = 0 ∧ begun.transport.loop = loop := by
    change (part.transport.start time position).loopsPlayed = 0 ∧
      (part.transport.start time position).loop = part.transport.loop
    rw [Transport.start_of_live hlive]
    exact ⟨rfl, rfl⟩
  have htotal : begun.transport.lengthLeft count = total := by
    rw [Transport.lengthLeft, hbegun.1, hbegun.2]
    rfl
  have hcounted : counted = (part.schedule.metOnWalk loop total
      begun.transport.position.val).map fun e => (listener, e.id, e.step) := by
    have hwalk := hcounting.metOnWalk_lengthLeft part.schedule
    rw [htotal, hbegun.1, hbegun.2] at hwalk
    rw [hwalk]
    rfl
  obtain ⟨hhanded, hgoing, hover⟩ :=
    begun.run_of_isCounting hlistener hmute hprobability hcounting times
  rw [htotal, hbegun.2] at hhanded hover
  rw [htotal] at hgoing
  change handed = List.map _ (part.schedule.metOnWalk loop (min played total) _) at hhanded
  refine ⟨?_, ?_, fun hlt => ?_, fun hle => ?_⟩
  · rw [hhanded, hcounted]
    exact (part.schedule.metOnWalk_prefix loop (Nat.min_le_right played total) _).map _
  · rcases Nat.lt_or_ge played total with hlt | hle
    · exact UInt32.le_iff_toNat_le.2 (Nat.le_of_lt (hgoing hlt).1.loopsPlayed)
    · exact UInt32.le_iff_toNat_le.2 (Nat.le_of_eq (congrArg UInt32.toNat (hover hle).2.2))
  · exact ⟨(hgoing hlt).1.state, (hgoing hlt).2⟩
  · obtain ⟨hstopped, hfinish, -⟩ := hover hle
    refine ⟨?_, hstopped, hfinish, fun later => ?_⟩
    · rw [hhanded, Nat.min_eq_right hle, hcounted]
    · obtain ⟨hclock, hevents, -⟩ := ended.run_of_stopped hstopped later
      exact ⟨hevents, hclock⟩

/-- Three laps at twice the rate, begun before the window: the second call comes up to the end of
the first lap, and the third one plays the other two with some time to spare. -/
theorem handed_of_count_three :
    let listener : Listener := { name := "bell" }
    let fresh : Part SplitMix Char := { draws := ⟨7⟩ }
    let part := (fresh.run [.listen listener, .add 0 (.sound 'a'), .add 2 (.sound 'b'),
      .add 5 (.sound 'c'), .add 6 (.sound 'd'), .setLoopMode (.count 3), .setLoopStart 2,
      .setLoopFinish 6, .setRate (.ofNat 2)]).1
    let begun := (part.perform (.start (some 10) (some 0))).1
    let times : List ClockTime := [5, 13, 20]
    let ended := (begun.run (times.map .process)).1
    (part.transport.disposed = false ∧ part.listener = some listener ∧ part.mute = false ∧
        part.probability = .one ∧ part.transport.loop = ⟨.count 3, 2, 6⟩) ∧
      begun.playedLength (times.map .process) = 20 ∧
      (begun.run (times.map .process)).2.filterMap PartEvent.handed? =
        [(listener, 0, .sound 'a'), (listener, 1, .sound 'b'), (listener, 2, .sound 'c'),
          (listener, 1, .sound 'b'), (listener, 2, .sound 'c'), (listener, 1, .sound 'b'),
          (listener, 2, .sound 'c')] ∧
      ended.transport.state = .stopped ∧ ended.transport.position = 6 ∧
      (ended.run [.process 100]).2 = [] := by
  intro listener fresh part begun times ended
  have hloop : part.transport.loop = ⟨.count 3, 2, 6⟩ := by decide +kernel
  have hplayed : begun.playedLength (times.map .process) = 20 := by decide +kernel
  have hlive : part.transport.disposed = false := by decide +kernel
  have hprobability : part.probability = .one := by decide +kernel
  obtain ⟨-, -, -, hover⟩ := part.handed_of_count hlive rfl rfl hprobability
    (congrArg Loop.mode hloop) (by decide) (by decide +kernel) (some 10) (some 0)
    (by decide +kernel) times
  obtain ⟨hhanded, hstopped, hposition, hlater⟩ := hover (by decide +kernel)
  exact ⟨⟨hlive, rfl, rfl, hprobability, hloop⟩, hplayed, hhanded.trans (by decide +kernel),
    hstopped, hposition.trans (by decide +kernel), (hlater [100]).1⟩

end Part

end Ostinato
