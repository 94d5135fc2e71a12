import Ostinato.Proofs.Part.Cuts

/-!
# Turns of the play loop

A transport plays in a loop. Each turn goes on in a straight line, up to the end of the window if
that can be reached, and the loop takes another turn as long as something remains to be covered and
the transport has not stopped. A turn that reaches the end of the window uses up some of what
remains and goes back to the start of the window, which lies before the end; any other turn uses up
everything. So the loop ends, however long the clock takes for a lap. The entries that a turn passes
are cut out of the schedule between two indices that a search finds.

## Main definitions

* `Turn`: where the loop stands at the head of a turn.
* `Turn.IsDue`, `Turn.next`: whether there is a turn to take, and where that leads.
* `Turn.turns`, `Turn.last`: the turns that the loop takes, and where it ends.
* `Schedule.IsPartition`, `Schedule.slice?`: searched indices, and the entries between two of them.

## Main results

* `Turn.not_isDue_next_of_not_crosses`, `Turn.not_isDue_next_of_isLastLap`,
  `Turn.position_next_of_not_isLastLap`: which turns are the last one, and where the others lead.
* `Turn.length_turns_le`, `Turn.not_isDue_last`: the loop ends, and after how many turns.
* `Turn.coverFrom_eq_turns`, `Turn.cover_eq_turns`: what is covered is what the loop covers.
* `Schedule.isPartition_iff`, `Schedule.slice?_countBefore`: the entries that a turn passes.
* `Part.sound_turns`: all of this for the loop of a part.
-/

namespace Ostinato

variable {γ α : Type}

/-! ### One turn -/

/-- Where the loop of a playing transport stands at the head of a turn: what it has come to so far,
the clock time there, and the length that remains to be covered. -/
structure Turn where
  transport : Transport
  clock : ClockTime
  remaining : ClockTime
  deriving DecidableEq

namespace Turn

/-- Whether there is a turn to take: something remains, and the transport plays. -/
def IsDue (turn : Turn) : Prop :=
  0 < turn.remaining ∧ turn.transport.state = .started

instance (turn : Turn) : Decidable turn.IsDue :=
  inferInstanceAs (Decidable (_ ∧ _))

/-- The position that a turn would come to on the line. -/
def reach (turn : Turn) : ClockTime :=
  turn.transport.position + turn.remaining

/-- Whether a turn reaches the end of the window. -/
def Crosses (turn : Turn) : Prop :=
  turn.transport.loop.IsCrossed turn.transport.position turn.reach

instance (turn : Turn) : Decidable turn.Crosses :=
  inferInstanceAs (Decidable (Loop.IsCrossed _ _ _))

/-- The length up to the end of the window. -/
def lap (turn : Turn) : ClockTime :=
  turn.transport.loop.finish - turn.transport.position

/-- The positions that a turn passes. -/
def stretch (turn : Turn) : Stretch :=
  ⟨turn.transport.position, if turn.Crosses then turn.transport.loop.finish else turn.reach,
    turn.clock⟩

/-- Whether the lap that a turn counts is the last one of a counted loop. -/
def IsLastLap (turn : Turn) : Prop :=
  ∃ count, turn.transport.loop.mode = .count count ∧ count ≤ turn.transport.loopsPlayed + 1

end Turn

/-- The transport after a lap: stopped at the end of the window if that was the last one, and back
at its start otherwise. -/
def Transport.lapped (transport : Transport) : Transport :=
  if transport.loop.mode.isDoneAfter (transport.loopsPlayed + 1) then
    { transport with
      state := .stopped
      position := transport.loop.finish
      loopsPlayed := transport.loopsPlayed + 1 }
  else transport.jumped

namespace Turn

/-- Where a turn leads, if the clock time that a length takes is given by `pace`. -/
def next (pace : ClockTime → ClockTime) (turn : Turn) : Turn :=
  if turn.Crosses then
    { transport := turn.transport.lapped
      clock := turn.clock + pace turn.lap
      remaining := turn.remaining - turn.lap }
  else { turn with transport := { turn.transport with position := turn.reach }, remaining := 0 }

variable (pace : ClockTime → ClockTime) {turn : Turn}

theorem next_of_crosses (h : turn.Crosses) :
    turn.next pace =
      ⟨turn.transport.lapped, turn.clock + pace turn.lap, turn.remaining - turn.lap⟩ :=
  if_pos h

theorem next_of_not_crosses (h : ¬ turn.Crosses) :
    turn.next pace =
      ⟨{ turn.transport with position := turn.reach }, turn.clock, 0⟩ :=
  if_neg h

theorem stretch_of_crosses (h : turn.Crosses) :
    turn.stretch = ⟨turn.transport.position, turn.transport.loop.finish, turn.clock⟩ :=
  congrArg (Stretch.mk _ · _) (if_pos h)

theorem stretch_of_not_crosses (h : ¬ turn.Crosses) :
    turn.stretch = ⟨turn.transport.position, turn.reach, turn.clock⟩ :=
  congrArg (Stretch.mk _ · _) (if_neg h)

theorem start_le_finish_stretch (turn : Turn) : turn.stretch.start ≤ turn.stretch.finish := by
  by_cases h : turn.Crosses
  · rw [stretch_of_crosses h]
    exact Nat.le_of_lt h.2.1
  · have hposition := turn.transport.position.val_le
    rw [stretch_of_not_crosses h]
    dsimp only
    rw [reach, Span.le_def, Span.val_add]
    omega

theorem loop_next (turn : Turn) : (turn.next pace).transport.loop = turn.transport.loop := by
  by_cases h : turn.Crosses
  · rw [next_of_crosses pace h]
    dsimp only
    rw [Transport.lapped]
    split <;> rfl
  · rw [next_of_not_crosses pace h]

theorem remaining_next_lt_of_crosses (h : turn.Crosses) :
    (turn.next pace).remaining.val < turn.remaining.val := by
  have hpos : 0 < turn.lap.val := Transport.lap_pos h
  have hle : turn.lap.val ≤ turn.remaining.val := Transport.lap_le h
  rw [next_of_crosses pace h, Span.val_sub]
  omega

theorem remaining_next_lt (h : turn.IsDue) :
    (turn.next pace).remaining.val < turn.remaining.val := by
  by_cases hcrosses : turn.Crosses
  · exact remaining_next_lt_of_crosses pace hcrosses
  · rw [next_of_not_crosses pace hcrosses]
    exact h.1

theorem isDoneAfter_iff :
    turn.transport.loop.mode.isDoneAfter (turn.transport.loopsPlayed + 1) = true ↔
      turn.IsLastLap := by
  rw [IsLastLap]
  cases turn.transport.loop.mode with
  | count count => simp [LoopMode.isDoneAfter]
  | off => simp [LoopMode.isDoneAfter]
  | forever => simp [LoopMode.isDoneAfter]

theorem lapped_of_isLastLap (h : turn.IsLastLap) :
    turn.transport.lapped =
      { turn.transport with
        state := .stopped
        position := turn.transport.loop.finish
        loopsPlayed := turn.transport.loopsPlayed + 1 } :=
  if_pos (isDoneAfter_iff.2 h)

theorem lapped_of_not_isLastLap (h : ¬ turn.IsLastLap) :
    turn.transport.lapped = turn.transport.jumped :=
  if_neg (mt isDoneAfter_iff.1 h)

/-- A turn that does not reach the end of the window is the last one. -/
theorem not_isDue_next_of_not_crosses (h : ¬ turn.Crosses) : ¬ (turn.next pace).IsDue := by
  rw [next_of_not_crosses pace h]
  exact fun hdue => Nat.lt_irrefl 0 hdue.1

/-- A turn that counts the last lap is the last one. -/
theorem not_isDue_next_of_isLastLap (h : turn.Crosses) (hlast : turn.IsLastLap) :
    ¬ (turn.next pace).IsDue := by
  rw [next_of_crosses pace h, lapped_of_isLastLap hlast]
  exact fun hdue => nomatch (hdue.2 : PlayState.stopped = .started)

/-- Any other turn goes back to the start of the window, which is below its end. -/
theorem position_next_of_not_isLastLap (h : turn.Crosses) (hlast : ¬ turn.IsLastLap) :
    (turn.next pace).transport.position = turn.transport.loop.start ∧
      turn.transport.loop.start < turn.transport.loop.finish := by
  rw [next_of_crosses pace h, lapped_of_not_isLastLap hlast]
  exact ⟨rfl, h.1.2⟩

/-! ### The loop -/

/-- The turns that the loop takes. -/
def turns (turn : Turn) : List Turn :=
  if _h : turn.IsDue then turn :: turns (turn.next pace) else []
termination_by turn.remaining.val
decreasing_by exact remaining_next_lt pace _h

/-- Where the loop ends. -/
def last (turn : Turn) : Turn :=
  if _h : turn.IsDue then last (turn.next pace) else turn
termination_by turn.remaining.val
decreasing_by exact remaining_next_lt pace _h

theorem turns_of_isDue (h : turn.IsDue) :
    turn.turns pace = turn :: (turn.next pace).turns pace := by
  rw [turns, dif_pos h]

theorem turns_of_not_isDue (h : ¬ turn.IsDue) : turn.turns pace = [] := by
  rw [turns, dif_neg h]

theorem last_of_isDue (h : turn.IsDue) : turn.last pace = (turn.next pace).last pace := by
  rw [last, dif_pos h]

theorem last_of_not_isDue (h : ¬ turn.IsDue) : turn.last pace = turn := by
  rw [last, dif_neg h]

/-- Where the loop ends, there is no turn to take. -/
theorem not_isDue_last (turn : Turn) : ¬ (turn.last pace).IsDue := by
  induction turn using turns.induct pace with
  | case1 turn hdue ih => rwa [last_of_isDue pace hdue]
  | case2 turn hdue => rwa [last_of_not_isDue pace hdue]

/-- The loop takes at most one turn for each unit of the length. -/
theorem length_turns_le (turn : Turn) : (turn.turns pace).length ≤ turn.remaining.val := by
  induction turn using turns.induct pace with
  | case1 turn hdue ih =>
    rw [turns_of_isDue pace hdue, List.length_cons]
    exact Nat.lt_of_le_of_lt ih (remaining_next_lt pace hdue)
  | case2 turn hdue =>
    rw [turns_of_not_isDue pace hdue]
    exact Nat.zero_le _

theorem isDue_of_mem_turns {first : Turn} (h : turn ∈ first.turns pace) :
    turn.IsDue ∧ turn.transport.loop = first.transport.loop := by
  induction first using turns.induct pace with
  | case1 first hdue ih =>
    rw [turns_of_isDue pace hdue] at h
    rcases List.mem_cons.1 h with rfl | h
    · exact ⟨hdue, rfl⟩
    · rw [← loop_next pace first]
      exact ih h
  | case2 first hdue =>
    rw [turns_of_not_isDue pace hdue] at h
    exact absurd h List.not_mem_nil

/-- **What is covered is what the loop covers**, turn by turn, if the clock goes at the rate of the
transport. -/
theorem coverFrom_eq_turns (turn : Turn) (played : List Stretch)
    (hstate : turn.transport.state = .started)
    (hpace : ∀ lap, pace lap = lap.unscale turn.transport.rate) :
    turn.transport.coverFrom turn.transport.windowTime turn.clock turn.remaining played =
      { transport := (turn.last pace).transport
        stretches := played.reverse ++ (turn.turns pace).map stretch
        finishedAt :=
          if (turn.last pace).transport.state = .stopped then some (turn.last pace).clock
          else none } := by
  induction turn using turns.induct pace generalizing played with
  | case1 turn hdue ih =>
    have htime : turn.transport.lapTime turn.transport.windowTime = pace turn.lap :=
      (Transport.lapTime_windowTime _).trans (hpace _).symm
    have hpos : turn.remaining.val ≠ 0 := Nat.ne_of_gt hdue.1
    rw [turns_of_isDue _ hdue, last_of_isDue _ hdue]
    by_cases hcrosses : turn.Crosses
    · by_cases hlast : turn.IsLastLap
      · have hover := not_isDue_next_of_isLastLap pace hcrosses hlast
        rw [Transport.coverFrom_of_isDone _ _ hcrosses (isDoneAfter_iff.2 hlast), htime,
          turns_of_not_isDue _ hover, last_of_not_isDue _ hover, next_of_crosses _ hcrosses,
          lapped_of_isLastLap hlast, List.map_singleton, stretch_of_crosses hcrosses,
          List.reverse_cons]
        rfl
      · -- the lap, and what the loop covers from the start of the window on
        have hmode := Bool.eq_false_iff.2 (mt isDoneAfter_iff.1 hlast)
        have hnext := (next_of_crosses pace hcrosses).trans
          (congrArg (Turn.mk · _ _) (lapped_of_not_isLastLap hlast))
        rw [hnext] at ih
        rw [Transport.coverFrom_of_isCrossed _ _ hcrosses hmode, htime, hnext, List.map_cons,
          stretch_of_crosses hcrosses]
        refine (ih (_ :: played) hstate hpace).trans ?_
        rw [List.reverse_cons, List.append_assoc, List.singleton_append]
    · have hover := not_isDue_next_of_not_crosses pace hcrosses
      rw [Transport.coverFrom_of_not_isCrossed _ _ hpos hcrosses, turns_of_not_isDue _ hover,
        last_of_not_isDue _ hover, next_of_not_crosses _ hcrosses, List.map_singleton,
        stretch_of_not_crosses hcrosses, List.reverse_cons]
      dsimp only
      rw [hstate]
      rfl
  | case2 turn hdue =>
    have hzero : turn.remaining.val = 0 :=
      Nat.eq_zero_of_not_pos fun hpos => hdue ⟨hpos, hstate⟩
    rw [Transport.coverFrom_of_eq_zero _ _ _ hzero, turns_of_not_isDue _ hdue,
      last_of_not_isDue _ hdue, hstate, List.map_nil, List.append_nil]
    rfl

/-- The same for a length that is covered from its beginning on. -/
theorem cover_eq_turns (turn : Turn) (hstate : turn.transport.state = .started)
    (hpace : ∀ lap, pace lap = lap.unscale turn.transport.rate) :
    turn.transport.cover turn.clock turn.remaining =
      { transport := (turn.last pace).transport
        stretches := (turn.turns pace).map stretch
        finishedAt :=
          if (turn.last pace).transport.state = .stopped then some (turn.last pace).clock
          else none } :=
  turn.coverFrom_eq_turns pace [] hstate hpace

end Turn

/-! ### The entries of a turn -/

namespace Schedule

/-- Whether an index parts the entries: those in front of it are before a time, and the others are
not. This is what a search for the time has to find. -/
structure IsPartition (schedule : Schedule α) (time : ClockTime) (index : Nat) : Prop where
  le_size : index ≤ schedule.size
  before : ∀ entry ∈ schedule.entries.take index, entry.time < time
  after : ∀ entry ∈ schedule.entries.drop index, ¬ entry.time < time

/-- The entries from an index on and before another one, if these are indices in order. -/
def slice? (schedule : Schedule α) (first last : Nat) : Option (List (Entry α)) :=
  if first ≤ last ∧ last ≤ schedule.size then some ((schedule.entries.take last).drop first)
  else none

theorem isPartition_countBefore (schedule : Schedule α) (time : ClockTime) :
    schedule.IsPartition time (schedule.countBefore time) := by
  have horder := schedule.inOrder_entries
  refine ⟨schedule.countBefore_le_size time, fun entry hentry => ?_, fun entry hentry => ?_⟩
  · rw [countBefore_eq_countP, horder.take_eq_filter] at hentry
    exact of_decide_eq_true (List.mem_filter.1 hentry).2
  · rw [countBefore_eq_countP, horder.drop_eq_filter] at hentry
    exact Nat.not_lt_of_le (of_decide_eq_true (List.mem_filter.1 hentry).2)

theorem IsPartition.eq_countBefore {schedule : Schedule α} {time : ClockTime} {index : Nat}
    (h : schedule.IsPartition time index) : index = schedule.countBefore time := by
  have hbefore : (schedule.entries.take index).countP (·.time < time) = index := by
    rw [List.countP_eq_length.2 fun entry hentry => decide_eq_true (h.before entry hentry),
      List.length_take, ← size_eq_length]
    exact Nat.min_eq_left h.le_size
  have hafter : (schedule.entries.drop index).countP (·.time < time) = 0 :=
    List.countP_eq_zero.2 fun entry hentry hlt => h.after entry hentry (of_decide_eq_true hlt)
  rw [countBefore_eq_countP, ← List.take_append_drop index schedule.entries, List.countP_append,
    hbefore, hafter, Nat.add_zero]

/-- There is exactly one index that parts the entries, as they are in order. -/
theorem isPartition_iff (schedule : Schedule α) (time : ClockTime) (index : Nat) :
    schedule.IsPartition time index ↔ index = schedule.countBefore time := by
  constructor
  · exact fun h => h.eq_countBefore
  · rintro rfl
    exact schedule.isPartition_countBefore time

/-- The indices of two times in order are indices in order. -/
theorem slice?_countBefore (schedule : Schedule α) {start finish : ClockTime} (h : start ≤ finish) :
    schedule.slice? (schedule.countBefore start) (schedule.countBefore finish) =
      some (schedule.between start finish) :=
  if_pos ⟨schedule.countBefore_mono h, schedule.countBefore_le_size finish⟩

end Schedule

/-! ### The loop of a part -/

namespace Part

/-- **The play loop ends, and cuts out the entries that it passes.** Let a part play any length from
any clock time on, and let the clock take any time for a lap. The loop comes to a place where there
is no turn to take, in at most one turn for each unit of the length. A turn that reaches the end of
the window uses up at least one unit, and either counts the last lap of a counted loop and is the
last turn, or goes back to the start of the window, which is below its end; any other turn is the
last one. On each turn there is one index that parts the entries by the position at which the turn
begins, and one by the position to which it goes; these are indices of the entries and in order, and
between them stand the entries with times from the one position on and before the other. At the rate
of the part this is the loop by which the part covers the length. -/
theorem sound_turns (part : Part γ α) (pace : ClockTime → ClockTime) (clock length : ClockTime) :
    let first : Turn := ⟨part.transport, clock, length⟩
    let loop := part.transport.loop
    (first.turns pace).length ≤ length.val ∧
      ¬ (first.last pace).IsDue ∧
      (∀ turn ∈ first.turns pace,
        (turn.Crosses →
          (turn.next pace).remaining.val + 1 ≤ turn.remaining.val ∧
            ((turn.IsLastLap ∧ ¬ (turn.next pace).IsDue) ∨
              ((turn.next pace).transport.position = loop.start ∧ loop.start < loop.finish))) ∧
        (¬ turn.Crosses → ¬ (turn.next pace).IsDue) ∧
        turn.stretch.start ≤ turn.stretch.finish ∧
        ∃ i j,
          (∀ index, part.schedule.IsPartition turn.stretch.start index ↔ index = i) ∧
            (∀ index, part.schedule.IsPartition turn.stretch.finish index ↔ index = j) ∧
            i ≤ j ∧ j ≤ part.schedule.size ∧
            part.schedule.slice? i j =
              some (part.schedule.between turn.stretch.start turn.stretch.finish) ∧
            part.schedule.between turn.stretch.start turn.stretch.finish =
              part.schedule.entries.filter fun e =>
                turn.stretch.start ≤ e.time ∧ e.time < turn.stretch.finish) ∧
      (part.transport.state = .started → (∀ lap, pace lap = lap.unscale part.transport.rate) →
        (part.transport.cover clock length).stretches = (first.turns pace).map Turn.stretch ∧
          (part.transport.cover clock length).transport = (first.last pace).transport) := by
  intro first loop
  refine ⟨first.length_turns_le pace, first.not_isDue_last pace, fun turn hturn => ?_,
    fun hstate hpace => ?_⟩
  · obtain ⟨-, hloop⟩ := Turn.isDue_of_mem_turns pace hturn
    have hforward := turn.start_le_finish_stretch
    refine ⟨fun hcrosses => ⟨Turn.remaining_next_lt_of_crosses pace hcrosses, ?_⟩,
      Turn.not_isDue_next_of_not_crosses pace, hforward, _, _,
      part.schedule.isPartition_iff _, part.schedule.isPartition_iff _,
      part.schedule.countBefore_mono hforward, part.schedule.countBefore_le_size _,
      part.schedule.slice?_countBefore hforward, part.schedule.between_eq_filter _ _⟩
    by_cases hlast : turn.IsLastLap
    · exact .inl ⟨hlast, Turn.not_isDue_next_of_isLastLap pace hcrosses hlast⟩
    · have hback := Turn.position_next_of_not_isLastLap pace hcrosses hlast
      rw [hloop] at hback
      exact .inr hback
  · have hcover := first.cover_eq_turns pace hstate hpace
    exact ⟨congrArg Passage.stretches hcover, congrArg Passage.transport hcover⟩

/-- A window that is played twice takes two turns, although there is length for more. The second one
begins at the start of the window and counts the last lap, on which it passes the entry at the start
of the window and the one before its end. -/
theorem sound_turns_last_lap :
    let schedule : Schedule Char := (((Schedule.empty.insert ⟨0, 30, .sound 'd'⟩).insert
      ⟨1, 5, .sound 'a'⟩).insert ⟨2, 29, .sound 'c'⟩).insert ⟨3, 10, .sound 'b'⟩
    let transport : Transport := { state := .started, position := 5, loop := ⟨.count 2, 10, 30⟩ }
    let part : Part SplitMix Char := { schedule, transport, draws := ⟨7⟩ }
    let pace (lap : ClockTime) := lap.unscale transport.rate
    let first : Turn := ⟨transport, 0, 100⟩
    let second : Turn := ⟨{ transport with position := 10, loopsPlayed := 1 }, 25, 75⟩
    (second ∈ first.turns pace ∧ second.Crosses ∧ transport.state = .started) ∧
      (first.turns pace).length ≤ 100 ∧
      (second.next pace).remaining.val + 1 ≤ 75 ∧ second.IsLastLap ∧
      ¬ (second.next pace).IsDue ∧
      part.schedule.slice? 1 3 = some [⟨3, 10, .sound 'b'⟩, ⟨2, 29, .sound 'c'⟩] ∧
      (transport.cover 0 100).stretches = [⟨5, 30, 0⟩, ⟨10, 30, 25⟩] := by
  intro schedule transport part pace first second
  have hturns : first.turns pace = [first, second] := by decide +kernel
  have hsecond : second ∈ first.turns pace :=
    hturns ▸ List.mem_cons_of_mem _ List.mem_cons_self
  have hcrosses : second.Crosses := by decide +kernel
  obtain ⟨hlength, -, hsound, hcover⟩ := part.sound_turns pace 0 100
  obtain ⟨hcrossing, -, -, i, j, hi, hj, -, -, hslice, -⟩ := hsound second hsecond
  obtain ⟨hshorter, ⟨hlast, hover⟩ | ⟨hback, -⟩⟩ := hcrossing hcrosses
  · have hfirst : 1 = i := (hi 1).1 ((part.schedule.isPartition_iff _ _).2 (by decide +kernel))
    have hbehind : 3 = j := (hj 3).1 ((part.schedule.isPartition_iff _ _).2 (by decide +kernel))
    have hstretches : (first.turns pace).map Turn.stretch = [⟨5, 30, 0⟩, ⟨10, 30, 25⟩] := by
      decide +kernel
    subst hfirst hbehind
    exact ⟨⟨hsecond, hcrosses, rfl⟩, hlength, hshorter, hlast, hover,
      hslice.trans (by decide +kernel), ((hcover rfl fun _ => rfl).1).trans hstretches⟩
  · exact absurd hback (by decide +kernel)

end Part

end Ostinato
