import Ostinato.Part.Execution

/-!
# Walks along the positions of a part

A part plays stretches: ranges of positions that it finds by arithmetic on the loop window, and
entries that it finds by their places in the schedule. What this comes to is a walk that goes one
unit at a time. A walk meets the entries at the position it leaves, and jumps to the start of the
loop window when a step would take it to the end. It does not know where one call ends and the next
begins, so neither a call boundary nor a jump can lose an entry or meet it twice.

## Main definitions

* `Loop.next`, `Loop.walk`: the position after one step, and after a number of them.
* `Schedule.metOnWalk`: the entries met on a walk.
* `Transport.playedTime`: the length that is played while the clock advances.

## Main results

* `Loop.walk_add`, `Schedule.metOnWalk_add`: a walk can be cut anywhere.
* `Transport.coverFrom_eq_walk`: covering a length is walking it.
* `Transport.process_eq_walk_of_going`, `Transport.process_eq_walk`: so is advancing the clock.
-/

namespace Ostinato

variable {α : Type}

/-! ### Walking -/

/-- The position that follows on a walk: the next one on the line, or the start of the loop window
if the next one is its end. -/
def Loop.next (loop : Loop) (position : Nat) : Nat :=
  if loop.IsActive ∧ position + 1 = loop.finish.val then loop.start.val else position + 1

/-- The position after walking a number of units. -/
def Loop.walk (loop : Loop) : Nat → Nat → Nat
  | 0, position => position
  | units + 1, position => loop.walk units (loop.next position)

namespace Schedule

/-- The entries at a position, in order. -/
def atPosition (schedule : Schedule α) (position : Nat) : List (Entry α) :=
  schedule.entries.filter fun e => e.time.val = position

/-- The entries met while walking a number of units: those at each position that is left. -/
def metOnWalk (schedule : Schedule α) (loop : Loop) : Nat → Nat → List (Entry α)
  | 0, _ => []
  | units + 1, position =>
    schedule.atPosition position ++ schedule.metOnWalk loop units (loop.next position)

/-- The entries met along stretches. -/
def along (schedule : Schedule α) (stretches : List Stretch) : List (Entry α) :=
  stretches.flatMap fun stretch => schedule.between stretch.start stretch.finish

@[simp] theorem along_nil (schedule : Schedule α) : schedule.along [] = [] := rfl

theorem along_append (schedule : Schedule α) (before after : List Stretch) :
    schedule.along (before ++ after) = schedule.along before ++ schedule.along after :=
  List.flatMap_append

theorem along_singleton (schedule : Schedule α) (stretch : Stretch) :
    schedule.along [stretch] = schedule.between stretch.start stretch.finish :=
  List.flatMap_singleton ..

end Schedule

/-- A walk can be cut anywhere. -/
theorem Loop.walk_add (loop : Loop) (first second position : Nat) :
    loop.walk (first + second) position = loop.walk second (loop.walk first position) := by
  induction first generalizing position with
  | zero => rw [Nat.zero_add, Loop.walk]
  | succ first ih => rw [Nat.succ_add, Loop.walk, Loop.walk, ih]

/-- The entries met on a walk that is cut are those of its pieces. -/
theorem Schedule.metOnWalk_add (schedule : Schedule α) (loop : Loop) (first second position : Nat) :
    schedule.metOnWalk loop (first + second) position =
      schedule.metOnWalk loop first position ++
        schedule.metOnWalk loop second (loop.walk first position) := by
  induction first generalizing position with
  | zero => rw [Nat.zero_add, metOnWalk, List.nil_append, Loop.walk]
  | succ first ih => rw [Nat.succ_add, metOnWalk, metOnWalk, ih, Loop.walk, List.append_assoc]

/-! ### Walking straight on -/

/-- Whether an entry is at one of the positions from `first` on and before `last`. -/
def Entry.isWithin (first last : Nat) (entry : Entry α) : Bool :=
  decide (first ≤ entry.time.val ∧ entry.time.val < last)

/-- In a list in order, the entries of a range are those before a position in it and those after. -/
theorem InOrder.filter_isWithin_append {entries : List (Entry α)} (h : InOrder entries)
    {first middle last : Nat} (hfirst : first ≤ middle) (hlast : middle ≤ last) :
    entries.filter (·.isWithin first middle) ++ entries.filter (·.isWithin middle last) =
      entries.filter (·.isWithin first last) := by
  induction entries with
  | nil => rfl
  | cons e entries ih =>
    have ⟨hbehind, hrest⟩ := List.pairwise_cons.1 h
    by_cases hbefore : e.time.val < middle
    · have hupper : e.isWithin middle last = false := decide_eq_false (by omega)
      have hlower : e.isWithin first middle = e.isWithin first last :=
        decide_eq_decide.2 (by omega)
      simp only [List.filter_cons, hupper, hlower, ← ih hrest, Bool.false_eq_true, ↓reduceIte]
      split <;> rfl
    · -- from the middle on, nothing of the lower range is left
      have hnone : (e :: entries).filter (·.isWithin first middle) = [] := by
        refine List.filter_eq_nil_iff.2 fun f hf hd => ?_
        have hlt := (of_decide_eq_true hd).2
        rcases List.mem_cons.1 hf with rfl | hf
        · exact hbefore hlt
        · exact hbefore (Nat.lt_of_le_of_lt (hbehind f hf) hlt)
      rw [hnone, List.nil_append]
      refine List.filter_congr fun f hf => decide_eq_decide.2 ?_
      have hle : e.time.val ≤ f.time.val := by
        rcases List.mem_cons.1 hf with rfl | hf
        · exact Nat.le_refl _
        · exact hbehind f hf
      omega

namespace Loop

/-- Whether walking a number of units from a position on takes no jump. -/
def IsStraight (loop : Loop) (units position : Nat) : Prop :=
  loop.IsActive → position < loop.finish.val → position + units < loop.finish.val

theorem IsStraight.next {loop : Loop} {units position : Nat}
    (h : loop.IsStraight (units + 1) position) : loop.next position = position + 1 := by
  refine if_neg fun ⟨hactive, hfinish⟩ => ?_
  have := h hactive (by omega)
  omega

theorem IsStraight.succ {loop : Loop} {units position : Nat}
    (h : loop.IsStraight (units + 1) position) : loop.IsStraight units (position + 1) := by
  intro hactive hlt
  have := h hactive (by omega)
  omega

theorem IsStraight.walk_eq {loop : Loop} {units position : Nat}
    (h : loop.IsStraight units position) : loop.walk units position = position + units := by
  induction units generalizing position with
  | zero => rfl
  | succ units ih =>
    rw [Loop.walk, h.next, ih h.succ]
    omega

/-- A walk without a jump meets the entries in the range of its positions. -/
theorem IsStraight.metOnWalk_eq {loop : Loop} {units position : Nat}
    (h : loop.IsStraight units position) (schedule : Schedule α) :
    schedule.metOnWalk loop units position =
      schedule.entries.filter (·.isWithin position (position + units)) := by
  induction units generalizing position with
  | zero =>
    refine (List.filter_eq_nil_iff.2 fun e _ hd => ?_).symm
    have := of_decide_eq_true hd
    omega
  | succ units ih =>
    have hhere : schedule.atPosition position =
        schedule.entries.filter (·.isWithin position (position + 1)) :=
      List.filter_congr fun e _ => decide_eq_decide.2 (by omega)
    have hsum : position + (units + 1) = position + 1 + units := by omega
    rw [Schedule.metOnWalk, h.next, ih h.succ, hhere, hsum,
      schedule.inOrder_entries.filter_isWithin_append (Nat.le_succ _) (Nat.le_add_right _ _)]

/-! ### Walking a lap -/

theorem IsActive.next_eq {loop : Loop} (h : loop.IsActive) {position : Nat}
    (hfinish : position + 1 = loop.finish.val) : loop.next position = loop.start.val :=
  if_pos ⟨h, hfinish⟩

theorem isStraight_of_lt {loop : Loop} {units position : Nat}
    (h : position + units < loop.finish.val) : loop.IsStraight units position :=
  fun _ _ => h

theorem IsActive.walk_lap {loop : Loop} (h : loop.IsActive) {position : Nat}
    (hlt : position < loop.finish.val) :
    loop.walk (loop.finish.val - position) position = loop.start.val := by
  obtain ⟨units, hunits⟩ := Nat.exists_eq_add_of_lt hlt
  have hlap : loop.finish.val - position = units + 1 := by omega
  have hstraight : loop.IsStraight units position := isStraight_of_lt (by omega)
  rw [hlap, walk_add, hstraight.walk_eq, walk, walk, h.next_eq hunits.symm]

theorem IsActive.walk_lt {loop : Loop} (h : loop.IsActive) (units : Nat) {position : Nat}
    (hlt : position < loop.finish.val) : loop.walk units position < loop.finish.val := by
  induction units generalizing position with
  | zero => exact hlt
  | succ units ih =>
    refine ih ?_
    rw [next]
    split
    · exact h.2
    · next hstep =>
      have : position + 1 ≠ loop.finish.val := fun heq => hstep ⟨h, heq⟩
      omega

/-- Walking to the end of the window meets the entries before the end. -/
theorem metOnWalk_lap {loop : Loop} {position : Nat} (hlt : position < loop.finish.val)
    (schedule : Schedule α) :
    schedule.metOnWalk loop (loop.finish.val - position) position =
      schedule.entries.filter (·.isWithin position loop.finish.val) := by
  obtain ⟨units, hunits⟩ := Nat.exists_eq_add_of_lt hlt
  have hlap : loop.finish.val - position = units + 1 := by omega
  have hstraight : loop.IsStraight units position := isStraight_of_lt (by omega)
  have hlast : schedule.metOnWalk loop 1 (position + units) =
      schedule.entries.filter (·.isWithin (position + units) loop.finish.val) := by
    rw [Schedule.metOnWalk, Schedule.metOnWalk, List.append_nil]
    exact List.filter_congr fun e _ => decide_eq_decide.2 (by omega)
  rw [hlap, schedule.metOnWalk_add, hstraight.metOnWalk_eq, hstraight.walk_eq, hlast]
  exact schedule.inOrder_entries.filter_isWithin_append (Nat.le_add_right _ _) (by omega)

end Loop

theorem Schedule.between_eq_filter_isWithin (schedule : Schedule α) (start finish : ClockTime) :
    schedule.between start finish =
      schedule.entries.filter (·.isWithin start.val finish.val) :=
  schedule.between_eq_filter start finish

/-- A walk to the end of the window and beyond meets the entries before the end, and then those on
the rest of the walk from the start on. -/
theorem Loop.IsActive.metOnWalk_lap_add {loop : Loop} (h : loop.IsActive) (schedule : Schedule α)
    {position : ClockTime} (hlt : position < loop.finish) (rest : Nat) :
    schedule.metOnWalk loop (loop.finish.val - position.val + rest) position.val =
      schedule.between position loop.finish ++ schedule.metOnWalk loop rest loop.start.val := by
  rw [schedule.metOnWalk_add, h.walk_lap hlt, Loop.metOnWalk_lap hlt,
    schedule.between_eq_filter_isWithin]

/-! ### Covering is walking -/

namespace Transport

/-- Whether a length can be covered: it reaches the end of the loop window from below, or it stays
within the range of positions. -/
def HasRoom (transport : Transport) (length : ClockTime) : Prop :=
  transport.loop.IsCrossed transport.position (transport.position + length) ∨
    transport.position.val + length.val ≤ maxCount

theorem hasRoom_of_lt {transport : Transport} (hactive : transport.loop.IsActive)
    (hlt : transport.position < transport.loop.finish) (length : ClockTime) :
    transport.HasRoom length := by
  by_cases hcrossed : transport.loop.IsCrossed transport.position (transport.position + length)
  · exact .inl hcrossed
  · have hbelow : ¬ transport.loop.finish ≤ transport.position + length :=
      fun hle => hcrossed ⟨hactive, hlt, hle⟩
    have hmax := transport.loop.finish.val_le
    rw [Span.le_def, Span.val_add] at hbelow
    exact .inr (by omega)

/-- The transport at the start of its loop window. -/
def jumped (transport : Transport) : Transport :=
  { transport with position := transport.loop.start, loopsPlayed := transport.loopsPlayed + 1 }

theorem isStraight_of_not_isCrossed {transport : Transport} {length : ClockTime}
    (h : ¬ transport.loop.IsCrossed transport.position (transport.position + length)) :
    transport.loop.IsStraight length.val transport.position.val := by
  intro hactive hlt
  have hbelow : ¬ transport.loop.finish ≤ transport.position + length :=
    fun hle => h ⟨hactive, hlt, hle⟩
  have hmax := transport.loop.finish.val_le
  rw [Span.le_def, Span.val_add] at hbelow
  omega

theorem coverFrom_of_eq_zero (transport : Transport) (whole clock : ClockTime)
    {remaining : ClockTime} (h : remaining.val = 0) (played : List Stretch) :
    transport.coverFrom whole clock remaining played =
      { transport, stretches := played.reverse } := by
  rw [coverFrom, if_pos h]

/-- A length that does not reach the end of the window is one stretch. -/
theorem coverFrom_of_not_isCrossed {transport : Transport} (whole clock : ClockTime)
    {remaining : ClockTime} (hpos : remaining.val ≠ 0)
    (h : ¬ transport.loop.IsCrossed transport.position (transport.position + remaining))
    (played : List Stretch) :
    transport.coverFrom whole clock remaining played =
      { transport := { transport with position := transport.position + remaining }
        stretches :=
          (⟨transport.position, transport.position + remaining, clock⟩ :: played).reverse } := by
  rw [coverFrom, if_neg hpos]
  exact dif_neg h

/-- A length that reaches the end of the window is a lap, and the rest from the start on. -/
theorem coverFrom_of_isCrossed {transport : Transport} (whole clock : ClockTime)
    {remaining : ClockTime}
    (h : transport.loop.IsCrossed transport.position (transport.position + remaining))
    (hmode : transport.loop.mode.isDoneAfter (transport.loopsPlayed + 1) = false)
    (played : List Stretch) :
    transport.coverFrom whole clock remaining played =
      transport.jumped.coverFrom whole (clock + transport.lapTime whole)
        (remaining - (transport.loop.finish - transport.position))
        (⟨transport.position, transport.loop.finish, clock⟩ :: played) := by
  have hpos : remaining.val ≠ 0 := Nat.ne_of_gt (Nat.lt_of_lt_of_le (lap_pos h) (lap_le h))
  rw [coverFrom, if_neg hpos, dif_pos h, if_neg (by simp [hmode])]
  rfl

/-- A length that reaches the end of the window in the last lap ends there. -/
theorem coverFrom_of_isDone {transport : Transport} (whole clock : ClockTime)
    {remaining : ClockTime}
    (h : transport.loop.IsCrossed transport.position (transport.position + remaining))
    (hmode : transport.loop.mode.isDoneAfter (transport.loopsPlayed + 1) = true)
    (played : List Stretch) :
    transport.coverFrom whole clock remaining played =
      { transport :=
          { transport with
            state := .stopped
            position := transport.loop.finish
            loopsPlayed := transport.loopsPlayed + 1 }
        stretches := (⟨transport.position, transport.loop.finish, clock⟩ :: played).reverse
        finishedAt := some (clock + transport.lapTime whole) } := by
  have hpos : remaining.val ≠ 0 := Nat.ne_of_gt (Nat.lt_of_lt_of_le (lap_pos h) (lap_le h))
  rw [coverFrom, if_neg hpos, dif_pos h, if_pos hmode]

/-- A loop that is not counted never ends. -/
theorem finishedAt_coverFrom_of_uncounted (whole clock remaining : ClockTime)
    (transport : Transport) (played : List Stretch)
    (hmode : ∀ loops, transport.loop.mode.isDoneAfter loops = false) :
    (transport.coverFrom whole clock remaining played).finishedAt = none := by
  induction transport, clock, remaining, played using coverFrom.induct whole with
  | case1 transport clock remaining played hzero =>
    rw [coverFrom_of_eq_zero transport whole clock hzero]
  | case2 transport clock remaining played _ reach _ loops hdone =>
    rw [hmode] at hdone
    contradiction
  | case3 transport clock remaining played _ reach hcrossed lap stretch loops hdone ih =>
    rw [coverFrom_of_isCrossed whole clock hcrossed (hmode _)]
    exact ih hmode
  | case4 transport clock remaining played hpos reach hcrossed =>
    rw [coverFrom_of_not_isCrossed whole clock hpos hcrossed]

/-- **Covering a length is walking it**, unless that ends a counted loop: the position afterwards is
the end of the walk, and the stretches hold the entries met on it. -/
theorem coverFrom_eq_walk (schedule : Schedule α) (whole clock remaining : ClockTime)
    (transport : Transport) (played : List Stretch)
    (hgoing : (transport.coverFrom whole clock remaining played).finishedAt = none)
    (hroom : transport.HasRoom remaining) :
    (transport.coverFrom whole clock remaining played).transport.position.val =
        transport.loop.walk remaining.val transport.position.val ∧
      schedule.along (transport.coverFrom whole clock remaining played).stretches =
        schedule.along played.reverse ++
          schedule.metOnWalk transport.loop remaining.val transport.position.val := by
  induction transport, clock, remaining, played using coverFrom.induct whole with
  | case1 transport clock remaining played hzero =>
    rw [coverFrom_of_eq_zero transport whole clock hzero, hzero]
    exact ⟨rfl, (List.append_nil _).symm⟩
  | case2 transport clock remaining played _ reach hcrossed loops hdone =>
    rw [coverFrom_of_isDone whole clock hcrossed hdone] at hgoing
    contradiction
  | case3 transport clock remaining played _ reach hcrossed lap stretch loops hdone ih =>
    rw [coverFrom_of_isCrossed whole clock hcrossed (Bool.eq_false_iff.2 hdone)] at hgoing ⊢
    have hactive : transport.jumped.loop.IsActive := hcrossed.1
    obtain ⟨hposition, hmet⟩ := ih hgoing (hasRoom_of_lt hactive hactive.2 _)
    have hlt : transport.position < transport.loop.finish := hcrossed.2.1
    have hsplit : remaining.val = (transport.loop.finish.val - transport.position.val) +
        (remaining - lap).val := (Nat.add_sub_cancel' (lap_le hcrossed)).symm
    rw [hsplit, Loop.walk_add, hcrossed.1.walk_lap hlt,
      hcrossed.1.metOnWalk_lap_add schedule hlt]
    refine ⟨hposition, hmet.trans ?_⟩
    rw [List.reverse_cons, schedule.along_append, schedule.along_singleton, List.append_assoc]
  | case4 transport clock remaining played hpos reach hcrossed =>
    have hstraight := isStraight_of_not_isCrossed hcrossed
    have hsum : reach.val = transport.position.val + remaining.val := by
      have hle := hroom.resolve_left hcrossed
      exact (Span.val_add _ _).trans (Nat.min_eq_left hle)
    rw [coverFrom_of_not_isCrossed whole clock hpos hcrossed, hstraight.walk_eq,
      hstraight.metOnWalk_eq schedule, List.reverse_cons, schedule.along_append,
      schedule.along_singleton, schedule.between_eq_filter_isWithin, ← hsum]
    exact ⟨rfl, rfl⟩

/-- Covering a length leaves everything alone but the state, the position and the count of laps. -/
theorem transport_coverFrom (whole clock remaining : ClockTime) (transport : Transport)
    (played : List Stretch) :
    ∃ state position loopsPlayed,
      (transport.coverFrom whole clock remaining played).transport =
        { transport with state, position, loopsPlayed } := by
  induction transport, clock, remaining, played using coverFrom.induct whole with
  | case1 transport clock remaining played hzero =>
    rw [coverFrom_of_eq_zero transport whole clock hzero]
    exact ⟨_, _, _, rfl⟩
  | case2 transport clock remaining played hpos reach hcrossed loops hdone =>
    rw [coverFrom_of_isDone whole clock hcrossed hdone]
    exact ⟨_, _, _, rfl⟩
  | case3 transport clock remaining played hpos reach hcrossed lap stretch loops hdone ih =>
    obtain ⟨state, position, loopsPlayed, hih⟩ := ih
    rw [coverFrom_of_isCrossed whole clock hcrossed (Bool.eq_false_iff.2 hdone)]
    exact ⟨state, position, loopsPlayed, hih⟩
  | case4 transport clock remaining played hpos reach hcrossed =>
    rw [coverFrom_of_not_isCrossed whole clock hpos hcrossed]
    exact ⟨_, _, _, rfl⟩

/-! ### Advancing the clock is walking -/

theorem process_of_plays {transport : Transport} {now : ClockTime} (h : transport.Plays now) :
    transport.process now =
      let passage := transport.cover (max transport.clock transport.startTime)
        (transport.playedTime now)
      { passage with transport := passage.transport.settle now } := by
  have hlive : ¬ (transport.disposed = true ∨ now ≤ transport.clock) := by
    rintro (hdisposed | hle)
    · simp [h.1] at hdisposed
    · exact Nat.not_lt_of_le hle h.2.1
  rw [process, if_neg hlive, h.2.2.1, playedTime, if_pos h]
  simp only [playUpTo, if_pos h.2.2.2]

theorem process_of_not_plays {transport : Transport} {now : ClockTime} (h : ¬ transport.Plays now) :
    ∃ state clock stopTime,
      transport.process now = { transport := { transport with state, clock, stopTime } } := by
  rw [process]
  split
  · exact ⟨_, _, _, rfl⟩
  · next hlive =>
    rw [not_or] at hlive
    cases hstate : transport.state with
    | stopped => exact ⟨transport.state, now, transport.stopTime, by simp only [hstate]⟩
    | started =>
      have hlimit : ¬ max transport.clock transport.startTime < transport.playLimit now :=
        fun hlt => h ⟨by simpa using hlive.1, Nat.lt_of_not_le hlive.2, hstate, hlt⟩
      simp only [playUpTo, if_neg hlimit, settle]
      split
      · exact ⟨_, _, _, rfl⟩
      · exact ⟨_, _, _, rfl⟩

@[simp] theorem position_settle (transport : Transport) (now : ClockTime) :
    (transport.settle now).position = transport.position := by
  rw [settle]
  split <;> rfl

@[simp] theorem loop_settle (transport : Transport) (now : ClockTime) :
    (transport.settle now).loop = transport.loop := by
  rw [settle]
  split <;> rfl

theorem loop_process (transport : Transport) (now : ClockTime) :
    (transport.process now).transport.loop = transport.loop := by
  by_cases h : transport.Plays now
  · obtain ⟨state, position, loopsPlayed, hcover⟩ := transport.transport_coverFrom
      transport.windowTime (max transport.clock transport.startTime) (transport.playedTime now) []
    rw [process_of_plays h]
    simp only [loop_settle, cover, hcover]
  · obtain ⟨state, clock, stopTime, hprocess⟩ := process_of_not_plays h
    rw [hprocess]

/-- **Advancing the clock is walking** the length that is played, unless that ends a counted
loop. -/
theorem process_eq_walk_of_going (schedule : Schedule α) {transport : Transport} {now : ClockTime}
    (hgoing : (transport.process now).finishedAt = none)
    (hroom : transport.HasRoom (transport.playedTime now)) :
    (transport.process now).transport.position.val =
        transport.loop.walk (transport.playedTime now).val transport.position.val ∧
      schedule.along (transport.process now).stretches =
        schedule.metOnWalk transport.loop (transport.playedTime now).val
          transport.position.val := by
  by_cases h : transport.Plays now
  · rw [process_of_plays h] at hgoing ⊢
    have hcover := transport.coverFrom_eq_walk schedule transport.windowTime
      (max transport.clock transport.startTime) (transport.playedTime now) [] hgoing hroom
    simpa only [position_settle, cover, List.reverse_nil, Schedule.along_nil, List.nil_append]
      using hcover
  · obtain ⟨state, clock, stopTime, hprocess⟩ := process_of_not_plays h
    rw [hprocess, playedTime, if_neg h]
    exact ⟨rfl, rfl⟩

theorem finishedAt_process_of_uncounted {transport : Transport}
    (hmode : ∀ loops, transport.loop.mode.isDoneAfter loops = false) (now : ClockTime) :
    (transport.process now).finishedAt = none := by
  by_cases h : transport.Plays now
  · rw [process_of_plays h]
    exact finishedAt_coverFrom_of_uncounted _ _ _ transport [] hmode
  · obtain ⟨state, clock, stopTime, hprocess⟩ := process_of_not_plays h
    rw [hprocess]

/-- Advancing the clock is walking the length that is played, for a loop that is not counted. -/
theorem process_eq_walk (schedule : Schedule α) (transport : Transport) (now : ClockTime)
    (hmode : ∀ loops, transport.loop.mode.isDoneAfter loops = false)
    (hroom : transport.HasRoom (transport.playedTime now)) :
    (transport.process now).transport.position.val =
        transport.loop.walk (transport.playedTime now).val transport.position.val ∧
      schedule.along (transport.process now).stretches =
        schedule.metOnWalk transport.loop (transport.playedTime now).val
          transport.position.val :=
  process_eq_walk_of_going schedule (finishedAt_process_of_uncounted hmode now) hroom

end Transport

end Ostinato
