import Ostinato.Proofs.Part.Soundings

/-!
# Covering with a cut

At rate one, covering a length is the same as covering a part of it and then the rest. The cut may
fall anywhere: inside a stretch, at the end of the loop window, or behind the lap that ends a
counted loop, after which nothing is left to play. Positions and clock times that are stopped at the
largest span are no exception.

## Main definitions

* `Passage.Continues`: a passage that is as one goes on after another.

## Main results

* `Transport.coverFrom_eq_append`, `Transport.coverFrom_setClock`: what covering does not depend on.
* `Transport.coverFrom_cut`, `Transport.cover_cut`: covering a length with a cut.
-/

namespace Ostinato

variable {α : Type}

theorem Loop.IsCrossed.mono {loop : Loop} {position reach reach' : ClockTime}
    (h : loop.IsCrossed position reach) (hle : reach ≤ reach') : loop.IsCrossed position reach' :=
  ⟨h.1, h.2.1, Nat.le_trans h.2.2 hle⟩

namespace Transport

/-! ### What covering leaves alone -/

/-- The stretches played before stand in front of those played from now on. -/
theorem coverFrom_append (whole clock remaining : ClockTime) (transport : Transport)
    (played before : List Stretch) :
    transport.coverFrom whole clock remaining (played ++ before) =
      { transport.coverFrom whole clock remaining played with
        stretches :=
          before.reverse ++ (transport.coverFrom whole clock remaining played).stretches } := by
  induction transport, clock, remaining, played using coverFrom.induct whole with
  | case1 transport clock remaining played hzero =>
    rw [coverFrom_of_eq_zero transport whole clock hzero,
      coverFrom_of_eq_zero transport whole clock hzero, List.reverse_append]
  | case2 transport clock remaining played _ reach hcrossed loops hdone =>
    rw [coverFrom_of_isDone whole clock hcrossed hdone,
      coverFrom_of_isDone whole clock hcrossed hdone, ← List.cons_append, List.reverse_append]
  | case3 transport clock remaining played _ reach hcrossed lap stretch loops hdone ih =>
    have hmode := Bool.eq_false_iff.2 hdone
    rw [coverFrom_of_isCrossed whole clock hcrossed hmode,
      coverFrom_of_isCrossed whole clock hcrossed hmode]
    exact ih
  | case4 transport clock remaining played hpos reach hcrossed =>
    rw [coverFrom_of_not_isCrossed whole clock hpos hcrossed,
      coverFrom_of_not_isCrossed whole clock hpos hcrossed, ← List.cons_append,
      List.reverse_append]

theorem coverFrom_eq_append (transport : Transport) (whole clock remaining : ClockTime)
    (played : List Stretch) :
    transport.coverFrom whole clock remaining played =
      { transport.coverFrom whole clock remaining [] with
        stretches :=
          played.reverse ++ (transport.coverFrom whole clock remaining []).stretches } :=
  coverFrom_append whole clock remaining transport [] played

/-- What the clock shows makes no difference to the positions that are covered. -/
theorem coverFrom_setClock (whole clock remaining now : ClockTime) (transport : Transport)
    (played : List Stretch) :
    { transport with clock := now }.coverFrom whole clock remaining played =
      { transport.coverFrom whole clock remaining played with
        transport :=
          { (transport.coverFrom whole clock remaining played).transport with clock := now } } := by
  induction transport, clock, remaining, played using coverFrom.induct whole with
  | case1 transport clock remaining played hzero =>
    rw [coverFrom_of_eq_zero _ whole clock hzero, coverFrom_of_eq_zero _ whole clock hzero]
  | case2 transport clock remaining played _ reach hcrossed loops hdone =>
    rw [@coverFrom_of_isDone { transport with clock := now } whole clock remaining hcrossed hdone,
      coverFrom_of_isDone whole clock hcrossed hdone]
    rfl
  | case3 transport clock remaining played _ reach hcrossed lap stretch loops hdone ih =>
    have hmode := Bool.eq_false_iff.2 hdone
    rw [@coverFrom_of_isCrossed { transport with clock := now } whole clock remaining hcrossed
      hmode, coverFrom_of_isCrossed whole clock hcrossed hmode]
    exact ih
  | case4 transport clock remaining played hpos reach hcrossed =>
    rw [@coverFrom_of_not_isCrossed { transport with clock := now } whole clock remaining hpos
      hcrossed, coverFrom_of_not_isCrossed whole clock hpos hcrossed]

/-- Covering a length either ends a counted loop and stops the transport, or leaves it playing. -/
theorem finishedAt_coverFrom (whole clock remaining : ClockTime) (transport : Transport)
    (played : List Stretch) :
    ((transport.coverFrom whole clock remaining played).finishedAt = none ∧
        (transport.coverFrom whole clock remaining played).transport.state = transport.state) ∨
      ((transport.coverFrom whole clock remaining played).finishedAt ≠ none ∧
        (transport.coverFrom whole clock remaining played).transport.state = .stopped) := by
  induction transport, clock, remaining, played using coverFrom.induct whole with
  | case1 transport clock remaining played hzero =>
    rw [coverFrom_of_eq_zero _ whole clock hzero]
    exact .inl ⟨rfl, rfl⟩
  | case2 transport clock remaining played _ reach hcrossed loops hdone =>
    rw [coverFrom_of_isDone whole clock hcrossed hdone]
    exact .inr ⟨Option.some_ne_none _, rfl⟩
  | case3 transport clock remaining played _ reach hcrossed lap stretch loops hdone ih =>
    rw [coverFrom_of_isCrossed whole clock hcrossed (Bool.eq_false_iff.2 hdone)]
    exact ih
  | case4 transport clock remaining played hpos reach hcrossed =>
    rw [coverFrom_of_not_isCrossed whole clock hpos hcrossed]
    exact .inl ⟨rfl, rfl⟩

end Transport

/-! ### Covering with a cut -/

/-- Whether a passage comes to the same as another one, in which no loop ends, and the rest that
goes on after that: the same entries come up at the same clock times, and the end is the same. -/
structure Passage.Continues (schedule : Schedule α) (uncut front rest : Passage) : Prop where
  transport : uncut.transport = rest.transport
  finishedAt : uncut.finishedAt = rest.finishedAt
  soundings : schedule.soundings .one uncut.stretches =
    schedule.soundings .one front.stretches ++ schedule.soundings .one rest.stretches

namespace Transport

theorem lapTime_of_rate_one {transport : Transport} (hrate : transport.rate = .one)
    (hlimit : (transport.loop.finish - transport.position).val < exactLimit) :
    transport.lapTime transport.windowTime = transport.loop.finish - transport.position := by
  rw [lapTime_windowTime, hrate, ClockTime.unscale_one hlimit]

theorem add_add_eq {first second total : ClockTime} (start : ClockTime)
    (hsum : total.val = first.val + second.val) : start + first + second = start + total := by
  refine Span.ext ?_
  simp only [Span.val_add]
  omega

/-- If a first part does not reach the end of the window, the whole length reaches it exactly if the
rest does. -/
theorem isCrossed_iff_of_cut {loop : Loop} {position first second total : ClockTime}
    (hsum : total.val = first.val + second.val)
    (hfirst : ¬ loop.IsCrossed position (position + first)) :
    loop.IsCrossed position (position + total) ↔
      loop.IsCrossed (position + first) (position + first + second) := by
  rw [add_add_eq position hsum]
  constructor
  · rintro ⟨hactive, hlt, hle⟩
    exact ⟨hactive, Nat.lt_of_not_le fun hle => hfirst ⟨hactive, hlt, hle⟩, hle⟩
  · rintro ⟨hactive, hlt, hle⟩
    have hmax := position.val_le
    refine ⟨hactive, ?_, hle⟩
    rw [Span.lt_def, Span.val_add] at hlt
    rw [Span.lt_def]
    omega

theorem val_lap_of_cut {loop : Loop} {position first reach : ClockTime}
    (h : loop.IsCrossed (position + first) reach) :
    (loop.finish - position).val = first.val + (loop.finish - (position + first)).val := by
  have hlt := h.2.1
  have hmax := loop.finish.val_le
  rw [Span.lt_def, Span.val_add] at hlt
  simp only [Span.val_sub, Span.val_add]
  omega

section Cut

variable {transport : Transport} {first second total : ClockTime}

/-- A cut inside the lap in which the end of the window is reached: both ways end the same lap at
the same clock time, with the same length left. -/
theorem coverFrom_cut_lap (schedule : Schedule α) (clock : ClockTime) (played : List Stretch)
    (hpos : first.val ≠ 0) (hrate : transport.rate = .one)
    (hsum : total.val = first.val + second.val) (hlimit : total.val < exactLimit)
    (hfirst : ¬ transport.loop.IsCrossed transport.position (transport.position + first))
    (hsecond : transport.loop.IsCrossed (transport.position + first)
      (transport.position + first + second)) :
    let front := transport.coverFrom transport.windowTime clock first played
    Passage.Continues schedule (transport.coverFrom transport.windowTime clock total played) front
      (front.transport.coverFrom transport.windowTime (clock + first) second []) := by
  let inside : Transport := { transport with position := transport.position + first }
  have htotal := (isCrossed_iff_of_cut hsum hfirst).2 hsecond
  have hlap := val_lap_of_cut hsecond
  have hle : (inside.loop.finish - inside.position).val ≤ second.val := lap_le hsecond
  have hlong : (transport.loop.finish - transport.position).val < exactLimit := by
    rw [hlap]
    exact Nat.lt_of_le_of_lt (Nat.add_le_add_left hle _) (hsum ▸ hlimit)
  have hshort : (inside.loop.finish - inside.position).val < exactLimit := by omega
  have hclock : clock + first + (inside.loop.finish - inside.position) =
      clock + (transport.loop.finish - transport.position) := add_add_eq clock hlap
  have hleft : total - (transport.loop.finish - transport.position) =
      second - (inside.loop.finish - inside.position) := by
    refine Span.ext ?_
    rw [Span.val_sub, Span.val_sub second, hlap, hsum]
    exact Nat.add_sub_add_left _ _ _
  have hcut := schedule.soundings_cut_last clock played (Nat.le_of_lt hsecond.2.1) hlong
  have htime := lapTime_of_rate_one hrate hlong
  have htime' : inside.lapTime transport.windowTime = _ := lapTime_of_rate_one hrate hshort
  by_cases hdone : transport.loop.mode.isDoneAfter (transport.loopsPlayed + 1) = true
  · have hrest := @coverFrom_of_isDone inside transport.windowTime (clock + first) second hsecond
      hdone []
    dsimp only
    rw [coverFrom_of_not_isCrossed _ clock hpos hfirst, hrest,
      coverFrom_of_isDone _ clock htotal hdone, htime, htime', hclock]
    exact ⟨rfl, rfl, hcut⟩
  · have hmode := Bool.eq_false_iff.2 hdone
    have hrest := @coverFrom_of_isCrossed inside transport.windowTime (clock + first) second
      hsecond hmode []
    have hjumped : inside.jumped = transport.jumped := rfl
    dsimp only
    rw [coverFrom_of_not_isCrossed _ clock hpos hfirst, hrest,
      coverFrom_of_isCrossed _ clock htotal hmode, htime, htime', hclock, ← hleft, hjumped,
      coverFrom_eq_append _ _ _ _ [_], coverFrom_eq_append _ _ _ _ (_ :: played)]
    refine ⟨rfl, rfl, ?_⟩
    dsimp only
    rw [Schedule.soundings_append, Schedule.soundings_append, hcut, List.append_assoc]
    rfl

/-- A cut before the end of the window where nothing reaches the end: the positions go on. -/
theorem coverFrom_cut_straight (schedule : Schedule α) (clock : ClockTime) (played : List Stretch)
    (hpos : first.val ≠ 0) (hsum : total.val = first.val + second.val)
    (hlimit : total.val < exactLimit)
    (hfirst : ¬ transport.loop.IsCrossed transport.position (transport.position + first))
    (hsecond : ¬ transport.loop.IsCrossed (transport.position + first)
      (transport.position + first + second)) :
    let front := transport.coverFrom transport.windowTime clock first played
    Passage.Continues schedule (transport.coverFrom transport.windowTime clock total played) front
      (front.transport.coverFrom transport.windowTime (clock + first) second []) := by
  let inside : Transport := { transport with position := transport.position + first }
  have htotal := mt (isCrossed_iff_of_cut hsum hfirst).1 hsecond
  have hreach := add_add_eq transport.position hsum
  dsimp only
  rw [coverFrom_of_not_isCrossed _ clock hpos hfirst,
    coverFrom_of_not_isCrossed _ clock (by omega) htotal, ← hreach]
  by_cases hzero : second.val = 0
  · rw [coverFrom_of_eq_zero _ _ _ hzero, Span.add_eq_left hzero]
    exact ⟨rfl, rfl, (List.append_nil _).symm⟩
  · have hrest := @coverFrom_of_not_isCrossed inside transport.windowTime (clock + first) second
      hzero hsecond []
    have hbehind : transport.position + first ≤ transport.position + first + second := by
      simp only [Span.le_def, Span.val_add]
      omega
    have hlong : (transport.position + first + second - transport.position).val < exactLimit := by
      rw [Span.val_sub, hreach, Span.val_add]
      omega
    rw [hrest]
    exact ⟨rfl, rfl, schedule.soundings_cut_last clock played hbehind hlong⟩

end Cut

/-- **Covering a length with a cut**, at rate one: either the first part ends a counted loop, and so
does the whole length, or what the whole length does is what the rest does after the first part. -/
theorem coverFrom_cut (schedule : Schedule α) (whole clock first : ClockTime)
    (transport : Transport) (played : List Stretch) {second : ClockTime} :
    whole = transport.windowTime → transport.rate = .one → ∀ total : ClockTime,
      total.val = first.val + second.val → total.val < exactLimit →
      let front := transport.coverFrom whole clock first played
      let uncut := transport.coverFrom whole clock total played
      let rest := front.transport.coverFrom whole (clock + first) second []
      (front.finishedAt ≠ none ∧ uncut = front) ∨
        (front.finishedAt = none ∧ Passage.Continues schedule uncut front rest) := by
  induction transport, clock, first, played using coverFrom.induct whole with
  | case1 transport clock first played hzero =>
    intro _ _ total hsum _
    have hclock : clock + first = clock := Span.ext (by
      have hmax := clock.val_le
      rw [Span.val_add]
      omega)
    have htotal : total = second := Span.ext (by omega)
    have happend := coverFrom_append whole clock second transport [] played
    rw [List.nil_append] at happend
    rw [coverFrom_of_eq_zero _ whole clock hzero]
    dsimp only
    rw [hclock, htotal, happend]
    exact .inr ⟨rfl, rfl, rfl, schedule.soundings_append _ _ _⟩
  | case2 transport clock first played _ reach hcrossed loops hdone =>
    intro _ _ total hsum _
    have hlater : reach ≤ transport.position + total := by
      rw [Span.le_def, Span.val_add, Span.val_add]
      omega
    have htotal := hcrossed.mono hlater
    rw [coverFrom_of_isDone whole clock hcrossed hdone,
      coverFrom_of_isDone whole clock htotal hdone]
    exact .inl ⟨Option.some_ne_none _, rfl⟩
  | case3 transport clock first played _ reach hcrossed lap stretch loops hdone ih =>
    intro hwhole hrate total hsum hlimit
    have hmode := Bool.eq_false_iff.2 hdone
    have hlap : lap.val ≤ first.val := lap_le hcrossed
    have hlater : reach ≤ transport.position + total := by
      rw [Span.le_def, Span.val_add, Span.val_add]
      omega
    have htotal := hcrossed.mono hlater
    have htime : transport.lapTime whole = lap := by
      rw [hwhole, lapTime_of_rate_one hrate (Nat.lt_of_le_of_lt hlap (by omega))]
    have hfirst : (first - lap).val = first.val - lap.val := Span.val_sub _ _
    have hleft : (total - lap).val = total.val - lap.val := Span.val_sub _ _
    have hclock : clock + lap + (first - lap) = clock + first := add_add_eq clock (by omega)
    have hrest := ih hwhole hrate (total - lap) (by omega) (by omega)
    rw [htime, hclock] at hrest
    rw [coverFrom_of_isCrossed whole clock hcrossed hmode,
      coverFrom_of_isCrossed whole clock htotal hmode, htime]
    exact hrest
  | case4 transport clock first played hpos reach hcrossed =>
    intro hwhole hrate total hsum hlimit
    have hgoing : (transport.coverFrom transport.windowTime clock first played).finishedAt = none :=
      congrArg Passage.finishedAt (coverFrom_of_not_isCrossed _ clock hpos hcrossed played)
    rw [hwhole]
    refine .inr ⟨hgoing, ?_⟩
    by_cases hsecond : transport.loop.IsCrossed reach (reach + second)
    · exact coverFrom_cut_lap schedule clock played hpos hrate hsum hlimit hcrossed hsecond
    · exact coverFrom_cut_straight schedule clock played hpos hsum hlimit hcrossed hsecond

/-- Playing from one clock time to another with a cut between them. -/
theorem cover_cut (schedule : Schedule α) {transport : Transport} (hrate : transport.rate = .one)
    {start middle limit : ClockTime} (hstart : start < middle) (hmiddle : middle < limit)
    (hlimit : limit.val < exactLimit) :
    let front := transport.cover start (middle - start)
    let uncut := transport.cover start (limit - start)
    let rest := front.transport.cover middle (limit - middle)
    (front.finishedAt ≠ none ∧ uncut = front) ∨
      (front.finishedAt = none ∧ Passage.Continues schedule uncut front rest) := by
  rw [Span.lt_def] at hstart hmiddle
  have hclock : start + (middle - start) = middle := Span.ext (by
    have hmax := middle.val_le
    simp only [Span.val_add, Span.val_sub]
    omega)
  have hsum : (limit - start).val = (middle - start).val + (limit - middle).val := by
    simp only [Span.val_sub]
    omega
  have hcut := coverFrom_cut schedule transport.windowTime start (middle - start) transport [] rfl
    hrate (limit - start) hsum (by rw [Span.val_sub]; omega)
  obtain ⟨state, position, loopsPlayed, hcovered⟩ := transport_coverFrom transport.windowTime start
    (middle - start) transport []
  have hwindow : (transport.cover start (middle - start)).transport.windowTime =
      transport.windowTime := by
    rw [cover, hcovered]
    rfl
  rw [hclock] at hcut
  dsimp only
  rw [cover.eq_def (transport.cover start (middle - start)).transport, hwindow]
  exact hcut

end Transport

end Ostinato
