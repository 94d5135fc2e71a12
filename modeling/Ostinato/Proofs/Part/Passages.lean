import Ostinato.Proofs.Part.Cuts

/-!
# Passages in two steps

It makes no difference in how many steps a clock is advanced. At rate one, a transport whose clock
is set to one time and then to a later one plays through the same positions as one whose clock is
set to the later time at once, wherever the first time lies among a scheduled start, a scheduled
stop and the ends of the laps. All that could tell the transports in the end is a stop that is still
scheduled for a transport that has come to its end.

## Main definitions

* `Transport.observable`: a transport without a stop that nothing is left to stop.
* `Passage.IsCut`: two passages that come to the same as one.

## Main results

* `Transport.process_of_idle`, `Transport.process_of_stopped`, `Transport.process_of_started`: the
  ways in which a clock advances.
* `Transport.process_cut`: advancing the clock in two steps.
-/

namespace Ostinato

variable {α : Type}

namespace Transport

/-! ### Starting and advancing the clock -/

/-- A transport as it can be observed. A stop that is scheduled for a transport that does not play
shows nowhere. -/
def observable (transport : Transport) : Transport :=
  if transport.state = .stopped then { transport with stopTime := none } else transport

theorem observable_of_stopped {transport : Transport} (h : transport.state = .stopped) :
    transport.observable = { transport with stopTime := none } :=
  if_pos h

theorem observable_of_started {transport : Transport} (h : transport.state = .started) :
    transport.observable = transport :=
  if_neg (by simp [h])

theorem settle_of_isStopDue {transport : Transport} {now : ClockTime}
    (h : transport.isStopDue now = true) :
    transport.settle now = { transport with state := .stopped, stopTime := none, clock := now } :=
  if_pos h

theorem settle_of_not_isStopDue {transport : Transport} {now : ClockTime}
    (h : transport.isStopDue now = false) :
    transport.settle now = { transport with clock := now } :=
  if_neg (Bool.eq_false_iff.1 h)

theorem not_isStopDue_of_none {transport : Transport} (now : ClockTime)
    (h : transport.stopTime = none) : transport.isStopDue now = false := by
  rw [isStopDue, h]
  rfl

@[simp] theorem clock_settle (transport : Transport) (now : ClockTime) :
    (transport.settle now).clock = now := by
  rw [settle]
  split <;> rfl

@[simp] theorem loopsPlayed_settle (transport : Transport) (now : ClockTime) :
    (transport.settle now).loopsPlayed = transport.loopsPlayed := by
  rw [settle]
  split <;> rfl

/-- A transport that is not disposed starts when its clock has come to the time that is asked for,
and from the position that is asked for, or else from home. -/
theorem start_of_live {transport : Transport} (h : transport.disposed = false)
    (time position : Option ClockTime) :
    transport.start time position =
      { transport with
        state := .started
        startTime := max (time.getD transport.clock) transport.clock
        stopTime := none
        position := position.getD transport.home
        loopsPlayed := 0 } :=
  if_neg (Bool.eq_false_iff.1 h)

theorem clock_le_startTime {transport : Transport} (h : transport.disposed = false)
    (time position : Option ClockTime) :
    transport.clock ≤ (transport.start time position).startTime := by
  rw [start_of_live h, Span.le_def, Span.val_max]
  exact Nat.le_max_right _ _

/-- A transport that is disposed or whose clock is not behind stays as it is. -/
theorem process_of_idle {transport : Transport} {now : ClockTime}
    (h : transport.disposed = true ∨ now ≤ transport.clock) :
    transport.process now = { transport } :=
  if_pos h

section Live

variable {transport : Transport} {now : ClockTime}

theorem not_idle (hlive : transport.disposed = false) (hclock : transport.clock < now) :
    ¬ (transport.disposed = true ∨ now ≤ transport.clock) := by
  rintro (hdisposed | hle)
  · exact Bool.false_ne_true (hlive.symm.trans hdisposed)
  · exact Nat.not_lt_of_le hle hclock

/-- The clock of a transport that has stopped goes on alone. -/
theorem process_of_stopped (hlive : transport.disposed = false) (hclock : transport.clock < now)
    (hstate : transport.state = .stopped) :
    transport.process now = { transport := { transport with clock := now } } := by
  rw [process, if_neg (not_idle hlive hclock), hstate]

/-- A transport that has been started plays up to its limit. -/
theorem process_of_started (hlive : transport.disposed = false) (hclock : transport.clock < now)
    (hstate : transport.state = .started) :
    transport.process now =
      { transport.playUpTo (transport.playLimit now) with
        transport :=
          (transport.playUpTo (transport.playLimit now)).transport.settle now } := by
  rw [process, if_neg (not_idle hlive hclock), hstate]

theorem clock_process (hlive : transport.disposed = false) (hclock : transport.clock < now) :
    (transport.process now).transport.clock = now := by
  cases hstate : transport.state with
  | stopped => rw [process_of_stopped hlive hclock hstate]
  | started => rw [process_of_started hlive hclock hstate, clock_settle]

end Live

/-- Playing leaves everything alone but the state, the position and the count of laps. -/
theorem transport_playUpTo (transport : Transport) (limit : ClockTime) :
    ∃ state position loopsPlayed,
      (transport.playUpTo limit).transport =
        { transport with state, position, loopsPlayed } := by
  rw [playUpTo]
  split
  · exact transport_coverFrom _ _ _ transport []
  · exact ⟨_, _, _, rfl⟩

/-- Advancing the clock leaves everything alone but the state, the clock, which does not go back, a
scheduled stop, the position and the count of laps. -/
theorem exists_transport_process (transport : Transport) (now : ClockTime) :
    ∃ state clock stopTime position loopsPlayed, transport.clock ≤ clock ∧
      (transport.process now).transport =
        { transport with state, clock, stopTime, position, loopsPlayed } := by
  by_cases hidle : transport.disposed = true ∨ now ≤ transport.clock
  · rw [process_of_idle hidle]
    exact ⟨_, _, _, _, _, Nat.le_refl _, rfl⟩
  · obtain ⟨hdisposed, hbehind⟩ := not_or.1 hidle
    have hlive : transport.disposed = false := Bool.eq_false_iff.2 hdisposed
    have hclock : transport.clock < now := Nat.lt_of_not_le hbehind
    have hlater : transport.clock ≤ now := Nat.le_of_lt hclock
    cases hstate : transport.state with
    | stopped =>
      rw [process_of_stopped hlive hclock hstate]
      exact ⟨_, _, _, _, _, hlater, rfl⟩
    | started =>
      obtain ⟨state, position, loopsPlayed, hplayed⟩ :=
        transport.transport_playUpTo (transport.playLimit now)
      rw [process_of_started hlive hclock hstate]
      dsimp only
      rw [hplayed, settle]
      split <;> exact ⟨_, _, _, _, _, hlater, rfl⟩

theorem playUpTo_of_not_lt {transport : Transport} {limit : ClockTime}
    (h : ¬ max transport.clock transport.startTime < limit) :
    transport.playUpTo limit = { transport } :=
  if_neg h

/-- Without a stop that is scheduled, advancing the clock of a transport that has been started is
covering the length that is played. -/
theorem exists_process_eq_cover {transport : Transport} (hlive : transport.disposed = false)
    (hstate : transport.state = .started) (hstop : transport.stopTime = none) (now : ClockTime) :
    ∃ clock, transport.process now =
      { transport.cover (max transport.clock transport.startTime) (transport.playedTime now) with
        transport :=
          { (transport.cover (max transport.clock transport.startTime)
              (transport.playedTime now)).transport with clock } } := by
  by_cases hplays : transport.Plays now
  · obtain ⟨state, position, loopsPlayed, hcovered⟩ := transport.transport_coverFrom
      transport.windowTime (max transport.clock transport.startTime) (transport.playedTime now) []
    have hgoing : (transport.cover (max transport.clock transport.startTime)
        (transport.playedTime now)).transport.isStopDue now = false := by
      rw [cover, hcovered]
      exact not_isStopDue_of_none now hstop
    refine ⟨now, ?_⟩
    rw [process_of_plays hplays]
    dsimp only
    rw [settle_of_not_isStopDue hgoing]
  · have hcovered : transport.cover (max transport.clock transport.startTime)
        (transport.playedTime now) = { transport } := by
      rw [playedTime, if_neg hplays]
      exact coverFrom_of_eq_zero transport _ _ rfl []
    rw [hcovered]
    by_cases hidle : now ≤ transport.clock
    · exact ⟨transport.clock, process_of_idle (.inr hidle)⟩
    · have hclock : transport.clock < now := Nat.lt_of_not_le hidle
      have hquiet : ¬ max transport.clock transport.startTime < transport.playLimit now :=
        fun hlt => hplays ⟨hlive, hclock, hstate, hlt⟩
      refine ⟨now, ?_⟩
      rw [process_of_started hlive hclock hstate, playUpTo_of_not_lt hquiet,
        settle_of_not_isStopDue (not_isStopDue_of_none now hstop)]

theorem val_playLimit_of_some {transport : Transport} {stop : ClockTime} (now : ClockTime)
    (h : transport.stopTime = some stop) :
    (transport.playLimit now).val = min stop.val now.val := by
  simp only [playLimit, h]
  split
  · next hlt => exact (Nat.min_eq_left (Nat.le_of_lt hlt)).symm
  · next hle => exact (Nat.min_eq_right (Nat.le_of_not_lt hle)).symm

theorem playLimit_of_none {transport : Transport} (now : ClockTime)
    (h : transport.stopTime = none) : transport.playLimit now = now := by
  rw [playLimit, h]

theorem playLimit_le (transport : Transport) (now : ClockTime) : transport.playLimit now ≤ now := by
  cases h : transport.stopTime with
  | none => exact Nat.le_of_eq (congrArg Span.val (playLimit_of_none now h))
  | some stop =>
    rw [Span.le_def, val_playLimit_of_some now h]
    exact Nat.min_le_right _ _

theorem playLimit_of_isStopDue {transport : Transport} {first second : ClockTime}
    (h : transport.isStopDue first = true) (hle : first ≤ second) :
    transport.playLimit second = transport.playLimit first := by
  cases hstop : transport.stopTime with
  | none => simp [isStopDue, hstop] at h
  | some stop =>
    have hdue : stop.val ≤ first.val := by simpa [isStopDue, hstop, Span.le_def] using h
    rw [Span.le_def] at hle
    refine Span.ext ?_
    rw [val_playLimit_of_some second hstop, val_playLimit_of_some first hstop]
    omega

theorem playLimit_of_not_isStopDue {transport : Transport} {first second : ClockTime}
    (h : transport.isStopDue first = false) (hlt : first < second) :
    transport.playLimit first = first ∧ first < transport.playLimit second := by
  rw [Span.lt_def] at hlt ⊢
  cases hstop : transport.stopTime with
  | none => rw [playLimit_of_none first hstop, playLimit_of_none second hstop]; exact ⟨rfl, hlt⟩
  | some stop =>
    have hdue : first.val < stop.val := by simpa [isStopDue, hstop, Span.le_def] using h
    refine ⟨Span.ext ?_, ?_⟩
    · rw [val_playLimit_of_some first hstop]
      omega
    · rw [val_playLimit_of_some second hstop]
      omega

end Transport

/-! ### Two passages for one -/

/-- The loops that end in a passage: how many laps they had, and when the last one ended. -/
def Passage.endings (passage : Passage) : List (UInt32 × ClockTime) :=
  (passage.finishedAt.map fun time => (passage.transport.loopsPlayed, time)).toList

/-- Two passages, one after the other, come to the same as one: the same entries come up at the same
clock times, the same loop ends, nothing comes up after that, and the transports in the end cannot
be told apart. -/
structure Passage.IsCut (schedule : Schedule α) (uncut front rest : Passage) : Prop where
  soundings : schedule.soundings .one uncut.stretches =
    schedule.soundings .one front.stretches ++ schedule.soundings .one rest.stretches
  endings : uncut.endings = front.endings ++ rest.endings
  quiet : front.finishedAt ≠ none → rest.stretches = []
  observable : uncut.transport.observable = rest.transport.observable

namespace Transport

@[simp] theorem isStopDue_playUpTo (transport : Transport) (limit now : ClockTime) :
    (transport.playUpTo limit).transport.isStopDue now = transport.isStopDue now := by
  obtain ⟨state, position, loopsPlayed, hplayed⟩ := transport.transport_playUpTo limit
  rw [hplayed]
  rfl

theorem isStopDue_of_le {transport : Transport} {first second : ClockTime}
    (h : transport.isStopDue first = true) (hle : first ≤ second) :
    transport.isStopDue second = true := by
  cases hstop : transport.stopTime with
  | none => simp [isStopDue, hstop] at h
  | some stop =>
    have hdue : stop ≤ first := by simpa [isStopDue, hstop] using h
    have hdue' : stop ≤ second := Nat.le_trans hdue hle
    simpa [isStopDue, hstop] using hdue'

theorem playUpTo_setClock (transport : Transport) {now : ClockTime} (limit : ClockTime)
    (h : max now transport.startTime = max transport.clock transport.startTime) :
    { transport with clock := now }.playUpTo limit =
      { transport.playUpTo limit with
        transport := { (transport.playUpTo limit).transport with clock := now } } := by
  simp only [playUpTo, h]
  split
  · exact coverFrom_setClock _ _ _ now transport []
  · rfl

theorem observable_settle_of_stopped {transport : Transport} (h : transport.state = .stopped)
    (now : ClockTime) :
    (transport.settle now).observable = { transport with clock := now }.observable := by
  have hlater : { transport with clock := now }.observable =
      { transport with clock := now, stopTime := none } := observable_of_stopped h
  cases hdue : transport.isStopDue now with
  | true =>
    rw [settle_of_isStopDue hdue, observable_of_stopped rfl, hlater]
    simp only [h]
  | false => rw [settle_of_not_isStopDue hdue]

section Cut

variable {transport : Transport} {first second : ClockTime}

/-- Where a stop is due at the cut, only the clock goes on behind it. -/
theorem isCut_of_isStopDue (schedule : Schedule α) (hlive : transport.disposed = false)
    (hclock : transport.clock < first) (hlt : first < second)
    (hstate : transport.state = .started) (hdue : transport.isStopDue first = true) :
    Passage.IsCut schedule (transport.process second) (transport.process first)
      ((transport.process first).transport.process second) := by
  have hle := Nat.le_of_lt hlt
  let passage := transport.playUpTo (transport.playLimit first)
  have hfirst : passage.transport.isStopDue first = true :=
    (isStopDue_playUpTo ..).trans hdue
  have hsecond : passage.transport.isStopDue second = true :=
    (isStopDue_playUpTo ..).trans (isStopDue_of_le hdue hle)
  have hrest :
      { passage.transport with state := .stopped, stopTime := none, clock := first }.process
        second = { transport :=
        { passage.transport with state := .stopped, stopTime := none, clock := second } } := by
    obtain ⟨state, position, loopsPlayed, hplayed⟩ :=
      transport.transport_playUpTo (transport.playLimit first)
    refine process_of_stopped ?_ hlt rfl
    simp only [passage, hplayed, hlive]
  rw [process_of_started hlive hclock hstate,
    process_of_started hlive (Nat.lt_trans hclock hlt) hstate, playLimit_of_isStopDue hdue hle,
    settle_of_isStopDue hfirst, settle_of_isStopDue hsecond]
  dsimp only
  rw [hrest]
  exact ⟨(List.append_nil _).symm, (List.append_nil _).symm, fun _ => rfl, rfl⟩

/-- A cut before the start. -/
theorem isCut_of_not_started (schedule : Schedule α) (hlive : transport.disposed = false)
    (hclock : transport.clock < first) (hlt : first < second)
    (hstate : transport.state = .started) (hdue : transport.isStopDue first = false)
    (hstart : ¬ max transport.clock transport.startTime < first) :
    Passage.IsCut schedule (transport.process second) (transport.process first)
      ((transport.process first).transport.process second) := by
  have hfirst : max first transport.startTime = max transport.clock transport.startTime := by
    rw [Span.lt_def, Span.val_max] at hstart
    rw [Span.lt_def] at hclock
    refine Span.ext ?_
    rw [Span.val_max, Span.val_max]
    omega
  have hwaiting : transport.process first =
      { transport := { transport with clock := first } } := by
    rw [process_of_started hlive hclock hstate, (playLimit_of_not_isStopDue hdue hlt).1,
      playUpTo_of_not_lt hstart, settle_of_not_isStopDue hdue]
  have hrest : { transport with clock := first }.process second = transport.process second := by
    rw [@process_of_started { transport with clock := first } second hlive hlt hstate,
      process_of_started hlive (Nat.lt_trans hclock hlt) hstate]
    change (let passage := { transport with clock := first }.playUpTo (transport.playLimit second)
      { passage with transport := passage.transport.settle second } : Passage) = _
    rw [playUpTo_setClock transport _ hfirst]
    rfl
  rw [hwaiting, hrest]
  exact ⟨rfl, rfl, nofun, rfl⟩

/-- At rate one the length that is played is the time that passes. -/
theorem playedTime_of_rate_one (hrate : transport.rate = .one) (hlimit : second.val < exactLimit)
    (h : transport.Plays second) :
    transport.playedTime second =
      transport.playLimit second - max transport.clock transport.startTime := by
  have hle := transport.playLimit_le second
  rw [Span.le_def] at hle
  rw [playedTime, if_pos h, hrate, ClockTime.scale_one (by rw [Span.val_sub]; omega)]

/-- At rate one a transport plays for the time that passes. -/
theorem process_of_plays_of_rate_one (hrate : transport.rate = .one)
    (hlimit : second.val < exactLimit) (h : transport.Plays second) :
    transport.process second =
      { transport.cover (max transport.clock transport.startTime)
          (transport.playLimit second - max transport.clock transport.startTime) with
        transport := (transport.cover (max transport.clock transport.startTime)
          (transport.playLimit second -
            max transport.clock transport.startTime)).transport.settle second } := by
  rw [process_of_plays h, playedTime_of_rate_one hrate hlimit h]

/-- A transport that plays at the cut goes on playing behind it. -/
theorem process_setClock_of_playing {transport : Transport} (hrate : transport.rate = .one)
    (hlimit : second.val < exactLimit) (hlive : transport.disposed = false)
    (hstate : transport.state = .started) (hstart : transport.startTime ≤ first)
    (hlt : first < second) (hbehind : first < transport.playLimit second) :
    { transport with clock := first }.process second =
      { transport.cover first (transport.playLimit second - first) with
        transport := (transport.cover first
          (transport.playLimit second - first)).transport.settle second } := by
  have hfirst : max first transport.startTime = first := Span.ext (by
    rw [Span.le_def] at hstart
    rw [Span.val_max]
    omega)
  have hplays : { transport with clock := first }.Plays second :=
    ⟨hlive, hlt, hstate, lt_of_eq_of_lt hfirst hbehind⟩
  rw [@process_of_plays_of_rate_one { transport with clock := first } second hrate hlimit hplays]
  simp only [hfirst, cover]
  rw [coverFrom_setClock]
  rfl

/-- A cut while the transport plays. -/
theorem isCut_of_started (schedule : Schedule α) (hrate : transport.rate = .one)
    (hlimit : second.val < exactLimit) (hlive : transport.disposed = false)
    (hclock : transport.clock < first) (hlt : first < second)
    (hstate : transport.state = .started) (hdue : transport.isStopDue first = false)
    (hstart : max transport.clock transport.startTime < first) :
    Passage.IsCut schedule (transport.process second) (transport.process first)
      ((transport.process first).transport.process second) := by
  obtain ⟨hhere, hbehind⟩ := playLimit_of_not_isStopDue hdue hlt
  have hcut := cover_cut schedule hrate hstart hbehind
    (Nat.lt_of_le_of_lt (transport.playLimit_le second) hlimit)
  have huncut := process_of_plays_of_rate_one hrate hlimit
    ⟨hlive, Nat.lt_trans hclock hlt, hstate, Nat.lt_trans hstart hbehind⟩
  have hplays : transport.Plays first := ⟨hlive, hclock, hstate, hhere.symm ▸ hstart⟩
  have hfront := process_of_plays_of_rate_one hrate (Nat.lt_trans hlt hlimit) hplays
  rw [hhere] at hfront
  have hbegun : transport.startTime ≤ first := by
    rw [Span.lt_def, Span.val_max] at hstart
    rw [Span.le_def]
    omega
  generalize max transport.clock transport.startTime = start at *
  obtain ⟨state, position, loopsPlayed, hcovered⟩ := transport_coverFrom transport.windowTime start
    (first - start) transport []
  have hstates := finishedAt_coverFrom transport.windowTime start (first - start) transport []
  rw [← cover] at hcovered hstates
  have hnotDue : (transport.cover start (first - start)).transport.isStopDue first = false := by
    rw [hcovered]
    exact hdue
  rw [settle_of_not_isStopDue hnotDue] at hfront
  rw [hfront, huncut]
  rcases hcut with ⟨hended, hsame⟩ | ⟨hgoing, htransport, hfinished, hsoundings⟩
  · -- the loop has ended before the cut, and behind it the clock goes on alone
    have hstopped := (hstates.resolve_left fun h => hended h.1).2
    rw [hsame, @process_of_stopped { (transport.cover start (first - start)).transport with
      clock := first } second (by rw [hcovered]; exact hlive) hlt hstopped]
    refine ⟨(List.append_nil _).symm, ?_, fun _ => rfl,
      observable_settle_of_stopped hstopped second⟩
    simp only [Passage.endings, loopsPlayed_settle]
    exact (List.append_nil _).symm
  · have hplaying := (hstates.resolve_right fun h => h.1 hgoing).2
    rw [process_setClock_of_playing (by rw [hcovered]; exact hrate) hlimit
      (by rw [hcovered]; exact hlive) (hplaying.trans hstate) (by rw [hcovered]; exact hbegun) hlt
      (by rw [hcovered]; exact hbehind)]
    have hlimits : (transport.cover start (first - start)).transport.playLimit second =
        transport.playLimit second := by
      rw [hcovered]
      rfl
    rw [hlimits]
    refine ⟨hsoundings, ?_, fun h => absurd hgoing h, ?_⟩
    · simp only [Passage.endings, loopsPlayed_settle, hfinished, htransport, hgoing]
      rfl
    · dsimp only
      rw [htransport]

end Cut

/-- **Advancing the clock in two steps**, at rate one. -/
theorem process_cut (schedule : Schedule α) {transport : Transport} (hrate : transport.rate = .one)
    {first second : ClockTime} (hle : first ≤ second) (hlimit : second.val < exactLimit) :
    Passage.IsCut schedule (transport.process second) (transport.process first)
      ((transport.process first).transport.process second) := by
  by_cases hidle : transport.disposed = true ∨ first ≤ transport.clock
  · rw [process_of_idle hidle]
    exact ⟨rfl, rfl, nofun, rfl⟩
  · obtain ⟨hdisposed, hbehind⟩ := not_or.1 hidle
    have hlive : transport.disposed = false := Bool.eq_false_iff.2 hdisposed
    have hclock : transport.clock < first := Nat.lt_of_not_le hbehind
    rcases Nat.lt_or_eq_of_le hle with hlt | heq
    · cases hstate : transport.state with
      | stopped =>
        rw [process_of_stopped hlive hclock hstate,
          process_of_stopped hlive (Nat.lt_trans hclock hlt) hstate,
          @process_of_stopped { transport with clock := first } second hlive hlt hstate]
        exact ⟨rfl, rfl, nofun, rfl⟩
      | started =>
        cases hdue : transport.isStopDue first with
        | true => exact isCut_of_isStopDue schedule hlive hclock hlt hstate hdue
        | false =>
          by_cases hstart : max transport.clock transport.startTime < first
          · exact isCut_of_started schedule hrate hlimit hlive hclock hlt hstate hdue hstart
          · exact isCut_of_not_started schedule hlive hclock hlt hstate hdue hstart
    · -- the second step has nothing left to do
      have hsame : first = second := Span.ext heq
      have hreached := clock_process hlive hclock
      rw [← hsame, process_of_idle (.inr (Nat.le_of_eq (congrArg Span.val hreached.symm)))]
      exact ⟨(List.append_nil _).symm, (List.append_nil _).symm, fun _ => rfl, rfl⟩

theorem rate_process (transport : Transport) (now : ClockTime) :
    (transport.process now).transport.rate = transport.rate := by
  obtain ⟨state, clock, stopTime, position, loopsPlayed, -, hprocess⟩ :=
    transport.exists_transport_process now
  rw [hprocess]

end Transport

end Ostinato
