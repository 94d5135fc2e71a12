import Ostinato.Proofs.Part.Skipping
import Ostinato.Proofs.Part.Turns

/-!
# Counting laps

A transport counts how often it has reached the end of its loop window since it was started. It
counts in words of thirty-two bits, but nothing other than the length that is played bounds the
number of laps, and a single call may play four billion of them. So the count is the number of laps
up to multiples of the size of a word. It is the number itself, and is counted on without going
around, exactly as long as there are fewer laps than that.

## Main definitions

* `Transport.turnsTo`, `Transport.lapsTo`: the turns of the play loop while the clock advances, and
  how many of them reach the end of the window.
* `Part.lapsAfter`, `Part.lapsAlong`: the laps since the last start.

## Main results

* `Transport.loopsPlayed_process`: a call counts its laps.
* `Transport.forall_turnsTo_iff`: when the count does not go around in a call.
* `Transport.lapsTo_eq`: the number of laps of a call in closed form.
* `Part.executeAll_eq_none_iff`: when there are too many laps for checked arithmetic.
* `Part.loopsPlayed_run`: the count after a run, and when it is the number of laps.
-/

namespace Ostinato

variable {γ α : Type} [Generator γ]

/-! ### The laps of the play loop -/

namespace Turn

variable (pace : ClockTime → ClockTime)

theorem loopsPlayed_next (turn : Turn) :
    (turn.next pace).transport.loopsPlayed =
      turn.transport.loopsPlayed + if turn.Crosses then 1 else 0 := by
  by_cases h : turn.Crosses
  · rw [next_of_crosses pace h, if_pos h]
    dsimp only
    rw [Transport.lapped]
    split <;> rfl
  · rw [next_of_not_crosses pace h, if_neg h]
    exact (UInt32.add_zero _).symm

theorem countP_turns_of_crosses {turn : Turn} (hdue : turn.IsDue) (h : turn.Crosses) :
    (turn.turns pace).countP (·.Crosses) =
      ((turn.next pace).turns pace).countP (·.Crosses) + 1 := by
  rw [turns_of_isDue pace hdue, List.countP_cons, if_pos (decide_eq_true h)]

theorem turns_of_not_crosses {turn : Turn} (hdue : turn.IsDue) (h : ¬ turn.Crosses) :
    turn.turns pace = [turn] := by
  rw [turns_of_isDue pace hdue, turns_of_not_isDue pace (not_isDue_next_of_not_crosses pace h)]

theorem countP_turns_of_not_crosses {turn : Turn} (hdue : turn.IsDue) (h : ¬ turn.Crosses) :
    (turn.turns pace).countP (·.Crosses) = 0 := by
  rw [turns_of_not_crosses pace hdue h, List.countP_singleton, if_neg (by simpa using h)]

theorem loopsPlayed_last (turn : Turn) :
    (turn.last pace).transport.loopsPlayed =
      turn.transport.loopsPlayed + .ofNat ((turn.turns pace).countP (·.Crosses)) := by
  induction turn using turns.induct pace with
  | case1 turn hdue ih =>
    rw [last_of_isDue pace hdue, ih, loopsPlayed_next]
    by_cases h : turn.Crosses
    · rw [if_pos h, countP_turns_of_crosses pace hdue h, UInt32.ofNat_add]
      grind
    · rw [if_neg h, turns_of_not_isDue pace (not_isDue_next_of_not_crosses pace h),
        countP_turns_of_not_crosses pace hdue h, List.countP_nil, UInt32.add_zero]
  | case2 turn hdue =>
    rw [last_of_not_isDue pace hdue, turns_of_not_isDue pace hdue]
    exact (UInt32.add_zero _).symm

theorem forall_turns_iff (turn : Turn) :
    (∀ t ∈ turn.turns pace, t.Crosses → t.transport.loopsPlayed.toNat + 1 < UInt32.size) ↔
      turn.transport.loopsPlayed.toNat + (turn.turns pace).countP (·.Crosses) < UInt32.size := by
  induction turn using turns.induct pace with
  | case1 turn hdue ih =>
    by_cases h : turn.Crosses
    · rw [turns_of_isDue pace hdue, List.forall_mem_cons, imp_iff_right h, ih,
        ← turns_of_isDue pace hdue, countP_turns_of_crosses pace hdue h, loopsPlayed_next, if_pos h,
        UInt32.toNat_add, UInt32.toNat_one]
      simp only [UInt32.size]
      omega
    · rw [countP_turns_of_not_crosses pace hdue h, turns_of_not_crosses pace hdue h,
        List.forall_mem_singleton]
      exact iff_of_true (fun hcrosses => absurd hcrosses h) turn.transport.loopsPlayed.toNat_lt_size
  | case2 turn hdue =>
    rw [turns_of_not_isDue pace hdue]
    exact iff_of_true (fun t ht => absurd ht List.not_mem_nil)
      turn.transport.loopsPlayed.toNat_lt_size

end Turn

namespace Transport

/-! ### Closed form -/

section LapsAhead

variable {transport : Transport} {length : ClockTime}

theorem lapsAhead_of_not_isCrossed
    (h : ¬ transport.loop.IsCrossed transport.position (transport.position + length)) :
    transport.lapsAhead length = 0 := by
  rw [lapsAhead, Loop.lapsWithin_of_not_isCrossed h]
  cases transport.lapLimit? with
  | none => rfl
  | some limit => exact Nat.zero_min limit

/-- The lap that ends a counted loop is the last one. -/
theorem lapsAhead_of_isDone
    (h : transport.loop.IsCrossed transport.position (transport.position + length))
    (hdone : transport.loop.mode.isDoneAfter (transport.loopsPlayed + 1) = true) :
    transport.lapsAhead length = 1 := by
  rw [lapsAhead, Loop.lapsWithin_of_isCrossed h, lapLimit?]
  cases hmode : transport.loop.mode with
  | count count =>
    rw [hmode, LoopMode.isDoneAfter, decide_eq_true_iff, UInt32.le_iff_toNat_le] at hdone
    dsimp only [Option.elim_some]
    omega
  | off => rw [hmode] at hdone; contradiction
  | forever => rw [hmode] at hdone; contradiction

/-- Any other lap is followed by those within the rest of the length. -/
theorem lapsAhead_of_isCrossed
    (h : transport.loop.IsCrossed transport.position (transport.position + length))
    (hgoing : transport.loop.mode.isDoneAfter (transport.loopsPlayed + 1) = false) :
    transport.lapsAhead length =
      transport.jumped.lapsAhead (length - (transport.loop.finish - transport.position)) + 1 := by
  rw [lapsAhead, lapsAhead, Loop.lapsWithin_of_isCrossed h, lapLimit?, lapLimit?]
  dsimp only [jumped]
  cases hmode : transport.loop.mode with
  | count count =>
    have hless : (transport.loopsPlayed + 1).toNat < count.toNat := by
      rw [hmode, LoopMode.isDoneAfter, decide_eq_false_iff_not, UInt32.le_iff_toNat_le] at hgoing
      exact Nat.lt_of_not_le hgoing
    have hnext : (transport.loopsPlayed + 1 + 1).toNat = (transport.loopsPlayed + 1).toNat + 1 := by
      have hcount := count.toNat_lt
      rw [UInt32.toNat_add (transport.loopsPlayed + 1)]
      exact Nat.mod_eq_of_lt (by simp only [UInt32.reduceToNat]; omega)
    dsimp only [Option.elim_some]
    rw [hnext]
    omega
  | off => rfl
  | forever => rfl

end LapsAhead

end Transport

/-- **The laps of the play loop in closed form.** -/
theorem Turn.countP_turns_eq (pace : ClockTime → ClockTime) (turn : Turn)
    (hstate : turn.transport.state = .started) :
    (turn.turns pace).countP (·.Crosses) = turn.transport.lapsAhead turn.remaining := by
  induction turn using turns.induct pace with
  | case1 turn hdue ih =>
    by_cases h : turn.Crosses
    · rw [countP_turns_of_crosses pace hdue h]
      by_cases hlast : turn.IsLastLap
      · rw [turns_of_not_isDue pace (not_isDue_next_of_isLastLap pace h hlast),
          Transport.lapsAhead_of_isDone h (isDoneAfter_iff.2 hlast)]
        rfl
      · have hnext := (next_of_crosses pace h).trans
          (congrArg (Turn.mk · _ _) (lapped_of_not_isLastLap hlast))
        rw [hnext] at ih ⊢
        rw [ih hstate, Transport.lapsAhead_of_isCrossed h
          (Bool.eq_false_iff.2 (mt isDoneAfter_iff.1 hlast))]
        rfl
    · rw [countP_turns_of_not_crosses pace hdue h, Transport.lapsAhead_of_not_isCrossed h]
  | case2 turn hdue =>
    have hzero : turn.remaining.val = 0 :=
      Nat.eq_zero_of_not_pos fun hpos => hdue ⟨hpos, hstate⟩
    have hcrossed := turn.transport.loop.not_isCrossed_of_eq_zero turn.transport.position hzero
    rw [turns_of_not_isDue pace hdue, Transport.lapsAhead_of_not_isCrossed hcrossed,
      List.countP_nil]

namespace Transport

/-! ### One call -/

/-- The turns of the play loop while the clock advances. -/
def turnsTo (transport : Transport) (now : ClockTime) : List Turn :=
  if transport.Plays now then
    Turn.turns (·.unscale transport.rate)
      ⟨transport, max transport.clock transport.startTime, transport.playedTime now⟩
  else []

/-- How often the end of the window is reached while the clock advances. -/
def lapsTo (transport : Transport) (now : ClockTime) : Nat :=
  (transport.turnsTo now).countP (·.Crosses)

/-- **A call counts its laps**, in words. -/
theorem loopsPlayed_process (transport : Transport) (now : ClockTime) :
    (transport.process now).transport.loopsPlayed =
      transport.loopsPlayed + .ofNat (transport.lapsTo now) := by
  rw [lapsTo, turnsTo]
  split
  · next h =>
    rw [process_of_plays h]
    dsimp only
    rw [loopsPlayed_settle, Turn.cover_eq_turns (·.unscale transport.rate)
      ⟨transport, max transport.clock transport.startTime, transport.playedTime now⟩ h.2.2.1
      fun _ => rfl]
    exact Turn.loopsPlayed_last _ _
  · next h =>
    obtain ⟨state, clock, stopTime, hprocess⟩ := process_of_not_plays h
    rw [hprocess]
    exact (UInt32.add_zero _).symm

/-- No lap of a call takes the count around exactly if there is room in a word for all of them. -/
theorem forall_turnsTo_iff (transport : Transport) (now : ClockTime) :
    (∀ turn ∈ transport.turnsTo now, turn.Crosses →
        turn.transport.loopsPlayed.toNat + 1 < UInt32.size) ↔
      transport.loopsPlayed.toNat + transport.lapsTo now < UInt32.size := by
  rw [lapsTo, turnsTo]
  split
  · exact Turn.forall_turns_iff _ _
  · exact iff_of_true (fun turn hturn => absurd hturn List.not_mem_nil)
      transport.loopsPlayed.toNat_lt_size

/-- **The laps of a call in closed form.** -/
theorem lapsTo_eq (transport : Transport) (now : ClockTime) :
    transport.lapsTo now = transport.lapsAhead (transport.playedTime now) := by
  rw [lapsTo, turnsTo]
  split
  · next h => exact Turn.countP_turns_eq _ _ h.2.2.1
  · next h =>
    have hcrossed := transport.loop.not_isCrossed_of_eq_zero transport.position Span.val_zero
    rw [playedTime, if_neg h, lapsAhead_of_not_isCrossed hcrossed, List.countP_nil]

end Transport

/-! ### Controls -/

theorem Transport.loopsPlayed_stop (transport : Transport) (time : Option ClockTime) :
    (transport.stop time).loopsPlayed = transport.loopsPlayed := by
  rw [stop]
  split
  · rfl
  · split <;> rfl

theorem Transport.loopsPlayed_setRate (transport : Transport) (rate : Binary64) :
    (transport.setRate rate).loopsPlayed = transport.loopsPlayed := by
  rw [setRate]
  split <;> rfl

namespace Part

/-! ### Runs -/

/-- The laps since the last start after a command, if there have been as many as given before it. A
part that is disposed does not start. -/
def lapsAfter (part : Part γ α) (laps : Nat) : Command α → Nat
  | .start _ _ => if part.transport.disposed then laps else 0
  | .process now => laps + part.transport.lapsTo now
  | _ => laps

/-- The laps since the last start after a run, if there have been as many as given before it. -/
def lapsAlong (part : Part γ α) (laps : Nat) : List (Command α) → Nat
  | [] => laps
  | command :: commands => (part.perform command).1.lapsAlong (part.lapsAfter laps command) commands

theorem loopsPlayed_perform {part : Part γ α} {laps : Nat}
    (h : part.transport.loopsPlayed = .ofNat laps) (command : Command α) :
    (part.perform command).1.transport.loopsPlayed = .ofNat (part.lapsAfter laps command) := by
  cases command with
  | start time position =>
    cases hdisposed : part.transport.disposed with
    | true =>
      rw [lapsAfter, if_pos hdisposed, ← h, perform, start, Transport.start, hdisposed]
      rfl
    | false =>
      rw [lapsAfter, hdisposed, perform, start, Transport.start_of_live hdisposed]
      rfl
  | stop time => exact (part.transport.loopsPlayed_stop time).trans h
  | setRate rate => exact (part.transport.loopsPlayed_setRate rate).trans h
  | process now =>
    rw [lapsAfter, UInt32.ofNat_add, ← h]
    exact part.transport.loopsPlayed_process now
  | _ => exact h

theorem loopsPlayed_run_eq {part : Part γ α} {laps : Nat}
    (h : part.transport.loopsPlayed = .ofNat laps) (commands : List (Command α)) :
    (part.run commands).1.transport.loopsPlayed = .ofNat (part.lapsAlong laps commands) := by
  induction commands generalizing part laps with
  | nil => exact h
  | cons command commands ih => exact ih (loopsPlayed_perform h command)

theorem lapsAlong_append (part : Part γ α) (laps : Nat) (before after : List (Command α)) :
    part.lapsAlong laps (before ++ after) =
      (part.run before).1.lapsAlong (part.lapsAlong laps before) after := by
  induction before generalizing part laps with
  | nil => rfl
  | cons command before ih => exact ih _ _

/-! ### Runs in checked arithmetic -/

theorem execute_eq_none_iff (part : Part γ α) (command : Command α) :
    part.execute command = none ↔ ∃ now, command = .process now ∧
      UInt32.size ≤ part.transport.loopsPlayed.toNat + part.transport.lapsTo now := by
  cases command with
  | process now =>
    rw [execute_process, Transport.overflows, ← Transport.lapsTo_eq]
    simp
  | _ => simp [execute]

/-- If anything comes of a command, the count is still a number. -/
theorem toNat_loopsPlayed_of_execute {part : Part γ α} {laps : Nat}
    (h : part.transport.loopsPlayed.toNat = laps) {command : Command α}
    {result : Part γ α × List (PartEvent α)} (hexecute : part.execute command = some result) :
    result.1.transport.loopsPlayed.toNat = part.lapsAfter laps command := by
  have hword : part.transport.loopsPlayed = .ofNat laps := by
    rw [← h, UInt32.ofNat_toNat]
  have hless : part.lapsAfter laps command < UInt32.size := by
    have hlaps : laps < UInt32.size := h ▸ part.transport.loopsPlayed.toNat_lt_size
    cases command with
    | process now =>
      have hfits := mt (part.execute_eq_none_iff (.process now)).2 (by rw [hexecute]; simp)
      rw [h] at hfits
      exact Nat.lt_of_not_le fun hmany => hfits ⟨now, rfl, hmany⟩
    | start time position =>
      rw [lapsAfter]
      split
      · exact hlaps
      · decide
    | _ => exact hlaps
  rw [eq_perform_of_execute hexecute, loopsPlayed_perform hword, UInt32.toNat_ofNat_of_lt' hless]

theorem toNat_loopsPlayed_of_executeAll {part : Part γ α} {laps : Nat}
    (h : part.transport.loopsPlayed.toNat = laps) {commands : List (Command α)}
    {result : Part γ α × List (PartEvent α)} (hexecute : part.executeAll commands = some result) :
    result.1.transport.loopsPlayed.toNat = part.lapsAlong laps commands := by
  induction commands generalizing part laps result with
  | nil =>
    cases hexecute
    exact h
  | cons command commands ih =>
    obtain ⟨first, rest, hfirst, hlast, rfl⟩ := exists_of_executeAll_cons hexecute
    rw [ih (toNat_loopsPlayed_of_execute h hfirst) hlast, eq_perform_of_execute hfirst]
    rfl

/-- Nothing comes of a run exactly if one of its calls comes to too many laps. -/
theorem executeAll_eq_none_iff {part : Part γ α} {laps : Nat}
    (h : part.transport.loopsPlayed.toNat = laps) (commands : List (Command α)) :
    part.executeAll commands = none ↔
      ∃ before now after, commands = before ++ .process now :: after ∧
        UInt32.size ≤ part.lapsAlong laps before + (part.run before).1.transport.lapsTo now := by
  induction commands generalizing part laps with
  | nil => simp [executeAll]
  | cons command commands ih =>
    cases hfirst : part.execute command with
    | none =>
      obtain ⟨now, rfl, hmany⟩ := (part.execute_eq_none_iff command).1 hfirst
      refine iff_of_true (by rw [executeAll, hfirst]; rfl) ⟨[], now, commands, rfl, ?_⟩
      rwa [h] at hmany
    | some first =>
      have hrest := ih (toNat_loopsPlayed_of_execute h hfirst)
      have hnone : part.executeAll (command :: commands) = none ↔
          first.1.executeAll commands = none := by
        rw [executeAll, hfirst]
        cases hlater : first.1.executeAll commands <;> simp [hlater]
      rw [hnone, hrest, eq_perform_of_execute hfirst]
      constructor
      · rintro ⟨before, now, after, rfl, hmany⟩
        exact ⟨command :: before, now, after, rfl, hmany⟩
      · rintro ⟨before, now, after, hsplit, hmany⟩
        cases before with
        | nil =>
          -- the first command does not come to too many laps
          obtain ⟨rfl, -⟩ := List.cons.inj hsplit
          rw [← h] at hmany
          have hover := (part.execute_eq_none_iff (.process now)).2 ⟨now, rfl, hmany⟩
          rw [hover] at hfirst
          contradiction
        | cons other before =>
          obtain ⟨rfl, rfl⟩ := List.cons.inj hsplit
          exact ⟨before, now, after, rfl, hmany⟩

/-! ### Every run -/

/-- **What is counted.** After every run of a new part, the count is the number of laps since the
last start, up to multiples of the size of a word. It is that number, and none of the laps of the
next call takes it around, exactly if with these there will have been fewer laps than the size of a
word; and how many the call has, is known in closed form. Where arithmetic is checked, what comes of
a run is what is described, and the count is that number; nothing comes of the run exactly if one of
its calls comes to as many laps as the size of a word. -/
theorem loopsPlayed_run (draws : γ) (commands : List (Command α)) (now : ClockTime) :
    let fresh : Part γ α := { draws }
    let transport := (fresh.run commands).1.transport
    let laps := fresh.lapsAlong 0 commands
    transport.loopsPlayed.toNat = laps % UInt32.size ∧
      ((transport.loopsPlayed.toNat = laps ∧ ∀ turn ∈ transport.turnsTo now, turn.Crosses →
          turn.transport.loopsPlayed.toNat + 1 < UInt32.size) ↔
        laps + transport.lapsTo now < UInt32.size) ∧
      transport.lapsTo now = transport.lapsAhead (transport.playedTime now) ∧
      (∀ result, fresh.executeAll commands = some result →
        result = fresh.run commands ∧ result.1.transport.loopsPlayed.toNat = laps) ∧
      (fresh.executeAll commands = none ↔
        ∃ before now after, commands = before ++ .process now :: after ∧
          UInt32.size ≤ fresh.lapsAlong 0 before + (fresh.run before).1.transport.lapsTo now) := by
  intro fresh transport laps
  have hzero : fresh.transport.loopsPlayed = .ofNat 0 := rfl
  have hcount : transport.loopsPlayed.toNat = laps % UInt32.size := by
    have hrun : transport.loopsPlayed = .ofNat laps := loopsPlayed_run_eq hzero commands
    rw [hrun]
    rfl
  refine ⟨hcount, ?_, transport.lapsTo_eq now, fun result hresult => ?_, ?_⟩
  · rw [transport.forall_turnsTo_iff, hcount]
    constructor
    · rintro ⟨hexact, hroom⟩
      rwa [hexact] at hroom
    · intro hroom
      have hexact := Nat.mod_eq_of_lt (Nat.lt_of_le_of_lt (Nat.le_add_right _ _) hroom)
      rw [hexact]
      exact ⟨rfl, hroom⟩
  · exact ⟨eq_run_of_executeAll hresult, toNat_loopsPlayed_of_executeAll rfl hresult⟩
  · exact executeAll_eq_none_iff rfl commands

/-- A part that is started for the second time counts from zero again: the laps before are not among
the three that it has behind it, and the next call adds two. -/
theorem loopsPlayed_run_restarted :
    let fresh : Part SplitMix Char := { draws := ⟨7⟩ }
    let commands : List (Command Char) :=
      [.setLoopMode .forever, .setLoopStart 10, .setLoopFinish 30, .start none (some 5),
        .process 70, .stop none, .start none none, .setLoopMode (.count 9), .process 130]
    let transport := (fresh.run commands).1.transport
    fresh.lapsAlong 0 commands = 3 ∧ transport.loopsPlayed.toNat = 3 ∧ transport.lapsTo 175 = 2 ∧
      (∀ turn ∈ transport.turnsTo 175, turn.Crosses →
        turn.transport.loopsPlayed.toNat + 1 < UInt32.size) ∧
      fresh.executeAll commands = some (fresh.run commands) := by
  intro fresh commands transport
  have hlaps : fresh.lapsAlong 0 commands = 3 := by decide +kernel
  have hnext : transport.lapsTo 175 = 2 := by decide +kernel
  have hfew : fresh.lapsAlong 0 commands + transport.lapsTo 175 < UInt32.size := by
    rw [hlaps, hnext]
    decide
  obtain ⟨-, hexact, -, hchecked, -⟩ := loopsPlayed_run (⟨7⟩ : SplitMix) commands 175
  obtain ⟨hcount, hroom⟩ := hexact.2 hfew
  have hgoes : (fresh.executeAll commands).isSome = true := by decide +kernel
  obtain ⟨result, hresult⟩ := Option.isSome_iff_exists.1 hgoes
  exact ⟨hlaps, hcount.trans hlaps, hnext, hroom, (hchecked result hresult).1 ▸ hresult⟩

/-- A window of one nanosecond is played four billion times and more in some four seconds. Where
arithmetic is checked, the next lap ends everything; where it is not, the lap takes the count around
to zero, and so the part goes on, although it has been told to play the window only once. -/
theorem loopsPlayed_run_around :
    let fresh : Part SplitMix Char := { draws := ⟨7⟩ }
    let commands : List (Command Char) :=
      [.setLoopMode .forever, .setLoopFinish 1, .start none none, .process 4294967295,
        .setLoopMode (.count 1)]
    let part := (fresh.run commands).1
    let next := (part.process 4294967296).1
    fresh.lapsAlong 0 (commands ++ [.process 4294967296]) = 4294967296 ∧
      part.transport.loopsPlayed.toNat = 4294967295 ∧
      ¬ (∀ turn ∈ part.transport.turnsTo 4294967296, turn.Crosses →
        turn.transport.loopsPlayed.toNat + 1 < UInt32.size) ∧
      part.execute (.process 4294967296) = none ∧
      next.transport.loopsPlayed = 0 ∧ next.transport.state = .started := by
  intro fresh commands part next
  -- nobody hears the part, so its laps need not be counted out
  have hrun : fresh.executeAll commands = some ({ draws := ⟨7⟩, transport :=
      { state := .started, clock := 4294967295, loop := ⟨.count 1, 0, 1⟩
        loopsPlayed := 4294967295 } }, [.starting 0 0]) := by decide +kernel
  have hpart : part = { draws := ⟨7⟩, transport :=
      { state := .started, clock := 4294967295, loop := ⟨.count 1, 0, 1⟩
        loopsPlayed := 4294967295 } } := congrArg Prod.fst (eq_run_of_executeAll hrun).symm
  have hcount : part.transport.loopsPlayed.toNat = 4294967295 := by rw [hpart]; rfl
  have hnext : part.transport.lapsTo 4294967296 = 1 := by
    rw [hpart]
    decide +kernel
  have hbefore : fresh.lapsAlong 0 commands = 4294967295 :=
    (toNat_loopsPlayed_of_executeAll rfl hrun).symm
  have hlaps : fresh.lapsAlong 0 (commands ++ [.process 4294967296]) = 4294967296 := by
    rw [lapsAlong_append, hbefore, lapsAlong, lapsAlong, lapsAfter, hnext]
  have hlimit : UInt32.size = 4294967296 := rfl
  refine ⟨hlaps, hcount, ?_, ?_, ?_⟩
  · rw [Transport.forall_turnsTo_iff]
    omega
  · refine (part.execute_eq_none_iff _).2 ⟨_, rfl, ?_⟩
    omega
  · simp only [next, hpart]
    decide +kernel

end Part

end Ostinato
