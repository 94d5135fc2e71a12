import Ostinato.Proofs.Part.Chronology

/-!
# Lateness

At a rate other than one, the clock time that a lap is given is rounded, and the laps of one call
are given their times one after the other. Where rounding gives a lap more time than it takes, the
steps of the laps behind it come up late, and each such lap adds to it: in the end steps come up at
clock times that the clock has not reached, and the next call, which goes by the clock again, tells
of steps at earlier times. Where no lap that is over within a call is drawn out, every step comes up
in time, whatever else is rounded.

## Main definitions

* `Transport.KeepsPace`, `Part.KeepsPaceThroughout`: calls in which no lap that is over is drawn
  out, and runs of such calls.

## Main results

* `Part.le_playLimit_of_keepsPace`: in such a call every step comes up in time.
* `Part.fired_by_now`: so do the steps of a run of such calls, in order.
* `Part.fired_late_at_rate_two`: laps that are drawn out make steps late.
-/

namespace Ostinato

variable {γ α : Type} [Generator γ]

/-- Whether no lap that is over within a call is drawn out, for clock times and lengths that are
exact. What the call plays last may be rounded as it will. -/
structure Transport.KeepsPace (transport : Transport) (now : ClockTime) : Prop where
  now_lt : now.val < 2 ^ 53
  length_lt : (transport.playedTime now).val < 2 ^ 53
  laps : ∀ stretch ∈ (transport.process now).stretches.dropLast,
    ¬ stretch.IsDrawnOut transport.rate

instance (transport : Transport) (now : ClockTime) : Decidable (transport.KeepsPace now) :=
  decidable_of_iff (now.val < 2 ^ 53 ∧ (transport.playedTime now).val < 2 ^ 53 ∧
      ∀ stretch ∈ (transport.process now).stretches.dropLast, ¬ stretch.IsDrawnOut transport.rate)
    ⟨fun ⟨hnow, hlength, hlaps⟩ => ⟨hnow, hlength, hlaps⟩,
      fun ⟨hnow, hlength, hlaps⟩ => ⟨hnow, hlength, hlaps⟩⟩

namespace Part

/-- A step of a call that keeps pace comes up no later than the part plays. -/
theorem le_playLimit_of_keepsPace {part : Part γ α} (h : part.humanize = .off)
    (hrate : Transport.IsPlayable part.transport.rate) {now time : ClockTime}
    (hpace : part.transport.KeepsPace now) (hmem : time ∈ firedTimes (part.process now).2) :
    time ≤ part.transport.playLimit now := by
  have hplays := plays_of_mem_firedTimes h hmem
  have hnow : now.val < exactLimit := hpace.now_lt
  have hlength : (part.transport.playedTime now).val < exactLimit := hpace.length_lt
  have hle := part.transport.playLimit_le now
  have hbegun := hplays.2.2.2
  rw [Span.le_def] at hle
  rw [Span.lt_def] at hbegun
  obtain ⟨sounding, hsounding, rfl⟩ :=
    List.mem_map.1 ((firedTimes_process_sublist h now).subset hmem)
  refine (part.transport.isRoute_process now).soundings_le hrate hlength (by omega) hpace.laps
    (fun k hk => ?_) hsounding
  -- the time that passes has room for all but the last unit of the length that is played in it
  have hplayed : part.transport.playedTime now =
      (part.transport.playLimit now - max part.transport.clock part.transport.startTime).scale
        part.transport.rate := if_pos hplays
  rw [hplayed] at hk hlength
  have hroom := hrate.lt_of_lt_scale (by rw [Span.val_sub]; omega) (Nat.lt_trans hk hlength) hk
  rw [Span.val_sub, Nat.sub_mul] at hroom
  omega

/-! ### Runs -/

/-- Whether all calls of a run keep pace. -/
def KeepsPaceThroughout (part : Part γ α) : List ClockTime → Prop
  | [] => True
  | now :: times =>
    part.transport.KeepsPace now ∧ (part.process now).1.KeepsPaceThroughout times

theorem KeepsPaceThroughout.of_split {part : Part γ α} {past later : List ClockTime}
    {now : ClockTime}
    (h : part.KeepsPaceThroughout (past ++ now :: later)) :
    let here := (part.run (past.map .process)).1
    here.transport.KeepsPace now ∧ here.transport.rate = part.transport.rate ∧
      here.humanize = part.humanize := by
  induction past generalizing part with
  | nil => exact ⟨h.1, rfl, rfl⟩
  | cons first past ih =>
    obtain ⟨hpace, hrate, hhumanize⟩ := ih h.2
    exact ⟨hpace, hrate.trans (part.transport.rate_process first), hhumanize⟩

/-- **Calls that keep pace tell of every step in time.** While the clock of a part without
deviations advances, at any playable rate, and no lap that is over within a call is drawn out, every
step comes up no later than the time that the clock is set to, and no later than the stop if one is
scheduled. The clock times of all the steps are in order. -/
theorem fired_by_now (part : Part γ α) (hrate : Transport.IsPlayable part.transport.rate)
    (hhumanize : part.humanize = .off) (times : List ClockTime)
    (hpace : part.KeepsPaceThroughout times) :
    (∀ past now later, times = past ++ now :: later →
      let here := (part.run (past.map .process)).1
      ∀ time ∈ firedTimes (here.process now).2,
        time ≤ now ∧ ∀ stop, here.transport.stopTime = some stop → time ≤ stop) ∧
      (firedTimes (part.run (times.map .process)).2).Pairwise (· ≤ ·) := by
  have hlimit : ∀ past now later, times = past ++ now :: later →
      ∀ time ∈ firedTimes ((part.run (past.map .process)).1.process now).2,
        time ≤ (part.run (past.map .process)).1.transport.playLimit now := by
    rintro past now later rfl time hmem
    obtain ⟨hhere, hsame, hexact⟩ := hpace.of_split
    exact le_playLimit_of_keepsPace (hexact.trans hhumanize) (hsame.symm ▸ hrate) hhere hmem
  refine ⟨?_, (part.firedTimes_run ?_).2⟩
  · intro past now later hsplit here time hmem
    have hle := hlimit past now later hsplit time hmem
    refine ⟨Nat.le_trans hle (here.transport.playLimit_le now), fun stop hstop => ?_⟩
    rw [Span.le_def, Transport.val_playLimit_of_some now hstop] at hle
    rw [Span.le_def]
    omega
  · intro before command after hsplit
    obtain ⟨past, others, hparts, rfl, hothers⟩ := List.map_eq_append_iff.1 hsplit
    obtain ⟨now, later, rfl, rfl, -⟩ := List.map_eq_cons_iff.1 hothers
    subst hparts
    obtain ⟨hhere, hsame, hexact⟩ := hpace.of_split
    refine tellsInOrder_process (hexact.trans hhumanize) (hsame.symm ▸ hrate) hhere.length_lt
      fun time hmem => ?_
    exact Nat.le_trans (hlimit past now later rfl time hmem) (Transport.playLimit_le _ now)

/-- At twice the rate a window of four units takes two. Steps half a unit behind the start of a lap
are rounded up, but are in time, up to the stop at which the last one comes up. -/
theorem fired_by_now_even_window :
    let fresh : Part SplitMix Char := { draws := ⟨7⟩ }
    let part := (fresh.run [.listen { name := "bell" }, .add 1 (.sound 'a'),
      .setRate (.ofNat 2), .setLoopMode .forever, .setLoopFinish 4, .start none none,
      .stop (some 9)]).1
    let times : List ClockTime := [5, 6, 20]
    (Transport.IsPlayable part.transport.rate ∧ part.humanize = .off ∧
        part.KeepsPaceThroughout times) ∧
      (∀ time ∈ firedTimes (part.process 5).2, time ≤ 5 ∧ time ≤ 9) ∧
      (firedTimes (part.run (times.map .process)).2).map Span.val = [1, 3, 5, 7, 9] ∧
      (firedTimes (part.run (times.map .process)).2).Pairwise (· ≤ ·) := by
  intro fresh part times
  have hrate : Transport.IsPlayable part.transport.rate := by decide +kernel
  have hpace : part.KeepsPaceThroughout times :=
    ⟨by decide +kernel, by decide +kernel, by decide +kernel, trivial⟩
  obtain ⟨hcalls, horder⟩ := fired_by_now part hrate rfl times hpace
  refine ⟨⟨hrate, rfl, hpace⟩, fun time hmem => ?_, by decide +kernel, horder⟩
  obtain ⟨hnow, hstop⟩ := hcalls [] 5 [6, 20] rfl time hmem
  exact ⟨hnow, hstop 9 (by decide +kernel)⟩

/-- At twice the rate a window of one unit takes half a unit, which is rounded to one. A call that
sets the clock to `4` tells of steps up to `7`, and the next one begins with a step at `4`. -/
theorem fired_late_at_rate_two :
    let fresh : Part SplitMix Char := { draws := ⟨7⟩ }
    let part := (fresh.run [.listen { name := "bell" }, .add 0 (.sound 'a'),
      .setRate (.ofNat 2), .setLoopMode .forever, .setLoopFinish 1, .start none none]).1
    Transport.IsPlayable part.transport.rate ∧ part.humanize = .off ∧
      (part.transport.playedTime 4).val = 8 ∧
      (firedTimes (part.process 4).2).map Span.val = [0, 1, 2, 3, 4, 5, 6, 7] ∧
      (¬ ∀ time ∈ firedTimes (part.process 4).2, time ≤ 4) ∧
      (firedTimes ((part.process 4).1.process 5).2).map Span.val = [4, 5] ∧
      ¬ (firedTimes (part.run [.process 4, .process 5]).2).Pairwise (· ≤ ·) := by
  decide +kernel

end Part

end Ostinato
