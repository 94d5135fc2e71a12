import Ostinato.Part.Execution
import Ostinato.Proofs.Part.Passages

/-!
# Laps in closed form

A length that reaches the end of the loop window holds the lap up to that end, and as many whole
laps as the rest of the length has room for. So the laps of a loop that is not counted can be
skipped: the transport that skips them comes to where it comes by covering the length, and a part
that nobody hears does not have to play them.

## Main results

* `Loop.lapsWithin_of_isCrossed`, `Loop.positionAfter_of_isCrossed`: a lap, and the rest.
* `Transport.transport_coverFrom_of_uncounted`: skipping a length is covering it.
* `Transport.transport_process_of_uncounted`: skipping is advancing the clock.
* `Part.execute_process`, `Part.eq_run_of_executeAll`: what is executed is what is described.
-/

namespace Ostinato

namespace Loop

variable {loop : Loop} {position length : ClockTime}

theorem not_isCrossed_of_eq_zero (loop : Loop) (position : ClockTime) (h : length.val = 0) :
    ¬ loop.IsCrossed position (position + length) := by
  rw [Span.add_eq_left h]
  exact fun hcrossed => Nat.not_lt_of_le hcrossed.2.2 hcrossed.2.1

theorem lapsWithin_of_not_isCrossed (h : ¬ loop.IsCrossed position (position + length)) :
    loop.lapsWithin position length = 0 :=
  if_neg h

theorem positionAfter_of_not_isCrossed (h : ¬ loop.IsCrossed position (position + length)) :
    loop.positionAfter position length = position + length :=
  if_neg h

theorem IsActive.isCrossed_start_iff (h : loop.IsActive) :
    loop.IsCrossed loop.start (loop.start + length) ↔
      (loop.finish - loop.start).val ≤ length.val := by
  have hwindow : loop.start.val < loop.finish.val := h.2
  have hmax := loop.finish.val_le
  rw [IsCrossed, and_iff_right h, and_iff_right h.2, Span.le_def, Span.val_add, Span.val_sub]
  omega

theorem IsActive.lapsWithin_start (h : loop.IsActive) (length : ClockTime) :
    loop.lapsWithin loop.start length = length.val / (loop.finish - loop.start).val := by
  have hpos : 0 < (loop.finish - loop.start).val := Nat.sub_pos_of_lt h.2
  by_cases hcrossed : loop.IsCrossed loop.start (loop.start + length)
  · have hle := h.isCrossed_start_iff.1 hcrossed
    rw [lapsWithin, if_pos hcrossed, Span.val_sub length, Nat.div_eq length.val,
      if_pos ⟨hpos, hle⟩]
  · have hlt := Nat.lt_of_not_le (mt h.isCrossed_start_iff.2 hcrossed)
    rw [lapsWithin_of_not_isCrossed hcrossed, Nat.div_eq_of_lt hlt]

theorem IsActive.positionAfter_start (h : loop.IsActive) (length : ClockTime) :
    loop.positionAfter loop.start length =
      loop.start + Span.ofNat (length.val % (loop.finish - loop.start).val) := by
  by_cases hcrossed : loop.IsCrossed loop.start (loop.start + length)
  · have hle := h.isCrossed_start_iff.1 hcrossed
    rw [positionAfter, if_pos hcrossed, Span.val_sub length, ← Nat.mod_eq_sub_mod hle]
  · have hlt := Nat.lt_of_not_le (mt h.isCrossed_start_iff.2 hcrossed)
    rw [positionAfter_of_not_isCrossed hcrossed, Nat.mod_eq_of_lt hlt, Span.ofNat_val]

/-- The laps within a length that reaches the end of the window: that to this end, and those within
the rest. -/
theorem lapsWithin_of_isCrossed (h : loop.IsCrossed position (position + length)) :
    loop.lapsWithin position length =
      loop.lapsWithin loop.start (length - (loop.finish - position)) + 1 := by
  rw [h.1.lapsWithin_start, lapsWithin, if_pos h]

/-- The position after such a length is that after the rest. -/
theorem positionAfter_of_isCrossed (h : loop.IsCrossed position (position + length)) :
    loop.positionAfter position length =
      loop.positionAfter loop.start (length - (loop.finish - position)) := by
  rw [h.1.positionAfter_start, positionAfter, if_pos h]

end Loop

namespace LoopMode

theorem isDoneAfter_of_not_isCounted {mode : LoopMode} (h : mode.isCounted = false)
    (played : UInt32) : mode.isDoneAfter played = false := by
  cases mode with
  | count times => contradiction
  | off => rfl
  | forever => rfl

end LoopMode

namespace Transport

theorem skip_of_not_isCrossed {transport : Transport} {length : ClockTime}
    (h : ¬ transport.loop.IsCrossed transport.position (transport.position + length)) :
    transport.skip length = { transport with position := transport.position + length } := by
  rw [skip, Loop.positionAfter_of_not_isCrossed h, Loop.lapsWithin_of_not_isCrossed h]
  exact congrArg (fun loops => { transport with
    position := transport.position + length, loopsPlayed := loops }) (UInt32.add_zero _)

theorem skip_of_isCrossed {transport : Transport} {length : ClockTime}
    (h : transport.loop.IsCrossed transport.position (transport.position + length)) :
    transport.skip length =
      transport.jumped.skip (length - (transport.loop.finish - transport.position)) := by
  have hcount : ∀ laps, transport.loopsPlayed + UInt32.ofNat (laps + 1) =
      transport.jumped.loopsPlayed + UInt32.ofNat laps := by
    intro laps
    rw [jumped, UInt32.ofNat_add]
    grind
  rw [skip, Loop.positionAfter_of_isCrossed h, Loop.lapsWithin_of_isCrossed h, hcount]
  rfl

/-- **Skipping a length is covering it**, in a loop that is not counted. -/
theorem transport_coverFrom_of_uncounted (whole clock remaining : ClockTime) (transport : Transport)
    (played : List Stretch) (hmode : transport.loop.mode.isCounted = false) :
    (transport.coverFrom whole clock remaining played).transport = transport.skip remaining := by
  induction transport, clock, remaining, played using coverFrom.induct whole with
  | case1 transport clock remaining played hzero =>
    have hcrossed := transport.loop.not_isCrossed_of_eq_zero transport.position hzero
    rw [coverFrom_of_eq_zero transport whole clock hzero, skip_of_not_isCrossed hcrossed,
      Span.add_eq_left hzero]
  | case2 transport clock remaining played _ reach hcrossed loops hdone =>
    rw [LoopMode.isDoneAfter_of_not_isCounted hmode] at hdone
    contradiction
  | case3 transport clock remaining played _ reach hcrossed lap stretch loops hdone ih =>
    rw [coverFrom_of_isCrossed whole clock hcrossed (Bool.eq_false_iff.2 hdone),
      skip_of_isCrossed hcrossed]
    exact ih hmode
  | case4 transport clock remaining played hpos reach hcrossed =>
    rw [coverFrom_of_not_isCrossed whole clock hpos hcrossed, skip_of_not_isCrossed hcrossed]

/-- **Skipping is advancing the clock**, in a loop that is not counted. -/
theorem transport_process_of_uncounted {transport : Transport}
    (hmode : transport.loop.mode.isCounted = false) (now : ClockTime) :
    (transport.process now).transport = transport.skipTo now := by
  rw [skipTo]
  split
  · next hidle => rw [process_of_idle hidle]
  · next hlive =>
    obtain ⟨hdisposed, hclock⟩ := not_or.1 hlive
    replace hdisposed := Bool.eq_false_iff.2 hdisposed
    replace hclock := Nat.lt_of_not_le hclock
    split
    · next hstate => rw [process_of_stopped hdisposed hclock hstate]
    · next hstate =>
      rw [process_of_started hdisposed hclock hstate]
      dsimp only
      rw [playUpTo]
      split
      · rw [cover, transport_coverFrom_of_uncounted _ _ _ _ _ hmode]
      · rfl

end Transport

namespace Part

variable {γ α : Type} [Generator γ]

theorem play_of_unheard {part : Part γ α} (h : part.audience = none) (stretches : List Stretch) :
    part.play stretches = ([], part.draws) := by
  rw [play, h]

/-- **The laps of an unheard loop need not be counted out.** If the clock advances at all, it does
so as it is described. -/
theorem execute_process (part : Part γ α) (now : ClockTime) :
    part.execute (.process now) =
      if part.transport.overflows now then none else some (part.process now) := by
  rw [execute]
  split
  · rfl
  · split
    · next h =>
      obtain ⟨hunheard, hmode⟩ := h
      have hgoing : (part.transport.process now).finishedAt = none :=
        Transport.finishedAt_process_of_uncounted
          (LoopMode.isDoneAfter_of_not_isCounted hmode) now
      rw [process, play_of_unheard hunheard, Transport.transport_process_of_uncounted hmode, hgoing]
      rfl
    · rfl

theorem eq_perform_of_execute {part : Part γ α} {command : Command α}
    {result : Part γ α × List (PartEvent α)} (h : part.execute command = some result) :
    result = part.perform command := by
  cases command with
  | process now =>
    rw [execute_process] at h
    split at h
    · contradiction
    · exact (Option.some.inj h).symm
  | _ => exact (Option.some.inj h).symm

theorem exists_of_executeAll_cons {part : Part γ α} {command : Command α}
    {commands : List (Command α)} {result : Part γ α × List (PartEvent α)}
    (h : part.executeAll (command :: commands) = some result) :
    ∃ first rest, part.execute command = some first ∧ first.1.executeAll commands = some rest ∧
      result = (rest.1, first.2 ++ rest.2) := by
  obtain ⟨first, hfirst, hrest⟩ := Option.bind_eq_some_iff.1 h
  obtain ⟨rest, hlast, hresult⟩ := Option.bind_eq_some_iff.1 hrest
  exact ⟨first, rest, hfirst, hlast, (Option.some.inj hresult).symm⟩

/-- Whatever comes of a list of commands is what the list is described to do. -/
theorem eq_run_of_executeAll {part : Part γ α} {commands : List (Command α)}
    {result : Part γ α × List (PartEvent α)} (h : part.executeAll commands = some result) :
    result = part.run commands := by
  induction commands generalizing part result with
  | nil => exact (Option.some.inj h).symm
  | cons command commands ih =>
    obtain ⟨first, rest, hfirst, hlast, rfl⟩ := exists_of_executeAll_cons h
    rw [run_cons, ← eq_perform_of_execute hfirst, ← ih hlast]

end Part

end Ostinato
