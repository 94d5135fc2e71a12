import Ostinato.Proofs.Part.Straight
import Ostinato.Proofs.Sequence.Sounds

/-!
# Edits while a sequence plays

Every edit throws away the entries and lays out the whole pattern again, also in the middle of
playing. The position of the transport is not touched by that, so what has been played is not played
again, and what is still to come is taken from the pattern as it stands then.

## Main definitions

* `Sequence.Command.IsOngoing`: the steps of the clock and the edits.
* `Sequence.IsRunning`: a plain sequence that plays straight on.

## Main results

* `Sequence.IsRunning.perform`, `Sequence.IsRunning.run`: a command and a run keep it so, and what
  is heard of a command are the sounds between the positions before and after it.
* `Sequence.IsRunning.count_heard_run`: a sound that is the same in every layout is heard as often
  as it is listed, once it has been passed.
* `Sequence.heard_of_edits`: edits neither lose nor repeat sounds.
-/

namespace Ostinato.Sequence

variable {γ α : Type} [Generator γ]

/-- Whether a command advances the clock, within the times that are exact, or lays out the
pattern. -/
def Command.IsOngoing : Command α → Prop
  | .process now => now.val < 2 ^ 53
  | command => command.laysOut = true

/-- A plain sequence that has been playing straight on from a position since a clock time. -/
structure IsRunning (sequence : Sequence γ α) (name : String) (cleared : Bool)
    (time position : ClockTime) : Prop where
  live : sequence.disposed = false
  layout : sequence.KeepsLayout cleared
  kept : sequence.IsKept name cleared
  plain : sequence.part.IsPlain
  runs : sequence.part.transport.RunsFrom time position
  exact : position.val < 2 ^ 53

/-- The sounds at clock times from one position on and before another, each as long after the start
as its clock time is behind the position of the start. -/
def heardBetween (sounds : List (ClockTime × α)) (time position first last : ClockTime) :
    List (ClockTime × α) :=
  (sounds.filter fun sound => first ≤ sound.1 ∧ sound.1 < last).map
    fun sound => (time + (sound.1 - position), sound.2)

theorem heardBetween_self (sounds : List (ClockTime × α)) (time position here : ClockTime) :
    heardBetween sounds time position here here = [] := by
  rw [heardBetween, List.filter_eq_nil_iff.2 fun sound _ hsound => ?_]
  · rfl
  · obtain ⟨hge, hlt⟩ := of_decide_eq_true hsound
    exact Nat.not_lt_of_le hge hlt

omit [Generator γ] in
theorem mode_window (sequence : Sequence γ α) :
    sequence.window.mode = sequence.part.transport.loop.mode := by
  rw [window]

/-- Laying out another pattern, or the same one from another start, changes no more of the transport
than the window of its loop. -/
theorem exists_relaid_with (sequence : Sequence γ α) (pattern : TrackedPattern α)
    (startOffset : Ticks) :
    ∃ schedule nextEntry loop, loop.mode = sequence.part.transport.loop.mode ∧
      relaid { sequence with pattern, part := { sequence.part with startOffset } } =
        { sequence with
          pattern
          part := { sequence.part with
            schedule, nextEntry, startOffset
            transport := { sequence.part.transport with loop } } } := by
  obtain ⟨schedule, nextEntry, hrelaid, -⟩ := exists_relaid
    { sequence with pattern, part := { sequence.part with startOffset } }
  refine ⟨schedule, nextEntry, _, ?_, hrelaid⟩
  rw [mode_window]

namespace IsRunning

variable {sequence : Sequence γ α} {name : String} {cleared : Bool} {time position : ClockTime}

theorem runs_perform_of_laysOut (h : sequence.IsRunning name cleared time position)
    {command : Command α} (hlays : command.laysOut = true) :
    let next := (sequence.perform command).sequence
    next.disposed = false ∧ next.part.IsPlain ∧ next.part.transport.RunsFrom time position ∧
      next.part.transport.position = sequence.part.transport.position := by
  rcases perform_eq_of_laysOut (fun hlive => (h.layout hlive).1) hlays with
    ⟨pattern, startOffset, event, -, hperform⟩ | ⟨events, error, hperform⟩
  · obtain ⟨schedule, nextEntry, loop, hmode, hrelaid⟩ :=
      sequence.exists_relaid_with pattern startOffset
    rw [hperform]
    dsimp only
    rw [hrelaid]
    obtain ⟨hrate, hprobability, hhumanize, hmute⟩ := h.plain
    obtain ⟨hdisposed, hstate, hstart, hstop, hoff, -, hposition⟩ := h.runs
    exact ⟨h.live, ⟨hrate, hprobability, hhumanize, hmute⟩,
      ⟨hdisposed, hstate, hstart, hstop, hmode.trans hoff, hrate, hposition⟩, rfl⟩
  · rw [hperform]
    exact ⟨h.live, h.plain, h.runs, rfl⟩

/-- What one command does to a sequence that plays straight on. -/
theorem perform (h : sequence.IsRunning name cleared time position) {command : Command α}
    (hcommand : command.IsOngoing) :
    let outcome := sequence.perform command
    let first := sequence.part.transport.position
    let last := outcome.sequence.part.transport.position
    outcome.sequence.IsRunning name (sequence.isClearedBy cleared command) time position ∧
      first ≤ last ∧ (command.laysOut = true → last = first) ∧
      outcome.events.filterMap SequenceEvent.heard? =
        Listener.told { name, hearsSilence := false }
          (heardBetween (sequence.soundsUnless cleared) time position first last) := by
  have hlayout := keepsLayout_perform h.layout command
  have hkept := isKept_perform h.layout (fun _ => h.kept) command
  dsimp only
  cases hlays : command.laysOut with
  | true =>
    obtain ⟨hlive, hplain, hruns, hposition⟩ := h.runs_perform_of_laysOut hlays
    refine ⟨⟨hlive, hlayout, hkept hlive, hplain, hruns, h.exact⟩,
      Nat.le_of_eq (congrArg Span.val hposition.symm), fun _ => hposition, ?_⟩
    rw [heard_perform_of_laysOut _ hlays, hposition, heardBetween_self, Listener.told_nil]
  | false =>
    cases command with
    | process now =>
      have hlimit : now.val < exactLimit := hcommand
      obtain ⟨hruns, hle, -⟩ := h.runs.process (α := α) h.exact hlimit
      have hplain : (sequence.part.process now).1.IsPlain :=
        ⟨hruns.rate, h.plain.probability, h.plain.humanize, h.plain.mute⟩
      have hheard := h.plain.heard_of_runsFrom h.kept.listener rfl h.runs h.exact hcommand
      refine ⟨⟨h.live, hlayout, hkept h.live, hplain, hruns, h.exact⟩, hle, nofun, ?_⟩
      rw [Sequence.perform, heard_process, hheard, sounds_schedule h.live h.layout h.kept]
      rfl
    | _ => exact absurd (hlays.symm.trans hcommand) Bool.false_ne_true

/-- What a run does to a sequence that plays straight on. -/
theorem run (h : sequence.IsRunning name cleared time position) {commands : List (Command α)}
    (hcommands : ∀ command ∈ commands, command.IsOngoing) :
    (sequence.run commands).1.IsRunning name (sequence.isCleared cleared commands) time position ∧
      sequence.part.transport.position ≤ (sequence.run commands).1.part.transport.position := by
  induction commands generalizing sequence cleared with
  | nil => exact ⟨h, Nat.le_refl _⟩
  | cons command commands ih =>
    obtain ⟨hnext, hle, -⟩ := h.perform (hcommands command List.mem_cons_self)
    obtain ⟨hlast, hle'⟩ :=
      ih hnext fun other hother => hcommands other (List.mem_cons_of_mem _ hother)
    exact ⟨hlast, Nat.le_trans hle hle'⟩

omit [Generator γ] in
theorem room (h : sequence.IsRunning name cleared time position) :
    position ≤ sequence.part.transport.position ∧
      time.val + (sequence.part.transport.position.val - position.val) ≤ maxCount := by
  have hposition := h.runs.position
  have htime := time.val_le
  have hclock := sequence.part.transport.clock.val_le
  rw [Span.le_def]
  omega

end IsRunning

/-! ### Counting what is heard -/

/-- Among what is heard between two positions, a sound is found as often as it is listed if it lies
between them, and else not at all. -/
theorem count_told_heardBetween [DecidableEq α] (listener : Listener)
    (sounds : List (ClockTime × α)) {time position first last : ClockTime}
    (hfirst : position ≤ first) (hroom : time.val + (last.val - position.val) ≤ maxCount)
    {clock : ClockTime} (hclock : position ≤ clock) (sound : α) :
    (listener.told (heardBetween sounds time position first last)).count
        ⟨listener, time + (clock - position), .sound sound⟩ =
      if first ≤ clock ∧ clock < last then sounds.count (clock, sound) else 0 := by
  -- within the range, the clock time at which a sound is heard tells its position
  have hheard : ∀ other : ClockTime × α, first ≤ other.1 → other.1 < last →
      (time + (other.1 - position) = time + (clock - position) ↔ other.1 = clock) := by
    intro other hge hlt
    rw [Span.ext_iff, Span.ext_iff]
    rw [Span.le_def] at hfirst hclock hge
    rw [Span.lt_def] at hlt
    simp only [Span.val_add, Span.val_sub]
    omega
  rw [Listener.told, heardBetween, List.map_map, List.count, List.countP_map, List.countP_filter]
  by_cases hin : first ≤ clock ∧ clock < last
  · rw [if_pos hin, List.count]
    refine List.countP_congr ?_
    rintro ⟨time', other⟩ _
    simp only [Function.comp_apply, Bool.and_eq_true, decide_eq_true_eq, beq_iff_eq,
      Call.mk.injEq, Step.sound.injEq, true_and, Prod.mk.injEq]
    constructor
    · rintro ⟨⟨htime, rfl⟩, hge, hlt⟩
      exact ⟨(hheard (time', other) hge hlt).1 htime, rfl⟩
    · rintro ⟨rfl, rfl⟩
      exact ⟨⟨rfl, rfl⟩, hin⟩
  · rw [if_neg hin, List.countP_eq_zero]
    rintro ⟨time', other⟩ _ hother
    simp only [Function.comp_apply, Bool.and_eq_true, decide_eq_true_eq, beq_iff_eq,
      Call.mk.injEq, true_and] at hother
    obtain ⟨⟨htime, -⟩, hge, hlt⟩ := hother
    have hsame : time' = clock := (hheard (time', other) hge hlt).1 htime
    exact hin (hsame ▸ ⟨hge, hlt⟩)

/-- A sound that is listed as often in every layout along a run is heard as often on the whole, if
it lies between the first position and the last, and else not at all. -/
theorem IsRunning.count_heard_run [DecidableEq α] {sequence : Sequence γ α} {name : String}
    {cleared : Bool} {time position : ClockTime}
    (h : sequence.IsRunning name cleared time position) {commands : List (Command α)}
    (hcommands : ∀ command ∈ commands, command.IsOngoing) {clock : ClockTime}
    (hclock : position ≤ clock) (sound : α) {times : Nat}
    (hsame : ∀ past, past <+: commands →
      ((sequence.run past).1.soundsUnless (sequence.isCleared cleared past)).count (clock, sound) =
        times) :
    ((sequence.run commands).2.filterMap SequenceEvent.heard?).count
        ⟨{ name, hearsSilence := false }, time + (clock - position), .sound sound⟩ =
      if sequence.part.transport.position ≤ clock ∧
        clock < (sequence.run commands).1.part.transport.position then times else 0 := by
  induction commands generalizing sequence cleared with
  | nil =>
    rw [run_nil, if_neg fun hin => Nat.not_lt_of_le hin.1 hin.2]
    rfl
  | cons command commands ih =>
    have hcommand := hcommands command List.mem_cons_self
    have hrest : ∀ other ∈ commands, other.IsOngoing :=
      fun other hother => hcommands other (List.mem_cons_of_mem _ hother)
    obtain ⟨hnext, hle, -, hheard⟩ := h.perform hcommand
    have hle' := (hnext.run hrest).2
    have hlater := ih hnext hrest fun past hpast =>
      hsame (command :: past) ((List.prefix_cons_inj command).2 hpast)
    have hhere : (sequence.soundsUnless cleared).count (clock, sound) = times :=
      hsame [] List.nil_prefix
    rw [run_cons, List.filterMap_append, List.count_append, hheard, hlater,
      count_told_heardBetween _ _ h.room.1 hnext.room.2 hclock, hhere]
    -- the position between the two parts of the run lies between the first one and the last
    rw [Span.le_def] at hle hle'
    simp only [Span.le_def, Span.lt_def]
    split_ifs <;> omega

/-! ### A live sequence -/

/-- A plain sequence that is started without a loop plays straight on. -/
theorem isRunning_start {sequence : Sequence γ α} {name : String} {cleared : Bool}
    (hlive : sequence.IsLive) (hlayout : sequence.KeepsLayout cleared)
    (hkept : sequence.IsKept name cleared) (hplain : sequence.part.IsPlain)
    (hmode : sequence.part.transport.loop.mode = .off) (time : Option ClockTime)
    (index : Option Nat) :
    let begun := (sequence.perform (.start time index)).sequence
    begun.part.transport.position.val < 2 ^ 53 →
      begun.IsRunning name (sequence.isClearedBy cleared (.start time index))
        begun.part.transport.startTime begun.part.transport.position := by
  intro begun hexact
  have hbegun : begun = (sequence.onPart
      (sequence.part.start time (index.map sequence.grid.time))).sequence := by
    simp only [begun, perform, start, ifLive_of_not_disposed hlive.1]
  have hruns : begun.part.transport.RunsFrom begun.part.transport.startTime
      begun.part.transport.position := by
    rw [hbegun]
    exact Transport.RunsFrom.start hlive.2 hmode hplain.rate _ _
  have hlive' : begun.disposed = false := by
    rw [hbegun]
    exact hlive.1
  have hplain' : begun.part.IsPlain := by
    refine ⟨hruns.rate, ?_, ?_, ?_⟩
    · rw [hbegun]
      exact hplain.probability
    · rw [hbegun]
      exact hplain.humanize
    · rw [hbegun]
      exact hplain.mute
  exact ⟨hlive', keepsLayout_perform hlayout _, isKept_perform hlayout (fun _ => hkept) _ hlive',
    hplain', hruns, hexact⟩

/-- **Edits neither lose nor repeat sounds.** Let a plain sequence without a loop be started, in any
state that it comes to while it is live. However the clock is advanced from then on, and whatever
edits are made in between, accepted or refused, a step of the clock is heard as the sounds of the
pattern as it stands then, at the clock times from the position before the step on and before the
position after it. The positions do not go back, and an edit does not move them. So a sound that is
listed as often in every layout along a run, and that lies between the first position and the last,
is heard as often on the whole. -/
theorem heard_of_edits [DecidableEq α] {part : Part γ α} {listener : String} {pattern : Slots α}
    {settings : SequenceSettings} {meter : Meter} {made : Sequence γ α}
    (hmade : (create part listener pattern settings meter).1 = .ok made)
    (before : List (Command α)) (time : Option ClockTime) (index : Option Nat) :
    let ready := (made.run before).1
    let start := before ++ [.start time index]
    let begun := (made.run start).1
    let t := begun.part.transport.startTime
    let p := begun.part.transport.position
    ready.IsLive → ready.part.IsPlain → ready.part.transport.loop.mode = .off → p.val < 2 ^ 53 →
      (∀ (past : List (Command α)) (command : Command α),
        (∀ other ∈ past ++ [command], other.IsOngoing) →
          let here := (begun.run past).1
          let outcome := here.perform command
          let first := here.part.transport.position
          let last := outcome.sequence.part.transport.position
          first ≤ last ∧ (command.laysOut = true → last = first) ∧
            outcome.events.filterMap SequenceEvent.heard? =
              Listener.told { name := listener, hearsSilence := false }
                (heardBetween (here.soundsUnless (made.isCleared false (start ++ past)))
                  t p first last)) ∧
      ∀ commands : List (Command α), (∀ command ∈ commands, command.IsOngoing) →
        ∀ (clock : ClockTime) (sound : α) (times : Nat),
          p ≤ clock → clock < (begun.run commands).1.part.transport.position →
          (∀ past, past <+: commands →
            ((begun.run past).1.soundsUnless (made.isCleared false (start ++ past))).count
              (clock, sound) = times) →
          ((begun.run commands).2.filterMap SequenceEvent.heard?).count
            ⟨{ name := listener, hearsSilence := false }, t + (clock - p), .sound sound⟩ =
              times := by
  intro ready start begun t p hlive hplain hmode hexact
  have hlayout := keepsLayout_run (keepsLayout_of_create hmade) before
  have hkept := isKept_run (keepsLayout_of_create hmade) (fun _ => isKept_of_create hmade) before
    hlive.1
  have hbegun : begun = (ready.perform (.start time index)).sequence := by
    simp only [begun, start, run_append, run_cons, run_nil, ready]
  have hcleared : ∀ past, made.isCleared false (start ++ past) =
      begun.isCleared (made.isCleared false start) past :=
    fun past => isCleared_append made false start past
  have hrunning : begun.IsRunning listener (made.isCleared false start) t p := by
    have hstarted := isRunning_start hlive hlayout hkept hplain hmode time index
    dsimp only at hstarted
    rw [← hbegun] at hstarted
    rw [isCleared_append]
    exact hstarted hexact
  refine ⟨?_, ?_⟩
  · intro past command hcommands
    obtain ⟨hhere, -⟩ := hrunning.run fun other hother =>
      hcommands other (List.mem_append_left _ hother)
    obtain ⟨-, hle, hedit, hheard⟩ := hhere.perform
      (hcommands command (List.mem_append_right _ List.mem_cons_self))
    rw [hcleared]
    exact ⟨hle, hedit, hheard⟩
  · intro commands hcommands clock sound times hge hlt hsame
    rw [hrunning.count_heard_run hcommands hge sound fun past hpast => by
      rw [← hcleared, hsame past hpast], if_pos ⟨hge, hlt⟩]

/-- A step of the clock ends at the very time of a sound, and the pattern is edited there: what was
heard before is not heard again, what is written in later is, and the sound at `750` milliseconds,
which no edit touches, is heard once. -/
theorem heard_of_edits_at_sound :
    let result := (create (γ := SplitMix) (α := Char) { draws := ⟨7⟩ } "bass"
      [.sound 'a', .group [.sound 'b', .sound 'c'], .silence, .sound 'd'] { loop := .off } {}).1
    let commands : List (Command Char) := [.process 375000000, .setAt [0] (.sound 'x'),
      .setAt [2] (.sound 'y'), .removeAt [4], .process 375000001, .process 800000000]
    let sound : Call Char := ⟨{ name := "bass", hearsSilence := false }, 750000000, .sound 'd'⟩
    ∃ made, result = .ok made ∧
      let begun := (made.run [.start none none]).1
      (((begun.run commands).2.filterMap SequenceEvent.heard?).map fun call =>
          (call.time.val, call.step)) =
        [(0, .sound 'a'), (250000000, .sound 'b'), (375000000, .sound 'c'),
          (500000000, .sound 'y'), (750000000, .sound 'd')] ∧
      ((begun.run commands).2.filterMap SequenceEvent.heard?).count sound = 1 := by
  intro result commands sound
  have hcommands : ∀ command ∈ commands, command.IsOngoing := by
    simp only [commands, List.forall_mem_cons, Command.IsOngoing, Command.laysOut]
    exact ⟨by decide, trivial, trivial, trivial, by decide, by decide, List.forall_mem_nil _⟩
  have hfacts : result.toOption.any fun made =>
      let begun := (made.run [.start none none]).1
      (made.IsLive ∧ made.part.transport.rate = .one ∧ made.part.probability = .one ∧
        made.part.humanize = .off ∧ made.part.mute = false ∧
        made.part.transport.loop.mode = .off ∧ begun.part.transport.position.val < 2 ^ 53) ∧
      (begun.part.transport.position ≤ 750000000 ∧
        (750000000 : ClockTime) < (begun.run commands).1.part.transport.position ∧
        begun.part.transport.startTime + (750000000 - begun.part.transport.position) =
          750000000 ∧
        ∀ past ∈ commands.inits, ((begun.run past).1.soundsUnless (made.isCleared false
          ([.start none none] ++ past))).count (750000000, 'd') = 1) ∧
      (((begun.run commands).2.filterMap SequenceEvent.heard?).map fun call =>
          (call.time.val, call.step)) =
        [(0, .sound 'a'), (250000000, .sound 'b'), (375000000, .sound 'c'),
          (500000000, .sound 'y'), (750000000, .sound 'd')] := by decide +kernel
  cases hmade : result with
  | error e =>
    rw [hmade] at hfacts
    contradiction
  | ok made =>
    rw [hmade] at hfacts
    obtain ⟨⟨hlive, hrate, hprobability, hhumanize, hmute, hmode, hexact⟩,
      ⟨hge, hlt, htime, hsame⟩, hheard⟩ := of_decide_eq_true hfacts
    obtain ⟨-, hcount⟩ := heard_of_edits hmade [] none none hlive
      ⟨hrate, hprobability, hhumanize, hmute⟩ hmode hexact
    have honce := hcount commands hcommands 750000000 'd' 1 hge hlt fun past hpast =>
      hsame past ((List.mem_inits past commands).2 hpast)
    rw [List.nil_append, htime] at honce
    exact ⟨made, rfl, hheard, honce⟩

end Ostinato.Sequence
