import Ostinato.Proofs.Part.Delivery
import Ostinato.Proofs.Part.Granularity
import Ostinato.Proofs.Part.Independence
import Ostinato.Sequence.Command

/-!
# The end of a part and of a sequence

A part that is disposed takes commands as before: entries, a listener, a loop, a rate. But its
transport has ended, and an ended transport changes in its loop and its rate only. A sequence that
is disposed does not change any more at all.

## Main definitions

* `Transport.HasEnded`: a transport that is disposed, and has no stop ahead of it.
* `Sequence.HasEnded`: a sequence that is disposed, with nothing left in it.
* `Sequence.Command.canFail`: the commands that a sequence may refuse.

## Main results

* `Transport.HasEnded.exists_run`: what is left to do to an ended transport.
* `Part.handed_run_of_hasEnded`: a part whose transport has ended hands nothing over.
* `Sequence.HasEnded.perform_eq`: what comes of a command once a sequence has ended.
* `Sequence.run_after_dispose`: parts and sequences after they are disposed.
-/

namespace Ostinato

variable {γ α : Type} [Generator γ]

/-! ### Ended transports -/

namespace Transport

/-- Whether a transport has ended: it is disposed, it does not play, and no stop is scheduled. -/
structure HasEnded (transport : Transport) : Prop where
  disposed : transport.disposed = true
  stopped : transport.state = .stopped
  unscheduled : transport.stopTime = none

theorem hasEnded_dispose (transport : Transport) : transport.dispose.HasEnded :=
  ⟨rfl, rfl, rfl⟩

namespace HasEnded

variable {transport : Transport}

theorem start_eq (h : transport.HasEnded) (time position : Option ClockTime) :
    transport.start time position = transport :=
  if_pos h.disposed

theorem stopTimeFor?_eq (h : transport.HasEnded) (time : Option ClockTime) :
    transport.stopTimeFor? time = none := by
  rw [stopTimeFor?, h.stopped]

theorem stop_eq (h : transport.HasEnded) (time : Option ClockTime) :
    transport.stop time = transport := by
  rw [stop, h.stopTimeFor?_eq]

theorem dispose_eq (h : transport.HasEnded) : transport.dispose = transport := by
  cases transport
  cases h.disposed
  cases h.stopped
  cases h.unscheduled
  rfl

theorem exists_perform (h : transport.HasEnded) (control : Control) :
    ∃ loop rate, transport.perform control = { transport with loop, rate } := by
  cases control with
  | start time position => exact ⟨_, _, h.start_eq time position⟩
  | stop time => exact ⟨_, _, h.stop_eq time⟩
  | setLoopMode | setLoopStart | setLoopFinish => exact ⟨_, _, rfl⟩
  | setRate rate =>
    rw [perform, setRate]
    split
    · exact ⟨_, _, rfl⟩
    · exact ⟨_, _, rfl⟩
  | process now => exact ⟨_, _, congrArg Passage.transport (process_of_idle (.inl h.disposed))⟩
  | dispose => exact ⟨_, _, h.dispose_eq⟩

theorem perform (h : transport.HasEnded) (control : Control) :
    (transport.perform control).HasEnded := by
  obtain ⟨loop, rate, heq⟩ := h.exists_perform control
  rw [heq]
  exact ⟨h.disposed, h.stopped, h.unscheduled⟩

/-- Whatever is done to an ended transport, it stays where it is, and its clock stands still. -/
theorem exists_run (h : transport.HasEnded) (controls : List Control) :
    ∃ loop rate, transport.run controls = { transport with loop, rate } := by
  induction controls generalizing transport with
  | nil => exact ⟨_, _, rfl⟩
  | cons control controls ih =>
    obtain ⟨loop, rate, heq⟩ := h.exists_perform control
    obtain ⟨loop', rate', hrun⟩ := ih (h.perform control)
    refine ⟨loop', rate', ?_⟩
    rw [run, List.foldl_cons, ← run, hrun, heq]

end HasEnded

end Transport

/-! ### Parts with an ended transport -/

namespace Part

variable {part : Part γ α}

omit [Generator γ] in
theorem stop_of_hasEnded (h : part.transport.HasEnded) (time : Option ClockTime) :
    part.stop time = (part, []) := by
  rw [stop, h.stop_eq, h.stopTimeFor?_eq]
  rfl

omit [Generator γ] in
theorem dispose_of_hasEnded (h : part.transport.HasEnded) (hschedule : part.schedule = .empty)
    (hlistener : part.listener = none) : part.dispose = (part, []) := by
  rw [dispose, h.dispose_eq, if_pos h.disposed, ← hschedule, ← hlistener]

theorem handed_perform_of_hasEnded (h : part.transport.HasEnded) (command : Command α) :
    (part.perform command).2.filterMap PartEvent.handed? = [] := by
  cases command with
  | start time position =>
    rw [perform, start, h.disposed]
    rfl
  | stop time =>
    rw [perform, part.stop_of_hasEnded h]
    rfl
  | setRate rate =>
    rw [perform, setRate]
    split <;> rfl
  | process now =>
    rw [perform, process_of_idle (.inl h.disposed)]
    rfl
  | dispose =>
    rw [perform, dispose, h.disposed]
    rfl
  | _ => rfl

theorem hasEnded_perform (h : part.transport.HasEnded) (command : Command α) :
    (part.perform command).1.transport.HasEnded := by
  rw [transport_perform]
  cases command.control? with
  | none => exact h
  | some control => exact h.perform control

/-- A part with an ended transport hands nothing over, whatever is done to it. -/
theorem handed_run_of_hasEnded (h : part.transport.HasEnded) (commands : List (Command α)) :
    (part.run commands).2.filterMap PartEvent.handed? = [] := by
  induction commands generalizing part with
  | nil => rfl
  | cons command commands ih =>
    rw [run_cons, List.filterMap_append, handed_perform_of_hasEnded h,
      ih (hasEnded_perform h command), List.append_nil]

end Part

/-! ### Ended sequences -/

namespace Sequence

/-- The commands that a sequence may refuse. -/
def Command.canFail : Command α → Bool
  | .stop _ | .clear | .dispose | .process _ => false
  | _ => true

theorem error_perform_of_not_canFail (sequence : Sequence γ α) {command : Command α}
    (h : command.canFail = false) : (sequence.perform command).error = none := by
  cases command with
  | stop | clear | dispose | process => rfl
  | _ => exact Bool.noConfusion h

/-- Whether a sequence has ended: it is disposed, and there is nothing left in it. -/
structure HasEnded (sequence : Sequence γ α) : Prop where
  disposed : sequence.disposed = true
  transport : sequence.part.transport.HasEnded
  schedule : sequence.part.schedule = .empty
  listener : sequence.part.listener = none
  pattern : sequence.pattern = { root := [] }

omit [Generator γ] in
theorem hasEnded_dispose (sequence : Sequence γ α) : sequence.dispose.sequence.HasEnded where
  disposed := rfl
  transport := sequence.part.transport.hasEnded_dispose
  schedule := rfl
  listener := rfl
  pattern := rfl

namespace HasEnded

variable {sequence : Sequence γ α}

omit [Generator γ] in
theorem ifLive_eq (h : sequence.HasEnded) (outcome : Outcome γ α) :
    sequence.ifLive outcome = { sequence, error := some .disposed } :=
  if_pos h.disposed

omit [Generator γ] in
theorem clear_eq (h : sequence.HasEnded) : sequence.clear = { sequence } := by
  rw [clear, Part.clear, ← h.schedule]
  rfl

omit [Generator γ] in
theorem dispose_eq (h : sequence.HasEnded) : sequence.dispose = { sequence } := by
  rw [dispose, Part.dispose_of_hasEnded h.transport h.schedule h.listener, if_pos h.disposed,
    ← h.pattern, ← h.disposed]
  rfl

/-- **An ended sequence does not change.** Commands that can fail are refused, because the sequence
is disposed; the others do nothing. -/
theorem perform_eq (h : sequence.HasEnded) (command : Command α) :
    sequence.perform command =
      { sequence, error := if command.canFail then some .disposed else none } := by
  cases command with
  | stop time =>
    rw [perform, stop, Part.stop_of_hasEnded h.transport]
    rfl
  | process now =>
    rw [perform, process, Part.process_of_idle (.inl h.transport.disposed)]
    rfl
  | clear => exact h.clear_eq
  | dispose => exact h.dispose_eq
  | _ => exact h.ifLive_eq _

theorem run_eq (h : sequence.HasEnded) (commands : List (Command α)) :
    sequence.run commands = (sequence, []) := by
  induction commands with
  | nil => rfl
  | cons command commands ih => rw [run_cons, h.perform_eq, ih, List.append_nil]

end HasEnded

/-- **Disposal is final.** Whatever is done to a part after it is disposed, no entry is handed to a
listener, the part stays stopped, and its clock and its position stay where they were. Whatever is
done to a sequence after it is disposed, it does not change and makes nothing known: its pattern is
empty, of revision zero, and it has no entries. A command that some sequence refuses is refused here
because the sequence is disposed. -/
theorem run_after_dispose :
    (∀ (part : Part γ α) (commands : List (Part.Command α)),
      let ended := part.dispose.1
      let last := (ended.run commands).1
      (ended.run commands).2.filterMap PartEvent.handed? = [] ∧
        last.transport.state = .stopped ∧ last.transport.clock = part.transport.clock ∧
        last.transport.position = part.transport.position) ∧
    ∀ (sequence : Sequence γ α) (commands : List (Command α)),
      let ended := sequence.dispose.sequence
      ended.run commands = (ended, []) ∧
        ended.pattern.root = [] ∧ ended.pattern.revision = 0 ∧ ended.part.schedule.size = 0 ∧
        ∀ command : Command α,
          (ended.perform command).sequence = ended ∧ (ended.perform command).events = [] ∧
          ((∃ other : Sequence γ α, (other.perform command).error ≠ none) →
            (ended.perform command).error = some .disposed) := by
  constructor
  · intro part commands ended last
    have hended : ended.transport.HasEnded := part.transport.hasEnded_dispose
    obtain ⟨loop, rate, hrun⟩ := hended.exists_run (commands.filterMap Part.Command.control?)
    have hlast : last.transport = { part.transport.dispose with loop, rate } :=
      (ended.transport_run commands).trans hrun
    refine ⟨Part.handed_run_of_hasEnded hended commands, ?_⟩
    rw [hlast]
    exact ⟨rfl, rfl, rfl⟩
  · intro sequence commands ended
    have hended : ended.HasEnded := sequence.hasEnded_dispose
    refine ⟨hended.run_eq commands, rfl, rfl, rfl, fun command => ?_⟩
    rw [hended.perform_eq]
    refine ⟨rfl, rfl, fun ⟨other, hother⟩ => ?_⟩
    cases hcommand : command.canFail with
    | true => rfl
    | false => exact absurd (other.error_perform_of_not_canFail hcommand) hother

/-- A part that is disposed while it plays, and then given a listener and an entry, and started. The
sequence over it refuses a rate of zero for its own sake before it is disposed, and then because it
is disposed. -/
theorem run_after_dispose_reused :
    let part := (({ draws := ⟨7⟩, listener := some { name := "bell" } } : Part SplitMix Char).run
      [.add 10 (.sound 'a'), .start none none, .process 30]).1
    let last := (part.dispose.1.run
      [.listen { name := "gong" }, .add 40 (.sound 'b'), .start none (some 35), .process 100]).1
    let sequence : Sequence SplitMix Char :=
      { part, meter := {}, subdivision := 240, pattern := { root := [.sound 'a'] }
        loopStart := 0, loopEnd := 0 }
    let ended := sequence.dispose.sequence
    part.transport.state = .started ∧
      last.transport.state = .stopped ∧ last.transport.clock = 30 ∧ last.transport.position = 30 ∧
      last.schedule.size = 1 ∧
      (sequence.perform (.setRate .zero)).error = some (.invalidRate .zero) ∧
      (ended.perform (.setRate .zero)).error = some .disposed ∧
      ended.run [.setAt [0] .silence, .clear, .dispose, .process 200] = (ended, []) := by
  intro part last sequence ended
  obtain ⟨hpart, hsequence⟩ := @run_after_dispose SplitMix Char _
  have hstarted : part.transport.state = .started ∧ part.transport.clock = 30 ∧
      part.transport.position = 30 ∧ last.schedule.size = 1 := by decide +kernel
  obtain ⟨-, hstopped, hclock, hposition⟩ := hpart part
    [.listen { name := "gong" }, .add 40 (.sound 'b'), .start none (some 35), .process 100]
  obtain ⟨hrun, -, -, -, hperform⟩ := hsequence sequence
    [.setAt [0] .silence, .clear, .dispose, .process 200]
  have hrefused : (sequence.perform (.setRate .zero)).error = some (.invalidRate .zero) := by
    decide +kernel
  have hfails : ∃ other : Sequence SplitMix Char, (other.perform (.setRate .zero)).error ≠ none :=
    ⟨sequence, hrefused ▸ Option.some_ne_none _⟩
  exact ⟨hstarted.1, hstopped, hclock.trans hstarted.2.1, hposition.trans hstarted.2.2.1,
    hstarted.2.2.2, hrefused, (hperform (.setRate .zero)).2.2 hfails, hrun⟩

end Sequence

end Ostinato
