import Ostinato.Proofs.Part.Soundings

/-!
# What is heard

A listener that does not hear silence is told of the sounds among the entries that come up. For a
plain part, which plays at rate one, lets every entry sound at its own time and is not mute, these
are all the sounds on the stretches that are played.

## Main definitions

* `audible`: the sounds among timed steps.
* `Schedule.sounds`: the sounds of a schedule.
* `Listener.told`: the calls that tell a listener of sounds.
* `Part.IsPlain`: parts that play their schedule as it stands.

## Main results

* `Part.IsPlain.heard_process`: what is heard while the clock advances.
-/

namespace Ostinato

variable {γ α : Type} [Generator γ]

/-! ### Sounds -/

/-- The sounds among timed steps, each with its clock time. -/
def audible (steps : List (ClockTime × Step α)) : List (ClockTime × α) :=
  steps.filterMap fun step => step.2.payload?.map fun sound => (step.1, sound)

theorem audible_flatMap {β : Type} (f : β → List (ClockTime × Step α)) (l : List β) :
    audible (l.flatMap f) = l.flatMap fun b => audible (f b) :=
  List.filterMap_flatMap

theorem audible_cons (time : ClockTime) (step : Step α) (steps : List (ClockTime × Step α)) :
    audible ((time, step) :: steps) =
      (step.payload?.map fun sound => (time, sound)).toList ++ audible steps := by
  cases step <;> rfl

theorem audible_filter (p : ClockTime → Bool) (steps : List (ClockTime × Step α)) :
    audible (steps.filter fun step => p step.1) =
      (audible steps).filter fun sound => p sound.1 := by
  induction steps with
  | nil => rfl
  | cons head steps ih =>
    obtain ⟨time, step⟩ := head
    cases hp : p time <;> cases step <;> simp [hp, ih, audible_cons, Step.payload?]

theorem audible_map (f : ClockTime → ClockTime) (steps : List (ClockTime × Step α)) :
    audible (steps.map fun step => (f step.1, step.2)) =
      (audible steps).map fun sound => (f sound.1, sound.2) := by
  induction steps with
  | nil => rfl
  | cons head steps ih =>
    obtain ⟨time, step⟩ := head
    cases step <;> simp [ih, audible_cons, Step.payload?]

/-- The sounds of a schedule, each with the time of its entry. -/
def Schedule.sounds (schedule : Schedule α) : List (ClockTime × α) :=
  audible (schedule.entries.map fun entry => (entry.time, entry.step))

/-- Entries that are chosen by their times and come up at other times. -/
theorem Schedule.audible_filter_map (schedule : Schedule α) (p : ClockTime → Bool)
    (f : ClockTime → ClockTime) :
    audible ((schedule.entries.filter fun entry => p entry.time).map
        fun entry => (f entry.time, entry.step)) =
      (schedule.sounds.filter fun sound => p sound.1).map fun sound => (f sound.1, sound.2) := by
  rw [sounds, ← audible_filter, ← audible_map, List.filter_map, List.map_map]
  rfl

/-- The calls that tell a listener of sounds. -/
def Listener.told (listener : Listener) (sounds : List (ClockTime × α)) : List (Call α) :=
  sounds.map fun sound => ⟨listener, sound.1, .sound sound.2⟩

@[simp] theorem Listener.told_nil (listener : Listener) :
    listener.told ([] : List (ClockTime × α)) = [] := rfl

/-- A listener that does not hear silence is told of the sounds among the steps that come up. -/
theorem Listener.filterMap_heard? {listener : Listener} (h : listener.hearsSilence = false)
    (soundings : List (ClockTime × Entry α)) :
    (soundings.map fun s => PartEvent.fired s.2.id ⟨listener, s.1, s.2.step⟩).filterMap
        PartEvent.heard? =
      listener.told (audible (soundings.map fun s => (s.1, s.2.step))) := by
  induction soundings with
  | nil => rfl
  | cons head soundings ih =>
    obtain ⟨time, id, other, step⟩ := head
    cases step <;>
      simp [ih, audible_cons, PartEvent.heard?, h, Step.isSilent, Step.payload?, told]

/-! ### Plain parts -/

namespace Part

/-- Whether a part plays its schedule as it stands: at rate one, without random draws, and not
mute. -/
structure IsPlain (part : Part γ α) : Prop where
  rate : part.transport.rate = .one
  probability : part.probability = .one
  humanize : part.humanize = .off
  mute : part.mute = false

/-- What is heard while the clock advances: the sounds on the stretches that are played. -/
theorem IsPlain.heard_process {part : Part γ α} (h : part.IsPlain) {listener : Listener}
    (hlistener : part.listener = some listener) (hsounds : listener.hearsSilence = false)
    (now : ClockTime) :
    (part.process now).2.filterMap PartEvent.heard? =
      listener.told (audible
        ((part.schedule.soundings .one (part.transport.process now).stretches).map
          fun s => (s.1, s.2.step))) := by
  have haudience : part.audience = some listener := by rw [audience, h.mute, hlistener]; rfl
  have hplay : part.play (part.transport.process now).stretches =
      ((part.schedule.soundings .one (part.transport.process now).stretches).map
        fun s => .fired s.2.id ⟨listener, s.1, s.2.step⟩, part.draws) := by
    rw [play_eq_voice, haudience, h.rate]
    exact IsExact.voice_eq_map ⟨h.probability, h.humanize⟩ listener part.draws _
  have hquiet : ((part.transport.process now).finishedAt.map (PartEvent.finished (α := α)
      (part.transport.process now).transport.loopsPlayed)).toList.filterMap PartEvent.heard? =
      [] := by
    cases (part.transport.process now).finishedAt <;> rfl
  rw [process, hplay]
  dsimp only
  rw [List.filterMap_append, hquiet, List.append_nil, Listener.filterMap_heard? hsounds]

end Part

end Ostinato
