import Mathlib.Data.List.Forall2
import Ostinato.Proofs.Part.Numbering
import Ostinato.Proofs.Pattern.Silencing

/-!
# Silencing entries

A silent entry takes part in everything that a sound does: it comes up, it is left out or moved by
the same draws, and it is dropped only when the listener is told. So if some entries of a schedule
are made silent, the listener is told of the others as before.

## Main definitions

* `PartEvent.heardUnless`: what the listener is told, but for the calls of silent entries.
* `Entry.IsSilenced`, `Schedule.IsSilenced`: entries of which some are made silent, under any
  numbers.

## Main results

* `Part.voice_silenced`: silent entries take the same draws.
* `Part.process_silenced`: the clock of a part of which some entries are made silent.
-/

namespace Ostinato

variable {γ α : Type} [Generator γ]

/-- The calls that the listener is told, without those that come from silent entries. -/
def PartEvent.heardUnless (silent : Nat → Bool) (events : List (PartEvent α)) : List (Call α) :=
  ((events.filterMap told?).filter (!silent ·.1)).map Prod.snd

/-- A step that is made silent is heard if the step is heard and its entry is not silent. -/
theorem PartEvent.heard?_fired_silencedIf {listener : Listener}
    (hsounds : listener.hearsSilence = false) (silent : Nat → Bool) (entry other : Nat)
    (time : ClockTime) (step : Step α) :
    (fired other ⟨listener, time, step.silencedIf (silent entry)⟩).heard?.toList =
      heardUnless silent [fired entry ⟨listener, time, step⟩] := by
  cases hsilent : silent entry <;> cases step <;>
    simp [heardUnless, told?, heard?, hsounds, hsilent, Step.silencedIf, Step.isSilent]

theorem PartEvent.heardUnless_append (silent : Nat → Bool) (before after : List (PartEvent α)) :
    heardUnless silent (before ++ after) =
      heardUnless silent before ++ heardUnless silent after := by
  rw [heardUnless, List.filterMap_append, List.filter_append, List.map_append, heardUnless,
    heardUnless]

theorem PartEvent.heardUnless_cons (silent : Nat → Bool) (event : PartEvent α)
    (events : List (PartEvent α)) :
    heardUnless silent (event :: events) =
      heardUnless silent [event] ++ heardUnless silent events :=
  heardUnless_append silent [event] events

theorem PartEvent.filterMap_heard?_cons (event : PartEvent α) (events : List (PartEvent α)) :
    (event :: events).filterMap heard? = event.heard?.toList ++ events.filterMap heard? := by
  rw [List.filterMap_cons]
  cases event.heard? <;> rfl

/-! ### Schedules of which some entries are silent -/

/-- Whether an entry is the same as another under any number, except that it is silent if the number
of the other says so. -/
def Entry.IsSilenced (silent : Nat → Bool) (entry other : Entry α) : Prop :=
  other.time = entry.time ∧ other.step = entry.step.silencedIf (silent entry.id)

/-- Whether a schedule has the entries of another, some of them made silent. -/
def Schedule.IsSilenced (silent : Nat → Bool) (schedule other : Schedule α) : Prop :=
  schedule.entries.Forall₂ (Entry.IsSilenced silent) other.entries

/-- Whether a sounding is the same as another, except that it is silent if the number of the other's
entry says so. -/
def SoundsSilenced (silent : Nat → Bool) (sounding other : ClockTime × Entry α) : Prop :=
  other.1 = sounding.1 ∧ sounding.2.IsSilenced silent other.2

namespace Schedule

theorem IsSilenced.between {silent : Nat → Bool} {schedule other : Schedule α}
    (h : schedule.IsSilenced silent other) (start finish : ClockTime) :
    (schedule.between start finish).Forall₂ (Entry.IsSilenced silent)
      (other.between start finish) := by
  rw [between_eq_filter, between_eq_filter]
  refine List.rel_filter ?_ h
  intro entry entry' hentry
  dsimp only
  rw [hentry.1]

/-- The entries come up at the same clock times. -/
theorem IsSilenced.soundings {silent : Nat → Bool} {schedule other : Schedule α}
    (h : schedule.IsSilenced silent other) (rate : Binary64) (stretches : List Stretch) :
    (schedule.soundings rate stretches).Forall₂ (SoundsSilenced silent)
      (other.soundings rate stretches) := by
  induction stretches with
  | nil => exact .nil
  | cons stretch stretches ih =>
    have hstretch := h.between stretch.start stretch.finish
    rw [Schedule.soundings, Schedule.soundings, List.flatMap_cons, List.flatMap_cons]
    refine List.rel_append (List.rel_map ?_ hstretch) ih
    intro entry entry' hentry
    refine ⟨?_, hentry⟩
    dsimp only
    rw [hentry.1]

end Schedule

/-! ### Voicing -/

namespace Part

/-- Soundings some of which are made silent take the same draws, and the listener is told of the
others. -/
theorem voice_silenced (part : Part γ α) {listener : Listener}
    (hsounds : listener.hearsSilence = false) {silent : Nat → Bool}
    {soundings others : List (ClockTime × Entry α)}
    (h : soundings.Forall₂ (SoundsSilenced silent) others) (draws : γ) :
    (part.voice listener draws others).2 = (part.voice listener draws soundings).2 ∧
      (part.voice listener draws others).1.filterMap PartEvent.heard? =
        PartEvent.heardUnless silent (part.voice listener draws soundings).1 := by
  induction h generalizing draws with
  | nil => exact ⟨rfl, rfl⟩
  | @cons sounding other soundings others hfirst hrest ih =>
    obtain ⟨time, entry⟩ := sounding
    obtain ⟨time', entry'⟩ := other
    obtain ⟨htime, -, hstep⟩ := hfirst
    dsimp only at htime hstep
    rw [htime, voice_cons, voice_cons, PartEvent.filterMap_heard?_cons,
      PartEvent.heardUnless_cons]
    rcases part.fireAt_cases listener time draws with ⟨told, next, hfire⟩ | ⟨next, hfire⟩
    · obtain ⟨hdraws, hheard⟩ := ih next
      rw [hfire, hfire]
      refine ⟨hdraws, ?_⟩
      rw [hheard, hstep, PartEvent.heard?_fired_silencedIf hsounds]
    · obtain ⟨hdraws, hheard⟩ := ih next
      rw [hfire, hfire]
      refine ⟨hdraws, ?_⟩
      rw [hheard]
      rfl

/-- A part with other entries. -/
def withEntries (part : Part γ α) (schedule : Schedule α) (nextEntry : Nat) : Part γ α :=
  { part with schedule, nextEntry }

/-- Playing stretches. -/
theorem play_silenced {part : Part γ α}
    (hsounds : ∀ listener ∈ part.listener, listener.hearsSilence = false) {silent : Nat → Bool}
    {schedule : Schedule α} (h : part.schedule.IsSilenced silent schedule) (nextEntry : Nat)
    (stretches : List Stretch) :
    ((part.withEntries schedule nextEntry).play stretches).2 = (part.play stretches).2 ∧
      ((part.withEntries schedule nextEntry).play stretches).1.filterMap PartEvent.heard? =
        PartEvent.heardUnless silent (part.play stretches).1 := by
  have haudience : (part.withEntries schedule nextEntry).audience = part.audience := rfl
  have hvoice : ∀ listener draws soundings,
      (part.withEntries schedule nextEntry).voice listener draws soundings =
        part.voice listener draws soundings := voice_congr rfl rfl
  rw [play_eq_voice, play_eq_voice, haudience]
  cases hlistener : part.audience with
  | none => exact ⟨rfl, rfl⟩
  | some listener =>
    have hlistens : listener ∈ part.listener := by
      rw [audience] at hlistener
      split at hlistener
      · contradiction
      · exact hlistener
    dsimp only
    rw [hvoice]
    exact part.voice_silenced (hsounds listener hlistens)
      (h.soundings part.transport.rate stretches) part.draws

/-- **Silencing entries.** While the clock advances, a part of which some entries are made silent
does as before: its transport and its draws go the same way, and the listener is told of the other
entries as before. -/
theorem process_silenced {part : Part γ α}
    (hsounds : ∀ listener ∈ part.listener, listener.hearsSilence = false) {silent : Nat → Bool}
    {schedule : Schedule α} (h : part.schedule.IsSilenced silent schedule) (nextEntry : Nat)
    (now : ClockTime) :
    ((part.withEntries schedule nextEntry).process now).1 =
        (part.process now).1.withEntries schedule nextEntry ∧
      ((part.withEntries schedule nextEntry).process now).2.filterMap PartEvent.heard? =
        PartEvent.heardUnless silent (part.process now).2 := by
  obtain ⟨hdraws, hheard⟩ :=
    play_silenced hsounds h nextEntry (part.transport.process now).stretches
  have htransport : (part.withEntries schedule nextEntry).transport = part.transport := rfl
  constructor
  · rw [process, process, htransport]
    dsimp only
    rw [hdraws]
    rfl
  · rw [process, process, htransport]
    dsimp only
    rw [List.filterMap_append, hheard, PartEvent.heardUnless_append]
    congr 1
    cases (part.transport.process now).finishedAt <;> rfl

end Part

end Ostinato
