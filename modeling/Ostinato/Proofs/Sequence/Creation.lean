import Ostinato.Proofs.Sequence.Rebuild

/-!
# Making a sequence

A sequence is made in two steps: the pattern is laid out on a part that tells a new listener, and
then the rules by which it plays are set. A part may have been used before, so its transport is
whatever it was left as.

## Main definitions

* `Sequence.bare`: the sequence before it is laid out.
* `Sequence.tuned`: a sequence under the rules that settings give.

## Main results

* `Sequence.create_eq_ok_iff`, `Sequence.exists_of_create`: what it takes to make a sequence, and
  what is made.
* `Sequence.heard_create`: it is not heard.
-/

namespace Ostinato.Sequence

variable {γ α : Type} [Generator γ]

/-- The sequence that settings describe, before its pattern is laid out. -/
def bare (part : Part γ α) (listener : String) (pattern : Slots α) (settings : SequenceSettings)
    (meter : Meter) (subdivision : Ticks) : Sequence γ α where
  part := { part with listener := some { name := listener, hearsSilence := false } }
  meter := meter
  subdivision := subdivision
  pattern := { root := pattern }
  loopStart := settings.loopStart
  loopEnd := settings.loopEnd

/-- A sequence that plays by the rules that settings give. -/
def tuned (sequence : Sequence γ α) (settings : SequenceSettings) (humanize : Humanize) :
    Sequence γ α :=
  { sequence with
    part :=
      { sequence.part with
        transport :=
          { sequence.part.transport with
            loop := { sequence.part.transport.loop with mode := settings.loop }
            rate := settings.rate }
        probability := settings.probability.clampUnit
        humanize
        mute := settings.mute } }

omit [Generator γ] in
theorem part_tuned (sequence : Sequence γ α) (settings : SequenceSettings) (humanize : Humanize) :
    (sequence.tuned settings humanize).part =
      { sequence.part with
        transport :=
          { sequence.part.transport with
            loop := { sequence.part.transport.loop with mode := settings.loop }
            rate := settings.rate }
        probability := settings.probability.clampUnit
        humanize
        mute := settings.mute } := rfl

/-- Laying out changes no more of the part than its entries and the window of its loop. -/
theorem exists_part_relaid_bare (part : Part γ α) (listener : String) (pattern : Slots α)
    (settings : SequenceSettings) (meter : Meter) (subdivision : Ticks) :
    ∃ schedule nextEntry loop,
      (bare part listener pattern settings meter subdivision).relaid.part =
        { part with
          schedule, nextEntry
          transport := { part.transport with loop }
          listener := some { name := listener, hearsSilence := false } } := by
  obtain ⟨schedule, nextEntry, hrelaid, -⟩ :=
    (bare part listener pattern settings meter subdivision).exists_relaid
  exact ⟨schedule, nextEntry, _, congrArg Sequence.part hrelaid⟩

theorem hasNoEmptyGroup_of_rebuild {sequence laid : Sequence γ α} {event : SequenceEvent α}
    (h : sequence.rebuild = .ok (laid, event)) : sequence.pattern.root.HasNoEmptyGroup := by
  cases hempty : sequence.pattern.root.firstEmptyGroup? with
  | some path =>
    rw [rebuild_of_isFirstEmptyGroup (Slots.firstEmptyGroup?_eq_some_iff.1 hempty)] at h
    contradiction
  | none => exact Slots.firstEmptyGroup?_eq_none_iff.1 hempty

theorem heard?_of_rebuild {sequence laid : Sequence γ α} {event : SequenceEvent α}
    (h : sequence.rebuild = .ok (laid, event)) : event.heard? = none := by
  rw [rebuild_of_hasNoEmptyGroup (hasNoEmptyGroup_of_rebuild h)] at h
  cases h
  rfl

/-- What it takes to make a sequence, and what is made: the settings are valid, the pattern has a
layout, and the sequence is laid out before its rules are set. -/
theorem create_eq_ok_iff {part : Part γ α} {listener : String} {pattern : Slots α}
    {settings : SequenceSettings} {meter : Meter} {made : Sequence γ α} :
    (create part listener pattern settings meter).1 = .ok made ↔
      ∃ subdivision humanize, subdivisionOf settings meter = .ok subdivision ∧
        settings.humanize.resolve meter = .ok humanize ∧ pattern.HasNoEmptyGroup ∧
        Transport.IsPlayable settings.rate ∧ IsProbability settings.probability ∧
        made = (bare part listener pattern settings meter subdivision).relaid.tuned settings
          humanize := by
  have htuned : ∀ (laid : Sequence γ α) (humanize : Humanize), Transport.IsPlayable settings.rate →
      { laid with part :=
          { ((laid.part.setLoop { laid.part.transport.loop with mode := settings.loop }).setRate
              settings.rate).1.setProbability settings.probability with
            humanize, mute := settings.mute } } = laid.tuned settings humanize := by
    intro laid humanize hplayable
    simp only [Part.setRate, Part.setLoop, Part.setProbability, Transport.setRate,
      if_pos hplayable]
    rfl
  constructor
  · intro h
    rw [create] at h
    split at h
    · contradiction
    · contradiction
    · next subdivision humanize hsubdivision hhumanize =>
      dsimp only at h
      split at h
      · contradiction
      · next laid event hrebuild =>
        have hbare : (bare part listener pattern settings meter subdivision).rebuild =
            .ok (laid, event) := hrebuild
        have hlayout := hasNoEmptyGroup_of_rebuild hbare
        rw [rebuild_of_hasNoEmptyGroup hlayout] at hbare
        cases hbare
        split at h
        · contradiction
        · next hplayable =>
          split at h
          · contradiction
          · next hprobability =>
            have hrate := Classical.not_not.1 hplayable
            refine ⟨subdivision, humanize, hsubdivision, hhumanize, hlayout, hrate,
              Classical.not_not.1 hprobability, ?_⟩
            rw [← htuned _ humanize hrate]
            exact (Except.ok.inj h).symm
  · rintro ⟨subdivision, humanize, hsubdivision, hhumanize, hlayout, hrate, hprobability, rfl⟩
    have hbare : (bare part listener pattern settings meter subdivision).rebuild = .ok (_, _) :=
      rebuild_of_hasNoEmptyGroup hlayout
    rw [bare] at hbare
    rw [create, hsubdivision, hhumanize]
    dsimp only
    rw [hbare]
    dsimp only
    rw [if_neg (Classical.not_not.2 hrate), if_neg (Classical.not_not.2 hprobability),
      ← htuned _ humanize hrate]
    rfl

/-- What is made. -/
theorem eq_tuned_of_create {part : Part γ α} {listener : String} {pattern : Slots α}
    {settings : SequenceSettings} {meter : Meter} {made : Sequence γ α}
    (h : (create part listener pattern settings meter).1 = .ok made) :
    ∃ subdivision humanize, settings.humanize.resolve meter = .ok humanize ∧
      pattern.HasNoEmptyGroup ∧
      made = (bare part listener pattern settings meter subdivision).relaid.tuned settings
        humanize := by
  obtain ⟨subdivision, humanize, -, hhumanize, hlayout, -, -, hmade⟩ := create_eq_ok_iff.1 h
  exact ⟨subdivision, humanize, hhumanize, hlayout, hmade⟩

/-- What a sequence that is made has of the part that it is made over, and what it has of the
settings. -/
theorem exists_of_create {part : Part γ α} {listener : String} {pattern : Slots α}
    {settings : SequenceSettings} {meter : Meter} {made : Sequence γ α}
    (h : (create part listener pattern settings meter).1 = .ok made) :
    ∃ schedule nextEntry loop humanize, settings.humanize.resolve meter = .ok humanize ∧
      loop.mode = settings.loop ∧
      made.part = { part with
        schedule, nextEntry, humanize
        transport := { part.transport with loop, rate := settings.rate }
        listener := some { name := listener, hearsSilence := false }
        probability := settings.probability.clampUnit
        mute := settings.mute } ∧
      made.pattern = { root := pattern } ∧ made.meter = meter ∧ made.disposed = false := by
  obtain ⟨subdivision, humanize, hhumanize, -, rfl⟩ := eq_tuned_of_create h
  obtain ⟨schedule, nextEntry, loop, hpart⟩ :=
    exists_part_relaid_bare part listener pattern settings meter subdivision
  refine ⟨schedule, nextEntry, { loop with mode := settings.loop }, humanize, hhumanize, rfl, ?_,
    rfl, rfl, rfl⟩
  rw [part_tuned, hpart]

/-- Nothing is heard of a sequence that is made. -/
theorem heard_create (part : Part γ α) (listener : String) (pattern : Slots α)
    (settings : SequenceSettings) (meter : Meter) :
    (create part listener pattern settings meter).2.filterMap SequenceEvent.heard? = [] := by
  rw [create]
  split
  · rfl
  · rfl
  · dsimp only
    split
    · rfl
    · next laid event hrebuild =>
      have hsilent := heard?_of_rebuild hrebuild
      split
      · simp [hsilent]
      · split
        · simp [hsilent]
        · simp [hsilent]

omit [Generator γ] in
theorem exists_made_of_any {result : Except SequenceError (Sequence γ α)} {p : Sequence γ α → Prop}
    [DecidablePred p] (h : result.toOption.any fun made => p made) :
    ∃ made, result = .ok made ∧ p made := by
  cases result with
  | error e => contradiction
  | ok made => exact ⟨made, rfl, of_decide_eq_true h⟩

end Ostinato.Sequence
