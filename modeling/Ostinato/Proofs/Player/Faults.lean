import Ostinato.Proofs.Pattern.Spelling
import Ostinato.Proofs.Player.Notes
import Ostinato.Proofs.Sequence.Faults

/-!
# Faults of a session

A player is made of three texts and a sequence: the two durations and the pattern are read before
anything is known of the sequence, and the sequence is made over a new part. A pattern that has been
read has a layout, so the check that a sequence makes of its pattern never fails here.

## Main definitions

* `SessionSettings.IsValid`: the settings that a player accepts.
* `Player.faults`: the checks that are made for a player, in order.

## Main results

* `Player.isDecidedBy_ofSettings`: a player comes of its checks.
* `Player.exists_ofSettings_iff`: the settings of which there is a player.
* `Player.not_emptyGroup_of_isFirstFault`: an empty group is not among the faults.
* `Player.ofSettings_by_checks`: what players and sequences are made of, and why they are not made.
-/

namespace Ostinato

/-- The settings that a player accepts. -/
structure SessionSettings.IsValid (settings : SessionSettings) : Prop where
  tick : ∃ duration, Duration.read settings.player.tick = .ok duration
  duration : ∃ duration, Duration.read settings.player.duration = .ok duration
  pattern : ∃ root, Slots.read settings.player.pattern = .ok root
  sequence : settings.sequence.IsValid settings.timing.meter

theorem Slots.hasNoEmptyGroup_of_read {text : String} {root : Slots String}
    (h : read text = .ok root) : root.HasNoEmptyGroup :=
  firstEmptyGroup?_eq_none_iff.1
    (firstEmptyGroupFrom?_of_isWellFormed 0 root (read_eq_ok_iff.1 h).1)

namespace Player

variable {γ : Type} [Generator γ]

/-- The checks that are made for a player, in order: of the texts, and of the settings of the
sequence. -/
def faults (settings : SessionSettings) : List (Check PlayerError) :=
  [.within .invalidDuration (.ofResult (Duration.read settings.player.tick)),
    .within .invalidDuration (.ofResult (Duration.read settings.player.duration)),
    .within .invalidPattern (.ofResult (Slots.read settings.player.pattern))] ++
  (settings.sequence.checks settings.timing.meter).map (.within .noSequence)

/-- **A player comes of its checks.** If there is none, then because of the first check that
fails. -/
theorem isDecidedBy_ofSettings (settings : SessionSettings) (listener : String) (draws : γ) :
    IsDecidedBy (ofSettings settings listener draws).1 (faults settings) := by
  rw [ofSettings, PlayerSettings.tickTime, PlayerSettings.playingTime, faults]
  cases htick : Duration.read settings.player.tick with
  | error e => exact .ofResult rfl
  | ok tick =>
    refine .cons (Check.passes_within.2 (Check.passes_ofResult.2 ⟨tick, rfl⟩)) ?_
    cases hduration : Duration.read settings.player.duration with
    | error e => exact .ofResult rfl
    | ok duration =>
      refine .cons (Check.passes_within.2 (Check.passes_ofResult.2 ⟨duration, rfl⟩)) ?_
      cases hpattern : Slots.read settings.player.pattern with
      | error e => exact .ofResult rfl
      | ok pattern =>
        refine .cons (Check.passes_within.2 (Check.passes_ofResult.2 ⟨pattern, rfl⟩)) ?_
        have hcreate := Sequence.isDecidedBy_create_of_hasNoEmptyGroup
          (Slots.hasNoEmptyGroup_of_read hpattern) { draws } listener settings.sequence
          settings.timing.meter
        refine hcreate.within fun e => ?_
        dsimp only [Except.map]
        split
        · next cause events hmade =>
          simp [hmade, eq_comm]
        · next sequence events hmade =>
          simp [hmade]

/-- There is a player exactly if the settings are valid. -/
theorem exists_ofSettings_iff {settings : SessionSettings} {listener : String} {draws : γ} :
    (∃ player, (ofSettings settings listener draws).1 = .ok player) ↔ settings.IsValid := by
  rw [(isDecidedBy_ofSettings settings listener draws).exists_ok_iff]
  simp only [faults, List.forall_mem_append, List.forall_mem_map, Check.passes_within,
    ← SequenceSettings.isValid_iff, List.forall_mem_cons, Check.passes_ofResult]
  constructor
  · rintro ⟨⟨htick, hduration, hpattern, -⟩, hsequence⟩
    exact ⟨htick, hduration, hpattern, hsequence⟩
  · rintro ⟨htick, hduration, hpattern, hsequence⟩
    exact ⟨⟨htick, hduration, hpattern, nofun⟩, hsequence⟩

/-- None of the faults is an empty group: the pattern is not read for a bracket, and the settings of
the sequence do not tell of it. -/
theorem not_emptyGroup_of_isFirstFault {settings : SessionSettings} {e : PlayerError}
    (h : IsFirstFault (faults settings) e) (path : Path) :
    e ≠ .invalidPattern (.emptyGroup path) ∧
      e ≠ .noSequence (.invalidPattern (.emptyGroup path)) := by
  obtain ⟨check, hcheck, hfails⟩ := h.exists_mem
  simp only [faults, List.mem_append, List.mem_cons, List.not_mem_nil, or_false,
    List.mem_map] at hcheck
  rcases hcheck with (rfl | rfl | rfl) | ⟨inner, hinner, rfl⟩
  · obtain ⟨cause, -, rfl⟩ := hfails
    simp
  · obtain ⟨cause, -, rfl⟩ := hfails
    simp
  · obtain ⟨cause, hread, rfl⟩ := hfails
    obtain ⟨position, fault, rfl⟩ := Slots.exists_malformed_of_read hread
    simp
  · obtain ⟨cause, hcause, rfl⟩ := hfails
    simpa using
      settings.sequence.not_invalidPattern_of_mem_checks _ hinner hcause (.emptyGroup path)

/-- **What players and sequences are made of.** There is a player for all settings of which the
texts can be read and the settings of the sequence are valid, and for no others. For others the
error is that of the first check that fails, and it is never that of an empty group. The sequence of
a player is made over a new part: it has the pattern that is read, at its first revision, an entry
for each leaf, and the loop window and the rules that the settings give, and it is stopped at zero.
The same holds of a sequence that is made over any part, of any pattern, from the subdivision on,
where an empty group comes behind the random deviations and before the playback rate. It leaves the
part playing what it plays, by the same clock and from the same position. -/
theorem ofSettings_by_checks :
    (∀ (settings : SessionSettings) (listener : String) (draws : γ),
      let made := (ofSettings settings listener draws).1
      ((∃ player, made = .ok player) ↔ settings.IsValid) ∧
        (∀ e, made = .error e ↔ IsFirstFault (faults settings) e) ∧
        (∀ path, made ≠ .error (.invalidPattern (.emptyGroup path)) ∧
          made ≠ .error (.noSequence (.invalidPattern (.emptyGroup path)))) ∧
        ∀ player, made = .ok player →
          ∃ root, Slots.read settings.player.pattern = .ok root ∧
            player.sequence.IsMadeOf { draws } root settings.sequence settings.timing.meter) ∧
      ∀ {α : Type} (part : Part γ α) (listener : String) (pattern : Slots α)
        (settings : SequenceSettings) (meter : Meter),
        let made := (Sequence.create part listener pattern settings meter).1
        ((∃ sequence, made = .ok sequence) ↔ settings.IsValid meter ∧ pattern.HasNoEmptyGroup) ∧
          (∀ e, made = .error e ↔ IsFirstFault (Sequence.faults pattern settings meter) e) ∧
          ∀ sequence, made = .ok sequence → sequence.IsMadeOf part pattern settings meter := by
  constructor
  · intro settings listener draws made
    have hdecided := isDecidedBy_ofSettings settings listener draws
    refine ⟨exists_ofSettings_iff, hdecided, fun path => ⟨fun hmade => ?_, fun hmade => ?_⟩, ?_⟩
    · exact (not_emptyGroup_of_isFirstFault ((hdecided _).1 hmade) path).1 rfl
    · exact (not_emptyGroup_of_isFirstFault ((hdecided _).1 hmade) path).2 rfl
    · intro player hplayer
      obtain ⟨root, hread, hcreate, -⟩ := exists_of_ofSettings
        (Prod.ext hplayer rfl : ofSettings settings listener draws = (.ok player, _))
      exact ⟨root, hread, Sequence.isMadeOf_of_create hcreate⟩
  · intro α part listener pattern settings meter made
    exact ⟨Sequence.exists_create_iff,
      Sequence.isDecidedBy_create part listener pattern settings meter,
      fun sequence hmade => Sequence.isMadeOf_of_create hmade⟩

/-- Of settings with two faults and of settings with none. -/
theorem ofSettings_by_checks_two_faults :
    let player : PlayerSettings := { pattern := "a [b ~]" }
    let faulty : SessionSettings :=
      { player, sequence := { humanize := .amount "never", rate := .zero } }
    let valid : SessionSettings := { player, sequence := { humanize := .amount "32n" } }
    let fault : PlayerError := .noSequence (.invalidHumanize (.invalid "never"))
    IsFirstFault (faults faulty) fault ∧ ¬ faulty.IsValid ∧ valid.IsValid ∧
      ∃ made, (ofSettings valid "bell" (⟨7⟩ : SplitMix)).1 = .ok made ∧
        made.sequence.pattern.revision = 0 ∧
        made.sequence.part.transport.state = .stopped ∧
        made.sequence.part.schedule.entries.map Entry.timed =
          [(0, .sound "a"), (250000000, .sound "b"), (375000000, .silence)] := by
  intro player faulty valid fault
  obtain ⟨hfaulty, hfirst, -, -⟩ := ofSettings_by_checks.1 faulty "bell" (⟨7⟩ : SplitMix)
  obtain ⟨hvalid, -, -, hmade⟩ := ofSettings_by_checks.1 valid "bell" (⟨7⟩ : SplitMix)
  have hfault : (ofSettings faulty "bell" (⟨7⟩ : SplitMix)).1 = .error fault := by decide +kernel
  have hfacts : (ofSettings valid "bell" (⟨7⟩ : SplitMix)).1.toOption.any fun made =>
      made.sequence.part.schedule.entries.map Entry.timed =
        [(0, .sound "a"), (250000000, .sound "b"), (375000000, .silence)] := by decide +kernel
  cases hplayer : (ofSettings valid "bell" (⟨7⟩ : SplitMix)).1 with
  | error e =>
    rw [hplayer] at hfacts
    contradiction
  | ok made =>
    rw [hplayer] at hfacts
    obtain ⟨root, -, hsequence⟩ := hmade made hplayer
    refine ⟨(hfirst fault).1 hfault, fun h => ?_, hvalid.1 ⟨made, hplayer⟩, made, rfl,
      hsequence.revision, hsequence.state, of_decide_eq_true hfacts⟩
    obtain ⟨other, hother⟩ := hfaulty.2 h
    rw [hfault] at hother
    contradiction

end Player

end Ostinato
