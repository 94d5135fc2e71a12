import Ostinato.Proofs.Binary64.Order
import Ostinato.Proofs.Sequence.Sounds

/-!
# Faults of settings

Settings are checked one thing after another, and the first check that fails says why there is no
sequence. The checks are listed here apart from the function that makes them: each by the condition
that it is about, and by the error with which it fails.

## Main definitions

* `Check`, `Check.Passes`: a check, given by the errors with which it fails.
* `Check.require`, `Check.ofResult`, `Check.within`: checks of a condition and of a result, and
  checks whose errors are causes of others.
* `IsFirstFault`: the error of the first check that fails.
* `IsDecidedBy`: a result that comes of checks in order.
* `HumanizeSetting.StandsFor`: the deviations that a setting stands for.
* `SequenceSettings.IsValid`: the settings that a sequence accepts.
* `SequenceSettings.subdivisionCheck`, `SequenceSettings.humanizeCheck`,
  `SequenceSettings.rateCheck`, `SequenceSettings.probabilityCheck`, `Sequence.layoutCheck`: the
  checks.
* `SequenceSettings.checks`, `Sequence.faults`: the checks in order, of the settings alone and with
  the pattern.
* `Sequence.IsMadeOf`: a sequence as it is made.

## Main results

* `IsDecidedBy.exists_ok_iff`: a result that comes of checks is no error exactly if all of them
  pass.
* `Sequence.isDecidedBy_create`: a sequence comes of its checks.
* `Sequence.exists_create_iff`: the settings and patterns of which there is a sequence.
* `Sequence.isMadeOf_of_create`: what is made of them.
-/

namespace Ostinato

/-! ### Checks in order -/

/-- A check, given by the errors with which it fails. -/
abbrev Check (ε : Type) : Type :=
  ε → Prop

namespace Check

variable {ε δ β : Type}

/-- A check that fails with an error unless a condition holds. -/
def require (condition : Prop) (error : ε) : Check ε :=
  fun e => ¬ condition ∧ e = error

/-- A check that fails with the error of a result. -/
def ofResult (result : Except ε β) : Check ε :=
  fun e => result = .error e

/-- A check whose errors are the causes of others. -/
def within (causedBy : δ → ε) (check : Check δ) : Check ε :=
  fun e => ∃ cause, check cause ∧ e = causedBy cause

/-- Whether a check does not fail. -/
def Passes (check : Check ε) : Prop :=
  ∀ e, ¬ check e

theorem passes_require {condition : Prop} {error : ε} :
    (require condition error).Passes ↔ condition := by
  constructor
  · intro h
    by_contra hcondition
    exact h error ⟨hcondition, rfl⟩
  · rintro h e ⟨hcondition, -⟩
    exact hcondition h

theorem passes_ofResult {result : Except ε β} :
    (ofResult result).Passes ↔ ∃ value, result = .ok value := by
  cases result with
  | error e =>
    refine iff_of_false (fun h => h e rfl) ?_
    rintro ⟨value, hvalue⟩
    contradiction
  | ok value => exact iff_of_true nofun ⟨value, rfl⟩

theorem passes_within {causedBy : δ → ε} {check : Check δ} :
    (within causedBy check).Passes ↔ check.Passes := by
  constructor
  · exact fun h cause hcause => h (causedBy cause) ⟨cause, hcause, rfl⟩
  · rintro h e ⟨cause, hcause, -⟩
    exact h cause hcause

end Check

section IsFirstFault

variable {ε β : Type} {check : Check ε} {checks : List (Check ε)} {fault : ε}

/-- Of checks in order, one fails with an error, and those before it pass. -/
def IsFirstFault (checks : List (Check ε)) (fault : ε) : Prop :=
  ∃ before check after, checks = before ++ check :: after ∧
    (∀ earlier ∈ before, earlier.Passes) ∧ check fault

theorem not_isFirstFault_nil : ¬ IsFirstFault [] fault := by
  rintro ⟨before, check, after, hchecks, -⟩
  exact List.append_ne_nil_of_right_ne_nil before (List.cons_ne_nil check after) hchecks.symm

theorem isFirstFault_cons :
    IsFirstFault (check :: checks) fault ↔
      check fault ∨ check.Passes ∧ IsFirstFault checks fault := by
  constructor
  · rintro ⟨before, failed, after, hchecks, hbefore, hfailed⟩
    cases before with
    | nil =>
      cases hchecks
      exact .inl hfailed
    | cons first before =>
      cases hchecks
      have hrest := fun earlier hearlier => hbefore earlier (List.mem_cons_of_mem _ hearlier)
      exact .inr ⟨hbefore _ List.mem_cons_self, before, failed, after, rfl, hrest, hfailed⟩
  · rintro (hfailed | ⟨hpasses, before, failed, after, rfl, hbefore, hfailed⟩)
    · exact ⟨[], check, checks, rfl, nofun, hfailed⟩
    · refine ⟨check :: before, failed, after, rfl, ?_, hfailed⟩
      exact List.forall_mem_cons.2 ⟨hpasses, hbefore⟩

theorem exists_isFirstFault_iff :
    (∃ e, IsFirstFault checks e) ↔ ∃ check ∈ checks, ¬ check.Passes := by
  induction checks with
  | nil => exact iff_of_false (fun ⟨_, h⟩ => not_isFirstFault_nil h) nofun
  | cons first checks ih =>
    have hsplit : (∃ e, IsFirstFault (first :: checks) e) ↔
        ¬ first.Passes ∨ first.Passes ∧ ∃ e, IsFirstFault checks e := by
      simp [isFirstFault_cons, exists_or, Check.Passes]
    rw [hsplit, ih, List.exists_mem_cons_iff]
    by_cases hfirst : first.Passes
    · exact or_congr_right (and_iff_right hfirst)
    · exact iff_of_true (.inl hfirst) (.inl hfirst)

theorem IsFirstFault.exists_mem (h : IsFirstFault checks fault) :
    ∃ check ∈ checks, check fault := by
  obtain ⟨before, check, after, rfl, -, hcheck⟩ := h
  exact ⟨check, List.mem_append_right before List.mem_cons_self, hcheck⟩

theorem isFirstFault_append_cons (hpasses : check.Passes) (before after : List (Check ε)) :
    IsFirstFault (before ++ check :: after) fault ↔ IsFirstFault (before ++ after) fault := by
  induction before with
  | nil =>
    rw [List.nil_append, List.nil_append, isFirstFault_cons, or_iff_right (hpasses fault),
      and_iff_right hpasses]
  | cons first before ih =>
    rw [List.cons_append, List.cons_append, isFirstFault_cons, isFirstFault_cons, ih]

theorem isFirstFault_map_within {δ : Type} {causedBy : δ → ε} {inner : List (Check δ)} :
    IsFirstFault (inner.map (.within causedBy)) fault ↔
      ∃ cause, IsFirstFault inner cause ∧ fault = causedBy cause := by
  induction inner with
  | nil => exact iff_of_false not_isFirstFault_nil fun ⟨_, h, _⟩ => not_isFirstFault_nil h
  | cons first inner ih =>
    rw [List.map_cons, isFirstFault_cons, ih, Check.passes_within, Check.within]
    simp only [isFirstFault_cons, or_and_right, exists_or, and_assoc, exists_and_left]

/-- A result is an error exactly if a check fails, and then it is that of the first check that
does. -/
def IsDecidedBy (result : Except ε β) (checks : List (Check ε)) : Prop :=
  ∀ e, result = .error e ↔ IsFirstFault checks e

namespace IsDecidedBy

theorem ok (value : β) : IsDecidedBy (.ok value : Except ε β) [] :=
  fun _ => iff_of_false nofun not_isFirstFault_nil

theorem error (hfails : ∀ e, check e ↔ e = fault) :
    IsDecidedBy (.error fault : Except ε β) (check :: checks) := by
  intro e
  rw [isFirstFault_cons, hfails, or_iff_left]
  · exact ⟨fun h => (Except.error.inj h).symm, fun h => congrArg _ h.symm⟩
  · exact fun h => h.1 fault ((hfails fault).2 rfl)

theorem cons {result : Except ε β} (hpasses : check.Passes) (h : IsDecidedBy result checks) :
    IsDecidedBy result (check :: checks) := by
  intro e
  rw [h e, isFirstFault_cons, or_iff_right (hpasses e), and_iff_right hpasses]

/-- A condition that does not hold decides. -/
theorem require {condition : Prop} (h : ¬ condition) :
    IsDecidedBy (.error fault : Except ε β) (.require condition fault :: checks) :=
  .error fun _ => and_iff_right h

/-- A result that is an error decides. -/
theorem ofResult {δ γ : Type} {result : Except δ γ} {causedBy : δ → ε} {cause : δ}
    (h : result = .error cause) :
    IsDecidedBy (.error (causedBy cause) : Except ε β)
      (.within causedBy (.ofResult result) :: checks) := by
  refine .error fun e => ⟨?_, fun he => ⟨cause, h, he⟩⟩
  rintro ⟨other, hother, he⟩
  cases h.symm.trans hother
  exact he

theorem leaveOut {result : Except ε β} {before after : List (Check ε)} (hpasses : check.Passes)
    (h : IsDecidedBy result (before ++ check :: after)) : IsDecidedBy result (before ++ after) :=
  fun e => (h e).trans (isFirstFault_append_cons hpasses before after)

/-- A result whose errors are caused by those of another comes of the same checks. -/
theorem within {δ γ : Type} {result : Except ε β} {inner : Except δ γ} {causedBy : δ → ε}
    {innerChecks : List (Check δ)} (h : IsDecidedBy inner innerChecks)
    (hresult : ∀ e, result = .error e ↔ ∃ cause, inner = .error cause ∧ e = causedBy cause) :
    IsDecidedBy result (innerChecks.map (.within causedBy)) := by
  intro e
  rw [hresult, isFirstFault_map_within]
  exact exists_congr fun cause => and_congr_left' (h cause)

/-- A result that comes of checks is no error exactly if all of them pass. -/
theorem exists_ok_iff {result : Except ε β} (h : IsDecidedBy result checks) :
    (∃ value, result = .ok value) ↔ ∀ check ∈ checks, check.Passes := by
  cases result with
  | ok value =>
    refine iff_of_true ⟨value, rfl⟩ ?_
    by_contra hfails
    simp only [not_forall, exists_prop] at hfails
    obtain ⟨e, he⟩ := exists_isFirstFault_iff.2 hfails
    have hresult := (h e).2 he
    contradiction
  | error e =>
    refine iff_of_false nofun fun hpass => ?_
    obtain ⟨check, hcheck, hfails⟩ := exists_isFirstFault_iff.1 ⟨e, (h e).1 rfl⟩
    exact hfails (hpass check hcheck)

end IsDecidedBy

end IsFirstFault

/-! ### Checks of settings -/

namespace HumanizeSetting

/-- The deviations that a setting stands for under a meter: the standard ones, none, or those up to
a duration that can be read. -/
inductive StandsFor (meter : Meter) : HumanizeSetting → Humanize → Prop
  | on : StandsFor meter (.switch true) .standard
  | off : StandsFor meter (.switch false) .off
  | amount {text : String} {duration : Duration} (hread : Duration.read text = .ok duration) :
    StandsFor meter (.amount text) (.upTo (duration.toClock meter))

variable {setting : HumanizeSetting} {meter : Meter}

theorem resolve_eq_ok_iff {humanize : Humanize} :
    setting.resolve meter = .ok humanize ↔ setting.StandsFor meter humanize := by
  constructor
  · intro h
    cases setting with
    | switch on =>
      cases h
      cases on with
      | false => exact .off
      | true => exact .on
    | amount text =>
      rw [resolve] at h
      cases hread : Duration.read text with
      | error cause =>
        rw [hread] at h
        contradiction
      | ok duration =>
        rw [hread] at h
        cases h
        exact .amount hread
  · rintro (_ | _ | hread)
    · rfl
    · rfl
    · rw [resolve, hread, Except.map]

theorem resolve_eq_error_iff {cause : DurationError} :
    setting.resolve meter = .error cause ↔
      ∃ text, setting = .amount text ∧ Duration.read text = .error cause := by
  cases setting with
  | switch on => exact iff_of_false nofun fun ⟨_, h, _⟩ => nomatch h
  | amount text =>
    simp only [resolve, amount.injEq, exists_eq_left']
    cases Duration.read text with
    | error e => simp [Except.map]
    | ok duration => simp [Except.map]

end HumanizeSetting

namespace SequenceSettings

variable (settings : SequenceSettings) (meter : Meter)

/-- The subdivision is a duration of some ticks. -/
def HasSubdivision : Prop :=
  ∃ duration, Duration.read settings.subdivision = .ok duration ∧ duration.toTicks meter ≠ 0

/-- The settings that a sequence accepts. -/
structure IsValid : Prop where
  subdivision : settings.HasSubdivision meter
  humanize : ∃ humanize, settings.humanize.StandsFor meter humanize
  rate : Transport.IsPlayable settings.rate
  probability : Sequence.IsProbability settings.probability

/-- The check of the subdivision. -/
def subdivisionCheck : Check SequenceError :=
  .require (settings.HasSubdivision meter) (.invalidSubdivision settings.subdivision)

/-- The check of the random deviations. -/
def humanizeCheck : Check SequenceError :=
  .within .invalidHumanize fun cause =>
    ∃ text, settings.humanize = .amount text ∧ Duration.read text = .error cause

theorem humanizeCheck_eq :
    settings.humanizeCheck =
      .within .invalidHumanize (.ofResult (settings.humanize.resolve meter)) := by
  have hcause : (fun cause =>
      ∃ text, settings.humanize = .amount text ∧ Duration.read text = .error cause) =
        Check.ofResult (settings.humanize.resolve meter) :=
    funext fun _ => propext HumanizeSetting.resolve_eq_error_iff.symm
  rw [humanizeCheck, hcause]

theorem passes_humanizeCheck :
    settings.humanizeCheck.Passes ↔ ∃ humanize, settings.humanize.StandsFor meter humanize := by
  rw [settings.humanizeCheck_eq meter, Check.passes_within, Check.passes_ofResult]
  exact exists_congr fun _ => HumanizeSetting.resolve_eq_ok_iff

/-- The check of the playback rate. -/
def rateCheck : Check SequenceError :=
  .require (Transport.IsPlayable settings.rate) (.invalidRate settings.rate)

/-- The check of the probability. -/
def probabilityCheck : Check SequenceError :=
  .require (Sequence.IsProbability settings.probability)
    (.invalidProbability settings.probability)

/-- The checks of the settings alone, in order. -/
def checks : List (Check SequenceError) :=
  [settings.subdivisionCheck meter, settings.humanizeCheck, settings.rateCheck,
    settings.probabilityCheck]

theorem isValid_iff :
    settings.IsValid meter ↔ ∀ check ∈ settings.checks meter, check.Passes := by
  simp only [checks, List.forall_mem_cons, subdivisionCheck, rateCheck, probabilityCheck,
    Check.passes_require, settings.passes_humanizeCheck meter]
  constructor
  · rintro ⟨hsubdivision, hhumanize, hrate, hprobability⟩
    exact ⟨hsubdivision, hhumanize, hrate, hprobability, nofun⟩
  · rintro ⟨hsubdivision, hhumanize, hrate, hprobability, -⟩
    exact ⟨hsubdivision, hhumanize, hrate, hprobability⟩

theorem not_invalidPattern_of_mem_checks {check : Check SequenceError}
    (hcheck : check ∈ settings.checks meter) {e : SequenceError} (h : check e)
    (cause : PatternError) : e ≠ .invalidPattern cause := by
  simp only [checks, List.mem_cons, List.not_mem_nil, or_false] at hcheck
  rcases hcheck with rfl | rfl | rfl | rfl
  · obtain ⟨-, rfl⟩ := h
    simp
  · obtain ⟨_, -, rfl⟩ := h
    simp
  · obtain ⟨-, rfl⟩ := h
    simp
  · obtain ⟨-, rfl⟩ := h
    simp

end SequenceSettings

namespace Sequence

variable {γ α : Type} [Generator γ]

/-- The subdivision is what the setting stands for. -/
theorem subdivisionOf_eq_ok_iff {settings : SequenceSettings} {meter : Meter} {ticks : Ticks} :
    subdivisionOf settings meter = .ok ticks ↔
      ∃ duration, Duration.read settings.subdivision = .ok duration ∧
        duration.toTicks meter = ticks ∧ ticks ≠ 0 := by
  rw [subdivisionOf]
  cases hread : Duration.read settings.subdivision with
  | error cause =>
    refine iff_of_false nofun ?_
    rintro ⟨duration, hduration, -⟩
    contradiction
  | ok duration =>
    by_cases hzero : duration.toTicks meter = 0
    · simp [hzero, eq_comm]
    · simp only [if_neg hzero, Except.ok.injEq, exists_eq_left']
      exact ⟨fun h => ⟨h, h ▸ hzero⟩, And.left⟩

theorem exists_subdivisionOf_iff {settings : SequenceSettings} {meter : Meter} :
    (∃ ticks, subdivisionOf settings meter = .ok ticks) ↔ settings.HasSubdivision meter := by
  simp only [subdivisionOf_eq_ok_iff, SequenceSettings.HasSubdivision]
  constructor
  · rintro ⟨_, duration, hread, rfl, hpos⟩
    exact ⟨duration, hread, hpos⟩
  · rintro ⟨duration, hread, hpos⟩
    exact ⟨_, duration, hread, rfl, hpos⟩

theorem eq_of_subdivisionOf_eq_error {settings : SequenceSettings} {meter : Meter}
    {e : SequenceError} (h : subdivisionOf settings meter = .error e) :
    e = .invalidSubdivision settings.subdivision := by
  rw [subdivisionOf] at h
  split at h
  · exact (Except.error.inj h).symm
  · dsimp only at h
    split at h
    · exact (Except.error.inj h).symm
    · contradiction

/-! ### Making a sequence -/

/-- The check for empty groups, which fails with the path of the first one. -/
def layoutCheck (pattern : Slots α) : Check SequenceError :=
  fun e => ∃ path, pattern.IsFirstEmptyGroup path ∧ e = .invalidPattern (.emptyGroup path)

theorem passes_layoutCheck {pattern : Slots α} :
    (layoutCheck pattern).Passes ↔ pattern.HasNoEmptyGroup := by
  cases hempty : pattern.firstEmptyGroup? with
  | none =>
    have hlayout := Slots.firstEmptyGroup?_eq_none_iff.1 hempty
    refine iff_of_true ?_ hlayout
    rintro e ⟨path, hpath, -⟩
    exact hlayout path hpath.1
  | some path =>
    have hpath := Slots.firstEmptyGroup?_eq_some_iff.1 hempty
    exact iff_of_false (fun h => h _ ⟨path, hpath, rfl⟩) fun h => h path hpath.1

/-- A pattern without a layout decides. -/
theorem isDecidedBy_layoutCheck {β : Type} {pattern : Slots α} {path : Path}
    {checks : List (Check SequenceError)} (h : pattern.IsFirstEmptyGroup path) :
    IsDecidedBy (.error (.invalidPattern (.emptyGroup path)) : Except SequenceError β)
      (layoutCheck pattern :: checks) := by
  refine .error fun e => ⟨?_, fun he => ⟨path, h, he⟩⟩
  rintro ⟨other, hother, he⟩
  have hsame := (Slots.firstEmptyGroup?_eq_some_iff.2 h).symm.trans
    (Slots.firstEmptyGroup?_eq_some_iff.2 hother)
  rwa [Option.some.inj hsame]

/-- The checks that are made for a sequence, in order. -/
def faults (pattern : Slots α) (settings : SequenceSettings) (meter : Meter) :
    List (Check SequenceError) :=
  [settings.subdivisionCheck meter, settings.humanizeCheck, layoutCheck pattern,
    settings.rateCheck, settings.probabilityCheck]

/-- **A sequence comes of its checks.** If there is none, then because of the first check that
fails. -/
theorem isDecidedBy_create (part : Part γ α) (listener : String) (pattern : Slots α)
    (settings : SequenceSettings) (meter : Meter) :
    IsDecidedBy (create part listener pattern settings meter).1
      (faults pattern settings meter) := by
  rw [create]
  -- each check decides, or passes and leaves the result to those behind it
  cases hsubdivision : subdivisionOf settings meter with
  | error e =>
    rw [eq_of_subdivisionOf_eq_error hsubdivision]
    refine .require fun hvalid => ?_
    obtain ⟨ticks, hticks⟩ := exists_subdivisionOf_iff.2 hvalid
    rw [hsubdivision] at hticks
    contradiction
  | ok subdivision =>
    refine .cons (Check.passes_require.2 (exists_subdivisionOf_iff.1 ⟨_, hsubdivision⟩)) ?_
    cases hhumanize : settings.humanize.resolve meter with
    | error cause =>
      rw [settings.humanizeCheck_eq meter]
      exact .ofResult hhumanize
    | ok humanize =>
      have hvalid := HumanizeSetting.resolve_eq_ok_iff.1 hhumanize
      refine .cons ((settings.passes_humanizeCheck meter).2 ⟨humanize, hvalid⟩) ?_
      dsimp only
      cases hempty : pattern.firstEmptyGroup? with
      | some path =>
        have hpath := Slots.firstEmptyGroup?_eq_some_iff.1 hempty
        have hrebuild :
            (bare part listener pattern settings meter subdivision).rebuild = .error _ :=
          rebuild_of_isFirstEmptyGroup hpath
        rw [bare] at hrebuild
        rw [hrebuild]
        exact isDecidedBy_layoutCheck hpath
      | none =>
        have hlayout := Slots.firstEmptyGroup?_eq_none_iff.1 hempty
        have hrebuild :
            (bare part listener pattern settings meter subdivision).rebuild = .ok (_, _) :=
          rebuild_of_hasNoEmptyGroup hlayout
        rw [bare] at hrebuild
        rw [hrebuild]
        refine .cons (passes_layoutCheck.2 hlayout) ?_
        dsimp only
        by_cases hrate : Transport.IsPlayable settings.rate
        · refine .cons (Check.passes_require.2 hrate) ?_
          rw [if_neg (not_not.2 hrate)]
          by_cases hprobability : IsProbability settings.probability
          · refine .cons (Check.passes_require.2 hprobability) ?_
            rw [if_neg (not_not.2 hprobability)]
            exact .ok _
          · rw [if_pos hprobability]
            exact .require hprobability
        · rw [if_pos hrate]
          exact .require hrate

theorem isDecidedBy_create_of_hasNoEmptyGroup {pattern : Slots α} (h : pattern.HasNoEmptyGroup)
    (part : Part γ α) (listener : String) (settings : SequenceSettings) (meter : Meter) :
    IsDecidedBy (create part listener pattern settings meter).1 (settings.checks meter) := by
  have hleft : IsDecidedBy (create part listener pattern settings meter).1
      ([settings.subdivisionCheck meter, settings.humanizeCheck] ++
        [settings.rateCheck, settings.probabilityCheck]) :=
    .leaveOut (passes_layoutCheck.2 h) (isDecidedBy_create part listener pattern settings meter)
  exact hleft

/-- There is a sequence exactly if the settings are valid and the pattern has a layout. -/
theorem exists_create_iff {part : Part γ α} {listener : String} {pattern : Slots α}
    {settings : SequenceSettings} {meter : Meter} :
    (∃ made, (create part listener pattern settings meter).1 = .ok made) ↔
      settings.IsValid meter ∧ pattern.HasNoEmptyGroup := by
  rw [(isDecidedBy_create part listener pattern settings meter).exists_ok_iff,
    settings.isValid_iff meter, ← passes_layoutCheck]
  simp only [faults, SequenceSettings.checks, List.forall_mem_cons]
  tauto

/-- A sequence as it is made over a part: with the pattern at its first revision, an entry for each
of the leaves, a loop window between the slots that the settings name, where the end zero stands for
the end of the pattern, and the rules that the settings give. The clock of the part and what it
plays are left as they are. -/
structure IsMadeOf (made : Sequence γ α) (part : Part γ α) (pattern : Slots α)
    (settings : SequenceSettings) (meter : Meter) : Prop where
  root : made.pattern.root = pattern
  revision : made.pattern.revision = 0
  live : made.disposed = false
  subdivision : ∃ duration, Duration.read settings.subdivision = .ok duration ∧
    made.subdivision = duration.toTicks meter
  entries : made.part.schedule.entries.map Entry.timed =
    pattern.leaves.map fun leaf => (made.clockAt leaf.1, leaf.2)
  loopStart : made.loopStart = settings.loopStart
  loopEnd : made.loopEnd = settings.loopEnd
  loopMode : made.part.transport.loop.mode = settings.loop
  window :
    let boundary (index : Nat) : ClockTime := meter.toClock (.ofNat
      (min (2 ^ 64 - 1) (index * made.subdivision.val + part.startOffset.val)))
    made.part.transport.loop.start = boundary settings.loopStart ∧
      made.part.transport.loop.finish =
        boundary (if settings.loopEnd = 0 then pattern.length else settings.loopEnd)
  startOffset : made.part.startOffset = part.startOffset
  rate : made.part.transport.rate = settings.rate
  probability : made.part.probability.rank? = settings.probability.rank?
  humanize : settings.humanize.StandsFor meter made.part.humanize
  mute : made.part.mute = settings.mute
  state : made.part.transport.state = part.transport.state
  clock : made.part.transport.clock = part.transport.clock
  position : made.part.transport.position = part.transport.position
  meter : made.meter = meter

/-- What is made of a pattern and settings. -/
theorem isMadeOf_of_create {part : Part γ α} {listener : String} {pattern : Slots α}
    {settings : SequenceSettings} {meter : Meter} {made : Sequence γ α}
    (h : (create part listener pattern settings meter).1 = .ok made) :
    made.IsMadeOf part pattern settings meter := by
  obtain ⟨subdivision, humanize, hsubdivision, hhumanize, -, -, hprobability, hmade⟩ :=
    create_eq_ok_iff.1 h
  obtain ⟨duration, hread, hticks, -⟩ := subdivisionOf_eq_ok_iff.1 hsubdivision
  obtain ⟨_, _, _, _, -, -, hpart, hpattern, -, hlive⟩ := exists_of_create h
  obtain ⟨hstate, hclock, hposition⟩ : made.part.transport.state = part.transport.state ∧
      made.part.transport.clock = part.transport.clock ∧
      made.part.transport.position = part.transport.position := by
    rw [hpart]
    exact ⟨rfl, rfl, rfl⟩
  have hclamped : made.part.probability.rank? = settings.probability.rank? := by
    rw [hpart]
    exact Binary64.rank?_clampUnit hprobability.1 hprobability.2
  have hentries := ((keepsLayout_of_create h hlive).2 rfl).entries_eq
  rw [congrArg TrackedPattern.root hpattern] at hentries
  -- the window of the loop is that of the sequence before it is laid out, which has the same grid
  obtain ⟨schedule, nextEntry, hrelaid, -⟩ :=
    (bare part listener pattern settings meter subdivision).exists_relaid
  rw [hrelaid] at hmade
  subst hmade
  refine ⟨rfl, rfl, rfl, ⟨duration, hread, hticks.symm⟩, hentries, rfl, rfl, rfl,
    ⟨Grid.time_eq _ _, ?_⟩, rfl, rfl, hclamped, HumanizeSetting.resolve_eq_ok_iff.1 hhumanize, rfl,
    hstate, hclock, hposition, rfl⟩
  split
  · next hzero => exact (if_pos hzero).trans (Grid.time_eq _ _)
  · next hpos => exact (if_neg hpos).trans (Grid.time_eq _ _)

end Sequence

end Ostinato
