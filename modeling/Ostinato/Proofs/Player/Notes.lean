import Ostinato.Player.Basic
import Ostinato.Proofs.Part.Granularity
import Ostinato.Proofs.Part.Straight
import Ostinato.Proofs.Pattern.Words
import Ostinato.Proofs.Sequence.Sounds

/-!
# From text to notes

A player reads a text as a pattern, lays it out on the clock and plays it. Seen from outside,
without a loop and without anything left to chance, its notes are the words of the text, one after
the other, each at the clock time of its place in the pattern.

## Main definitions

* `Player.follow`: a player whose clock is read a number of times.
* `Slots.paths`: the paths of the leaves, in reading order.

## Main results

* `TimingSettings.meter_numbers`: the meter that is configured.
* `Player.exists_of_ofSettings`: what settings make of a text.
* `Player.heard_follow`: the clock of a player is that of its part.
* `Sequence.sounds_eq_words`: the sounds of a pattern that is read are words of its text.
* `Player.heard_of_text`: the notes are the words.
-/

namespace Ostinato

variable {γ : Type} [Generator γ]

theorem Binary64.clampUnit_one : Binary64.one.clampUnit = Binary64.one := by
  decide +kernel

/-- The meter has the tempo that is configured, but at least one beat in a minute, and its note
value is the nearest to the one that is configured among those that a signature can have. -/
theorem TimingSettings.meter_numbers (timing : TimingSettings) :
    timing.meter.tempo.beats.toNat = max 1 timing.tempo.toNat ∧
      timing.meter.signature.beats = timing.beats ∧
      timing.meter.signature.noteValue.toNat = min 16 (max 1 timing.noteValue.toNat) := by
  refine ⟨?_, rfl, ?_⟩
  · rw [meter, Tempo.ofBeats]
    split
    · next hpos => exact (Nat.max_eq_right hpos).symm
    · next hzero => rw [Nat.eq_zero_of_not_pos hzero]; rfl
  · rw [meter]
    dsimp only
    rw [clampedNoteValue]
    split
    · next hlow => rw [Nat.max_eq_left (Nat.le_of_lt hlow)]; rfl
    · split
      · next hhigh =>
        exact (Nat.min_eq_left (Nat.le_trans (Nat.le_of_lt hhigh) (Nat.le_max_right _ _))).symm
      · omega

/-- The paths of the leaves, in reading order. -/
def Slots.paths {α : Type} (root : Slots α) : List Path :=
  root.leaves.map Prod.fst

/-! ### Words on the clock -/

namespace Sequence

omit [Generator γ] in
/-- The sounds of leaves that stand for words are the words that are not silent. -/
theorem soundsOf_eq_words (sequence : Sequence γ String) (leaves : List (Path × Step String))
    (words : List (List Char)) (h : leaves.map Prod.snd = words.map Step.ofWord) :
    sequence.soundsOf leaves =
      (((leaves.map Prod.fst).zip words).filter fun x => x.2 ≠ ['~'] ∧ x.2 ≠ ['_']).map
        fun x => (sequence.clockAt x.1, String.ofList x.2) := by
  induction leaves generalizing words with
  | nil => rfl
  | cons leaf leaves ih =>
    cases words with
    | nil => contradiction
    | cons word words =>
      obtain ⟨path, step⟩ := leaf
      obtain ⟨hstep, hrest⟩ := List.cons.inj h
      have hlater := ih words hrest
      dsimp only at hstep
      rw [soundsOf, List.map_cons, audible_cons, ← soundsOf, hlater, List.map_cons,
        List.zip_cons_cons, List.filter_cons, hstep, Step.ofWord]
      by_cases hsilent : word = ['~'] ∨ word = ['_']
      · rw [if_pos hsilent, if_neg (by simpa [imp_iff_not_or, or_comm] using hsilent)]
        rfl
      · rw [if_neg hsilent, if_pos (by simpa [not_or] using hsilent)]
        rfl

omit [Generator γ] in
/-- The sounds of a pattern that is read are the words of its text that are not silent, each at the
clock time of its place. -/
theorem sounds_eq_words {sequence : Sequence γ String} {text : String}
    (h : Slots.read text = .ok sequence.pattern.root) :
    sequence.sounds =
      ((sequence.pattern.root.paths.zip (wordsOf text.toList)).filter
          fun x => x.2 ≠ ['~'] ∧ x.2 ≠ ['_']).map
        fun x => (sequence.clockAt x.1, String.ofList x.2) :=
  sequence.soundsOf_eq_words _ _ (Slots.map_snd_leaves_of_read h)

omit [Generator γ] in
theorem exists_leaf_of_mem_sounds {α : Type} {sequence : Sequence γ α} {sound : ClockTime × α}
    (h : sound ∈ sequence.sounds) :
    ∃ path ∈ sequence.pattern.root.paths, sound.1 = sequence.clockAt path := by
  obtain ⟨step, hstep, hsound⟩ := List.mem_filterMap.1 h
  obtain ⟨leaf, hleaf, rfl⟩ := List.mem_map.1 hstep
  obtain ⟨payload, -, rfl⟩ := Option.map_eq_some_iff.1 hsound
  exact ⟨leaf.1, List.mem_map_of_mem hleaf, rfl⟩

end Sequence

namespace Player

/-! ### Making a player -/

/-- What settings make of a text: a sequence over a new part, with the pattern that is read. Nothing
of this is heard. -/
theorem exists_of_ofSettings {settings : SessionSettings} {listener : String} {draws : γ}
    {player : Player γ} {events : List PlayerEvent}
    (h : ofSettings settings listener draws = (.ok player, events)) :
    ∃ pattern, Slots.read settings.player.pattern = .ok pattern ∧
      (Sequence.create { draws } listener pattern settings.sequence settings.timing.meter).1 =
        .ok player.sequence ∧
      events.filterMap PlayerEvent.heard? = [] := by
  rw [ofSettings] at h
  split at h
  · cases h
  · cases h
  · cases h
  · next tick duration pattern _ _ hpattern =>
    have hsilent := Sequence.heard_create { draws } listener pattern settings.sequence
      settings.timing.meter
    split at h
    · cases h
    · next sequence made hcreate =>
      rw [hcreate] at hsilent
      cases h
      refine ⟨pattern, hpattern, by rw [hcreate], ?_⟩
      rw [List.filterMap_append, List.filterMap_map]
      exact (List.append_nil _).trans hsilent

/-! ### Reading the clock -/

/-- A player whose clock is read a number of times, and the events on the way. -/
def follow (player : Player γ) : List Nat → Player γ × List PlayerEvent
  | [] => (player, [])
  | elapsed :: readings =>
    let (next, events) := player.advance elapsed
    let (last, rest) := next.follow readings
    (last, events ++ rest)

/-- The clock time of a reading, of which sixty-four bits count. -/
def timeOf (elapsed : Nat) : ClockTime :=
  Span.ofNat (UInt64.ofNat elapsed).toNat

theorem val_timeOf {elapsed : Nat} (h : elapsed < 2 ^ 53) : (timeOf elapsed).val = elapsed := by
  have hword : elapsed % 2 ^ 64 = elapsed := Nat.mod_eq_of_lt (by omega)
  have hrange : elapsed ≤ maxCount := Nat.le_trans (Nat.le_of_lt h) (by decide)
  rw [timeOf, Span.val_ofNat, UInt64.toNat_ofNat', hword, Nat.min_eq_left hrange]

theorem follow_cons (player : Player γ) (elapsed : Nat) (readings : List Nat) :
    player.follow (elapsed :: readings) =
      (((player.advance elapsed).1.follow readings).1,
        (player.advance elapsed).2 ++ ((player.advance elapsed).1.follow readings).2) := rfl

/-- The clock of a player is that of its part. -/
theorem heard_follow (player : Player γ) (readings : List Nat) :
    (player.follow readings).2.filterMap PlayerEvent.heard? =
      (player.sequence.part.run ((readings.map timeOf).map .process)).2.filterMap
        PartEvent.heard? := by
  induction readings generalizing player with
  | nil => rfl
  | cons elapsed readings ih =>
    have hhere : (player.advance elapsed).2.filterMap PlayerEvent.heard? =
        (player.sequence.part.process (timeOf elapsed)).2.filterMap PartEvent.heard? := by
      rw [← Sequence.heard_process]
      exact List.filterMap_map
    rw [follow_cons, List.filterMap_append, hhere, ih, List.map_cons, List.map_cons, Part.run_cons,
      List.filterMap_append]
    rfl

end Player

/-! ### Playing to the end -/

/-- A transport whose clock has not advanced starts at once and from the very start. -/
theorem Transport.RunsFrom.start_of_clock_eq_zero {transport : Transport}
    (hlive : transport.disposed = false) (hmode : transport.loop.mode = .off)
    (hrate : transport.rate = .one) (hclock : transport.clock = 0) :
    (transport.start none none).RunsFrom 0 0 := by
  have hidle : ¬ transport.loop.IsActive := by
    rintro ⟨henabled, -⟩
    rw [hmode] at henabled
    contradiction
  have hhome : transport.home = 0 := if_neg hidle
  have hstarted : (transport.start none none).startTime = 0 ∧
      (transport.start none none).position = 0 := by
    rw [start_of_live hlive, hhome, hclock]
    exact ⟨rfl, rfl⟩
  have hruns := start hlive hmode hrate none none
  rw [hstarted.1, hstarted.2] at hruns
  exact hruns

/-- What is heard of a plain part that plays from the very start, once every sound has been
passed. -/
theorem Part.IsPlain.heard_of_times {α : Type} {part : Part γ α} (h : part.IsPlain)
    {listener : Listener} (hlistener : part.listener = some listener)
    (hsounds : listener.hearsSilence = false) (hruns : part.transport.RunsFrom 0 0)
    (hclock : part.transport.clock = 0) {times : List ClockTime} {final : ClockTime}
    (hfinal : final ∈ times) (hle : ∀ now ∈ times, now ≤ final) (hlimit : final.val < exactLimit)
    (hpassed : ∀ sound ∈ part.schedule.sounds, sound.1 < final) :
    (part.run (times.map .process)).2.filterMap PartEvent.heard? =
      listener.told part.schedule.sounds := by
  have hzero : (0 : ClockTime).val < exactLimit := by decide
  have hall : ∀ sound ∈ part.schedule.sounds, part.transport.position ≤ sound.1 ∧
      sound.1 < (part.process final).1.transport.position := by
    intro sound hsound
    have hlt := hpassed sound hsound
    have hstart := hruns.position
    have hend := (hruns.process (α := α) hzero hlimit).1.position
    have hbehind : part.transport.clock < final := by
      rw [hclock]
      exact Nat.lt_of_le_of_lt (Nat.zero_le _) hlt
    rw [Transport.clock_process hruns.disposed hbehind] at hend
    rw [hclock] at hstart
    have hposition : (part.process final).1.transport.position.val = _ := hend
    rw [Span.lt_def] at hlt
    rw [Span.le_def, Span.lt_def, hposition, hstart, Span.val_zero]
    omega
  have hsame : ∀ sound : ClockTime × α, ((0 : ClockTime) + (sound.1 - 0), sound.2) = sound := by
    rintro ⟨time, payload⟩
    refine Prod.ext (Span.ext ?_) rfl
    have htime := time.val_le
    dsimp only
    rw [Span.val_add, Span.val_sub, Span.val_zero]
    omega
  rw [(part.run_map_process hruns.rate hfinal hle hlimit).1,
    h.heard_of_runsFrom hlistener hsounds hruns hzero hlimit,
    List.filter_eq_self.2 fun sound hsound => decide_eq_true (hall sound hsound)]
  simp only [hsame, List.map_id']

namespace Player

omit [Generator γ] in
theorem start_eq {player : Player γ} (h : player.sequence.disposed = false) :
    player.start =
      .ok (player.after (player.sequence.onPart (player.sequence.part.start none none))) := by
  rw [start, Sequence.start, Sequence.ifLive_of_not_disposed h]
  rfl

/-- What is heard of a player over a plain sequence without a loop that has not been played: its
sounds, once all of them have been passed. -/
theorem heard_of_start {player : Player γ} {name : String}
    (hlive : player.sequence.IsLive) (hplain : player.sequence.part.IsPlain)
    (hmode : player.sequence.part.transport.loop.mode = .off)
    (hclock : player.sequence.part.transport.clock = 0)
    (hlistener : player.sequence.part.listener = some { name, hearsSilence := false })
    (hsounds : player.sequence.part.schedule.sounds = player.sequence.sounds)
    {readings : List Nat} {final : Nat} (hfinal : final ∈ readings)
    (hle : ∀ elapsed ∈ readings, elapsed ≤ final) (hlimit : final < 2 ^ 53)
    (hpassed : ∀ path ∈ player.sequence.pattern.root.paths,
      (player.sequence.clockAt path).val < final) :
    ∃ started starting, player.start = .ok (started, starting) ∧
      (starting ++ (started.follow readings).2).filterMap PlayerEvent.heard? =
        Listener.told { name, hearsSilence := false } player.sequence.sounds := by
  let begun : Part γ String := (player.sequence.part.start none none).1
  have hruns : begun.transport.RunsFrom 0 0 :=
    .start_of_clock_eq_zero hlive.2 hmode hplain.rate hclock
  have hbegun : begun.IsPlain := ⟨hruns.rate, hplain.probability, hplain.humanize, hplain.mute⟩
  have hstill : begun.transport.clock = 0 := by
    have hkept : begun.transport.clock = player.sequence.part.transport.clock := by
      simp only [begun, Part.start, Transport.start, hlive.2]
      rfl
    rw [hkept, hclock]
  have htimes : ∀ now ∈ readings.map timeOf, now ≤ timeOf final := by
    intro now hnow
    obtain ⟨elapsed, helapsed, rfl⟩ := List.mem_map.1 hnow
    have hle := hle elapsed helapsed
    rw [Span.le_def, val_timeOf hlimit, val_timeOf (Nat.lt_of_le_of_lt hle hlimit)]
    exact hle
  have hpast : ∀ sound ∈ begun.schedule.sounds, sound.1 < timeOf final := by
    intro sound hsound
    have hlisted : sound ∈ player.sequence.sounds := hsounds ▸ hsound
    obtain ⟨path, hpath, htime⟩ := Sequence.exists_leaf_of_mem_sounds hlisted
    rw [htime, Span.lt_def, val_timeOf hlimit]
    exact hpassed path hpath
  have hheard := hbegun.heard_of_times hlistener rfl hruns hstill (List.mem_map_of_mem hfinal)
    htimes (by rw [val_timeOf hlimit]; exact hlimit) hpast
  let starting := player.after (player.sequence.onPart (player.sequence.part.start none none))
  have hstarting : starting.2.filterMap PlayerEvent.heard? = [] := by
    have hquiet := player.sequence.heard_start none none
    rw [Sequence.start, Sequence.ifLive_of_not_disposed hlive.1] at hquiet
    exact List.filterMap_map.trans hquiet
  refine ⟨starting.1, starting.2, start_eq hlive.1, ?_⟩
  rw [List.filterMap_append, hstarting, heard_follow]
  exact hheard.trans (congrArg _ hsounds)

/-- **From text to notes.** A player that settings describe, without a loop, at rate one, with every
step to sound at its own time and not mute, can be started. If its clock is then read any number of
times, of which none is later than the last and the last is later than every place in the pattern,
its notes are the words of the text that are not silent, in reading order and each once. The word of
a leaf sounds at the clock time to which the meter takes the offset of the path of the leaf, and the
meter is the one that is configured. -/
theorem heard_of_text {settings : SessionSettings} {listener : String} {draws : γ}
    {player : Player γ} {events : List PlayerEvent}
    (hplayer : ofSettings settings listener draws = (.ok player, events))
    (hloop : settings.sequence.loop = .off) (hrate : settings.sequence.rate = .one)
    (hprobability : settings.sequence.probability = .one)
    (hhumanize : settings.sequence.humanize = .switch false)
    (hmute : settings.sequence.mute = false) {readings : List Nat} {final : Nat}
    (hfinal : final ∈ readings) (hle : ∀ elapsed ∈ readings, elapsed ≤ final)
    (hlimit : final < 2 ^ 53)
    (hpassed : ∀ path ∈ player.sequence.pattern.root.paths,
      (player.sequence.clockAt path).val < final) :
    let sequence := player.sequence
    let words := wordsOf settings.player.pattern.toList
    let paths := sequence.pattern.root.paths
    let meter := settings.timing.meter
    Slots.read settings.player.pattern = .ok sequence.pattern.root ∧
      paths.length = words.length ∧ paths.Pairwise (· < ·) ∧
      (∀ path, sequence.clockAt path = meter.toClock
        (.ofNat (sequence.pattern.root.offsetAt sequence.subdivision.val 0 path))) ∧
      (meter.tempo.beats.toNat = max 1 settings.timing.tempo.toNat ∧
        meter.signature.beats = settings.timing.beats ∧
        meter.signature.noteValue.toNat = min 16 (max 1 settings.timing.noteValue.toNat)) ∧
      ∃ started starting, player.start = .ok (started, starting) ∧
        (events ++ starting ++ (started.follow readings).2).filterMap PlayerEvent.heard? =
          Listener.told { name := listener, hearsSilence := false }
            (((paths.zip words).filter fun x => x.2 ≠ ['~'] ∧ x.2 ≠ ['_']).map
              fun x => (sequence.clockAt x.1, String.ofList x.2)) := by
  intro sequence words paths meter
  obtain ⟨pattern, hread, hcreate, hsilent⟩ := exists_of_ofSettings hplayer
  obtain ⟨schedule, nextEntry, loop, humanize, hresolve, hmode, hpart, hpattern, hmeter, hlive⟩ :=
    Sequence.exists_of_create hcreate
  have hroot : Slots.read settings.player.pattern = .ok sequence.pattern.root := by
    rw [hread, hpattern]
  -- the part is new but for its entries and its rules
  obtain ⟨hoffset, hdisposed, hclock, hoff, hlistener⟩ :
      sequence.part.startOffset = 0 ∧ sequence.part.transport.disposed = false ∧
        sequence.part.transport.clock = 0 ∧ sequence.part.transport.loop.mode = .off ∧
        sequence.part.listener = some { name := listener, hearsSilence := false } := by
    rw [hpart]
    exact ⟨rfl, rfl, rfl, hmode.trans hloop, rfl⟩
  have hplain : sequence.part.IsPlain := by
    rw [hhumanize] at hresolve
    cases hresolve
    rw [hpart]
    exact ⟨hrate, by rw [hprobability]; exact Binary64.clampUnit_one, rfl, hmute⟩
  have hsounds : sequence.part.schedule.sounds = sequence.sounds :=
    ((Sequence.keepsLayout_of_create hcreate hlive).2 rfl).sounds_schedule
  refine ⟨hroot, ?_, ?_, fun path => ?_, settings.timing.meter_numbers, ?_⟩
  · have hlength := congrArg List.length (Slots.map_snd_leaves_of_read hroot)
    simpa only [paths, words, Slots.paths, List.length_map] using hlength
  · exact List.pairwise_map.2 sequence.pattern.root.pairwise_leaves
  · rw [Sequence.clockAt, Sequence.tickAt, hoffset, hmeter]
    rfl
  · obtain ⟨started, starting, hstart, hheard⟩ := heard_of_start ⟨hlive, hdisposed⟩ hplain hoff
      hclock hlistener hsounds hfinal hle hlimit hpassed
    refine ⟨started, starting, hstart, ?_⟩
    rw [List.append_assoc, List.filterMap_append, hsilent, List.nil_append, hheard]
    exact congrArg _ (Sequence.sounds_eq_words hroot)

/-- Words and brackets without blanks between them, groups in groups, and both kinds of silence. -/
theorem heard_of_text_nested :
    let settings : SessionSettings :=
      { player := { pattern := "a[b ~ [_ c]]\t~ de" }, sequence := { loop := .off } }
    ∃ player events started starting,
      ofSettings settings "bell" (⟨7⟩ : SplitMix) = (.ok player, events) ∧
      player.start = .ok (started, starting) ∧
      ((events ++ starting ++ (started.follow [0, 416666667, 1000000000]).2).filterMap
          PlayerEvent.heard?).map (fun call => (call.time.val, call.step)) =
        [(0, .sound "a"), (250000000, .sound "b"), (458333333, .sound "c"),
          (750000000, .sound "de")] := by
  intro settings
  have hfacts : (ofSettings settings "bell" (⟨7⟩ : SplitMix)).1.toOption.any fun player =>
      (∀ path ∈ player.sequence.pattern.root.paths,
        (player.sequence.clockAt path).val < 1000000000) ∧
      (((player.sequence.pattern.root.paths.zip (wordsOf settings.player.pattern.toList)).filter
          fun x => x.2 ≠ ['~'] ∧ x.2 ≠ ['_']).map
        fun x => ((player.sequence.clockAt x.1).val, String.ofList x.2)) =
        [(0, "a"), (250000000, "b"), (458333333, "c"), (750000000, "de")] := by decide +kernel
  cases hplayer : ofSettings settings "bell" (⟨7⟩ : SplitMix) with
  | mk result events =>
    rw [hplayer] at hfacts
    cases result with
    | error e => contradiction
    | ok player =>
      obtain ⟨hpassed, hwords⟩ := of_decide_eq_true hfacts
      have hfinal : 1000000000 ∈ [0, 416666667, 1000000000] := by decide
      obtain ⟨-, -, -, -, -, started, starting, hstart, hheard⟩ := heard_of_text hplayer rfl rfl rfl
        rfl rfl hfinal (by decide) (by decide) hpassed
      refine ⟨player, events, started, starting, rfl, hstart, ?_⟩
      rw [hheard, Listener.told, List.map_map, List.map_map]
      have htold :=
        congrArg (List.map fun note : Nat × String => (note.1, Step.sound note.2)) hwords
      rw [List.map_map] at htold
      exact htold

end Player

end Ostinato
