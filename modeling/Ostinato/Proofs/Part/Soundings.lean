import Ostinato.Proofs.Part.Walk

/-!
# Soundings

An entry that is met on a stretch comes up at the clock time of its position. What a part makes of
the stretches that it plays depends on these soundings only, and not on where one stretch ends and
the next begins. So two ways of cutting a length into stretches sound the same if they bring up the
same entries at the same clock times.

## Main definitions

* `Schedule.soundings`: the entries met on stretches, each with the clock time at which it comes up.
* `Part.fireAt`, `Part.voice`: what becomes of an entry at a clock time, and of a list of them.

## Main results

* `Part.play_eq_voice`: playing stretches is voicing their soundings.
* `Part.play_append`: stretches are played one after the other.
* `Part.voice_append`: voicing can be cut anywhere.
* `Part.voice_eq_map`: without random draws, every sounding is told as it is.
* `Schedule.soundings_cut`: at rate one a stretch can be cut anywhere.
-/

namespace Ostinato

variable {γ α : Type} [Generator γ]

/-! ### Soundings of stretches -/

namespace Schedule

/-- The entries met on stretches, each with the clock time at which its position is played at a
rate. -/
def soundings (schedule : Schedule α) (rate : Binary64) (stretches : List Stretch) :
    List (ClockTime × Entry α) :=
  stretches.flatMap fun stretch =>
    (schedule.between stretch.start stretch.finish).map fun entry =>
      (stretch.clock + ClockTime.unscale (entry.time - stretch.start) rate, entry)

@[simp] theorem soundings_append (schedule : Schedule α) (rate : Binary64)
    (before after : List Stretch) :
    schedule.soundings rate (before ++ after) =
      schedule.soundings rate before ++ schedule.soundings rate after :=
  List.flatMap_append

/-- At rate one the positions of a stretch pass as fast as the clock. -/
theorem soundings_singleton (schedule : Schedule α) {stretch : Stretch}
    (hlimit : (stretch.finish - stretch.start).val < exactLimit) :
    schedule.soundings .one [stretch] =
      (schedule.entries.filter (·.isWithin stretch.start.val stretch.finish.val)).map
        fun entry => (stretch.clock + (entry.time - stretch.start), entry) := by
  rw [soundings, List.flatMap_singleton, between_eq_filter_isWithin]
  refine List.map_congr_left fun entry hentry => ?_
  have hlt := (of_decide_eq_true (List.mem_filter.1 hentry).2).2
  rw [Span.val_sub] at hlimit
  rw [ClockTime.unscale_one (by rw [Span.val_sub]; omega)]

/-- At rate one a stretch can be cut anywhere. Where the cut is at the last position of all, nothing
is left behind it. -/
theorem soundings_cut (schedule : Schedule α) {start finish length : ClockTime} (clock : ClockTime)
    (hreach : start + length ≤ finish) (hlimit : (finish - start).val < exactLimit) :
    schedule.soundings .one [⟨start, finish, clock⟩] =
      schedule.soundings .one [⟨start, start + length, clock⟩] ++
        schedule.soundings .one [⟨start + length, finish, clock + length⟩] := by
  have hstart := start.val_le
  have hfinish := finish.val_le
  rw [Span.le_def, Span.val_add] at hreach
  rw [Span.val_sub] at hlimit
  have hfirst : start.val ≤ (start + length).val := by
    rw [Span.val_add]
    omega
  have hlast : (start + length).val ≤ finish.val := by
    rw [Span.val_add]
    omega
  have hcut := schedule.inOrder_entries.filter_isWithin_append hfirst hlast
  rw [soundings_singleton _ (by simpa only [Span.val_sub] using hlimit),
    soundings_singleton _ (by simp only [Span.val_sub, Span.val_add]; omega),
    soundings_singleton _ (by simp only [Span.val_sub, Span.val_add]; omega), ← hcut,
    List.map_append]
  congr 1
  refine List.map_congr_left fun entry hentry => Prod.ext (Span.ext ?_) rfl
  obtain ⟨hge, hlt⟩ := of_decide_eq_true (List.mem_filter.1 hentry).2
  rw [Span.val_add] at hge
  simp only [Span.val_add, Span.val_sub]
  omega

/-- At rate one the last of the stretches that have been played can be cut. -/
theorem soundings_cut_last (schedule : Schedule α) {start finish length : ClockTime}
    (clock : ClockTime) (played : List Stretch) (hreach : start + length ≤ finish)
    (hlimit : (finish - start).val < exactLimit) :
    schedule.soundings .one (⟨start, finish, clock⟩ :: played).reverse =
      schedule.soundings .one (⟨start, start + length, clock⟩ :: played).reverse ++
        schedule.soundings .one [⟨start + length, finish, clock + length⟩] := by
  rw [List.reverse_cons, List.reverse_cons, soundings_append, soundings_append,
    schedule.soundings_cut clock hreach hlimit, List.append_assoc]

end Schedule

/-! ### Voicing -/

namespace Part

/-- What becomes of an entry that comes up at a clock time. -/
def fireAt (part : Part γ α) (listener : Listener) (time : ClockTime) (entry : Entry α)
    (draws : γ) : PartEvent α × γ :=
  let (admitted, draws) := part.drawAdmission draws
  if admitted then
    let (time, draws) := part.humanize.move time draws
    (.fired entry.id ⟨listener, time, entry.step⟩, draws)
  else
    (.skipped entry.id entry.time, draws)

/-- What becomes of entries that come up at clock times, in order. -/
def voice (part : Part γ α) (listener : Listener) (draws : γ) :
    List (ClockTime × Entry α) → List (PartEvent α) × γ
  | [] => ([], draws)
  | (time, entry) :: rest =>
    let (event, draws) := part.fireAt listener time entry draws
    let (events, draws) := part.voice listener draws rest
    (event :: events, draws)

@[simp] theorem voice_nil (part : Part γ α) (listener : Listener) (draws : γ) :
    part.voice listener draws [] = ([], draws) := rfl

theorem voice_cons (part : Part γ α) (listener : Listener) (draws : γ) (time : ClockTime)
    (entry : Entry α) (rest : List (ClockTime × Entry α)) :
    part.voice listener draws ((time, entry) :: rest) =
      ((part.fireAt listener time entry draws).1 ::
          (part.voice listener (part.fireAt listener time entry draws).2 rest).1,
        (part.voice listener (part.fireAt listener time entry draws).2 rest).2) := rfl

/-- Voicing can be cut anywhere: the draws go on where they were left. -/
theorem voice_append (part : Part γ α) (listener : Listener) (draws : γ)
    (before after : List (ClockTime × Entry α)) :
    part.voice listener draws (before ++ after) =
      ((part.voice listener draws before).1 ++
          (part.voice listener (part.voice listener draws before).2 after).1,
        (part.voice listener (part.voice listener draws before).2 after).2) := by
  induction before generalizing draws with
  | nil => rfl
  | cons sounding before ih =>
    obtain ⟨time, entry⟩ := sounding
    rw [List.cons_append, voice_cons, voice_cons, ih]
    rfl

/-- Voicing asks a part only for its probability and its deviations. -/
theorem voice_congr {part other : Part γ α} (hprobability : other.probability = part.probability)
    (hhumanize : other.humanize = part.humanize) (listener : Listener) (draws : γ)
    (soundings : List (ClockTime × Entry α)) :
    other.voice listener draws soundings = part.voice listener draws soundings := by
  induction soundings generalizing draws with
  | nil => rfl
  | cons sounding rest ih =>
    obtain ⟨time, entry⟩ := sounding
    have hfire :
        other.fireAt listener time entry draws = part.fireAt listener time entry draws := by
      rw [fireAt, fireAt, drawAdmission, drawAdmission, hprobability, hhumanize]
    rw [voice_cons, voice_cons, hfire, ih]

theorem fireAll_cons (part : Part γ α) (listener : Listener) (events : List (PartEvent α))
    (draws : γ) (stretch : Stretch) (entry : Entry α) (rest : List (Stretch × Entry α)) :
    part.fireAll listener events draws ((stretch, entry) :: rest) =
      part.fireAll listener
        ((part.fireAt listener (part.soundingTime stretch entry) entry draws).1 :: events)
        (part.fireAt listener (part.soundingTime stretch entry) entry draws).2 rest := rfl

theorem fireAll_eq_voice (part : Part γ α) (listener : Listener) (events : List (PartEvent α))
    (draws : γ) (met : List (Stretch × Entry α)) :
    part.fireAll listener events draws met =
      (events.reverse ++ (part.voice listener draws
          (met.map fun e => (part.soundingTime e.1 e.2, e.2))).1,
        (part.voice listener draws (met.map fun e => (part.soundingTime e.1 e.2, e.2))).2) := by
  induction met generalizing events draws with
  | nil => rw [fireAll, List.map_nil, voice_nil, List.append_nil]
  | cons head rest ih =>
    obtain ⟨stretch, entry⟩ := head
    rw [fireAll_cons, List.map_cons, voice_cons, ih, List.reverse_cons, List.append_assoc,
      List.singleton_append]

omit [Generator γ] in
theorem map_soundingTime_met (part : Part γ α) (stretches : List Stretch) :
    ((part.met stretches).map fun e => (part.soundingTime e.1 e.2, e.2)) =
      part.schedule.soundings part.transport.rate stretches := by
  rw [met, List.map_flatMap, Schedule.soundings]
  simp only [List.map_map]
  rfl

/-- Playing stretches is voicing their soundings, if there is an audience. -/
theorem play_eq_voice (part : Part γ α) (stretches : List Stretch) :
    part.play stretches =
      match part.audience with
      | none => ([], part.draws)
      | some listener => part.voice listener part.draws
          (part.schedule.soundings part.transport.rate stretches) := by
  rw [play]
  cases part.audience with
  | none => rfl
  | some listener =>
    rw [← map_soundingTime_met]
    exact fireAll_eq_voice part listener [] part.draws _

theorem play_setTransport (part : Part γ α) {transport : Transport}
    (hrate : transport.rate = part.transport.rate) (stretches : List Stretch) :
    { part with transport }.play stretches = part.play stretches := by
  have haudience : { part with transport }.audience = part.audience := rfl
  rw [play_eq_voice, play_eq_voice, haudience, ← hrate]
  cases part.audience with
  | none => rfl
  | some listener => exact @voice_congr γ α _ part { part with transport } rfl rfl listener _ _

/-- Stretches are sounded one after the other: the draws go on where they were left. -/
theorem play_append (part : Part γ α) (before after : List Stretch) :
    part.play (before ++ after) =
      ((part.play before).1 ++ ({ part with draws := (part.play before).2 }.play after).1,
        ({ part with draws := (part.play before).2 }.play after).2) := by
  have haudience : ∀ draws : γ, { part with draws }.audience = part.audience := fun _ => rfl
  simp only [play_eq_voice, haudience]
  cases part.audience with
  | none => rfl
  | some listener =>
    have hvoice : ∀ (draws : γ) start soundings,
        { part with draws }.voice listener start soundings = part.voice listener start soundings :=
      fun draws => @voice_congr γ α _ part { part with draws } rfl rfl listener
    simp only [hvoice, Schedule.soundings_append, voice_append]

/-! ### Voicing without draws -/

/-- Whether a part lets every entry sound at its own time. -/
def IsExact (part : Part γ α) : Prop :=
  part.probability = .one ∧ part.humanize = .off

theorem IsExact.fireAt_eq {part : Part γ α} (h : part.IsExact) (listener : Listener)
    (time : ClockTime) (entry : Entry α) (draws : γ) :
    part.fireAt listener time entry draws =
      (.fired entry.id ⟨listener, time, entry.step⟩, draws) := by
  have hadmitted : part.drawAdmission draws = (true, draws) := by
    rw [drawAdmission, h.1, Binary64.lt_irrefl]
    rfl
  have hmove : Humanize.off.move time draws = (time, draws) := rfl
  rw [fireAt, hadmitted, h.2]
  simp only [hmove, ↓reduceIte]

/-- Without random draws every sounding is told as it is. -/
theorem IsExact.voice_eq_map {part : Part γ α} (h : part.IsExact) (listener : Listener)
    (draws : γ) (soundings : List (ClockTime × Entry α)) :
    part.voice listener draws soundings =
      (soundings.map fun s => .fired s.2.id ⟨listener, s.1, s.2.step⟩, draws) := by
  induction soundings with
  | nil => rfl
  | cons sounding rest ih =>
    obtain ⟨time, entry⟩ := sounding
    rw [voice_cons, h.fireAt_eq, ih, List.map_cons]

end Part

end Ostinato
