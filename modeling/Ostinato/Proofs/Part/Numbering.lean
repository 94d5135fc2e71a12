import Ostinato.Part.Command
import Ostinato.Proofs.Part.Soundings

/-!
# Ids of entries

A part takes the ids of its entries from the generator, one for each entry that is added. If the
generator gives no id twice, then no two entries have the same id, and the id that comes with a call
tells its entry.

## Main definitions

* `Part.IsNumbered`: the entries have ids of their own, which have been given already.
* `PartEvent.told?`: a call that tells the listener, with the id of its entry.

## Main results

* `Part.IsNumbered.perform`, `Part.IsNumbered.run`: a command and a run keep it up.
* `Part.fireAt_cases`: what becomes of an entry is drawn without regard to the entry.
* `Part.exists_of_mem_told`: the listener is told of entries of the schedule.
-/

namespace Ostinato

variable {γ α : Type} [Generator γ]

theorem Entry.insertInto_perm (entry : Entry α) (entries : List (Entry α)) :
    (entry.insertInto entries).Perm (entry :: entries) := by
  induction entries with
  | nil => exact .refl _
  | cons other entries ih =>
    rw [Entry.insertInto]
    split
    · exact (ih.cons other).trans (.swap entry other entries)
    · exact .refl _

theorem Schedule.entries_insert_perm (schedule : Schedule α) (entry : Entry α) :
    (schedule.insert entry).entries.Perm (entry :: schedule.entries) :=
  ((schedule.insert entry).latestFirst.reverse_perm.trans (entry.insertInto_perm _)).trans
    (schedule.latestFirst.reverse_perm.symm.cons entry)

/-! ### Ids -/

namespace Part

/-- Whether the entries of a part have ids of their own, all of which have been given already. -/
structure IsNumbered (part : Part γ α) : Prop where
  given : ∀ entry ∈ part.schedule.entries,
    ∃ earlier < part.nextEntry, Generator.entryId γ earlier = entry.id
  distinct : (part.schedule.entries.map Entry.id).Nodup

theorem isNumbered_of_empty {part : Part γ α} (h : part.schedule = .empty) : part.IsNumbered := by
  constructor
  · rw [h]
    exact fun _ hentry => nomatch hentry
  · rw [h]
    exact List.nodup_nil

namespace IsNumbered

theorem congr {part other : Part γ α} (h : part.IsNumbered)
    (hschedule : other.schedule = part.schedule) (hnext : other.nextEntry = part.nextEntry) :
    other.IsNumbered := by
  constructor
  · rw [hschedule, hnext]
    exact h.given
  · rw [hschedule]
    exact h.distinct

theorem nextId_ne [DistinctIds γ] {part : Part γ α} (h : part.IsNumbered) {entry : Entry α}
    (hentry : entry ∈ part.schedule.entries) : entry.id ≠ part.nextId := by
  obtain ⟨earlier, hlt, hid⟩ := h.given entry hentry
  rw [← hid, nextId]
  exact fun hsame => Nat.ne_of_lt hlt (DistinctIds.injective hsame)

theorem add [DistinctIds γ] {part : Part γ α} (h : part.IsNumbered) (time : ClockTime)
    (step : Step α) : (part.add time step).IsNumbered := by
  have hperm : (part.add time step).schedule.entries.Perm
      (⟨part.nextId, time, step⟩ :: part.schedule.entries) :=
    part.schedule.entries_insert_perm _
  constructor
  · intro entry hentry
    rcases List.mem_cons.1 (hperm.mem_iff.1 hentry) with rfl | hold
    · exact ⟨part.nextEntry, Nat.lt_succ_self _, rfl⟩
    · obtain ⟨earlier, hlt, hid⟩ := h.given entry hold
      exact ⟨earlier, Nat.lt_succ_of_lt hlt, hid⟩
  · rw [(hperm.map Entry.id).nodup_iff, List.map_cons, List.nodup_cons]
    refine ⟨fun hmem => ?_, h.distinct⟩
    obtain ⟨entry, hentry, hid⟩ := List.mem_map.1 hmem
    exact h.nextId_ne hentry hid

theorem remove {part : Part γ α} (h : part.IsNumbered) (id : Nat) :
    (part.remove id).IsNumbered := by
  have hentries : (part.remove id).schedule.entries = part.schedule.entries.filter (·.id != id) :=
    part.schedule.entries_remove id
  constructor
  · rw [hentries]
    exact fun entry hentry => h.given entry (List.mem_filter.1 hentry).1
  · rw [hentries]
    exact h.distinct.sublist (List.filter_sublist.map Entry.id)

/-- A command keeps the ids of entries apart. -/
theorem perform [DistinctIds γ] {part : Part γ α} (h : part.IsNumbered) (command : Command α) :
    (part.perform command).1.IsNumbered := by
  cases command with
  | add time step => exact h.add time step
  | remove id => exact h.remove id
  | clear | dispose => exact isNumbered_of_empty rfl
  | _ => exact h.congr rfl rfl

/-- In any state that a part comes to, no two entries have the same id. -/
theorem run [DistinctIds γ] {part : Part γ α} (h : part.IsNumbered) (commands : List (Command α)) :
    (part.run commands).1.IsNumbered := by
  induction commands generalizing part with
  | nil => exact h
  | cons command commands ih => exact ih (h.perform command)

end IsNumbered

end Part

/-! ### Calls and their entries -/

/-- The call by which the listener is told of a step, and the id of its entry. -/
def PartEvent.told? (event : PartEvent α) : Option (Nat × Call α) :=
  match event with
  | .fired entry _ => event.heard?.map fun call => (entry, call)
  | _ => none

theorem PartEvent.map_snd_told? (event : PartEvent α) :
    event.told?.map Prod.snd = event.heard? := by
  cases event with
  | fired entry call =>
    rw [told?, Option.map_map]
    exact congrFun Option.map_id _
  | _ => rfl

namespace Part

/-- What becomes of an entry that comes up is drawn without regard to the entry: the listener is
told at some clock time, or it is left out. -/
theorem fireAt_cases (part : Part γ α) (listener : Listener) (time : ClockTime) (draws : γ) :
    (∃ told next, ∀ entry : Entry α, part.fireAt listener time entry draws =
        (.fired entry.id ⟨listener, told, entry.step⟩, next)) ∨
      ∃ next, ∀ entry : Entry α, part.fireAt listener time entry draws =
        (.skipped entry.id entry.time, next) := by
  cases hadmission : part.drawAdmission draws with
  | mk admitted next =>
    cases admitted with
    | true =>
      refine .inl ⟨(part.humanize.move time next).1, (part.humanize.move time next).2,
        fun entry => ?_⟩
      rw [fireAt, hadmission]
      rfl
    | false =>
      refine .inr ⟨next, fun entry => ?_⟩
      rw [fireAt, hadmission]
      rfl

/-- The listener is told of soundings. -/
theorem exists_of_mem_told_voice {part : Part γ α} {listener : Listener} {draws : γ}
    {soundings : List (ClockTime × Entry α)} {told : Nat × Call α}
    (h : told ∈ (part.voice listener draws soundings).1.filterMap PartEvent.told?) :
    ∃ sounding ∈ soundings, sounding.2.id = told.1 ∧ sounding.2.step = told.2.step := by
  induction soundings generalizing draws with
  | nil => exact absurd h List.not_mem_nil
  | cons sounding rest ih =>
    obtain ⟨time, entry⟩ := sounding
    rw [voice_cons, ← List.singleton_append, List.filterMap_append, List.mem_append] at h
    rcases h with h | h
    · refine ⟨(time, entry), List.mem_cons_self, ?_⟩
      rcases part.fireAt_cases listener time draws with ⟨clock, next, hfire⟩ | ⟨next, hfire⟩
      · obtain ⟨event, hevent, htold⟩ := List.mem_filterMap.1 h
        rw [hfire] at hevent
        cases List.mem_singleton.1 hevent
        obtain ⟨call, hcall, rfl⟩ := Option.map_eq_some_iff.1 htold
        rw [PartEvent.heard?] at hcall
        split at hcall
        · cases hcall
          exact ⟨rfl, rfl⟩
        · contradiction
      · rw [hfire] at h
        exact absurd h List.not_mem_nil
    · obtain ⟨sounding, hmem, hentry⟩ := ih h
      exact ⟨sounding, List.mem_cons_of_mem _ hmem, hentry⟩

/-- While the clock advances, the listener is told of entries of the schedule. -/
theorem exists_of_mem_told {part : Part γ α} {now : ClockTime} {told : Nat × Call α}
    (h : told ∈ (part.process now).2.filterMap PartEvent.told?) :
    ∃ entry ∈ part.schedule.entries, entry.id = told.1 ∧ entry.step = told.2.step := by
  have hplay : told ∈
      (part.play (part.transport.process now).stretches).1.filterMap PartEvent.told? := by
    rw [process] at h
    dsimp only at h
    rw [List.filterMap_append, List.mem_append] at h
    rcases h with h | h
    · exact h
    · cases hfinished : (part.transport.process now).finishedAt <;>
        rw [hfinished] at h <;> exact absurd h List.not_mem_nil
  rw [play_eq_voice] at hplay
  split at hplay
  · exact absurd hplay List.not_mem_nil
  · obtain ⟨⟨time, entry⟩, hsounding, hentry⟩ := exists_of_mem_told_voice hplay
    refine ⟨entry, ?_, hentry⟩
    obtain ⟨stretch, -, hstretch⟩ := List.mem_flatMap.1 hsounding
    obtain ⟨other, hother, heq⟩ := List.mem_map.1 hstretch
    cases heq
    rw [Schedule.between_eq_filter] at hother
    exact (List.mem_filter.1 hother).1

end Part

end Ostinato
