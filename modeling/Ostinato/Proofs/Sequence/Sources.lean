import Ostinato.Proofs.Part.Numbering
import Ostinato.Proofs.Sequence.Sounds

/-!
# Sources of calls

Every call comes from a leaf of the pattern: the id of its entry tells which entry of the part
it is, and the entries stand in the order of the leaves.

## Main definitions

* `Sequence.leafOf?`: the leaf that an entry stands for.
* `Sequence.sources`, `Sequence.sourced`: the calls among events and along a run, with their leaves.
* `Sequence.IsTraced`: what leads from an entry to its leaf.
* `Sequence.Command.steers`: whether a command steers the part without regard to the entries.

## Main results

* `Sequence.IsTraced.perform`, `Sequence.isTraced_of_create`: every entry leads to its leaf.
* `Sequence.heard_perform_of_ne_process`: only the steps of the clock are heard.
* `Sequence.IsTraced.map_snd_sourced`: along any run, every call has a leaf.
* `Sequence.IsTraced.get?_of_mem_sourced`: the leaf of a call has its step.
-/

namespace Ostinato

variable {γ α : Type} [Generator γ]

/-- The call by which the listener is told of a step, and the id of its entry. -/
def SequenceEvent.told? : SequenceEvent α → Option (Nat × Call α)
  | .part event => event.told?
  | _ => none

namespace Sequence

/-! ### Calls and their leaves -/

/-- The path of the leaf that the entry with an id stands for: the entries are in the order of
the leaves. -/
def leafOf? (sequence : Sequence γ α) (id : Nat) : Option Path :=
  sequence.pattern.root.leaves[(sequence.part.schedule.entries.map Entry.id).idxOf id]?.map Prod.fst

/-- The calls among what the listener is told, each with the path of its leaf. -/
def traced (sequence : Sequence γ α) (told : List (Nat × Call α)) : List (Path × Call α) :=
  told.filterMap fun call => (sequence.leafOf? call.1).map fun path => (path, call.2)

/-- The calls among events, each with the path of its leaf. -/
def sources (sequence : Sequence γ α) (events : List (SequenceEvent α)) : List (Path × Call α) :=
  sequence.traced (events.filterMap SequenceEvent.told?)

/-- The calls along a run, each with the path of the leaf that it comes from. -/
def sourced (sequence : Sequence γ α) : List (Command α) → List (Path × Call α)
  | [] => []
  | command :: commands =>
    sequence.sources (sequence.perform command).events ++
      (sequence.perform command).sequence.sourced commands

omit [Generator γ] in
theorem map_snd_traced (sequence : Sequence γ α) {told : List (Nat × Call α)}
    (h : ∀ call ∈ told, (sequence.leafOf? call.1).isSome) :
    (sequence.traced told).map Prod.snd = told.map Prod.snd := by
  rw [traced, List.map_filterMap, ← List.filterMap_eq_map]
  refine List.filterMap_congr fun call hcall => ?_
  obtain ⟨path, hpath⟩ := Option.isSome_iff_exists.1 (h call hcall)
  rw [hpath]
  rfl

/-! ### From entries to leaves -/

/-- What leads from an entry to its leaf: entries have ids of their own, and they are laid out,
unless there are none. -/
structure IsTraced (sequence : Sequence γ α) : Prop where
  listener : ∀ listener ∈ sequence.part.listener, listener.hearsSilence = false
  layout : sequence.pattern.root.HasNoEmptyGroup
  numbered : sequence.part.IsNumbered
  entries : sequence.part.schedule = .empty ∨ sequence.IsLaidOut

/-- An entry stands for the leaf with its index. -/
theorem leafOf?_getElem {sequence : Sequence γ α} (h : sequence.part.IsNumbered) {i : Nat}
    (hi : i < sequence.part.schedule.entries.length) :
    sequence.leafOf? sequence.part.schedule.entries[i].id =
      sequence.pattern.root.leaves[i]?.map Prod.fst := by
  have hids : i < (sequence.part.schedule.entries.map Entry.id).length := by
    rwa [List.length_map]
  have hindex := h.distinct.idxOf_getElem i hids
  rw [List.getElem_map] at hindex
  rw [leafOf?, hindex]

/-- The entry with an index has the clock time and the step of the leaf with that index. -/
theorem IsLaidOut.exists_leaf {sequence : Sequence γ α} (h : sequence.IsLaidOut)
    (hnumbered : sequence.part.IsNumbered) {i : Nat}
    (hi : i < sequence.part.schedule.entries.length) :
    ∃ path step, sequence.pattern.root.leaves[i]? = some (path, step) ∧
      sequence.leafOf? sequence.part.schedule.entries[i].id = some path ∧
      sequence.part.schedule.entries[i].timed = (sequence.clockAt path, step) := by
  have hget := congrArg (·[i]?) h.entries_eq
  simp only [List.getElem?_map, List.getElem?_eq_getElem hi, Option.map_some] at hget
  cases hleaf : sequence.pattern.root.leaves[i]? with
  | none =>
    rw [hleaf] at hget
    contradiction
  | some leaf =>
    rw [hleaf, Option.map_some] at hget
    refine ⟨leaf.1, leaf.2, rfl, ?_, Option.some.inj hget⟩
    rw [leafOf?_getElem hnumbered, hleaf, Option.map_some]

/-- An entry stands for a leaf with its step. -/
theorem IsTraced.exists_leaf {sequence : Sequence γ α} (h : sequence.IsTraced) {entry : Entry α}
    (hentry : entry ∈ sequence.part.schedule.entries) :
    ∃ path, sequence.leafOf? entry.id = some path ∧
      sequence.pattern.root.get? path = some (.leaf entry.step) := by
  rcases h.entries with hempty | hlaid
  · rw [hempty] at hentry
    exact absurd hentry List.not_mem_nil
  · obtain ⟨i, hi, rfl⟩ := List.getElem_of_mem hentry
    obtain ⟨path, step, hleaf, hleafOf, htimed⟩ := hlaid.exists_leaf h.numbered hi
    refine ⟨path, hleafOf, ?_⟩
    rw [← Slots.mem_leaves, (Prod.mk.inj htimed).2]
    exact List.mem_of_getElem? hleaf

/-! ### What a command keeps up -/

theorem isNumbered_relaid [DistinctIds γ] (sequence : Sequence γ α) :
    sequence.relaid.part.IsNumbered := by
  have hfoldl : ∀ (placements : List (Placement α)) (part : Part γ α), part.IsNumbered →
      (placements.foldl (fun part placement =>
        part.add (sequence.meter.toClock placement.offset) placement.step) part).IsNumbered := by
    intro placements
    induction placements with
    | nil => exact fun _ h => h
    | cons placement placements ih => exact fun part h => ih _ (h.add _ _)
  exact (hfoldl _ sequence.part.clear (Part.isNumbered_of_empty rfl)).congr rfl rfl

theorem isTraced_relaid [DistinctIds γ] {sequence : Sequence γ α}
    (hlistener : ∀ listener ∈ sequence.part.listener, listener.hearsSilence = false)
    (hlayout : sequence.pattern.root.HasNoEmptyGroup) : sequence.relaid.IsTraced := by
  obtain ⟨schedule, nextEntry, hrelaid, -⟩ := sequence.exists_relaid
  refine ⟨?_, ?_, sequence.isNumbered_relaid, .inr (isLaidOut_relaid hlayout)⟩
  · rw [hrelaid]
    exact hlistener
  · rw [hrelaid]
    exact hlayout

/-- Whether a command steers the part without regard to the entries. -/
def Command.steers : Command α → Bool
  | .clear | .dispose | .process _ => false
  | command => !command.laysOut

theorem sharesLayout_of_steers (sequence : Sequence γ α) {command : Command α}
    (h : command.steers = true) : sequence.SharesLayout (sequence.perform command).sequence := by
  rcases sequence.perform_cases command with hlays | rfl | rfl | ⟨-, hshares⟩
  · cases command <;> contradiction
  · contradiction
  · contradiction
  · exact hshares

/-- A command that steers the part leaves the listener and the ids of the entries alone. -/
theorem perform_of_steers (sequence : Sequence γ α) {command : Command α}
    (h : command.steers = true) :
    (sequence.perform command).sequence.part.listener = sequence.part.listener ∧
      (sequence.perform command).sequence.part.nextEntry = sequence.part.nextEntry := by
  have hlive : ∀ outcome : Outcome γ α,
      outcome.sequence.part.listener = sequence.part.listener ∧
        outcome.sequence.part.nextEntry = sequence.part.nextEntry →
      (sequence.ifLive outcome).sequence.part.listener = sequence.part.listener ∧
        (sequence.ifLive outcome).sequence.part.nextEntry = sequence.part.nextEntry := by
    intro outcome houtcome
    rw [ifLive]
    split
    · exact ⟨rfl, rfl⟩
    · exact houtcome
  -- for any loop: where its window lies is of no account here
  have hloop : ∀ (base : Sequence γ α) (loop : Loop),
      (base.onPart (sequence.part.setLoop loop, [])).sequence.part.listener =
          sequence.part.listener ∧
        (base.onPart (sequence.part.setLoop loop, [])).sequence.part.nextEntry =
          sequence.part.nextEntry := fun _ _ => ⟨rfl, rfl⟩
  cases command with
  | clear | dispose | process | setPattern | setAt | insertAt | removeAt | setStartOffset =>
    contradiction
  | stop time => exact ⟨rfl, rfl⟩
  | start | setHumanize | setMute => exact hlive _ ⟨rfl, rfl⟩
  | setLoopMode | setLoopStart | setLoopEnd => exact hlive _ (hloop _ _)
  | setRate rate =>
    refine hlive _ ?_
    split <;> exact ⟨rfl, rfl⟩
  | setProbability probability =>
    refine hlive _ ?_
    split <;> exact ⟨rfl, rfl⟩

theorem Command.kinds (command : Command α) :
    command.laysOut = true ∨ command = .clear ∨ command = .dispose ∨
      (∃ now, command = .process now) ∨ command.steers = true := by
  cases command <;> simp [laysOut, steers]

/-- A command keeps up what leads from an entry to its leaf. -/
theorem IsTraced.perform [DistinctIds γ] {sequence : Sequence γ α} (h : sequence.IsTraced)
    (command : Command α) :
    (sequence.perform command).sequence.IsTraced := by
  rcases command.kinds with hlays | rfl | rfl | ⟨now, rfl⟩ | hsteers
  · rcases perform_eq_of_laysOut (fun _ => h.layout) hlays with
      ⟨pattern, startOffset, event, hlayout, hperform⟩ | ⟨events, error, hperform⟩
    · rw [hperform]
      exact isTraced_relaid h.listener hlayout
    · rw [hperform]
      exact h
  · exact ⟨h.listener, h.layout, Part.isNumbered_of_empty rfl, .inl rfl⟩
  · refine ⟨nofun, fun path hpath => ?_, Part.isNumbered_of_empty rfl, .inl rfl⟩
    cases path <;> contradiction
  · exact ⟨h.listener, h.layout, h.numbered.congr rfl rfl, h.entries⟩
  · obtain ⟨hlistener, hnext⟩ := sequence.perform_of_steers hsteers
    have hshares := sequence.sharesLayout_of_steers hsteers
    refine ⟨?_, ?_, h.numbered.congr hshares.schedule hnext, ?_⟩
    · rw [hlistener]
      exact h.listener
    · rw [hshares.pattern]
      exact h.layout
    · rw [hshares.schedule]
      exact h.entries.imp_right hshares.isLaidOut

/-! ### What is heard of a command -/

/-- Only the steps of the clock are heard. -/
theorem heard_perform_of_ne_process (sequence : Sequence γ α) {command : Command α}
    (h : ∀ now, command ≠ .process now) :
    (sequence.perform command).events.filterMap SequenceEvent.heard? = [] := by
  have hlive : ∀ outcome : Outcome γ α, outcome.events.filterMap SequenceEvent.heard? = [] →
      (sequence.ifLive outcome).events.filterMap SequenceEvent.heard? = [] := by
    intro outcome houtcome
    rw [ifLive]
    split
    · rfl
    · exact houtcome
  cases command with
  | process now => exact absurd rfl (h now)
  | setPattern | setAt | insertAt | removeAt | setStartOffset =>
    exact sequence.heard_perform_of_laysOut rfl
  | start time index => exact sequence.heard_start time index
  | clear => rfl
  | stop time =>
    rw [Sequence.perform, stop, onPart, Part.stop]
    cases sequence.part.transport.stopTimeFor? time <;> rfl
  | dispose =>
    rw [Sequence.perform, dispose, Part.dispose]
    dsimp only
    cases sequence.disposed <;> cases sequence.part.transport.disposed <;> rfl
  | setLoopMode | setLoopStart | setLoopEnd | setHumanize | setMute => exact hlive _ rfl
  | setRate rate =>
    refine hlive _ ?_
    split
    · rw [onPart, Part.setRate]
      split <;> rfl
    · rfl
  | setProbability probability =>
    refine hlive _ ?_
    split <;> rfl

theorem map_snd_told (events : List (SequenceEvent α)) :
    (events.filterMap SequenceEvent.told?).map Prod.snd =
      events.filterMap SequenceEvent.heard? := by
  rw [List.map_filterMap]
  refine List.filterMap_congr fun event _ => ?_
  cases event with
  | part event => exact event.map_snd_told?
  | _ => rfl

theorem told_process (sequence : Sequence γ α) (now : ClockTime) :
    (sequence.process now).events.filterMap SequenceEvent.told? =
      (sequence.part.process now).2.filterMap PartEvent.told? :=
  List.filterMap_map

/-- Every call that is told comes from a leaf with its step. -/
theorem IsTraced.exists_leaf_of_mem_told {sequence : Sequence γ α} (h : sequence.IsTraced)
    (command : Command α) {call : Nat × Call α}
    (hcall : call ∈ (sequence.perform command).events.filterMap SequenceEvent.told?) :
    ∃ path, sequence.leafOf? call.1 = some path ∧
      sequence.pattern.root.get? path = some (.leaf call.2.step) := by
  by_cases hprocess : ∃ now, command = .process now
  · obtain ⟨now, rfl⟩ := hprocess
    rw [Sequence.perform, told_process] at hcall
    obtain ⟨entry, hentry, hid, hstep⟩ := Part.exists_of_mem_told hcall
    rw [← hid, ← hstep]
    exact h.exists_leaf hentry
  · have hquiet := sequence.heard_perform_of_ne_process fun now hnow => hprocess ⟨now, hnow⟩
    rw [← map_snd_told, List.map_eq_nil_iff] at hquiet
    rw [hquiet] at hcall
    exact absurd hcall List.not_mem_nil

/-- No call of a command is lost when its leaf is looked up. -/
theorem IsTraced.map_snd_sources {sequence : Sequence γ α} (h : sequence.IsTraced)
    (command : Command α) :
    (sequence.sources (sequence.perform command).events).map Prod.snd =
      (sequence.perform command).events.filterMap SequenceEvent.heard? := by
  rw [sources, sequence.map_snd_traced, map_snd_told]
  intro call hcall
  obtain ⟨path, hpath, -⟩ := h.exists_leaf_of_mem_told command hcall
  exact Option.isSome_iff_exists.2 ⟨path, hpath⟩

/-- **Calls and leaves.** Along any run, every call comes from a leaf. -/
theorem IsTraced.map_snd_sourced [DistinctIds γ] {sequence : Sequence γ α} (h : sequence.IsTraced)
    (commands : List (Command α)) :
    (sequence.sourced commands).map Prod.snd =
      (sequence.run commands).2.filterMap SequenceEvent.heard? := by
  induction commands generalizing sequence with
  | nil => rfl
  | cons command commands ih =>
    rw [sourced, List.map_append, h.map_snd_sources, ih (h.perform command), run_cons,
      List.filterMap_append]

/-- The leaf of a call has its step. -/
theorem IsTraced.get?_of_mem_sources {sequence : Sequence γ α} (h : sequence.IsTraced)
    (command : Command α) {source : Path × Call α}
    (hsource : source ∈ sequence.sources (sequence.perform command).events) :
    sequence.pattern.root.get? source.1 = some (.leaf source.2.step) := by
  obtain ⟨call, hcall, hpath⟩ := List.mem_filterMap.1 hsource
  obtain ⟨path, hleaf, hget⟩ := h.exists_leaf_of_mem_told command hcall
  rw [hleaf, Option.map_some] at hpath
  cases hpath
  exact hget

/-- A command that does not write to the pattern leaves it alone, or ends the sequence. -/
theorem root_perform (sequence : Sequence γ α) {command : Command α}
    (hwrite : ∀ write, command ≠ .ofWrite write) :
    (sequence.perform command).sequence.pattern.root = sequence.pattern.root ∨
      (sequence.perform command).sequence.pattern.root = [] := by
  rcases command.kinds with hlays | rfl | rfl | ⟨now, rfl⟩ | hsteers
  · rcases Command.laysOut_iff.1 hlays with ⟨write, rfl⟩ | ⟨offset, rfl⟩
    · exact absurd rfl (hwrite write)
    · exact .inl (congrArg TrackedPattern.root (sequence.pattern_setStartOffset offset))
  · exact .inl rfl
  · exact .inr rfl
  · exact .inl rfl
  · exact .inl (congrArg TrackedPattern.root (sequence.sharesLayout_of_steers hsteers).pattern)

/-- Along a run that does not write to the pattern, the leaf of a call has its step. -/
theorem IsTraced.get?_of_mem_sourced [DistinctIds γ] {sequence : Sequence γ α}
    (h : sequence.IsTraced)
    {commands : List (Command α)}
    (hwrites : ∀ command ∈ commands, ∀ write, command ≠ .ofWrite write) {source : Path × Call α}
    (hsource : source ∈ sequence.sourced commands) :
    sequence.pattern.root.get? source.1 = some (.leaf source.2.step) := by
  induction commands generalizing sequence with
  | nil => exact absurd hsource List.not_mem_nil
  | cons command commands ih =>
    have ⟨hfirst, hrest⟩ := List.forall_mem_cons.1 hwrites
    rcases List.mem_append.1 hsource with hsource | hsource
    · exact h.get?_of_mem_sources command hsource
    · have hget := ih (h.perform command) hrest hsource
      rcases sequence.root_perform hfirst with hroot | hroot
      · rwa [hroot] at hget
      · rw [hroot] at hget
        cases hpath : source.1 <;> rw [hpath] at hget <;> contradiction

/-! ### From the first state on -/

/-- When a sequence is made, every entry leads to its leaf. -/
theorem isTraced_of_create [DistinctIds γ] {part : Part γ α} {listener : String} {pattern : Slots α}
    {settings : SequenceSettings} {meter : Meter} {made : Sequence γ α}
    (h : (create part listener pattern settings meter).1 = .ok made) : made.IsTraced := by
  obtain ⟨subdivision, humanize, -, hlayout, rfl⟩ := eq_tuned_of_create h
  have hlistener : ∀ other ∈ (bare part listener pattern settings meter subdivision).part.listener,
      other.hearsSilence = false := by
    rintro _ ⟨⟩
    rfl
  have htraced := isTraced_relaid hlistener hlayout
  have hshares := (bare part listener pattern settings meter subdivision).relaid.sharesLayout_tuned
    settings humanize
  exact ⟨htraced.listener, htraced.layout, htraced.numbered.congr rfl rfl,
    htraced.entries.imp_right hshares.isLaidOut⟩

end Sequence

end Ostinato
