import Ostinato.Proofs.Part.Generators
import Ostinato.Proofs.Part.Silencing
import Ostinato.Proofs.Sequence.Sources

/-!
# Silencing leaves of a sequence

If leaves of the pattern are made silent, their calls are gone, and nothing else changes. Two
sequences, with and without the sounds of these leaves, go through the same states side by side,
except for the steps of their entries.

## Main definitions

* `Sequence.withLayout`: a sequence with another pattern and other entries.
* `Sequence.IsSilenced`: two sequences of which one lacks the sounds of some leaves.

## Main results

* `Sequence.perform_withLayout`: steering does not depend on the layout.
* `Sequence.IsSilenced.perform`, `Sequence.IsSilenced.run`: a command and a run keep two sequences
  side by side.
* `Sequence.heard_of_silenced`: silencing leaves takes away their calls.
-/

namespace Ostinato.Sequence

variable {γ α : Type} [Generator γ]

/-! ### Silent entries -/

/-- Whether an entry stands for a leaf that is to be silent. -/
def isSilent (sequence : Sequence γ α) (silent : Path → Bool) (id : Nat) : Bool :=
  (sequence.leafOf? id).any silent

omit [Generator γ] in
theorem isSilent_congr {sequence other : Sequence γ α} (hpattern : other.pattern = sequence.pattern)
    (hschedule : other.part.schedule = sequence.part.schedule) (silent : Path → Bool) :
    other.isSilent silent = sequence.isSilent silent := by
  funext id
  rw [isSilent, isSilent, leafOf?, leafOf?, hpattern, hschedule]

omit [Generator γ] in
/-- Leaving out the calls of leaves is leaving out those of their entries. -/
theorem filter_traced (sequence : Sequence γ α) (silent : Path → Bool) {told : List (Nat × Call α)}
    (h : ∀ call ∈ told, (sequence.leafOf? call.1).isSome) :
    ((sequence.traced told).filter (!silent ·.1)).map Prod.snd =
      (told.filter (!sequence.isSilent silent ·.1)).map Prod.snd := by
  induction told with
  | nil => rfl
  | cons call told ih =>
    have ⟨hfirst, hrest⟩ := List.forall_mem_cons.1 h
    obtain ⟨path, hpath⟩ := Option.isSome_iff_exists.1 hfirst
    have htraced : sequence.traced (call :: told) = (path, call.2) :: sequence.traced told :=
      List.filterMap_cons_some (by rw [hpath]; rfl)
    have hsilent : sequence.isSilent silent call.1 = silent path := by
      rw [isSilent, hpath, Option.any_some]
    rw [htraced, List.filter_cons, List.filter_cons, hsilent]
    cases silent path with
    | true => exact ih hrest
    | false =>
      rw [Bool.not_false, if_pos rfl, if_pos rfl, List.map_cons, List.map_cons, ih hrest]

/-! ### Steering -/

/-- A sequence with another pattern and other entries. -/
def withLayout (sequence : Sequence γ α) (pattern : TrackedPattern α) (schedule : Schedule α)
    (nextEntry : Nat) : Sequence γ α :=
  { sequence with pattern, part := sequence.part.withEntries schedule nextEntry }

omit [Generator γ] in
theorem withLayout_ifLive {sequence : Sequence γ α} {pattern : TrackedPattern α}
    {schedule : Schedule α} {nextEntry : Nat} {outcome other : Outcome γ α}
    (h : other.sequence = outcome.sequence.withLayout pattern schedule nextEntry) :
    ((sequence.withLayout pattern schedule nextEntry).ifLive other).sequence =
      (sequence.ifLive outcome).sequence.withLayout pattern schedule nextEntry := by
  have hdisposed : (sequence.withLayout pattern schedule nextEntry).disposed =
    sequence.disposed := rfl
  rw [ifLive, ifLive, hdisposed]
  split
  · rfl
  · exact h

/-- A command that steers the part does the same with another pattern of the same length and with
other entries. -/
theorem perform_withLayout (sequence : Sequence γ α) {command : Command α}
    (h : command.steers = true) {pattern : TrackedPattern α}
    (hlength : pattern.root.length = sequence.pattern.root.length) (schedule : Schedule α)
    (nextEntry : Nat) :
    ((sequence.withLayout pattern schedule nextEntry).perform command).sequence =
      (sequence.perform command).sequence.withLayout pattern schedule nextEntry := by
  cases command with
  | clear | dispose | process | setPattern | setAt | insertAt | removeAt | setStartOffset =>
    contradiction
  | stop time => rfl
  | start | setLoopMode | setLoopStart | setHumanize | setMute => exact withLayout_ifLive rfl
  | setLoopEnd index =>
    refine withLayout_ifLive ?_
    have hgrid : (sequence.withLayout pattern schedule nextEntry).grid = sequence.grid := rfl
    have hpattern : (sequence.withLayout pattern schedule nextEntry).pattern = pattern := rfl
    rw [hgrid, hpattern, hlength]
    rfl
  | setRate rate =>
    refine withLayout_ifLive ?_
    split <;> rfl
  | setProbability probability =>
    refine withLayout_ifLive ?_
    split <;> rfl

omit [Generator γ] in
/-- Where the window of the loop is depends on the grid, the indices and the length of the
pattern. -/
theorem window_congr {sequence other : Sequence γ α}
    (hloop : other.part.transport.loop = sequence.part.transport.loop)
    (hgrid : other.grid = sequence.grid)
    (hindices : other.loopStart = sequence.loopStart ∧ other.loopEnd = sequence.loopEnd)
    (hlength : other.pattern.root.length = sequence.pattern.root.length) :
    other.window = sequence.window := by
  rw [window, window, hloop, hgrid, hindices.1, hindices.2, hlength]

/-! ### Side by side -/

/-- Two sequences of which the second lacks the sounds of some leaves, and is the same otherwise. -/
structure IsSilenced (silent : Path → Bool) (sequence other : Sequence γ α) : Prop where
  rest : other = sequence.withLayout other.pattern other.part.schedule other.part.nextEntry
  root : other.pattern.root = sequence.pattern.root.silenced silent
  schedule : sequence.part.schedule.IsSilenced (sequence.isSilent silent) other.part.schedule

/-- The layouts of a pattern with and without the sounds of some leaves. -/
theorem isSilenced_of_isLaidOut {silent : Path → Bool} {sequence other : Sequence γ α}
    (hrest : other = sequence.withLayout other.pattern other.part.schedule other.part.nextEntry)
    (hroot : other.pattern.root = sequence.pattern.root.silenced silent)
    (hnumbered : sequence.part.IsNumbered) (hlaid : sequence.IsLaidOut)
    (hother : other.IsLaidOut) : sequence.IsSilenced silent other := by
  have hclock : ∀ path, other.clockAt path = sequence.clockAt path := by
    intro path
    rw [clockAt, clockAt, tickAt, tickAt, hroot, Slots.offsetAt_silenced, hrest]
    rfl
  have hentries := hother.entries_eq
  rw [hroot, Slots.leaves_silenced, List.map_map] at hentries
  have hlength : sequence.part.schedule.entries.length = other.part.schedule.entries.length := by
    have hleaves := congrArg List.length hlaid.entries_eq
    have hothers := congrArg List.length hentries
    rw [List.length_map, List.length_map] at hleaves hothers
    rw [hleaves, hothers]
  refine ⟨hrest, hroot, List.forall₂_iff_get.2 ⟨hlength, fun i hi hi' => ?_⟩⟩
  obtain ⟨path, step, hleaf, hleafOf, htimed⟩ := hlaid.exists_leaf hnumbered hi
  have hget := congrArg (·[i]?) hentries
  simp only [List.getElem?_map, List.getElem?_eq_getElem hi', hleaf, Option.map_some,
    Function.comp_apply, silencedLeaf, hclock] at hget
  obtain ⟨htime, hstep⟩ := Prod.mk.inj (Option.some.inj hget)
  obtain ⟨htime', hstep'⟩ := Prod.mk.inj htimed
  refine ⟨htime.trans htime'.symm, hstep.trans ?_⟩
  rw [isSilent, List.get_eq_getElem, hleafOf, Option.any_some, hstep']

/-- Laying out a pattern with and without the sounds of some leaves. -/
theorem isSilenced_relaid [DistinctIds γ] (sequence : Sequence γ α) {silent : Path → Bool}
    {pattern : TrackedPattern α} (hroot : pattern.root = sequence.pattern.root.silenced silent)
    (hlayout : sequence.pattern.root.HasNoEmptyGroup) (schedule : Schedule α) (nextEntry : Nat) :
    sequence.relaid.IsSilenced silent
      (sequence.withLayout pattern schedule nextEntry).relaid := by
  let other := sequence.withLayout pattern schedule nextEntry
  have hother : other.pattern.root.HasNoEmptyGroup :=
    hroot ▸ Slots.hasNoEmptyGroup_silenced silent hlayout
  have hlength : other.pattern.root.length = sequence.pattern.root.length :=
    hroot ▸ Slots.length_silenced silent sequence.pattern.root
  have hwindow : other.window = sequence.window := window_congr rfl rfl ⟨rfl, rfl⟩ hlength
  obtain ⟨laid, next, hrelaid, -⟩ := sequence.exists_relaid
  obtain ⟨laid', next', hrelaid', -⟩ := other.exists_relaid
  refine isSilenced_of_isLaidOut ?_ ?_ sequence.isNumbered_relaid (isLaidOut_relaid hlayout)
    (isLaidOut_relaid hother)
  · rw [hrelaid', hrelaid, hwindow]
    rfl
  · rw [hrelaid', hrelaid]
    exact hroot

/-- Moving the start lays out both patterns again, or is refused for both sequences. -/
theorem isSilenced_setStartOffset [DistinctIds γ] {silent : Path → Bool} {sequence : Sequence γ α}
    {pattern : TrackedPattern α} {schedule : Schedule α}
    (hlayout : sequence.pattern.root.HasNoEmptyGroup)
    (hroot : pattern.root = sequence.pattern.root.silenced silent)
    (hschedule : sequence.part.schedule.IsSilenced (sequence.isSilent silent) schedule)
    (nextEntry : Nat) (offset : Ticks) :
    (sequence.setStartOffset offset).sequence.IsSilenced silent
      ((sequence.withLayout pattern schedule nextEntry).setStartOffset offset).sequence := by
  have hdisposed : (sequence.withLayout pattern schedule nextEntry).disposed =
    sequence.disposed := rfl
  have hother : pattern.root.HasNoEmptyGroup :=
    hroot ▸ Slots.hasNoEmptyGroup_silenced silent hlayout
  cases hlive : sequence.disposed with
  | true =>
    rw [setStartOffset, setStartOffset, ifLive, ifLive, if_pos hlive,
      if_pos (hdisposed.trans hlive)]
    exact ⟨rfl, hroot, hschedule⟩
  | false =>
    obtain ⟨event, hmoved⟩ := setStartOffset_of_hasNoEmptyGroup offset hlive hlayout
    obtain ⟨event', hmoved'⟩ :=
      setStartOffset_of_hasNoEmptyGroup offset (hdisposed.trans hlive) hother
    rw [hmoved, hmoved']
    exact (sequence.movedTo offset).isSilenced_relaid hroot hlayout schedule nextEntry

/-- A command that does not write to the pattern keeps two sequences side by side. -/
theorem IsSilenced.perform [DistinctIds γ] {silent : Path → Bool} {sequence other : Sequence γ α}
    (h : sequence.IsSilenced silent other) (htraced : sequence.IsTraced) {command : Command α}
    (hwrite : ∀ write, command ≠ .ofWrite write) :
    (sequence.perform command).sequence.IsSilenced silent (other.perform command).sequence := by
  obtain ⟨hrest, hroot, hschedule⟩ := h
  -- the second sequence is the first one with another pattern and other entries
  generalize other.pattern = pattern at hrest hroot
  generalize other.part.schedule = schedule at hrest hschedule
  generalize other.part.nextEntry = nextEntry at hrest
  subst hrest
  rcases command.kinds with hlays | rfl | rfl | ⟨now, rfl⟩ | hsteers
  · rcases Command.laysOut_iff.1 hlays with ⟨write, rfl⟩ | ⟨offset, rfl⟩
    · exact absurd rfl (hwrite write)
    · exact isSilenced_setStartOffset htraced.layout hroot hschedule nextEntry offset
  · exact ⟨rfl, hroot, .nil⟩
  · exact ⟨rfl, rfl, .nil⟩
  · obtain ⟨hprocess, -⟩ := Part.process_silenced htraced.listener hschedule nextEntry now
    have hnext :
        ((sequence.withLayout pattern schedule nextEntry).perform (.process now)).sequence =
          (sequence.perform (.process now)).sequence.withLayout pattern schedule nextEntry :=
      congrArg (fun part => { sequence.withLayout pattern schedule nextEntry with part }) hprocess
    rw [hnext]
    exact ⟨rfl, hroot, hschedule⟩
  · have hlength : pattern.root.length = sequence.pattern.root.length := by
      rw [hroot, Slots.length_silenced]
    have hshares := sequence.sharesLayout_of_steers hsteers
    rw [sequence.perform_withLayout hsteers hlength]
    refine ⟨rfl, ?_, ?_⟩
    · rw [hshares.pattern]
      exact hroot
    · rw [hshares.schedule, isSilent_congr hshares.pattern hshares.schedule]
      exact hschedule

/-- Of two sequences side by side, the second is heard without the calls of the silent leaves. -/
theorem IsSilenced.heard_perform {silent : Path → Bool} {sequence other : Sequence γ α}
    (h : sequence.IsSilenced silent other) (htraced : sequence.IsTraced) (command : Command α) :
    (other.perform command).events.filterMap SequenceEvent.heard? =
      ((sequence.sources (sequence.perform command).events).filter (!silent ·.1)).map
        Prod.snd := by
  have hleaves := sequence.filter_traced silent fun call hcall =>
    have ⟨path, hpath, _⟩ := htraced.exists_leaf_of_mem_told command hcall
    Option.isSome_iff_exists.2 ⟨path, hpath⟩
  rw [sources, hleaves]
  by_cases hprocess : ∃ now, command = .process now
  · obtain ⟨now, rfl⟩ := hprocess
    obtain ⟨-, hheard⟩ := Part.process_silenced htraced.listener h.schedule
      other.part.nextEntry now
    have hpart : other.part =
        sequence.part.withEntries other.part.schedule other.part.nextEntry :=
      congrArg Sequence.part h.rest
    rw [Sequence.perform, Sequence.perform, heard_process, hpart, hheard, told_process]
    rfl
  · have hne : ∀ now, command ≠ .process now := fun now hnow => hprocess ⟨now, hnow⟩
    have hquiet := sequence.heard_perform_of_ne_process hne
    rw [← map_snd_told, List.map_eq_nil_iff] at hquiet
    rw [other.heard_perform_of_ne_process hne, hquiet]
    rfl

/-- **Side by side.** A run that does not write to the pattern keeps two sequences side by side, and
the second is heard without the calls of the silent leaves. -/
theorem IsSilenced.run [DistinctIds γ] {silent : Path → Bool} {sequence other : Sequence γ α}
    (h : sequence.IsSilenced silent other) (htraced : sequence.IsTraced)
    {commands : List (Command α)}
    (hwrites : ∀ command ∈ commands, ∀ write, command ≠ .ofWrite write) :
    (sequence.run commands).1.IsSilenced silent (other.run commands).1 ∧
      (other.run commands).2.filterMap SequenceEvent.heard? =
        ((sequence.sourced commands).filter (!silent ·.1)).map Prod.snd := by
  induction commands generalizing sequence other with
  | nil => exact ⟨h, rfl⟩
  | cons command commands ih =>
    have ⟨hfirst, hrest⟩ := List.forall_mem_cons.1 hwrites
    obtain ⟨hlast, hheard⟩ := ih (h.perform htraced hfirst) (htraced.perform command) hrest
    refine ⟨hlast, ?_⟩
    rw [run_cons, List.filterMap_append, h.heard_perform htraced, hheard, sourced,
      List.filter_append, List.map_append]

/-! ### From the first state on -/

omit [Generator γ] in
/-- Rules take the place of those by which a part played before. -/
theorem tuned_eq_withLayout {laid other : Sequence γ α} (settings : SequenceSettings)
    (humanize : Humanize) (hdraws : other.part.draws = laid.part.draws)
    (htransport : other.part.transport = laid.part.transport)
    (hlistener : other.part.listener = laid.part.listener) (hgrid : other.grid = laid.grid)
    (hloop : other.loopStart = laid.loopStart ∧ other.loopEnd = laid.loopEnd)
    (hdisposed : other.disposed = laid.disposed) :
    other.tuned settings humanize =
      (laid.tuned settings humanize).withLayout other.pattern other.part.schedule
        other.part.nextEntry := by
  obtain ⟨hmeter, hsubdivision, hoffset⟩ := Grid.mk.inj hgrid
  simp only [tuned, withLayout, Part.withEntries, hdraws, htransport, hlistener, hmeter,
    hsubdivision, hoffset, hloop, hdisposed]

/-- Two sequences are side by side when they are made, one of a pattern and the other of what is
left of it when leaves are made silent. -/
theorem exists_isSilenced_of_create [DistinctIds γ] {part other : Part γ α} {listener : String}
    {pattern : Slots α} {settings : SequenceSettings} {meter : Meter} {made : Sequence γ α}
    (h : (create part listener pattern settings meter).1 = .ok made)
    (hdraws : other.draws = part.draws) (htransport : other.transport = part.transport)
    (hoffset : other.startOffset = part.startOffset) (silent : Path → Bool) :
    ∃ quieter, (create other listener (pattern.silenced silent) settings meter).1 = .ok quieter ∧
      made.IsSilenced silent quieter := by
  obtain ⟨subdivision, humanize, hsubdivision, hhumanize, hlayout, hrate, hprobability, rfl⟩ :=
    create_eq_ok_iff.1 h
  have hquiet := Slots.hasNoEmptyGroup_silenced silent hlayout
  refine ⟨_, create_eq_ok_iff.2 ⟨subdivision, humanize, hsubdivision, hhumanize, hquiet, hrate,
    hprobability, rfl⟩, ?_⟩
  let loud := bare part listener pattern settings meter subdivision
  let quiet := bare other listener (pattern.silenced silent) settings meter subdivision
  have hgrid : quiet.grid = loud.grid := congrArg (Grid.mk meter subdivision) hoffset
  have hwindow : quiet.window = loud.window :=
    window_congr (congrArg Transport.loop htransport) hgrid ⟨rfl, rfl⟩
      (Slots.length_silenced silent pattern)
  obtain ⟨laid, next, hrelaid, -⟩ := loud.exists_relaid
  obtain ⟨laid', next', hrelaid', -⟩ := quiet.exists_relaid
  refine isSilenced_of_isLaidOut ?_ ?_ (isTraced_of_create h).numbered
    ((loud.relaid.sharesLayout_tuned settings humanize).isLaidOut (isLaidOut_relaid hlayout))
    ((quiet.relaid.sharesLayout_tuned settings humanize).isLaidOut (isLaidOut_relaid hquiet))
  · have htransports : quiet.relaid.part.transport = loud.relaid.part.transport := by
      rw [hrelaid', hrelaid, hwindow]
      exact congrArg (fun transport => { transport with loop := loud.window }) htransport
    refine tuned_eq_withLayout settings humanize ?_ htransports ?_ ?_ ?_ ?_
    · rw [hrelaid', hrelaid]
      exact hdraws
    · rw [hrelaid', hrelaid]
      rfl
    · rw [hrelaid', hrelaid]
      exact hgrid
    · rw [hrelaid', hrelaid]
      exact ⟨rfl, rfl⟩
    · rw [hrelaid', hrelaid]
      rfl
  · rw [hrelaid', hrelaid]
    rfl

/-- **Silencing a leaf takes away its own sounds only.** Make a sequence of a pattern, and another
of what is left of the pattern when any of its leaves are made silent, over parts with the same
draws, transport and start, of which the generator gives no id twice. Do to both whatever can be
done to a sequence but to write to its pattern. Every call of the first comes from a leaf of the
pattern. The calls of the second are those of the first but for the calls from the leaves that are
silent: the others keep their steps, their order and their clock times. Both have as many entries,
and their transports and draws are the same. -/
theorem heard_of_silenced [DistinctIds γ] {part other : Part γ α} {listener : String}
    {pattern : Slots α} {settings : SequenceSettings} {meter : Meter} {made : Sequence γ α}
    (hmade : (create part listener pattern settings meter).1 = .ok made)
    (hdraws : other.draws = part.draws) (htransport : other.transport = part.transport)
    (hoffset : other.startOffset = part.startOffset) (silent : Path → Bool) :
    ∃ quieter, (create other listener (pattern.silenced silent) settings meter).1 = .ok quieter ∧
      ∀ commands : List (Command α), (∀ command ∈ commands, ∀ write, command ≠ .ofWrite write) →
        let sources := made.sourced commands
        let last := (made.run commands).1
        let quiet := (quieter.run commands).1
        sources.map Prod.snd = (made.run commands).2.filterMap SequenceEvent.heard? ∧
          (∀ source ∈ sources, pattern.get? source.1 = some (.leaf source.2.step)) ∧
          (quieter.run commands).2.filterMap SequenceEvent.heard? =
            (sources.filter (!silent ·.1)).map Prod.snd ∧
          quiet.part.schedule.size = last.part.schedule.size ∧
          quiet.part.transport = last.part.transport ∧ quiet.part.draws = last.part.draws := by
  obtain ⟨quieter, hquieter, hsilenced⟩ :=
    exists_isSilenced_of_create hmade hdraws htransport hoffset silent
  have htraced := isTraced_of_create hmade
  obtain ⟨-, -, -, -, -, -, -, hpattern, -⟩ := exists_of_create hmade
  refine ⟨quieter, hquieter, fun commands hwrites => ?_⟩
  intro sources last quiet
  obtain ⟨hlast, hheard⟩ := hsilenced.run htraced hwrites
  have hpart : quiet.part = last.part.withEntries quiet.part.schedule quiet.part.nextEntry :=
    congrArg Sequence.part hlast.rest
  refine ⟨htraced.map_snd_sourced commands, fun source hsource => ?_, hheard, ?_, ?_, ?_⟩
  · have hget := htraced.get?_of_mem_sourced hwrites hsource
    rwa [hpattern] at hget
  · rw [Schedule.size_eq_length, Schedule.size_eq_length]
    exact (List.Forall₂.length_eq hlast.schedule).symm
  · rw [hpart]
    rfl
  · rw [hpart]
    rfl

/-- The second leaf of a group is made silent. Entries are left out and moved at random, and so they
are left out and moved without it. -/
theorem heard_of_silenced_second_leaf :
    let part : Part SplitMix Char := { draws := ⟨5⟩ }
    let other : Part SplitMix Char := { draws := ⟨5⟩, nextEntry := 9, mute := true }
    let pattern : Slots Char := [.group [.sound 'a', .sound 'b'], .sound 'c', .silence]
    let silent : Path → Bool := (· = [0, 1])
    let settings : SequenceSettings :=
      { probability := (Binary64.ofNat 1).div (Binary64.ofNat 2), humanize := .switch true }
    let commands : List (Command Char) :=
      [.start none none, .process 300000000, .setMute true, .process 500000000, .setMute false,
        .clear, .process 750000000, .setStartOffset 254016000, .process 1500000000]
    let bass : Listener := ⟨"bass", false⟩
    (∀ command ∈ commands, ∀ write, command ≠ .ofWrite write) ∧
      ∃ made quieter, (create part "bass" pattern settings {}).1 = .ok made ∧
        (create other "bass" (pattern.silenced silent) settings {}).1 = .ok quieter ∧
        made.sourced commands =
          [([0, 0], ⟨bass, 10092281, .sound 'a'⟩), ([0, 1], ⟨bass, 108973576, .sound 'b'⟩),
            ([1], ⟨bass, 245224357, .sound 'c'⟩), ([1], ⟨bass, 1066637622, .sound 'c'⟩)] ∧
        (quieter.run commands).2.filterMap SequenceEvent.heard? =
          [⟨bass, 10092281, .sound 'a'⟩, ⟨bass, 245224357, .sound 'c'⟩,
            ⟨bass, 1066637622, .sound 'c'⟩] := by
  intro part other pattern silent settings commands bass
  have hwrites : ∀ command ∈ commands, ∀ write, command ≠ .ofWrite write := by
    rintro command hcommand write rfl
    cases write <;> simp [commands, Command.ofWrite] at hcommand
  obtain ⟨made, hmade, hsources⟩ : ∃ made,
      (create part "bass" pattern settings {}).1 = .ok made ∧ made.sourced commands =
        [([0, 0], ⟨bass, 10092281, .sound 'a'⟩), ([0, 1], ⟨bass, 108973576, .sound 'b'⟩),
          ([1], ⟨bass, 245224357, .sound 'c'⟩), ([1], ⟨bass, 1066637622, .sound 'c'⟩)] :=
    exists_made_of_any (by decide +kernel)
  have hother : other.draws = part.draws ∧ other.transport = part.transport ∧
      other.startOffset = part.startOffset := ⟨rfl, rfl, rfl⟩
  obtain ⟨quieter, hquieter, hrun⟩ :=
    heard_of_silenced hmade hother.1 hother.2.1 hother.2.2 silent
  obtain ⟨-, -, hheard, -⟩ := hrun commands hwrites
  rw [hsources] at hheard
  exact ⟨hwrites, made, quieter, hmade, hquieter, hsources, hheard.trans (by decide)⟩

end Ostinato.Sequence
