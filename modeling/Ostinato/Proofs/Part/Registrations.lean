import Ostinato.Proofs.Part.Generators
import Ostinato.Proofs.Part.Numbering

/-!
# Entries as registrations

A command that adds an entry registers it, and the registration holds until the entry is removed or
all entries are. A part keeps the registrations that hold in order of time, those of equal time in
the order in which they were made, whatever else is done to it in between.

## Main definitions

* `IsTimeOrderOf`: a list in order of time, stable with respect to another list.
* `Part.Command.keeps`: the commands under which a registration holds on.
* `Part.registrations`: the registrations that a list of commands makes and leaves in place.
* `Part.liveAfter`: the registrations that hold once it is performed.
* `Part.Command.editsEntries`: the commands that are about the entries.

## Main results

* `IsTimeOrderOf.unique`: there is one stable order of time.
* `Part.isTimeOrderOf_run`: what a run makes of the entries.
* `Part.entries_of_registrations`: the entries of a part.
-/

namespace Ostinato

variable {γ α : Type} [Generator γ]

/-! ### Stable orders of time -/

/-- The entries of a list that are at a time, in the order of the list. -/
def entriesAt (entries : List (Entry α)) (time : ClockTime) : List (Entry α) :=
  entries.filter (·.time = time)

@[simp] theorem entriesAt_append (entries others : List (Entry α)) (time : ClockTime) :
    entriesAt (entries ++ others) time = entriesAt entries time ++ entriesAt others time :=
  List.filter_append ..

theorem entriesAt_cons (entry : Entry α) (entries : List (Entry α)) (time : ClockTime) :
    entriesAt (entry :: entries) time = entriesAt [entry] time ++ entriesAt entries time :=
  entriesAt_append [entry] entries time

theorem entriesAt_cons_of_eq {entry : Entry α} {time : ClockTime} (h : entry.time = time)
    (entries : List (Entry α)) :
    entriesAt (entry :: entries) time = entry :: entriesAt entries time :=
  List.filter_cons_of_pos (decide_eq_true h)

theorem entriesAt_filter (keep : Entry α → Bool) (entries : List (Entry α)) (time : ClockTime) :
    entriesAt (entries.filter keep) time = (entriesAt entries time).filter keep := by
  simp only [entriesAt, List.filter_filter, Bool.and_comm]

/-- Entries at one time are all kept or all left out by what only looks at their time. -/
theorem entriesAt_filter_time (keep : ClockTime → Bool) (entries : List (Entry α))
    (time : ClockTime) :
    entriesAt (entries.filter (keep ·.time)) time =
      if keep time then entriesAt entries time else [] := by
  rw [entriesAt, List.filter_filter]
  split
  · next hkeep =>
    refine List.filter_congr fun e _ => ?_
    by_cases hat : e.time = time <;> simp [hat, hkeep]
  · next hkeep =>
    refine List.filter_eq_nil_iff.2 fun e _ hboth => hkeep ?_
    rw [Bool.and_eq_true, decide_eq_true_eq] at hboth
    exact hboth.1 ▸ hboth.2

/-- Whether a list is the stable order of time of another: the entries are in order of time, and
those of equal time stand as they do in the other list. -/
structure IsTimeOrderOf (entries live : List (Entry α)) : Prop where
  inOrder : InOrder entries
  atTime : ∀ time, entriesAt entries time = entriesAt live time

theorem perm_of_entriesAt {entries others : List (Entry α)}
    (h : ∀ time, entriesAt entries time = entriesAt others time) : entries.Perm others := by
  classical
  have hcount : ∀ (e : Entry α) (list : List (Entry α)),
      (entriesAt list e.time).count e = list.count e := fun e list =>
    List.count_filter (decide_eq_true rfl)
  exact List.perm_iff_count.2 fun e => by rw [← hcount, h, hcount]

theorem InOrder.head_le {e f : Entry α} {entries : List (Entry α)} (h : InOrder (e :: entries))
    (hf : f ∈ e :: entries) : e.time ≤ f.time := by
  rcases List.mem_cons.1 hf with rfl | hf
  · exact Nat.le_refl _
  · exact (List.pairwise_cons.1 h).1 f hf

theorem InOrder.eq_of_entriesAt {entries others : List (Entry α)} (hentries : InOrder entries)
    (hothers : InOrder others) (h : ∀ time, entriesAt entries time = entriesAt others time) :
    entries = others := by
  have hperm := perm_of_entriesAt h
  induction entries generalizing others with
  | nil => exact hperm.nil_eq
  | cons e entries ih =>
    cases others with
    | nil => exact hperm.eq_nil
    | cons f others =>
      -- each head is a member of the other list, so neither is later than the other
      have htime : f.time = e.time :=
        Span.ext (Nat.le_antisymm (hothers.head_le (hperm.mem_iff.1 List.mem_cons_self))
          (hentries.head_le (hperm.mem_iff.2 List.mem_cons_self)))
      have hhead : e = f := by
        have hat := h e.time
        rw [entriesAt_cons_of_eq rfl, entriesAt_cons_of_eq htime] at hat
        exact (List.cons.inj hat).1
      subst hhead
      have hrest : ∀ time, entriesAt entries time = entriesAt others time := by
        intro time
        have hat := h time
        rw [entriesAt_cons, entriesAt_cons e others] at hat
        exact List.append_cancel_left hat
      exact congrArg (e :: ·) (ih (List.pairwise_cons.1 hentries).2
        (List.pairwise_cons.1 hothers).2 hrest hperm.cons_inv)

namespace IsTimeOrderOf

theorem perm {entries live : List (Entry α)} (h : IsTimeOrderOf entries live) :
    entries.Perm live :=
  perm_of_entriesAt h.atTime

/-- There is one stable order of time. -/
theorem unique {entries others live : List (Entry α)} (h : IsTimeOrderOf entries live)
    (h' : IsTimeOrderOf others live) : entries = others :=
  h.inOrder.eq_of_entriesAt h'.inOrder fun time => (h.atTime time).trans (h'.atTime time).symm

end IsTimeOrderOf

theorem Schedule.entriesAt_insert (schedule : Schedule α) (entry : Entry α) (time : ClockTime) :
    entriesAt (schedule.insert entry).entries time =
      entriesAt (schedule.entries ++ [entry]) time := by
  have hbefore := entriesAt_filter_time (· ≤ entry.time) schedule.entries time
  have hbehind := entriesAt_filter_time (entry.time < ·) schedule.entries time
  rw [entries_insert, entriesAt_append, entriesAt_append, entriesAt_cons, hbefore, hbehind]
  by_cases hle : time ≤ entry.time
  · have hnot : ¬ entry.time < time := Nat.not_lt_of_le hle
    simp only [hle, hnot, decide_true, decide_false, if_true, Bool.false_eq_true, if_false,
      List.append_nil]
  · have hlt : entry.time < time := Nat.lt_of_not_le hle
    have hnone : entriesAt [entry] time = [] :=
      List.filter_eq_nil_iff.2 fun e he hat => hle <| by
        cases List.mem_singleton.1 he
        exact Nat.le_of_eq (congrArg Span.val (of_decide_eq_true hat)).symm
    simp only [hle, hlt, hnone, decide_true, decide_false, if_true, Bool.false_eq_true, if_false,
      List.nil_append, List.append_nil]

namespace Part

/-! ### Registrations -/

/-- Whether a command leaves a registration in place. -/
def Command.keeps (id : Nat) : Command α → Bool
  | .remove other => id != other
  | .clear | .dispose => false
  | _ => true

/-- The entries that a list of commands leaves in place. -/
def spared (commands : List (Command α)) (entries : List (Entry α)) : List (Entry α) :=
  entries.filter fun entry => commands.all (Command.keeps entry.id)

/-- The registrations that are made by a list of commands and hold at its end, in the order in which
they are made, when `next` ids have been given before. -/
def registrations (γ : Type) [Generator γ] (next : Nat) : List (Command α) → List (Entry α)
  | [] => []
  | .add time step :: commands =>
    spared commands [⟨Generator.entryId γ next, time, step⟩] ++
      registrations γ (next + 1) commands
  | _ :: commands => registrations γ next commands

/-- The registrations that hold at the end of a list of commands: those that are in the part already
and are left in place, and those that the commands make. -/
def liveAfter (part : Part γ α) (commands : List (Command α)) : List (Entry α) :=
  spared commands part.schedule.entries ++ registrations γ part.nextEntry commands

/-- The commands that are about the entries. -/
def Command.editsEntries : Command α → Bool
  | .add _ _ | .remove _ | .clear | .dispose => true
  | _ => false

theorem schedule_perform_of_not_editsEntries (part : Part γ α) {command : Command α}
    (h : command.editsEntries = false) :
    (part.perform command).1.schedule = part.schedule := by
  cases command with
  | add | remove | clear | dispose => exact Bool.noConfusion h
  | _ => rfl

theorem spared_nil (entries : List (Entry α)) : spared [] entries = entries :=
  List.filter_eq_self.2 fun _ _ => rfl

theorem spared_append_entries (commands : List (Command α)) (entries others : List (Entry α)) :
    spared commands (entries ++ others) = spared commands entries ++ spared commands others :=
  List.filter_append ..

theorem spared_append (before after : List (Command α)) (entries : List (Entry α)) :
    spared (before ++ after) entries = spared after (spared before entries) := by
  simp only [spared, List.filter_filter, List.all_append, Bool.and_comm]

theorem spared_cons (command : Command α) (commands : List (Command α))
    (entries : List (Entry α)) :
    spared (command :: commands) entries =
      spared commands (entries.filter (command.keeps ·.id)) := by
  simp only [spared, List.filter_filter, List.all_cons, Bool.and_comm]

/-- A registration holds at the end of a list of commands if it is made and left in place, wherever
the list is cut. -/
theorem registrations_append (part : Part γ α) (before after : List (Command α)) :
    registrations γ part.nextEntry (before ++ after) =
      spared after (registrations γ part.nextEntry before) ++
        registrations γ (part.run before).1.nextEntry after := by
  induction before generalizing part with
  | nil => rfl
  | cons command before ih =>
    have hrest := ih (part.perform command).1
    cases command with
    | add time step =>
      rw [List.cons_append, registrations, registrations, spared_append, spared_append_entries,
        List.append_assoc]
      exact congrArg _ hrest
    | _ => exact hrest

/-- A new registration comes after those that hold, under the next id. -/
theorem registrations_add (part : Part γ α) (commands : List (Command α)) (time : ClockTime)
    (step : Step α) :
    registrations γ part.nextEntry (commands ++ [.add time step]) =
      registrations γ part.nextEntry commands ++
        [⟨(part.run commands).1.nextId, time, step⟩] := by
  have hspared : spared [Command.add time step] (registrations γ part.nextEntry commands) =
      registrations γ part.nextEntry commands := List.filter_eq_self.2 fun _ _ => rfl
  rw [registrations_append, hspared]
  rfl

/-- At each time, it makes no difference whether a command is still to come or has been
performed. -/
theorem entriesAt_liveAfter_perform (part : Part γ α) (command : Command α)
    (commands : List (Command α)) (time : ClockTime) :
    entriesAt ((part.perform command).1.liveAfter commands) time =
      entriesAt (part.liveAfter (command :: commands)) time := by
  cases command with
  | add start step =>
    have hinsert : entriesAt (spared commands
          (part.schedule.insert ⟨part.nextId, start, step⟩).entries) time =
        entriesAt (spared commands (part.schedule.entries ++ [⟨part.nextId, start, step⟩]))
          time := by
      rw [spared, spared, entriesAt_filter, Schedule.entriesAt_insert, entriesAt_filter]
    rw [liveAfter, liveAfter, registrations, ← List.append_assoc, entriesAt_append,
      entriesAt_append _ (registrations ..)]
    refine congrArg (· ++ _) (hinsert.trans ?_)
    rw [spared_append_entries]
    rfl
  | remove id =>
    rw [liveAfter, liveAfter, spared_cons]
    exact congrArg (fun entries => entriesAt (spared commands entries ++ _) time)
      (part.schedule.entries_remove id)
  | clear | dispose =>
    rw [liveAfter, liveAfter, spared_cons]
    exact congrArg (fun entries => entriesAt (spared commands entries ++ _) time)
      (List.filter_eq_nil_iff.2 fun _ _ => Bool.false_ne_true).symm
  | _ => rfl

/-- **What a run makes of the entries**: they are the registrations that hold at its end, in order
of time. -/
theorem isTimeOrderOf_run (part : Part γ α) (commands : List (Command α)) :
    IsTimeOrderOf (part.run commands).1.schedule.entries (part.liveAfter commands) := by
  refine ⟨(part.run commands).1.schedule.inOrder_entries, fun time => ?_⟩
  induction commands generalizing part with
  | nil => rw [liveAfter, spared_nil, registrations, List.append_nil, run_nil]
  | cons command commands ih => rw [run_cons, ih, entriesAt_liveAfter_perform]

/-- Removing one of entries with ids of their own takes out that one. -/
theorem exists_filter_id_ne {entries : List (Entry α)} (hdistinct : (entries.map Entry.id).Nodup)
    {entry : Entry α} (hentry : entry ∈ entries) :
    ∃ front back, entries = front ++ entry :: back ∧
      entries.filter (·.id != entry.id) = front ++ back := by
  obtain ⟨front, back, rfl⟩ := List.append_of_mem hentry
  have hown : entry.id ∉ (front ++ back).map Entry.id :=
    (List.nodup_cons.1 ((List.perm_middle.map Entry.id).nodup_iff.1 hdistinct)).1
  have hothers : (front ++ back).filter (·.id != entry.id) = front ++ back :=
    List.filter_eq_self.2 fun other hother =>
      bne_iff_ne.2 fun hid => hown (hid ▸ List.mem_map_of_mem hother)
  refine ⟨front, back, rfl, ?_⟩
  rw [List.filter_append, List.filter_cons_of_neg (by simp), ← List.filter_append, hothers]

/-- **The entries of a part are its registrations.** Let a part be made over a generator that gives
no id twice, and anything be done to it. Its entries are then the one stable order of time of the
registrations that hold: those that were made since all entries were last removed, and were not
removed themselves. They have ids of their own, and the part answers a new registration with its id.
It answers a removal with whether there is a registration of that id; if there is, exactly that one
is taken out of the entries, and if there is none, the entries stay as they are. Whatever is not
about the entries leaves them alone. -/
theorem entries_of_registrations [DistinctIds γ] (draws : γ) (commands : List (Command α)) :
    let part := (({ draws } : Part γ α).run commands).1
    let live := registrations γ 0 commands
    (∀ entries, entries = part.schedule.entries ↔ IsTimeOrderOf entries live) ∧
      (live.map Entry.id).Nodup ∧
      (∀ time step, ∃ id, part.reply (.add time step) = .added id ∧
        registrations γ 0 (commands ++ [.add time step]) = live ++ [⟨id, time, step⟩]) ∧
      (∀ id, part.reply (.remove id) = .removed (live.any (·.id == id))) ∧
      (∀ entry ∈ live, ∃ front back, part.schedule.entries = front ++ entry :: back ∧
        (part.perform (.remove entry.id)).1.schedule.entries = front ++ back) ∧
      (∀ id, live.any (·.id == id) = false →
        (part.perform (.remove id)).1.schedule.entries = part.schedule.entries) ∧
      ∀ command, command.editsEntries = false →
        (part.perform command).1.schedule = part.schedule := by
  intro part live
  have horder : IsTimeOrderOf part.schedule.entries live :=
    ({ draws } : Part γ α).isTimeOrderOf_run commands
  have hdistinct : (part.schedule.entries.map Entry.id).Nodup :=
    ((isNumbered_of_empty rfl).run commands).distinct
  refine ⟨fun entries => ⟨fun h => h ▸ horder, fun h => h.unique horder⟩,
    ((horder.perm.map Entry.id).nodup_iff).1 hdistinct, fun time step => ?_, fun id => ?_,
    fun entry hentry => ?_, fun id hid => ?_, fun command hcommand => ?_⟩
  · exact ⟨part.nextId, rfl, ({ draws } : Part γ α).registrations_add commands time step⟩
  · rw [reply, Schedule.contains_eq_any, horder.perm.any_eq]
  · rw [perform, remove, Schedule.entries_remove]
    exact exists_filter_id_ne hdistinct (horder.perm.mem_iff.2 hentry)
  · rw [perform, remove, Schedule.entries_remove]
    refine List.filter_eq_self.2 fun entry hentry => bne_iff_ne.2 fun heq => ?_
    exact List.any_eq_false.1 hid entry (horder.perm.mem_iff.1 hentry) (beq_iff_eq.2 heq)
  · exact part.schedule_perform_of_not_editsEntries hcommand

/-- Four registrations hold, two of them at one time and one at the end of the clock, after one was
removed and all those before it were cleared. -/
theorem entries_of_registrations_crowded :
    let commands : List (Command Char) :=
      [.add 5 (.sound 'x'), .clear, .add 20 (.sound 'a'), .add 18446744073709551615 (.sound 'b'),
        .start none none, .add 20 (.sound 'c'), .process 40, .remove 1, .setMute true,
        .add 0 .silence, .add 20 (.sound 'd')]
    let part := (({ draws := ⟨7⟩ } : Part SplitMix Char).run commands).1
    let live : List (Entry Char) :=
      [⟨2, 18446744073709551615, .sound 'b'⟩, ⟨3, 20, .sound 'c'⟩, ⟨4, 0, .silence⟩,
        ⟨5, 20, .sound 'd'⟩]
    let entries : List (Entry Char) :=
      [⟨4, 0, .silence⟩, ⟨3, 20, .sound 'c'⟩, ⟨5, 20, .sound 'd'⟩,
        ⟨2, 18446744073709551615, .sound 'b'⟩]
    registrations SplitMix 0 commands = live ∧ part.schedule.entries = entries ∧
      IsTimeOrderOf entries live ∧
      part.reply (.remove 1) = .removed false ∧
      (part.perform (.remove 1)).1.schedule.entries = entries ∧
      part.reply (.remove 5) = .removed true ∧
      (part.perform (.remove 5)).1.schedule.entries = entries.filter (·.id != 5) ∧
      (part.perform (.process 60)).1.schedule = part.schedule := by
  intro commands part live entries
  obtain ⟨horder, -, -, hreply, -, habsent, hothers⟩ :=
    entries_of_registrations (⟨7⟩ : SplitMix) commands
  have hlive : registrations SplitMix 0 commands = live := by decide +kernel
  have hentries : part.schedule.entries = entries := by decide +kernel
  rw [hlive] at horder hreply habsent
  refine ⟨hlive, hentries, (horder entries).1 hentries.symm, hreply 1,
    (habsent 1 rfl).trans hentries, hreply 5, ?_, hothers (.process 60) rfl⟩
  rw [← hentries]
  exact part.schedule.entries_remove 5

end Part

end Ostinato
