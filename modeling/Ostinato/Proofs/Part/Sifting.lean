import Ostinato.Proofs.Part.Independence

/-!
# Calls and chance

Which entries come up in a run, and when, is fixed by the transport and the schedule. Each of them
is a call that is due. What is left to chance is only what becomes of it: whether the entry is left
out, and by how much its clock time is moved. The random numbers go on from one command to the next
where they were left, so all the calls of a run come from one list of calls that are due, sifted in
one go.

## Main definitions

* `PartEvent.call?`, `callsOf`: the calls among events, with the numbers of their entries.
* `Part.callsDue`, `Part.callsDueAlong`: the calls that are due during a command and a run.
* `Part.decide`, `Part.sift`: what becomes of a call that is due, and of a list of them.
* `Part.Command.keepsChance`: commands that leave the rules of chance alone.

## Main results

* `Part.perform_eq_sift`, `Part.run_eq_sift`: a command and a run sift the calls that are due.
* `Part.callsDueAlong_withChance`, `Part.callsOf_run_withChance`: which calls are due is not left to
  chance.
* `Part.sift_of_exact`: without chance every call is made as it is due.
-/

namespace Ostinato

variable {γ α : Type} [Generator γ]

/-! ### Calls -/

/-- The call by which an event tells a listener of a step, with the number of the entry. -/
def PartEvent.call? : PartEvent α → Option (Nat × Call α)
  | .fired entry call => some (entry, call)
  | _ => none

/-- The calls among events. -/
def callsOf (events : List (PartEvent α)) : List (Nat × Call α) :=
  events.filterMap PartEvent.call?

@[simp] theorem callsOf_append (before after : List (PartEvent α)) :
    callsOf (before ++ after) = callsOf before ++ callsOf after :=
  List.filterMap_append

theorem callsOf_cons (event : PartEvent α) (events : List (PartEvent α)) :
    callsOf (event :: events) = event.call?.toList ++ callsOf events := by
  rw [callsOf, List.filterMap_cons]
  cases event.call? <;> rfl

namespace Part

/-! ### Calls that are due -/

/-- The entries that come up while a command is performed, each with its clock time. -/
def comingUp (part : Part γ α) : Command α → List (ClockTime × Entry α)
  | .process now =>
    part.schedule.soundings part.transport.rate (part.transport.process now).stretches
  | _ => []

/-- The call that tells a listener of an entry that comes up. -/
def due (listener : Listener) (sounding : ClockTime × Entry α) : Nat × Call α :=
  (sounding.2.id, ⟨listener, sounding.1, sounding.2.step⟩)

/-- The calls that are due while a command is performed: one for each entry that is met, at the
clock time of its position, if there is an audience. -/
def callsDue (part : Part γ α) (command : Command α) : List (Nat × Call α) :=
  match part.audience with
  | none => []
  | some listener => (part.comingUp command).map (due listener)

/-- The calls that are due in the course of a run. -/
def callsDueAlong (part : Part γ α) : List (Command α) → List (Nat × Call α)
  | [] => []
  | command :: commands => part.callsDue command ++ (part.perform command).1.callsDueAlong commands

/-! ### Sifting -/

/-- What becomes of a call that is due: it is left out, or made at a clock time. -/
def decide (part : Part γ α) (draws : γ) (call : Nat × Call α) : Option (Nat × Call α) × γ :=
  let (admitted, draws) := part.drawAdmission draws
  if admitted then
    let (time, draws) := part.humanize.move call.2.time draws
    (some (call.1, { call.2 with time }), draws)
  else (none, draws)

/-- What becomes of calls that are due, in order. -/
def sift (part : Part γ α) (draws : γ) : List (Nat × Call α) → List (Nat × Call α) × γ
  | [] => ([], draws)
  | call :: calls =>
    let (made, draws) := part.decide draws call
    let (others, draws) := part.sift draws calls
    (made.toList ++ others, draws)

theorem sift_cons (part : Part γ α) (draws : γ) (call : Nat × Call α)
    (calls : List (Nat × Call α)) :
    part.sift draws (call :: calls) =
      ((part.decide draws call).1.toList ++ (part.sift (part.decide draws call).2 calls).1,
        (part.sift (part.decide draws call).2 calls).2) := rfl

/-- Sifting can be cut anywhere: the draws go on where they were left. -/
theorem sift_append (part : Part γ α) (draws : γ) (before after : List (Nat × Call α)) :
    part.sift draws (before ++ after) =
      ((part.sift draws before).1 ++ (part.sift (part.sift draws before).2 after).1,
        (part.sift (part.sift draws before).2 after).2) := by
  induction before generalizing draws with
  | nil => rfl
  | cons call before ih => rw [List.cons_append, sift_cons, sift_cons, ih, List.append_assoc]

theorem sift_congr {part other : Part γ α} (hprobability : other.probability = part.probability)
    (hhumanize : other.humanize = part.humanize) (draws : γ) (calls : List (Nat × Call α)) :
    other.sift draws calls = part.sift draws calls := by
  induction calls generalizing draws with
  | nil => rfl
  | cons call calls ih =>
    have hdecide : other.decide draws call = part.decide draws call := by
      rw [decide, decide, drawAdmission, drawAdmission, hprobability, hhumanize]
    rw [sift_cons, sift_cons, hdecide, ih]

/-! ### Commands and runs sift what is due -/

/-- What becomes of an entry that comes up is what becomes of the call that is due for it. -/
theorem call?_fireAt (part : Part γ α) (listener : Listener) (time : ClockTime) (entry : Entry α)
    (draws : γ) :
    ((part.fireAt listener time entry draws).1.call?, (part.fireAt listener time entry draws).2) =
      part.decide draws (due listener (time, entry)) := by
  rw [fireAt, decide]
  cases part.drawAdmission draws with
  | mk admitted next => cases admitted <;> rfl

/-- Voicing the entries that come up is sifting the calls that are due for them. -/
theorem callsOf_voice (part : Part γ α) (listener : Listener) (draws : γ)
    (soundings : List (ClockTime × Entry α)) :
    (callsOf (part.voice listener draws soundings).1, (part.voice listener draws soundings).2) =
      part.sift draws (soundings.map (due listener)) := by
  induction soundings generalizing draws with
  | nil => rfl
  | cons sounding rest ih =>
    obtain ⟨time, entry⟩ := sounding
    rw [voice_cons, callsOf_cons, List.map_cons, sift_cons, ← call?_fireAt, ← ih]

theorem process_eq_sift (part : Part γ α) (now : ClockTime) :
    (callsOf (part.process now).2, (part.process now).1.draws) =
      part.sift part.draws (part.callsDue (.process now)) := by
  have hending : ∀ time : Option ClockTime, callsOf (time.map (PartEvent.finished (α := α)
      (part.transport.process now).transport.loopsPlayed)).toList = [] := by
    intro time
    cases time <;> rfl
  rw [process]
  dsimp only
  rw [callsOf_append, hending, List.append_nil, play_eq_voice, callsDue]
  cases part.audience with
  | none => rfl
  | some listener => exact part.callsOf_voice listener part.draws _

/-- A command sifts the calls that are due. -/
theorem perform_eq_sift (part : Part γ α) (command : Command α) :
    (callsOf (part.perform command).2, (part.perform command).1.draws) =
      part.sift part.draws (part.callsDue command) := by
  have hquiet : part.comingUp command = [] → part.callsDue command = [] := by
    intro h
    rw [callsDue, h]
    cases part.audience <;> rfl
  cases command with
  | process now => exact part.process_eq_sift now
  | start time position =>
    rw [hquiet rfl, perform, start]
    split <;> rfl
  | stop time =>
    rw [hquiet rfl, perform, stop]
    cases part.transport.stopTimeFor? time <;> rfl
  | setRate rate =>
    rw [hquiet rfl, perform, setRate]
    split <;> rfl
  | dispose =>
    rw [hquiet rfl, perform, dispose]
    split <;> rfl
  | _ =>
    rw [hquiet rfl]
    rfl

/-! ### Rules of chance -/

/-- Whether a command leaves the rules of chance alone: the probability and the deviations. -/
def Command.keepsChance : Command α → Bool
  | .setProbability _ | .setHumanize _ => false
  | _ => true

theorem probability_perform (part : Part γ α) {command : Command α}
    (h : command.keepsChance = true) :
    (part.perform command).1.probability = part.probability := by
  cases command with
  | setProbability | setHumanize => contradiction
  | _ => rfl

theorem humanize_perform (part : Part γ α) {command : Command α} (h : command.keepsChance = true) :
    (part.perform command).1.humanize = part.humanize := by
  cases command with
  | setProbability | setHumanize => contradiction
  | _ => rfl

/-- **A run sifts the calls that are due**, all of them in one go. -/
theorem run_eq_sift (part : Part γ α) {commands : List (Command α)}
    (h : ∀ command ∈ commands, command.keepsChance = true) :
    (callsOf (part.run commands).2, (part.run commands).1.draws) =
      part.sift part.draws (part.callsDueAlong commands) := by
  induction commands generalizing part with
  | nil => rfl
  | cons command commands ih =>
    have hcommand := h command List.mem_cons_self
    have hrest := ih (part.perform command).1 fun other hother =>
      h other (List.mem_cons_of_mem _ hother)
    have hsame : ∀ draws calls, (part.perform command).1.sift draws calls = part.sift draws calls :=
      sift_congr (part.probability_perform hcommand) (part.humanize_perform hcommand)
    rw [hsame] at hrest
    rw [run_cons, callsOf_append, callsDueAlong, sift_append, ← part.perform_eq_sift command]
    rw [← hrest]

/-- A part with other rules of chance and other random numbers. -/
def withChance (part : Part γ α) (probability : Binary64) (humanize : Humanize) (draws : γ) :
    Part γ α :=
  { part with probability, humanize, draws }

/-- Apart from its draws, a part goes the same way under other rules of chance. -/
theorem perform_withChance (part : Part γ α) (probability : Binary64) (humanize : Humanize)
    (draws : γ) {command : Command α} (h : command.keepsChance = true) :
    ((part.withChance probability humanize draws).perform command).1 =
      (part.perform command).1.withChance probability humanize
        ((part.withChance probability humanize draws).perform command).1.draws := by
  cases command with
  | setProbability | setHumanize => contradiction
  | _ => rfl

/-- **Which calls are due is not left to chance.** -/
theorem callsDueAlong_withChance (part : Part γ α) (probability : Binary64) (humanize : Humanize)
    (draws : γ) {commands : List (Command α)}
    (h : ∀ command ∈ commands, command.keepsChance = true) :
    (part.withChance probability humanize draws).callsDueAlong commands =
      part.callsDueAlong commands := by
  induction commands generalizing part draws with
  | nil => rfl
  | cons command commands ih =>
    have hhere : (part.withChance probability humanize draws).callsDue command =
        part.callsDue command := by
      cases command <;> rfl
    rw [callsDueAlong, callsDueAlong, hhere,
      part.perform_withChance probability humanize draws (h command List.mem_cons_self),
      ih _ _ fun other hother => h other (List.mem_cons_of_mem _ hother)]

/-- Under any rules of chance, the calls of a run come from the same list of calls that are due. -/
theorem callsOf_run_withChance (part : Part γ α) (probability : Binary64) (humanize : Humanize)
    (draws : γ) {commands : List (Command α)}
    (h : ∀ command ∈ commands, command.keepsChance = true) :
    callsOf ((part.withChance probability humanize draws).run commands).2 =
      ((part.withChance probability humanize draws).sift draws
        (part.callsDueAlong commands)).1 := by
  have hsift := (part.withChance probability humanize draws).run_eq_sift h
  rw [callsDueAlong_withChance part probability humanize draws h] at hsift
  exact congrArg Prod.fst hsift

/-! ### Without chance -/

theorem drawAdmission_of_sure {part : Part γ α} (h : part.probability.lt .one = false)
    (draws : γ) : part.drawAdmission draws = (true, draws) := by
  rw [drawAdmission, h]
  rfl

theorem drawAdmission_of_unsure {part : Part γ α} (h : part.probability.lt .one = true)
    (draws : γ) :
    part.drawAdmission draws =
      (!part.probability.le (Generator.share draws).1, (Generator.share draws).2) :=
  if_pos h

/-- Without deviations a call is made as it is due, or left out. -/
theorem decide_of_unmoved {part : Part γ α} (h : part.humanize.amount = 0) (draws : γ)
    (call : Nat × Call α) :
    part.decide draws call =
      (if (part.drawAdmission draws).1 then some call else none,
        (part.drawAdmission draws).2) := by
  have hmove : ∀ time (draws : γ), part.humanize.move time draws = (time, draws) :=
    fun _ _ => if_pos h
  rw [decide]
  cases part.drawAdmission draws with
  | mk admitted next => cases admitted <;> simp only [hmove] <;> rfl

/-- Where nothing is left to chance, every call is made as it is due. -/
theorem sift_of_exact (part : Part γ α) (hsure : part.probability.lt .one = false)
    (hunmoved : part.humanize.amount = 0) (draws : γ) (calls : List (Nat × Call α)) :
    part.sift draws calls = (calls, draws) := by
  induction calls with
  | nil => rfl
  | cons call calls ih =>
    rw [sift_cons, decide_of_unmoved hunmoved, drawAdmission_of_sure hsure, ih]
    rfl

end Part

end Ostinato
