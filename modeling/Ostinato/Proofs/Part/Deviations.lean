import Mathlib.Data.List.Forall2
import Ostinato.Proofs.Part.Generators
import Ostinato.Proofs.Part.Rates
import Ostinato.Proofs.Part.Sifting

/-!
# Deviations

A part may let its entries sound early or late at random, up to an amount. A deviation is the amount
stretched by a number that the generator promises to be at most one, so however it is rounded it is
no more than the amount, and where it would lead out of the range of clock times it stops at the end
of the range. Deviations move calls, and nothing else: the order of the calls is that of the
entries, and the transport does not ask for them.

## Main definitions

* `IsMovedUpTo`: whether a call is another one with a clock time that is moved.

## Main results

* `Humanize.move_within`: a clock time is moved by no more than the amount.
* `Part.sift_moved`: where every entry sounds, deviations only move the calls that are due.
* `Part.calls_moved_up_to`: so they do in a run, and the transport goes as it goes without them.
-/

namespace Ostinato

open Binary64 (unitsPerOne)

variable {γ α : Type} [Generator γ]

/-! ### Numbers up to one -/

theorem ClockTime.scale_le {duration : ClockTime} (h : duration.val < exactLimit) {units : Nat}
    (representable : Binary64.Representable units) (hunits : units ≤ unitsPerOne) :
    duration.scale (.finite false units representable) ≤ duration := by
  rw [Span.le_def, scale, Binary64.ofNat_eq_finite h]
  exact Binary64.roundUpTo_round_le Binary64.unitsPerOne_pos h (Nat.mul_le_mul_left _ hunits)

theorem Binary64.exists_abs_eq_finite {x : Binary64} (h : x.abs.le .one = true) :
    ∃ units representable, x.abs = .finite false units representable ∧ units ≤ unitsPerOne := by
  obtain ⟨rank, one, hrank, hone, hle⟩ := le_iff.1 h
  cases hone
  cases x with
  | nan => contradiction
  | infinity negative =>
    cases hrank
    have hless : unitsPerOne < unitsLimit := by decide +kernel
    exact absurd (Int.ofNat_le.1 hle) (Nat.not_le_of_lt hless)
  | finite negative units representable =>
    cases hrank
    exact ⟨units, representable, rfl, Int.ofNat_le.1 hle⟩

namespace Humanize

variable [LawfulGenerator γ] {humanize : Humanize} (h : humanize.amount.val < exactLimit)

include h

theorem scale_amount_le (draws : γ) :
    humanize.amount.scale (Generator.jitter draws).1.abs ≤ humanize.amount := by
  obtain ⟨units, representable, hsize, hunits⟩ :=
    Binary64.exists_abs_eq_finite (LawfulGenerator.abs_jitter_le_one draws)
  rw [hsize]
  exact ClockTime.scale_le h representable hunits

/-- A clock time is moved neither further on nor further back than the amount. -/
theorem move_within (time : ClockTime) (draws : γ) :
    (humanize.move time draws).1.val ≤ time.val + humanize.amount.val ∧
      time.val ≤ (humanize.move time draws).1.val + humanize.amount.val := by
  have hdeviation : humanize.amount.scale (Generator.jitter draws).1.abs ≤ humanize.amount :=
    scale_amount_le h draws
  have hlimit := time.val_le
  rw [Span.le_def] at hdeviation
  rw [move]
  split
  · exact ⟨Nat.le_add_right _ _, Nat.le_add_right _ _⟩
  · dsimp only
    split
    · rw [Span.val_sub]
      omega
    · rw [Span.val_add]
      omega

end Humanize

/-! ### Calls that are moved -/

/-- Whether a call is another one, for the same entry, listener and step, with a clock time that is
moved by no more than an amount. Both are clock times, so neither lies outside their range. -/
structure IsMovedUpTo (amount : ClockTime) (call moved : Nat × Call α) : Prop where
  entry : moved.1 = call.1
  listener : moved.2.listener = call.2.listener
  step : moved.2.step = call.2.step
  latest : moved.2.time.val ≤ call.2.time.val + amount.val
  earliest : call.2.time.val ≤ moved.2.time.val + amount.val

namespace Part

/-- Where every entry sounds, deviations only move the calls that are due. -/
theorem sift_moved [LawfulGenerator γ] (part : Part γ α) (hsure : part.probability.lt .one = false)
    (hamount : part.humanize.amount.val < exactLimit) (draws : γ)
    (calls : List (Nat × Call α)) :
    calls.Forall₂ (IsMovedUpTo part.humanize.amount) (part.sift draws calls).1 := by
  induction calls generalizing draws with
  | nil => exact .nil
  | cons call calls ih =>
    have hdecide : part.decide draws call =
        (some (call.1, { call.2 with time := (part.humanize.move call.2.time draws).1 }),
          (part.humanize.move call.2.time draws).2) := by
      rw [decide, drawAdmission_of_sure hsure]
      rfl
    obtain ⟨hlatest, hearliest⟩ := Humanize.move_within hamount call.2.time draws
    rw [sift_cons, hdecide]
    exact .cons ⟨rfl, rfl, rfl, hlatest, hearliest⟩ (ih _)

/-- **Deviations only move calls, within their amount.** Let the numbers that are drawn be at most
one in size. Let two parts in which every entry sounds differ in that one has no deviations and the
other has some, and in the states of their generators. Do the same to both, whatever it is, but
leave the rules of chance alone. Then both make the same calls in the same order, except that the
clock times of the other are moved by no more than the amount; and at any time their transports are
the same, so both play and stop and are at the same position together. -/
theorem calls_moved_up_to [LawfulGenerator γ] (part : Part γ α) (hsure : part.probability = .one)
    (hexact : part.humanize = .off) (humanize : Humanize)
    (hamount : humanize.amount.val < exactLimit) (draws : γ) (commands : List (Command α))
    (hcommands : ∀ command ∈ commands, command.keepsChance = true) :
    let moved : Part γ α := { part with humanize, draws }
    (callsOf (part.run commands).2).Forall₂ (IsMovedUpTo humanize.amount)
        (callsOf (moved.run commands).2) ∧
      (part.run commands).1.transport = (moved.run commands).1.transport := by
  intro moved
  have hone : part.probability.lt .one = false := by rw [hsure, Binary64.lt_irrefl]
  have hunmoved : part.humanize.amount = 0 := by rw [hexact]; rfl
  have hdue : callsOf (part.run commands).2 = part.callsDueAlong commands := by
    have hsift := part.run_eq_sift hcommands
    rw [part.sift_of_exact hone hunmoved] at hsift
    exact congrArg Prod.fst hsift
  have hmoved : callsOf (moved.run commands).2 =
      (moved.sift draws (part.callsDueAlong commands)).1 :=
    part.callsOf_run_withChance part.probability humanize draws hcommands
  constructor
  · rw [hdue, hmoved]
    exact moved.sift_moved hone hamount draws _
  · rw [transport_run, transport_run]

/-- A window is played twice, the second time at twice the rate from its third position on. The
first call stays at the start of the range of clock times, and a later one comes with an earlier
time than the one before it. -/
theorem calls_moved_up_to_six :
    let part : Part SplitMix Char := { listener := some { name := "bell" }, draws := ⟨7⟩ }
    let moved : Part SplitMix Char := { part with humanize := .upTo 6, draws := ⟨11⟩ }
    let commands : List (Command Char) :=
      [.add 0 (.sound 'a'), .add 3 .silence, .add 4 (.sound 'b'), .setLoopMode (.count 2),
        .setLoopFinish 10, .start none none, .process 12, .setRate (.ofNat 2), .process 40]
    (part.probability = .one ∧ part.humanize = .off ∧ moved.humanize.amount.val < exactLimit ∧
        ∀ command ∈ commands, command.keepsChance = true) ∧
      (callsOf (part.run commands).2).map (fun call => (call.1, call.2.time.val)) =
        [(0, 0), (1, 3), (2, 4), (0, 10), (1, 13), (2, 13)] ∧
      (callsOf (moved.run commands).2).map (fun call => (call.1, call.2.time.val)) =
        [(0, 0), (1, 0), (2, 6), (0, 10), (1, 9), (2, 14)] ∧
      (callsOf (part.run commands).2).Forall₂ (IsMovedUpTo 6) (callsOf (moved.run commands).2) ∧
      (moved.run commands).1.transport.state = .stopped ∧
      (part.run commands).1.transport = (moved.run commands).1.transport := by
  intro part moved commands
  have hamount : moved.humanize.amount.val < exactLimit := by decide
  have hcommands : ∀ command ∈ commands, command.keepsChance = true := by decide
  obtain ⟨hmoved, htransport⟩ :=
    part.calls_moved_up_to rfl rfl (.upTo 6) hamount ⟨11⟩ commands hcommands
  exact ⟨⟨rfl, rfl, hamount, hcommands⟩, by decide +kernel, by decide +kernel, hmoved,
    by decide +kernel, htransport⟩

end Part

end Ostinato
