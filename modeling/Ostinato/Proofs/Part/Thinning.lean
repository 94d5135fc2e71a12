import Ostinato.Proofs.Part.Generators
import Ostinato.Proofs.Part.Sifting

/-!
# Thinning out calls

With a lower probability more entries are left out, and none sounds that would not have sounded
before: the same number is drawn for the same entry, and lets it sound if it lies below the
probability. This goes on for a whole run, because the draws go on from one command to the next
where they were left, and an entry takes one draw whatever becomes of it. Only where every entry
sounds nothing is drawn, but there no draw is asked for either.

## Main results

* `Part.sift_sublist_of_le`: of the same draws, a higher probability lets through all that a lower
  one does, and leaves the same draws behind.
* `Part.sift_sublist`, `Part.sift_of_never`: without deviations no calls are made but those that are
  due, and none at probability zero.
* `Part.calls_sublist_of_le`: raising the probability only adds calls to a run.
-/

namespace Ostinato

variable {γ α : Type} [Generator γ]

namespace Part

/-! ### One probability -/

/-- Without deviations no calls are made but those that are due. -/
theorem sift_sublist (part : Part γ α) (h : part.humanize.amount = 0) (draws : γ)
    (calls : List (Nat × Call α)) : (part.sift draws calls).1.Sublist calls := by
  induction calls generalizing draws with
  | nil => exact .slnil
  | cons call calls ih =>
    rw [sift_cons, decide_of_unmoved h]
    dsimp only
    split
    · exact (ih _).cons_cons call
    · exact (ih _).cons call

/-- At probability zero every entry is left out. -/
theorem sift_of_never [LawfulGenerator γ] (part : Part γ α) (h : part.humanize.amount = 0)
    (hnever : part.probability.le .zero = true) (draws : γ) (calls : List (Nat × Call α)) :
    (part.sift draws calls).1 = [] := by
  have hbelow : part.probability.lt .one = true :=
    Binary64.lt_of_le_of_lt hnever (by decide +kernel)
  induction calls generalizing draws with
  | nil => rfl
  | cons call calls ih =>
    have hshare : part.probability.le (Generator.share draws).1 = true :=
      Binary64.le_trans hnever (LawfulGenerator.zero_le_share draws)
    have hadmission : part.drawAdmission draws = (false, (Generator.share draws).2) := by
      rw [drawAdmission_of_unsure hbelow, hshare, Bool.not_true]
    rw [sift_cons, decide_of_unmoved h, hadmission, ih]
    rfl

/-! ### Two probabilities -/

section TwoProbabilities

variable (rarer surer : Part γ α) (hle : rarer.probability.le surer.probability = true)

include hle

theorem drawAdmission_of_le (hsurer : surer.probability.lt .one = true) (draws : γ) :
    ((rarer.drawAdmission draws).1 = true → (surer.drawAdmission draws).1 = true) ∧
      (rarer.drawAdmission draws).2 = (surer.drawAdmission draws).2 := by
  have hrarer : rarer.probability.lt .one = true := Binary64.lt_of_le_of_lt hle hsurer
  rw [drawAdmission_of_unsure hrarer, drawAdmission_of_unsure hsurer]
  refine ⟨fun hadmitted => ?_, rfl⟩
  rw [Bool.not_eq_true'] at hadmitted ⊢
  -- what reaches the higher probability reaches the lower one, too
  exact Bool.eq_false_iff.2 fun hreach =>
    Bool.eq_false_iff.1 hadmitted (Binary64.le_trans hle hreach)

/-- **Two probabilities, the same draws**: the higher one lets through all that the lower one does.
The draws stay the same, as each entry takes one at either probability. -/
theorem sift_sublist_of_le (hrarer : rarer.humanize.amount = 0) (hsurer : surer.humanize.amount = 0)
    (hlt : surer.probability.lt .one = true) (draws : γ) (calls : List (Nat × Call α)) :
    (rarer.sift draws calls).1.Sublist (surer.sift draws calls).1 ∧
      (rarer.sift draws calls).2 = (surer.sift draws calls).2 := by
  induction calls generalizing draws with
  | nil => exact ⟨.slnil, rfl⟩
  | cons call calls ih =>
    obtain ⟨hadmitted, hdraws⟩ := drawAdmission_of_le rarer surer hle hlt draws
    obtain ⟨hrest, hlast⟩ := ih (surer.drawAdmission draws).2
    rw [sift_cons, sift_cons, decide_of_unmoved hrarer, decide_of_unmoved hsurer, hdraws]
    refine ⟨List.Sublist.append ?_ hrest, hlast⟩
    dsimp only
    split
    · next h => simpa only [if_pos (hadmitted h)] using List.Sublist.refl _
    · exact List.nil_sublist _

end TwoProbabilities

/-! ### Runs -/

/-- **Raising the probability only adds calls.** Let the numbers that are drawn lie in `[0, 1)`. Let
two parts without deviations differ in their probabilities only, and do the same to both, whatever
it is, but leave the rules of chance alone. Then the calls of the one with the lower probability are
among those of the other, with the same clock times and steps and in the same order. From
probability one on these are all the calls that are due, one for every entry that is met; down to
probability zero there are none. -/
theorem calls_sublist_of_le [LawfulGenerator γ] (part : Part γ α)
    (hunmoved : part.humanize.amount = 0) {lower higher : Binary64} (hle : lower.le higher = true)
    (commands : List (Command α))
    (hcommands : ∀ command ∈ commands, command.keepsChance = true) :
    let rarer : Part γ α := { part with probability := lower }
    let surer : Part γ α := { part with probability := higher }
    (callsOf (rarer.run commands).2).Sublist (callsOf (surer.run commands).2) ∧
      (Binary64.one.le higher = true →
        callsOf (surer.run commands).2 = part.callsDueAlong commands) ∧
      (lower.le .zero = true → callsOf (rarer.run commands).2 = []) := by
  intro rarer surer
  have hrarer : callsOf (rarer.run commands).2 =
      (rarer.sift part.draws (part.callsDueAlong commands)).1 :=
    part.callsOf_run_withChance lower part.humanize part.draws hcommands
  have hsurer : callsOf (surer.run commands).2 =
      (surer.sift part.draws (part.callsDueAlong commands)).1 :=
    part.callsOf_run_withChance higher part.humanize part.draws hcommands
  have hall : higher.lt .one = false →
      callsOf (surer.run commands).2 = part.callsDueAlong commands := by
    intro hsure
    rw [hsurer, surer.sift_of_exact hsure hunmoved]
  refine ⟨?_, fun hone => hall (Binary64.lt_eq_false_of_le hone), fun hzero => ?_⟩
  · cases hsure : higher.lt .one with
    | true =>
      rw [hrarer, hsurer]
      exact (sift_sublist_of_le rarer surer hle hunmoved hunmoved hsure part.draws _).1
    | false =>
      -- the surer part draws nothing, so the draws of the two do not stay together
      rw [hrarer, hall hsure]
      exact rarer.sift_sublist hunmoved part.draws _
  · rw [hrarer]
    exact rarer.sift_of_never hunmoved hzero part.draws _

/-- A window is played eight times, and a mute stretch and the removal of an entry lie between.
Three of the nine calls that are due are made at a quarter, and seven at a half, these three among
them. -/
theorem calls_sublist_of_le_quarter :
    let part : Part SplitMix Char := { listener := some { name := "bell" }, draws := ⟨7⟩ }
    let quarter := (Binary64.ofNat 1).div (Binary64.ofNat 4)
    let half := (Binary64.ofNat 1).div (Binary64.ofNat 2)
    let commands : List (Command Char) :=
      [.add 0 (.sound 'a'), .add 3 .silence, .setLoopMode .forever, .setLoopFinish 5,
        .start none none, .process 12, .setMute true, .process 20, .setMute false, .remove 1,
        .process 40]
    let rarer := callsOf ({ part with probability := quarter }.run commands).2
    let surer := callsOf ({ part with probability := half }.run commands).2
    (part.humanize.amount = 0 ∧ quarter.le half = true ∧
        ∀ command ∈ commands, command.keepsChance = true) ∧
      rarer.map (fun call => (call.1, call.2.time.val)) = [(1, 3), (0, 20), (0, 35)] ∧
      surer.map (fun call => (call.1, call.2.time.val)) =
        [(0, 0), (1, 3), (0, 10), (0, 20), (0, 25), (0, 30), (0, 35)] ∧
      (part.callsDueAlong commands).length = 9 ∧ rarer.Sublist surer := by
  intro part quarter half commands rarer surer
  have hle : quarter.le half = true := by decide +kernel
  have hcommands : ∀ command ∈ commands, command.keepsChance = true := by decide
  refine ⟨⟨rfl, hle, hcommands⟩, by decide +kernel, by decide +kernel, by decide +kernel, ?_⟩
  exact (part.calls_sublist_of_le rfl hle commands hcommands).1

end Part

end Ostinato
