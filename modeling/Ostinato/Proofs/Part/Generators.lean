import Ostinato.Part.Generator
import Ostinato.Proofs.Binary64.Order

/-!
# The numbers of a counter

The numbers that are drawn from a counter are quotients that are rounded once, and rounding does not
lead out of a range with representable ends.

## Main results

* `Binary64.exists_round_eq_finite`: a quotient up to a value is rounded to a value up to that.
* `SplitMix` is a lawful generator with distinct ids.
-/

namespace Ostinato

-- Powers of natural numbers are those of the core library, whatever else is in scope.
attribute [local instance (high)] instPowNat

namespace Binary64

/-- A quotient up to a representable number of units is rounded to no more units than these. -/
theorem exists_round_eq_finite (negative : Bool) {n d limit : Nat} (hd : 0 < d)
    (hlimit : Representable limit) (h : n ≤ limit * d) :
    ∃ units representable, round negative n d = .finite negative units representable ∧
      units ≤ limit := by
  have hle : roundSignificand n d ≤ limit := roundSignificand_le hd hlimit.2 h
  have hfinite := Nat.lt_of_le_of_lt hle hlimit.1
  exact ⟨_, ⟨hfinite, hasShortSignificand_roundSignificand _ _⟩, dif_pos hfinite, hle⟩

end Binary64

namespace SplitMix

open Binary64 (unitsPerOne Representable exists_round_eq_finite)

private theorem exists_share_eq_finite (draws : SplitMix) :
    ∃ units representable, draws.share = .finite false units representable ∧
      units < unitsPerOne := by
  let step := unitsPerOne / exactLimit
  have hunits : unitsPerOne = step * exactLimit := by decide +kernel
  have hlimit : Representable ((exactLimit - 1) * step) := by decide +kernel
  have hless : (exactLimit - 1) * step < unitsPerOne := by decide +kernel
  have hfraction : draws.fraction ≤ exactLimit - 1 := Nat.le_pred_of_lt draws.fraction_lt
  have hquotient : draws.fraction * unitsPerOne ≤ (exactLimit - 1) * step * exactLimit := by
    rw [hunits, ← Nat.mul_assoc]
    exact Nat.mul_le_mul_right _ (Nat.mul_le_mul_right _ hfraction)
  obtain ⟨units, representable, hround, hle⟩ :=
    exists_round_eq_finite false (by decide) hlimit hquotient
  exact ⟨units, representable, hround, Nat.lt_of_le_of_lt hle hless⟩

private theorem exists_jitter_eq_finite (draws : SplitMix) :
    ∃ negative units representable, draws.jitter = .finite negative units representable ∧
      units ≤ unitsPerOne := by
  have hfraction := draws.fraction_lt
  have hhalves : exactLimit = exactLimit / 2 + exactLimit / 2 := by decide
  have hdistance : (draws.fraction - exactLimit / 2) + (exactLimit / 2 - draws.fraction) ≤
      exactLimit / 2 := by omega
  have hone : Representable unitsPerOne :=
    Nat.one_mul unitsPerOne ▸ Binary64.representable_of_lt (by decide)
  refine ⟨_, exists_round_eq_finite _ (by decide) hone ?_⟩
  rw [Nat.mul_comm unitsPerOne]
  exact Nat.mul_le_mul_right _ hdistance

instance : LawfulGenerator SplitMix where
  zero_le_share draws := by
    obtain ⟨units, representable, hshare, -⟩ := draws.exists_share_eq_finite
    refine Binary64.le_iff.2 ⟨0, units, rfl, ?_, Int.natCast_nonneg units⟩
    exact congrArg Binary64.rank? hshare
  share_lt_one draws := by
    obtain ⟨units, representable, hshare, hlt⟩ := draws.exists_share_eq_finite
    exact Binary64.lt_iff.2 ⟨units, unitsPerOne, congrArg Binary64.rank? hshare, rfl,
      Int.ofNat_lt.2 hlt⟩
  abs_jitter_le_one draws := by
    obtain ⟨negative, units, representable, hjitter, hle⟩ := draws.exists_jitter_eq_finite
    refine Binary64.le_iff.2 ⟨units, unitsPerOne, ?_, rfl, Int.ofNat_le.2 hle⟩
    exact congrArg (fun jitter => jitter.abs.rank?) hjitter

instance : DistinctIds SplitMix where
  injective := Function.injective_id

end SplitMix

end Ostinato
