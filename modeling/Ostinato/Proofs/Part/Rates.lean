import Ostinato.Part.Transport
import Ostinato.Proofs.Binary64.Order

/-!
# Playing at a rate

At a rate, a duration is stretched to the length that is played in it, and a length to the duration
in which it is played. Both results are rounded, so neither is the inverse of the other. What can be
relied on is said here in whole numbers, with lengths and durations compared as
`length * unitsPerOne` and `duration * rate.units`.

## Main definitions

* `Binary64.units`: the size of a finite value.

## Main results

* `Transport.IsPlayable.lt_of_lt_scale`: all but the last unit of what is played in a duration is
  less than what the duration has room for.
* `Transport.IsPlayable.unscale_le`: a length for which a duration has room is played in no more
  than that duration.
* `Transport.IsPlayable.unscale_mono`: shorter lengths are played in no more time.
-/

namespace Ostinato

namespace Binary64

/-- The number of units of a finite value, without its sign. -/
def units : Binary64 → Nat
  | .finite _ units _ => units
  | _ => 0

@[simp] theorem units_one : one.units = unitsPerOne := rfl

theorem roundUpTo_round (limit : Nat) {n d : Nat} (h : roundSignificand n d < unitsLimit) :
    (round false n d).roundUpTo limit =
      min limit ((2 * roundSignificand n d + unitsPerOne) / (2 * unitsPerOne)) := by
  rw [round, dif_pos h]
  rfl

theorem roundUpTo_round_mono (limit d : Nat) {n m : Nat} (h : n ≤ m) :
    (round false n d).roundUpTo limit ≤ (round false m d).roundUpTo limit := by
  have hsignificand := roundSignificand_mono d h
  by_cases hm : roundSignificand m d < unitsLimit
  · have hn := Nat.lt_of_le_of_lt hsignificand hm
    rw [roundUpTo_round limit hn, roundUpTo_round limit hm]
    have hhalves : (2 * roundSignificand n d + unitsPerOne) / (2 * unitsPerOne) ≤
        (2 * roundSignificand m d + unitsPerOne) / (2 * unitsPerOne) :=
      Nat.div_le_div_right (by omega)
    omega
  · rw [round.eq_def false m, dif_neg hm]
    exact roundUpTo_le limit _

theorem roundUpTo_round_le {limit n d a : Nat} (hd : 0 < d) (ha : a < exactLimit)
    (h : n ≤ a * unitsPerOne * d) : (round false n d).roundUpTo limit ≤ a := by
  obtain ⟨hlimit, hshort⟩ := representable_of_lt ha
  have hsignificand := roundSignificand_le hd hshort h
  have hpos := unitsPerOne_pos
  rw [roundUpTo_round limit (Nat.lt_of_le_of_lt hsignificand hlimit)]
  refine Nat.le_trans (Nat.min_le_right _ _) (Nat.le_of_lt_succ ?_)
  rw [Nat.div_lt_iff_lt_mul (by omega), Nat.mul_left_comm, Nat.succ_mul a]
  omega

theorem lt_of_lt_roundUpTo_round {limit n d a : Nat} (hd : 0 < d) (ha : a < exactLimit)
    (h : a < (round false n d).roundUpTo limit) : a * unitsPerOne * d < n :=
  Nat.lt_of_not_le fun hle => Nat.not_lt_of_le (roundUpTo_round_le hd ha hle) h

end Binary64

namespace Transport

open Binary64 (unitsPerOne)

theorem IsPlayable.exists_eq_finite {rate : Binary64} (h : IsPlayable rate) :
    ∃ representable, 0 < rate.units ∧ rate = .finite false rate.units representable := by
  obtain ⟨hpos, hfinite⟩ := h
  cases rate with
  | nan => contradiction
  | infinity negative => contradiction
  | finite negative units representable =>
    have hrank := of_decide_eq_true hpos
    cases negative with
    | false => exact ⟨representable, Int.natCast_pos.1 hrank, rfl⟩
    | true =>
      have hnegative : (0 : Int) < -(units : Int) := hrank
      omega

theorem IsPlayable.units_pos {rate : Binary64} (h : IsPlayable rate) : 0 < rate.units := by
  obtain ⟨-, hpos, -⟩ := h.exists_eq_finite
  exact hpos

section Playable

variable {rate : Binary64} (hrate : IsPlayable rate)

include hrate

theorem IsPlayable.scale_eq (duration : ClockTime) (h : duration.val < exactLimit) :
    (duration.scale rate).val = (Binary64.round false
      (duration.val * unitsPerOne * rate.units) unitsPerOne).roundUpTo maxCount := by
  obtain ⟨representable, -, heq⟩ := hrate.exists_eq_finite
  rw [ClockTime.scale, Binary64.ofNat_eq_finite h, heq]
  rfl

theorem IsPlayable.unscale_eq (length : ClockTime) (h : length.val < exactLimit) :
    (length.unscale rate).val = (Binary64.round false
      (length.val * unitsPerOne * unitsPerOne) rate.units).roundUpTo maxCount := by
  obtain ⟨representable, hpos, heq⟩ := hrate.exists_eq_finite
  rw [ClockTime.unscale, Binary64.ofNat_eq_finite h, heq]
  exact congrArg (fun value : Binary64 => value.roundUpTo maxCount) (if_neg (Nat.ne_of_gt hpos))

/-- All but the last unit of the length that is played in a duration is less than what the duration
has room for. -/
theorem IsPlayable.lt_of_lt_scale {duration : ClockTime} (h : duration.val < exactLimit)
    {length : Nat} (hlength : length < exactLimit) (hlt : length < (duration.scale rate).val) :
    length * unitsPerOne < duration.val * rate.units := by
  rw [hrate.scale_eq duration h] at hlt
  have hroom := Binary64.lt_of_lt_roundUpTo_round Binary64.unitsPerOne_pos hlength hlt
  rw [Nat.mul_right_comm duration.val] at hroom
  exact Nat.lt_of_mul_lt_mul_right hroom

/-- A length for which a duration has room is played in no more than that duration. -/
theorem IsPlayable.unscale_le {length : ClockTime} (h : length.val < exactLimit) {duration : Nat}
    (hduration : duration < exactLimit)
    (hroom : length.val * unitsPerOne ≤ duration * rate.units) :
    (length.unscale rate).val ≤ duration := by
  rw [hrate.unscale_eq length h]
  refine Binary64.roundUpTo_round_le hrate.units_pos hduration ?_
  rw [Nat.mul_right_comm duration]
  exact Nat.mul_le_mul_right _ hroom

/-- Shorter lengths are played in no more time. -/
theorem IsPlayable.unscale_mono {first second : ClockTime} (h : second.val < exactLimit)
    (hle : first ≤ second) : first.unscale rate ≤ second.unscale rate := by
  rw [Span.le_def, hrate.unscale_eq first (Nat.lt_of_le_of_lt hle h), hrate.unscale_eq second h]
  exact Binary64.roundUpTo_round_mono maxCount rate.units
    (Nat.mul_le_mul_right _ (Nat.mul_le_mul_right _ hle))

end Playable

end Transport

end Ostinato
