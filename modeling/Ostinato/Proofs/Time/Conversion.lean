import Ostinato.Time.Meter

/-!
# Conversion of musical time

## Main definitions

* `Span.rescale`: a span in another unit.
* `Meter.nanosecondTicks`: the ticks that last a nanosecond at least.

## Main results

* `Meter.toClock_le_toClock`, `Meter.toTicks_le_toTicks`: conversion keeps the order.
* `Meter.toClock_lt_toClock`: what is far enough apart in musical time is apart on the clock.
-/

namespace Ostinato

namespace Span

variable {unit other : TimeUnit} {factor divisor : Nat}

/-- A span in another unit, of which `factor` last as long as `divisor` of its own; rounded down,
and stopped at the largest span. -/
def rescale (factor divisor : Nat) (a : Span unit) : Span other :=
  ofNat (a.val * factor / divisor)

theorem rescale_le_rescale {a b : Span unit} (h : a ≤ b) :
    (a.rescale factor divisor : Span other) ≤ b.rescale factor divisor := by
  have hquotient : a.val * factor / divisor ≤ b.val * factor / divisor :=
    Nat.div_le_div_right (Nat.mul_le_mul_right factor h)
  rw [le_def, rescale, rescale, val_ofNat, val_ofNat]
  omega

end Span

namespace Meter

/-- Later in musical time is not earlier on the clock, also where the clock stops at its largest
time. -/
theorem toClock_le_toClock (meter : Meter) {first second : Ticks} (h : first ≤ second) :
    meter.toClock first ≤ meter.toClock second :=
  Span.rescale_le_rescale h

/-- Nor is what is later on the clock earlier in musical time. -/
theorem toTicks_le_toTicks (meter : Meter) {first second : ClockTime} (h : first ≤ second) :
    meter.toTicks first ≤ meter.toTicks second :=
  Span.rescale_le_rescale h

/-- The least number of ticks that last a nanosecond. -/
def nanosecondTicks (meter : Meter) : Nat :=
  (meter.ticksPerMinute + ClockTime.perMinute - 1) / ClockTime.perMinute

theorem ticksPerMinute_le_nanosecondTicks_mul (meter : Meter) :
    meter.ticksPerMinute ≤ meter.nanosecondTicks * ClockTime.perMinute := by
  have hpos : 0 < ClockTime.perMinute := by decide
  have hdiv := Nat.div_add_mod (meter.ticksPerMinute + ClockTime.perMinute - 1) ClockTime.perMinute
  have hmod := Nat.mod_lt (meter.ticksPerMinute + ClockTime.perMinute - 1) hpos
  rw [Nat.mul_comm, ← nanosecondTicks] at hdiv
  omega

/-- What is a nanosecond apart in musical time is apart on the clock, although that rounds down, as
long as the later time is within its range. -/
theorem toClock_lt_toClock (meter : Meter) {first second : Ticks}
    (h : first.val + meter.nanosecondTicks ≤ second.val)
    (hrange : second.val * ClockTime.perMinute / meter.ticksPerMinute ≤ maxCount) :
    meter.toClock first < meter.toClock second := by
  have hpos := meter.ticksPerMinute_pos
  have happart : first.val * ClockTime.perMinute + meter.ticksPerMinute ≤
      second.val * ClockTime.perMinute :=
    calc first.val * ClockTime.perMinute + meter.ticksPerMinute
        ≤ first.val * ClockTime.perMinute + meter.nanosecondTicks * ClockTime.perMinute :=
          Nat.add_le_add_left meter.ticksPerMinute_le_nanosecondTicks_mul _
      _ = (first.val + meter.nanosecondTicks) * ClockTime.perMinute := (Nat.add_mul _ _ _).symm
      _ ≤ second.val * ClockTime.perMinute := Nat.mul_le_mul_right _ h
  have hquotient := Nat.div_le_div_right (c := meter.ticksPerMinute) happart
  rw [Nat.add_div_right _ hpos] at hquotient
  rw [Span.lt_def, toClock, toClock, Span.val_ofNat, Span.val_ofNat, Nat.min_eq_left hrange]
  exact Nat.lt_of_le_of_lt (Nat.min_le_left _ _) hquotient

theorem range_of_toClock_lt (meter : Meter) {first second : Ticks}
    (h : meter.toClock first < meter.toClock second) :
    first.val * ClockTime.perMinute / meter.ticksPerMinute ≤ maxCount := by
  have hbelow : (meter.toClock first).val < maxCount :=
    Nat.lt_of_lt_of_le h (meter.toClock second).val_le
  refine Nat.le_of_not_lt fun hlt => Nat.lt_irrefl maxCount ?_
  rw [toClock, Span.val_ofNat, Nat.min_eq_right (Nat.le_of_lt hlt)] at hbelow
  exact hbelow

end Meter

end Ostinato
