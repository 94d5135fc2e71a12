import Mathlib.Algebra.Order.Floor.Div
import Ostinato.Proofs.Time.Conversion

/-!
# Conversion there and back

Both conversions multiply by one number, divide by another and round down, so what is converted
there and back comes out early, but by no more than the least number of units that last one unit of
the other kind. Counts are added up before or after they are converted with a difference of one at
most.

The numbers are words: a minute has fewer ticks than sixty-four bits count, and a product of two
counts fits a hundred and twenty-eight. So the conversions can be done in machine words, and give
the same as without bounds.

## Main definitions

* `mulDivWord`: a word times a word over a word, as machine words compute it.
* `Meter.ticksPerMinuteWord`, `Meter.toClockWord`, `Meter.toTicksWord`: the conversions in machine
  words.

## Main results

* `mul_div_mul_div_le`, `le_mul_div_mul_div_add`: a count that is converted there and back.
* `Meter.toNat_toClockWord`, `Meter.toNat_toTicksWord`: nothing overflows in machine words.
* `Meter.conversion_laws`: the laws of both conversions, for every meter and all counts.
-/

namespace Ostinato

/-! ### Rounding down twice -/

section Rescaling

variable {a b : Nat}

/-- What is rounded down twice is not more than it was. -/
theorem mul_div_mul_div_le (a b count : Nat) : count * a / b * b / a ≤ count := by
  refine Nat.div_le_of_le_mul ?_
  rw [Nat.mul_comm a]
  exact Nat.div_mul_le_self _ b

/-- What is rounded down twice is less than it was by the second factor over the first, rounded up,
at most. -/
theorem le_mul_div_mul_div_add (ha : 0 < a) (hb : 0 < b) (count : Nat) :
    count ≤ count * a / b * b / a + b ⌈/⌉ a := by
  have hrest : count * a ≤ count * a / b * b + b := by
    rw [← Nat.succ_mul, Nat.mul_comm (count * a / b).succ]
    exact Nat.le_of_lt (Nat.lt_mul_div_succ _ hb)
  have hshare : b ≤ b ⌈/⌉ a * a := by
    rw [Nat.mul_comm]
    exact le_smul_ceilDiv ha
  rw [← Nat.add_mul_div_right _ _ ha, Nat.le_div_iff_mul_le ha]
  exact Nat.le_trans hrest (Nat.add_le_add_left hshare _)

theorem add_mul_div_eq (ha : 0 < a) (b s t : Nat) :
    (s + t) * b / a = s * b / a + t * b / a ∨ (s + t) * b / a = s * b / a + t * b / a + 1 := by
  rw [Nat.add_mul, Nat.add_div ha]
  split
  · exact .inr rfl
  · exact .inl rfl

end Rescaling

/-! ### Spans in another unit -/

namespace Span

variable {unit other : TimeUnit} {factor divisor : Nat}

theorem rescale_rescale_le (a : Span unit) :
    ((a.rescale factor divisor : Span other).rescale divisor factor : Span unit) ≤ a := by
  have hinner : (a.rescale factor divisor : Span other).val ≤ a.val * factor / divisor :=
    Nat.min_le_left _ _
  rw [le_def]
  calc ((a.rescale factor divisor : Span other).rescale divisor factor : Span unit).val
      ≤ (a.rescale factor divisor : Span other).val * divisor / factor := Nat.min_le_left _ _
    _ ≤ a.val * factor / divisor * divisor / factor :=
        Nat.div_le_div_right (Nat.mul_le_mul_right divisor hinner)
    _ ≤ a.val := mul_div_mul_div_le factor divisor a.val

/-- There and back, a span that is not stopped becomes shorter by at most as many units as last one
of the other. -/
theorem sub_rescale_rescale_le (hfactor : 0 < factor) (hdivisor : 0 < divisor) {a : Span unit}
    (h : a.val * factor / divisor ≤ maxCount) :
    a.val - ((a.rescale factor divisor : Span other).rescale divisor factor : Span unit).val ≤
      divisor ⌈/⌉ factor := by
  have hback := le_mul_div_mul_div_add hfactor hdivisor a.val
  have hmax := a.val_le
  have hinner : (a.rescale factor divisor : Span other).val = a.val * factor / divisor :=
    Nat.min_eq_left h
  rw [rescale, val_ofNat, hinner]
  omega

/-- As long as nothing is stopped, two spans one after the other are as long in the other unit as
each of them, or a unit longer. -/
theorem val_rescale_add (hdivisor : 0 < divisor) {a b : Span unit} (hsum : a.val + b.val ≤ maxCount)
    (h : (a.val + b.val) * factor / divisor ≤ maxCount) :
    ((a + b).rescale factor divisor : Span other).val =
        (a.rescale factor divisor : Span other).val + (b.rescale factor divisor : Span other).val ∨
      ((a + b).rescale factor divisor : Span other).val =
        (a.rescale factor divisor : Span other).val +
          (b.rescale factor divisor : Span other).val + 1 := by
  have hparts := add_mul_div_eq hdivisor factor a.val b.val
  simp only [rescale, val_ofNat, val_add, Nat.min_eq_left hsum]
  generalize (a.val + b.val) * factor / divisor = sum at hparts h ⊢
  generalize a.val * factor / divisor = first at hparts ⊢
  generalize b.val * factor / divisor = second at hparts ⊢
  omega

end Span

/-! ### Machine words -/

/-- The count of a span as a word. -/
def Span.word {unit : TimeUnit} (a : Span unit) : UInt64 :=
  UInt64.ofNat a.val

@[simp] theorem Span.toNat_word {unit : TimeUnit} (a : Span unit) : a.word.toNat = a.val :=
  UInt64.toNat_ofNat_of_lt (Nat.lt_succ_of_le a.val_le)

/-- A word times a word over a word: the product and the quotient have a hundred and twenty-eight
bits, and a quotient that does not fit a word gives the largest one. -/
def mulDivWord (count factor divisor : UInt64) : UInt64 :=
  let product := count.toBitVec.setWidth 128 * factor.toBitVec.setWidth 128
  let quotient := product / divisor.toBitVec.setWidth 128
  if quotient ≤ BitVec.ofNat 128 maxCount then UInt64.ofBitVec (quotient.setWidth 64)
  else UInt64.ofNat maxCount

theorem mul_lt_of_lt_word {count factor : Nat} (hcount : count < 2 ^ 64)
    (hfactor : factor < 2 ^ 64) : count * factor < 2 ^ 128 :=
  calc count * factor
      < 2 ^ 64 * 2 ^ 64 := Nat.mul_lt_mul'' hcount hfactor
    _ = 2 ^ 128 := by decide

theorem toNat_mulDivWord (count factor divisor : UInt64) :
    (mulDivWord count factor divisor).toNat =
      min (count.toNat * factor.toNat / divisor.toNat) maxCount := by
  have hwide : ∀ word : UInt64, (word.toBitVec.setWidth 128).toNat = word.toNat := fun word => by
    rw [BitVec.toNat_setWidth]
    exact Nat.mod_eq_of_lt (Nat.lt_trans word.toNat_lt (by decide))
  have hquotient : (count.toBitVec.setWidth 128 * factor.toBitVec.setWidth 128 /
      divisor.toBitVec.setWidth 128).toNat = count.toNat * factor.toNat / divisor.toNat := by
    rw [BitVec.toNat_udiv, BitVec.toNat_mul, hwide, hwide, hwide,
      Nat.mod_eq_of_lt (mul_lt_of_lt_word count.toNat_lt factor.toNat_lt)]
  have hmax : (BitVec.ofNat 128 maxCount).toNat = maxCount := by decide
  simp only [mulDivWord, BitVec.le_def, hquotient, hmax]
  split
  · next h =>
    rw [UInt64.toNat_ofBitVec, BitVec.toNat_setWidth, hquotient, Nat.min_eq_left h]
    exact Nat.mod_eq_of_lt (Nat.lt_succ_of_le h)
  · next h =>
    rw [Nat.min_eq_right (Nat.le_of_not_le h)]
    rfl

namespace Meter

/-- The ticks that pass in a minute, in machine words. -/
def ticksPerMinuteWord (meter : Meter) : UInt64 :=
  UInt64.ofNat Ticks.perWhole / meter.signature.noteValue.toUInt64 * meter.tempo.beats.toUInt64

/-- The clock time at which a number of ticks has passed, in machine words. -/
def toClockWord (meter : Meter) (ticks : UInt64) : UInt64 :=
  mulDivWord ticks (UInt64.ofNat ClockTime.perMinute) meter.ticksPerMinuteWord

/-- The ticks that have passed at a clock time, in machine words. -/
def toTicksWord (meter : Meter) (time : UInt64) : UInt64 :=
  mulDivWord time meter.ticksPerMinuteWord (UInt64.ofNat ClockTime.perMinute)

theorem ticksPerMinute_lt (meter : Meter) : meter.ticksPerMinute < 2 ^ 64 :=
  calc meter.ticksPerMinute
      ≤ Ticks.perWhole * 2 ^ 16 :=
        Nat.mul_le_mul (Nat.div_le_self _ _) (Nat.le_of_lt meter.tempo.beats.toNat_lt)
    _ < 2 ^ 64 := by decide

theorem toNat_ticksPerMinuteWord (meter : Meter) :
    meter.ticksPerMinuteWord.toNat = meter.ticksPerMinute := by
  have hwhole : (UInt64.ofNat Ticks.perWhole).toNat = Ticks.perWhole := by decide
  rw [ticksPerMinuteWord, UInt64.toNat_mul, UInt64.toNat_div, hwhole, UInt8.toNat_toUInt64,
    UInt16.toNat_toUInt64]
  exact Nat.mod_eq_of_lt meter.ticksPerMinute_lt

/-- Ticks are converted without an overflow. -/
theorem toNat_toClockWord (meter : Meter) (ticks : Ticks) :
    (meter.toClockWord ticks.word).toNat = (meter.toClock ticks).val := by
  rw [toClockWord, toNat_mulDivWord, toNat_ticksPerMinuteWord, Span.toNat_word]
  rfl

/-- Clock times are converted without an overflow. -/
theorem toNat_toTicksWord (meter : Meter) (time : ClockTime) :
    (meter.toTicksWord time.word).toNat = (meter.toTicks time).val := by
  rw [toTicksWord, toNat_mulDivWord, toNat_ticksPerMinuteWord, Span.toNat_word]
  rfl

/-! ### Laws -/

/-- **Conversion of ticks and clock times.** Under every meter some ticks pass in a minute, and so
few that sixty-four bits count them. Both conversions are a product and a quotient, rounded down and
stopped at the largest span; the product fits a hundred and twenty-eight bits, and machine words
give the same. What is later is not converted to what is earlier. There and back, nothing comes out
later than it was, and unless it was stopped, it comes out earlier by at most the units that last
one of the other kind, rounded up. The clock time of a sum is that of its terms, or a nanosecond
more. -/
theorem conversion_laws (meter : Meter) :
    let a := meter.ticksPerMinute
    let b := 60000000000
    (0 < a ∧ a < 2 ^ 64 ∧ meter.ticksPerMinuteWord.toNat = a) ∧
    (∀ ticks : Ticks,
      (meter.toClock ticks).val = min (2 ^ 64 - 1) (ticks.val * b / a) ∧
      ticks.val * b < 2 ^ 128 ∧
      (meter.toClockWord ticks.word).toNat = (meter.toClock ticks).val) ∧
    (∀ time : ClockTime,
      (meter.toTicks time).val = min (2 ^ 64 - 1) (time.val * a / b) ∧
      time.val * a < 2 ^ 128 ∧
      (meter.toTicksWord time.word).toNat = (meter.toTicks time).val) ∧
    (∀ first second : Ticks, first ≤ second → meter.toClock first ≤ meter.toClock second) ∧
    (∀ first second : ClockTime, first ≤ second → meter.toTicks first ≤ meter.toTicks second) ∧
    (∀ time : ClockTime, meter.toClock (meter.toTicks time) ≤ time ∧
      (time.val * a / b ≤ 2 ^ 64 - 1 →
        time.val - (meter.toClock (meter.toTicks time)).val ≤ b ⌈/⌉ a)) ∧
    (∀ ticks : Ticks, meter.toTicks (meter.toClock ticks) ≤ ticks ∧
      (ticks.val * b / a ≤ 2 ^ 64 - 1 →
        ticks.val - (meter.toTicks (meter.toClock ticks)).val ≤ a ⌈/⌉ b)) ∧
    ∀ first second : Ticks, first.val + second.val ≤ 2 ^ 64 - 1 →
      (first.val + second.val) * b / a ≤ 2 ^ 64 - 1 →
      (meter.toClock (first + second)).val =
          (meter.toClock first).val + (meter.toClock second).val ∨
        (meter.toClock (first + second)).val =
          (meter.toClock first).val + (meter.toClock second).val + 1 := by
  intro a b
  have ha : 0 < a := meter.ticksPerMinute_pos
  have hb : 0 < b := by decide
  have hmax : 2 ^ 64 - 1 = maxCount := by decide
  have hword : ∀ {unit : TimeUnit} (span : Span unit), span.val < 2 ^ 64 :=
    fun span => Nat.lt_succ_of_le span.val_le
  rw [hmax]
  refine ⟨⟨ha, meter.ticksPerMinute_lt, meter.toNat_ticksPerMinuteWord⟩,
    fun ticks => ⟨Nat.min_comm _ _, ?_, meter.toNat_toClockWord ticks⟩,
    fun time => ⟨Nat.min_comm _ _, ?_, meter.toNat_toTicksWord time⟩,
    fun first second h => meter.toClock_le_toClock h,
    fun first second h => meter.toTicks_le_toTicks h,
    fun time => ⟨Span.rescale_rescale_le time, Span.sub_rescale_rescale_le ha hb⟩,
    fun ticks => ⟨Span.rescale_rescale_le ticks, Span.sub_rescale_rescale_le hb ha⟩,
    fun first second hsum h => Span.val_rescale_add ha hsum h⟩
  · exact mul_lt_of_lt_word (hword ticks) (by decide)
  · exact mul_lt_of_lt_word (hword time) meter.ticksPerMinute_lt

/-- A beat of a sixteenth a minute: a tick lasts more than a hundred and eighteen nanoseconds. So
nothing is left of a hundred and eighteen of them there and back, ten ticks last a nanosecond longer
than five and five, and the largest number of ticks is out of the range of the clock. -/
theorem conversion_laws_slow :
    let meter : Meter :=
      { signature := { beats := 3, noteValue := 16 }, tempo := { beats := 1 } }
    let last : Ticks := Span.ofNat maxCount
    (last.val * 60000000000 / meter.ticksPerMinute > 2 ^ 64 - 1 ∧
      (meter.toClock last).val = 2 ^ 64 - 1 ∧
      meter.toTicks (meter.toClock last) ≤ last) ∧
    ((118 : ClockTime).val * meter.ticksPerMinute / 60000000000 ≤ 2 ^ 64 - 1 ∧
      (118 : ClockTime).val - (meter.toClock (meter.toTicks 118)).val ≤
        60000000000 ⌈/⌉ meter.ticksPerMinute ∧
      (118 : ClockTime).val - (meter.toClock (meter.toTicks 118)).val = 118) ∧
    ((5 : Ticks).val + (5 : Ticks).val ≤ 2 ^ 64 - 1 ∧
      ((5 : Ticks).val + (5 : Ticks).val) * 60000000000 / meter.ticksPerMinute ≤ 2 ^ 64 - 1 ∧
      (meter.toClock (5 + 5)).val = (meter.toClock 5).val + (meter.toClock 5).val + 1) := by
  intro meter last
  obtain ⟨-, hclock, -, -, -, hclockBack, hticksBack, hsum⟩ := conversion_laws meter
  have hnothing : (118 : ClockTime).val * meter.ticksPerMinute / 60000000000 ≤ 2 ^ 64 - 1 := by
    decide
  have hten : ((5 : Ticks).val + (5 : Ticks).val) * 60000000000 / meter.ticksPerMinute ≤
      2 ^ 64 - 1 := by decide
  refine ⟨⟨by decide, (hclock last).1.trans (by decide), (hticksBack last).1⟩,
    ⟨hnothing, (hclockBack 118).2 hnothing, by decide⟩, by decide, hten, ?_⟩
  exact (hsum 5 5 (by decide) hten).resolve_left (by decide)

end Meter

end Ostinato
