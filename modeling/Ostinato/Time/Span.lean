/-!
# Spans of time

A span is a count of one unit of time that fits sixty-four bits. Sums and multiples that do not fit
stop at the largest span, and differences stop at zero, so time never wraps around.

## Main definitions

* `Span`: a count of a unit, at most `maxCount`.
* `Ticks`, `ClockTime`: the two units in use, musical ticks and nanoseconds of the shared clock.

## Main results

* `Span.val_add`, `Span.val_sub`, `Span.val_mul`, `Span.val_div`: the arithmetic on counts.
-/

namespace Ostinato

/-- The largest count that sixty-four bits hold. -/
def maxCount : Nat :=
  18446744073709551615

/-- The units in which time is counted. -/
inductive TimeUnit
  | tick
  | nanosecond

/-- A count of a unit of time. -/
structure Span (unit : TimeUnit) where
  val : Nat
  val_le : val ≤ maxCount
  deriving DecidableEq

/-- Musical time. -/
abbrev Ticks := Span .tick

/-- Time on the shared clock. -/
abbrev ClockTime := Span .nanosecond

namespace Span

variable {unit : TimeUnit}

@[ext] theorem ext {a b : Span unit} (h : a.val = b.val) : a = b := by
  cases a
  cases b
  cases h
  rfl

/-- The span of `n` units, or the largest one. -/
def ofNat (n : Nat) : Span unit :=
  ⟨min n maxCount, Nat.min_le_right _ _⟩

@[simp] theorem val_ofNat (n : Nat) : (ofNat n : Span unit).val = min n maxCount := rfl

@[simp] theorem ofNat_val (a : Span unit) : ofNat a.val = a :=
  Span.ext (Nat.min_eq_left a.val_le)

instance (n : Nat) : OfNat (Span unit) n := ⟨ofNat n⟩

@[simp] theorem val_zero : (0 : Span unit).val = 0 := rfl

instance : Inhabited (Span unit) := ⟨0⟩

/-! ### Arithmetic -/

instance : Add (Span unit) := ⟨fun a b => ofNat (a.val + b.val)⟩

instance : Sub (Span unit) :=
  ⟨fun a b => ⟨a.val - b.val, Nat.le_trans (Nat.sub_le _ _) a.val_le⟩⟩

instance : HMul (Span unit) Nat (Span unit) := ⟨fun a n => ofNat (a.val * n)⟩

instance : HDiv (Span unit) Nat (Span unit) :=
  ⟨fun a n => ⟨a.val / n, Nat.le_trans (Nat.div_le_self _ _) a.val_le⟩⟩

@[simp] theorem val_add (a b : Span unit) : (a + b).val = min (a.val + b.val) maxCount := rfl

@[simp] theorem val_sub (a b : Span unit) : (a - b).val = a.val - b.val := rfl

@[simp] theorem val_mul (a : Span unit) (n : Nat) : (a * n).val = min (a.val * n) maxCount := rfl

@[simp] theorem val_div (a : Span unit) (n : Nat) : (a / n).val = a.val / n := rfl

theorem add_eq_left {a b : Span unit} (h : b.val = 0) : a + b = a := by
  refine Span.ext ?_
  rw [val_add, h]
  exact Nat.min_eq_left a.val_le

/-- An equal share of the span, if there is anything to share it between. -/
def share? (a : Span unit) (parts : Nat) : Option (Span unit) :=
  if parts = 0 then none else some (a / parts)

/-! ### Order -/

instance : LE (Span unit) := ⟨fun a b => a.val ≤ b.val⟩

instance : LT (Span unit) := ⟨fun a b => a.val < b.val⟩

theorem le_def {a b : Span unit} : a ≤ b ↔ a.val ≤ b.val := Iff.rfl

theorem lt_def {a b : Span unit} : a < b ↔ a.val < b.val := Iff.rfl

instance (a b : Span unit) : Decidable (a ≤ b) := inferInstanceAs (Decidable (a.val ≤ b.val))

instance (a b : Span unit) : Decidable (a < b) := inferInstanceAs (Decidable (a.val < b.val))

instance : Ord (Span unit) := ⟨fun a b => compare a.val b.val⟩

instance : Max (Span unit) := maxOfLe

@[simp] theorem val_max (a b : Span unit) : (max a b).val = max a.val b.val := by
  change (if a ≤ b then b else a).val = _
  split
  · next h => exact (Nat.max_eq_right h).symm
  · next h => exact (Nat.max_eq_left (Nat.le_of_not_le h)).symm

end Span

namespace ClockTime

/-- Nanoseconds in a second. -/
def perSecond : Nat :=
  1000000000

/-- Nanoseconds in a minute. -/
def perMinute : Nat :=
  60 * perSecond

end ClockTime

end Ostinato
