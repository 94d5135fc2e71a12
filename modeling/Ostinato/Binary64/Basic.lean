import Ostinato.Binary64.Rounding

/-!
# Binary floating point with sixty-four bits

A finite value is a whole number of units of `2 ^ (-1074)` with a sign: the units of every finite
value have a short significand and lie below `2 ^ 2098`. Every operation computes the exact result
as a quotient of natural numbers and rounds once, to nearest, ties to even.

## Main definitions

* `Binary64`: the values. All quiet and signalling forms of "not a number" are one value.
* `Binary64.round`: the value nearest to a quotient of units.
* `Binary64.ofBits`, `Binary64.toBits`: the interchange format.
* `Binary64.ofNat`, `Binary64.ofInt`, `Binary64.mul`, `Binary64.div`, `Binary64.abs`: arithmetic.
* `Binary64.rank?`, `Binary64.lt`, `Binary64.le`: the order, in which "not a number" has no place.
* `Binary64.roundUpTo`: the nearest natural number up to a limit, halves away from zero.

## Main results

* `Binary64.round_of_dvd`: a representable quotient is its own rounding.
* `Binary64.mul_one`, `Binary64.div_one`: one is neutral on finite values.
* `Binary64.ofNat_eq_finite`, `Binary64.roundUpTo_ofNat`: numbers below `exactLimit` are exact.
-/

namespace Ostinato

-- Powers of natural numbers are those of the core library, whatever else is in scope.
attribute [local instance (high)] instPowNat

namespace Binary64

/-- The exponent of the unit: a unit is `2 ^ (-unitExponent)`, the least positive value. -/
@[irreducible] def unitExponent : Nat :=
  1074

/-- The number of units in one. -/
@[irreducible] def unitsPerOne : Nat :=
  2 ^ unitExponent

/-- The first number of units that is too large, those of `2 ^ 1024`. -/
@[irreducible] def unitsLimit : Nat :=
  2 ^ (1024 + unitExponent)

theorem unitsPerOne_pos : 0 < unitsPerOne := by
  decide +kernel

theorem mul_unitsPerOne_lt : exactLimit * unitsPerOne < unitsLimit := by
  decide +kernel

/-- The numbers of units that a finite value can have. -/
def Representable (units : Nat) : Prop :=
  units < unitsLimit ∧ HasShortSignificand units

instance (units : Nat) : Decidable (Representable units) :=
  inferInstanceAs (Decidable (_ ∧ _))

theorem representable_of_lt {n : Nat} (h : n < exactLimit) : Representable (n * unitsPerOne) := by
  refine ⟨Nat.lt_trans (Nat.mul_lt_mul_of_pos_right h unitsPerOne_pos) mul_unitsPerOne_lt, ?_⟩
  rw [unitsPerOne]
  exact hasShortSignificand_mul_two_pow (Nat.le_of_lt h) unitExponent

end Binary64

/-- A floating-point value: not a number, an infinity, or a signed number of units. -/
inductive Binary64
  | nan
  | infinity (negative : Bool)
  | finite (negative : Bool) (units : Nat) (representable : Binary64.Representable units)
  deriving DecidableEq

namespace Binary64

/-! ### Rounding -/

/-- The value nearest to `n / d` units, an infinity if that is too large. -/
def round (negative : Bool) (n d : Nat) : Binary64 :=
  if h : roundSignificand n d < unitsLimit then
    .finite negative (roundSignificand n d) ⟨h, hasShortSignificand_roundSignificand n d⟩
  else
    .infinity negative

/-- A quotient that is a representable number of units is its own rounding. -/
theorem round_of_dvd {n d : Nat} (negative : Bool) (hd : 0 < d) (h : d ∣ n)
    (hr : Representable (n / d)) : round negative n d = .finite negative (n / d) hr := by
  have hs := roundSignificand_of_short hd h hr.2
  simp only [round, hs, dif_pos hr.1]

theorem round_mul_right (negative : Bool) (n d : Nat) {k : Nat} (hk : 0 < k) :
    round negative (n * k) (d * k) = round negative n d := by
  simp only [round, roundSignificand_mul_right n d hk]

/-! ### Interchange format -/

/-- The number of bits of a fraction. -/
def fractionBits : Nat :=
  52

/-- The value of a word: a sign bit, eleven exponent bits and fifty-two fraction bits. -/
def ofBits (word : UInt64) : Binary64 :=
  let negative := word >>> 63 == 1
  let exponent := word.toNat / 2 ^ fractionBits % 2048
  let fraction := word.toNat % 2 ^ fractionBits
  if exponent = 2047 then
    if fraction = 0 then .infinity negative else .nan
  else if exponent = 0 then
    round negative fraction 1
  else
    round negative ((2 ^ fractionBits + fraction) * 2 ^ (exponent - 1)) 1

/-- The word with a given sign bit and the other sixty-three bits. -/
def word (negative : Bool) (rest : Nat) : UInt64 :=
  UInt64.ofNat ((if negative then 0x8000000000000000 else 0) + rest)

/-- The word of a value. -/
def toBits : Binary64 → UInt64
  | .nan => 0x7FF8000000000000
  | .infinity negative => word negative (2047 * 2 ^ fractionBits)
  | .finite negative units _ =>
    word negative (units / gridStep units + (units.log2 - fractionBits) * 2 ^ fractionBits)

/-! ### Order -/

/-- The place of a value in the order, in signed units. -/
def rank? : Binary64 → Option Int
  | .nan => none
  | .infinity negative => some (if negative then -unitsLimit else unitsLimit)
  | .finite negative units _ => some (if negative then -units else units)

/-- Whether one value lies below another. -/
def lt (x y : Binary64) : Bool :=
  match x.rank?, y.rank? with
  | some a, some b => a < b
  | _, _ => false

@[simp] theorem lt_irrefl (x : Binary64) : x.lt x = false := by
  rw [lt]
  cases x.rank? <;> simp

/-- Whether one value lies below another or at the same place. -/
def le (x y : Binary64) : Bool :=
  match x.rank?, y.rank? with
  | some a, some b => a ≤ b
  | _, _ => false

/-- Whether a value is a finite number. -/
def isFinite : Binary64 → Bool
  | .finite .. => true
  | _ => false

/-! ### Arithmetic -/

/-- The value nearest to a natural number, which is the number itself if that is below
`exactLimit`. -/
def ofNat (n : Nat) : Binary64 :=
  if h : n < exactLimit then .finite false (n * unitsPerOne) (representable_of_lt h)
  else round false (n * unitsPerOne) 1

/-- The value nearest to an integer. -/
def ofInt (n : Int) : Binary64 :=
  round (n < 0) (n.natAbs * unitsPerOne) 1

/-- Zero. -/
def zero : Binary64 :=
  .finite false 0 (by decide +kernel)

/-- One. -/
def one : Binary64 :=
  .finite false unitsPerOne (by decide +kernel)

/-- The value without its sign. -/
def abs : Binary64 → Binary64
  | .nan => .nan
  | .infinity _ => .infinity false
  | .finite _ units h => .finite false units h

/-- The product, correctly rounded. -/
def mul : Binary64 → Binary64 → Binary64
  | .finite s u _, .finite t v _ => round (s ^^ t) (u * v) unitsPerOne
  | .infinity s, .finite t v _ => if v = 0 then .nan else .infinity (s ^^ t)
  | .finite s u _, .infinity t => if u = 0 then .nan else .infinity (s ^^ t)
  | .infinity s, .infinity t => .infinity (s ^^ t)
  | .nan, _ => .nan
  | _, .nan => .nan

/-- The quotient, correctly rounded. -/
def div : Binary64 → Binary64 → Binary64
  | .finite s u _, .finite t v _ =>
    if v = 0 then if u = 0 then .nan else .infinity (s ^^ t)
    else round (s ^^ t) (u * unitsPerOne) v
  | .infinity s, .finite t _ _ => .infinity (s ^^ t)
  | .finite s _ _, .infinity t => round (s ^^ t) 0 1
  | .infinity _, .infinity _ => .nan
  | .nan, _ => .nan
  | _, .nan => .nan

instance : Mul Binary64 := ⟨mul⟩
instance : Div Binary64 := ⟨div⟩

/-- The value, moved to the nearer end if it lies outside `[0, 1]`; zero if it is not a number. -/
def clampUnit (x : Binary64) : Binary64 :=
  if lt zero x then if lt x one then x else one else zero

/-- The nearest natural number, a half away from zero, but at most `limit`; zero if the value is
negative or not a number. -/
def roundUpTo (limit : Nat) : Binary64 → Nat
  | .finite false units _ => min limit ((2 * units + unitsPerOne) / (2 * unitsPerOne))
  | .infinity false => limit
  | _ => 0

theorem roundUpTo_le (limit : Nat) (x : Binary64) : x.roundUpTo limit ≤ limit := by
  unfold roundUpTo
  split
  · exact Nat.min_le_left _ _
  · exact Nat.le_refl _
  · exact Nat.zero_le _

/-! ### Exact cases -/

/-- One is neutral on the right of a product. -/
theorem mul_one {s : Bool} {u : Nat} (h : Representable u) :
    Binary64.finite s u h * one = .finite s u h := by
  change round (s ^^ false) (u * unitsPerOne) unitsPerOne = _
  have hdiv : u * unitsPerOne / unitsPerOne = u := Nat.mul_div_cancel _ unitsPerOne_pos
  rw [round_of_dvd (s ^^ false) unitsPerOne_pos (Nat.dvd_mul_left unitsPerOne u)
    (by rwa [hdiv])]
  simp [hdiv]

/-- One is neutral on the right of a quotient. -/
theorem div_one {s : Bool} {u : Nat} (h : Representable u) :
    Binary64.finite s u h / one = .finite s u h :=
  (if_neg (Nat.ne_of_gt unitsPerOne_pos)).trans (mul_one h)

/-- A number below `exactLimit` is a value. -/
theorem ofNat_eq_finite {n : Nat} (h : n < exactLimit) :
    ofNat n = .finite false (n * unitsPerOne) (representable_of_lt h) :=
  dif_pos h

/-- A number below `exactLimit` comes back from its value. -/
theorem roundUpTo_ofNat {limit n : Nat} (h : n < exactLimit) (hn : n ≤ limit) :
    (ofNat n).roundUpTo limit = n := by
  have hpos := unitsPerOne_pos
  have hdiv : (2 * (n * unitsPerOne) + unitsPerOne) / (2 * unitsPerOne) = n := by
    rw [Nat.mul_left_comm, Nat.add_comm, Nat.add_mul_div_right _ _ (by omega),
      Nat.div_eq_of_lt (by omega), Nat.zero_add]
  rw [ofNat_eq_finite h, roundUpTo, hdiv, Nat.min_eq_right hn]

end Binary64

end Ostinato
