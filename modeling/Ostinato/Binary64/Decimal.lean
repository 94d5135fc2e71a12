import Ostinato.Binary64.Basic
import Ostinato.Text.Digits

/-!
# Decimal texts of floating-point values

A decimal is a whole number of powers of ten. A text is read as a decimal and rounded once. A value
is written with the fewest digits that read back to it, and among those with the digits nearest to
it; of two equally near decimals the larger is taken. The point is always written out, so no
exponent is printed, and a whole number has no point.

## Main definitions

* `Decimal`, `Binary64.ofDecimal`: decimals and their rounding.
* `Decimal.read?`, `Binary64.read?`: reading a text.
* `Decimal.write`, `Binary64.write`: writing the shortest text.
* `Binary64.writeFixed`: writing a given number of places.

## Main results

* `Decimal.units_shortest`: the shortest decimal of a value rounds to the value.
* `Binary64.ofDecimal_shortest`: the same, with the sign.
-/

namespace Ostinato

-- Powers of natural numbers are those of the core library, whatever else is in scope.
attribute [local instance (high)] instPowNat

/-- The number `digits * 10 ^ exponent`. -/
structure Decimal where
  digits : Nat
  exponent : Int
  deriving DecidableEq

namespace Decimal

/-- The numerator of the number as a quotient of natural numbers. -/
def numerator (x : Decimal) : Nat :=
  x.digits * 10 ^ x.exponent.toNat

/-- The denominator of the number as a quotient of natural numbers. -/
def denominator (x : Decimal) : Nat :=
  10 ^ (-x.exponent).toNat

/-- The units of the nearest floating-point magnitude, the largest exponent left aside. -/
def units (x : Decimal) : Nat :=
  roundSignificand (x.numerator * Binary64.unitsPerOne) x.denominator

/-! ### Reading -/

/-- The number with the given digits before and after the point, times a power of ten. -/
def ofParts (whole fraction : List Char) (exponent : Int) : Decimal :=
  ⟨Nat.ofDigitChars 10 (whole ++ fraction) 0, exponent - fraction.length⟩

/-- An exponent, moved to the nearer end of a range that depends on the number of digits it scales:
beyond the range the number is too small or too large for every value, whatever its digits. -/
def clampExponent (digits : Nat) (exponent : Int) : Int :=
  max (-(digits + 400)) (min (digits + 400) exponent)

/-- A whole number after an optional sign. -/
def readExponent? : List Char → Option Int
  | '-' :: text => (readDigits? text).map fun n => -(n : Int)
  | '+' :: text => (readDigits? text).map fun n => (n : Int)
  | text => (readDigits? text).map fun n => (n : Int)

/-- The digits before the point, the digits after it, and what follows. -/
def splitPoint (text : List Char) : List Char × List Char × List Char :=
  match text.dropWhile Char.isDigit with
  | '.' :: rest =>
    (text.takeWhile Char.isDigit, rest.takeWhile Char.isDigit, rest.dropWhile Char.isDigit)
  | rest => (text.takeWhile Char.isDigit, [], rest)

/-- A text without a sign, read as a decimal: digits, of which a point may come before, between or
after, and an optional exponent. -/
def read? (text : List Char) : Option Decimal :=
  match splitPoint text with
  | ([], [], _) => none
  | (whole, fraction, []) => some (ofParts whole fraction 0)
  | (whole, fraction, mark :: exponent) =>
    if mark = 'e' ∨ mark = 'E' then
      (readExponent? exponent).map fun e =>
        ofParts whole fraction (clampExponent (whole.length + fraction.length) e)
    else
      none

/-! ### Writing -/

/-- A run of digits without the zeros at its end. -/
def dropTrailingZeros (text : List Char) : List Char :=
  (text.reverse.dropWhile (· == '0')).reverse

/-- The text of `n / 10 ^ places` with all its places. -/
def writePlaces (places n : Nat) : List Char × List Char :=
  (natDigits (n / 10 ^ places), (natDigits (n % 10 ^ places)).leftpad places '0')

/-- The number written with a point where it needs one, and without superfluous zeros. -/
def write (x : Decimal) : List Char :=
  let (whole, fraction) := writePlaces (-x.exponent).toNat x.numerator
  match dropTrailingZeros fraction with
  | [] => whole
  | digits => whole ++ '.' :: digits

/-! ### The shortest decimal -/

/-- A number of places that is enough for the first digit of every magnitude. -/
def enoughPlaces : Nat :=
  400

/-- The power of ten of the first digit of a magnitude. -/
def leadingExponent (units : Nat) : Int :=
  (natDigits (units * 10 ^ enoughPlaces / Binary64.unitsPerOne)).length - (enoughPlaces + 1)

/-- Of the two multiples of a power of ten around a magnitude, the nearer one that rounds to it;
the larger one if both are equally near. -/
def nearest? (units : Nat) (exponent : Int) : Option Decimal :=
  let n := units * 10 ^ (-exponent).toNat
  let d := Binary64.unitsPerOne * 10 ^ exponent.toNat
  let below : Decimal := ⟨n / d, exponent⟩
  let above : Decimal := ⟨n / d + 1, exponent⟩
  if below.units = units ∧ (2 * (n % d) < d ∨ above.units ≠ units) then some below
  else if above.units = units then some above
  else none

/-- The magnitude itself as a decimal. -/
def exact (units : Nat) : Decimal :=
  ⟨units * 5 ^ Binary64.unitExponent, -Binary64.unitExponent⟩

/-- The decimal with the fewest digits that rounds to a magnitude. Seventeen digits are always
enough. -/
def shortest (units : Nat) : Decimal :=
  ((List.range 17).findSome? fun i : Nat => nearest? units (leadingExponent units - i)).getD
    (exact units)

theorem units_of_nearest? {units : Nat} {exponent : Int} {x : Decimal}
    (h : nearest? units exponent = some x) : x.units = units := by
  unfold nearest? at h
  dsimp only at h
  split at h
  · next hb => exact Option.some.inj h ▸ hb.1
  · split at h
    · next ha => exact Option.some.inj h ▸ ha
    · cases h

theorem units_exact {u : Nat} (h : Binary64.Representable u) : (exact u).units = u := by
  have hnum : (exact u).numerator * Binary64.unitsPerOne = u * 10 ^ Binary64.unitExponent := by
    rw [numerator, exact, Binary64.unitsPerOne]
    simp [Nat.mul_assoc, ← Nat.mul_pow]
  have hden : (exact u).denominator = 10 ^ Binary64.unitExponent := by
    simp [denominator, exact]
  have hpos : 0 < 10 ^ Binary64.unitExponent := Nat.pow_pos (by decide)
  have hdiv : u * 10 ^ Binary64.unitExponent / 10 ^ Binary64.unitExponent = u :=
    Nat.mul_div_cancel _ hpos
  rw [units, hnum, hden, roundSignificand_of_short hpos (Nat.dvd_mul_left _ _), hdiv]
  rw [hdiv]
  exact h.2

/-- **Reading back.** The shortest decimal of a magnitude rounds to the magnitude. -/
theorem units_shortest {u : Nat} (h : Binary64.Representable u) : (shortest u).units = u := by
  unfold shortest
  cases hf : (List.range 17).findSome? fun i : Nat => nearest? u (leadingExponent u - i) with
  | none => exact units_exact h
  | some x =>
    obtain ⟨_, _, hx⟩ := List.exists_of_findSome?_eq_some hf
    exact units_of_nearest? hx

end Decimal

namespace Binary64

/-- The value nearest to a decimal. -/
def ofDecimal (negative : Bool) (x : Decimal) : Binary64 :=
  round negative (x.numerator * unitsPerOne) x.denominator

theorem ofDecimal_shortest (negative : Bool) {u : Nat} (h : Representable u) :
    ofDecimal negative (Decimal.shortest u) = .finite negative u h := by
  have hu : roundSignificand ((Decimal.shortest u).numerator * unitsPerOne)
      (Decimal.shortest u).denominator = u := Decimal.units_shortest h
  simp only [ofDecimal, round, hu, dif_pos h.1]

/-- Reads a text after its sign: a decimal, or a word for an infinity or for "not a number" in any
case of letters. -/
def readMagnitude? (negative : Bool) (text : List Char) : Option Binary64 :=
  let word := text.map Char.toLower
  if word = "inf".toList ∨ word = "infinity".toList then some (.infinity negative)
  else if word = "nan".toList then some .nan
  else (Decimal.read? text).map (ofDecimal negative)

/-- The value that a text denotes, after an optional sign. -/
def read? : List Char → Option Binary64
  | '-' :: text => readMagnitude? true text
  | '+' :: text => readMagnitude? false text
  | text => readMagnitude? false text

/-- A text with a minus sign in front if the value is negative. -/
def withSign (negative : Bool) (text : List Char) : List Char :=
  if negative then '-' :: text else text

/-- The shortest text of a value. -/
def write : Binary64 → String
  | .nan => "NaN"
  | .infinity negative => String.ofList (withSign negative "inf".toList)
  | .finite negative units _ => String.ofList (withSign negative (Decimal.shortest units).write)

/-- The text of a value with a given number of places, the exact value rounded half to even. -/
def writeFixed (places : Nat) : Binary64 → String
  | .nan => "NaN"
  | .infinity negative => String.ofList (withSign negative "inf".toList)
  | .finite negative units _ =>
    let (whole, fraction) :=
      Decimal.writePlaces places (roundHalfEven (units * 10 ^ places) unitsPerOne)
    String.ofList (withSign negative (whole ++ '.' :: fraction))

end Binary64

end Ostinato
