/-!
# Whole numbers in texts

A whole number is written with the digits `0` to `9` and no leading zero, and read from one or more
digits, which a plus sign may precede. In a larger base, up to sixteen, the letters `a` to `f` are
digits too, whether small or capital.

## Main definitions

* `natDigits`: the digits of a number.
* `readDigits?`: the number that a run of digits denotes.
* `readCount?`: the number that a text with an optional plus sign denotes, up to a limit.
* `digitValue?`: the value of a digit of a base.
* `readBase?`: the number that digits of a base denote.

## Main results

* `readDigits?_natDigits`, `readCount?_natDigits`: a written number reads back.
-/

namespace Ostinato

/-- The digits of a number, without leading zeros. -/
def natDigits (n : Nat) : List Char :=
  Nat.toDigits 10 n

/-- The number that a run of one or more digits denotes. -/
def readDigits? (text : List Char) : Option Nat :=
  if text ≠ [] ∧ text.all Char.isDigit then some (Nat.ofDigitChars 10 text 0) else none

/-- The number up to `limit` that a text denotes: one or more digits after an optional plus. -/
def readCount? (limit : Nat) : List Char → Option Nat
  | '+' :: text => (readDigits? text).filter (· ≤ limit)
  | text => (readDigits? text).filter (· ≤ limit)

theorem isDigit_of_mem_natDigits {n : Nat} {c : Char} (h : c ∈ natDigits n) : c.isDigit :=
  Nat.isDigit_of_mem_toDigits (by decide) (by decide) h

theorem natDigits_ne_nil (n : Nat) : natDigits n ≠ [] :=
  Nat.toDigits_ne_nil

@[simp] theorem readDigits?_natDigits (n : Nat) : readDigits? (natDigits n) = some n := by
  rw [readDigits?, if_pos ⟨natDigits_ne_nil n, List.all_eq_true.2 fun _ h =>
    isDigit_of_mem_natDigits h⟩]
  exact congrArg some Nat.ofDigitChars_ten_toDigits

theorem readCount?_natDigits {limit n : Nat} (h : n ≤ limit) :
    readCount? limit (natDigits n) = some n := by
  have hplus : ∀ text, natDigits n = '+' :: text → False := fun text heq => by
    have := isDigit_of_mem_natDigits (n := n) (c := '+') (by simp [heq])
    exact absurd this (by decide)
  rw [readCount?.eq_2 _ _ hplus, readDigits?_natDigits]
  simp [h]

theorem isDigit_of_readDigits? {text : List Char} {n : Nat} (h : readDigits? text = some n) :
    ∀ c ∈ text, c.isDigit := by
  rw [readDigits?] at h
  split at h
  · next hdigits => exact List.all_eq_true.1 hdigits.2
  · contradiction

/-! ### Other bases -/

/-- The value of a hexadecimal digit. -/
def hexValue? (c : Char) : Option Nat :=
  if c.isDigit then some (c.toNat - '0'.toNat)
  else if 'a' ≤ c ∧ c ≤ 'f' then some (c.toNat - 'a'.toNat + 10)
  else if 'A' ≤ c ∧ c ≤ 'F' then some (c.toNat - 'A'.toNat + 10)
  else none

/-- The value of a digit of a base up to sixteen. -/
def digitValue? (base : Nat) (c : Char) : Option Nat :=
  (hexValue? c).filter (· < base)

/-- The number that digits of a base denote. -/
def readBase? (base : Nat) (text : List Char) : Option Nat :=
  (text.mapM (digitValue? base)).map (·.foldl (fun number value => base * number + value) 0)

end Ostinato
