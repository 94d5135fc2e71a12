import Mathlib.Data.List.TakeWhile
import Ostinato.Binary64.Decimal

/-!
# Numerals of floating-point values

A finite value is written with digits, a point where it needs one, and a minus sign where it has
one, and what is written reads back to the value. What reads as a finite value at all, written by
whomever, has no character besides these but a plus sign and the mark of an exponent.

## Main definitions

* `Decimal.whole`, `Decimal.fraction`: the digits of a decimal on either side of the point.
* `Decimal.join`: digits with a point between them where it is needed.
* `isNumeralChar`: the characters of the texts of finite values.

## Main results

* `Decimal.splitPoint_join`: digits that are joined are split at the point.
* `Binary64.read?_write`: a finite value reads back.
* `Binary64.isNumeralChar_of_read?`: what a text of a finite value is made of.
-/

namespace Ostinato

-- Powers of natural numbers are those of the core library, whatever else is in scope.
attribute [local instance (high)] instPowNat

theorem toLower_of_isDigit {c : Char} (h : c.isDigit) : c.toLower = c := by
  simp only [Char.isDigit, Bool.and_eq_true, decide_eq_true_eq] at h
  exact dif_neg fun hupper => absurd (UInt32.le_trans hupper.1 h.2) (by decide)

namespace Decimal

/-! ### Zeros at the end -/

theorem exists_eq_dropTrailingZeros_append (text : List Char) :
    ∃ k, text = dropTrailingZeros text ++ List.replicate k '0' := by
  refine ⟨(text.reverse.takeWhile (· == '0')).length, ?_⟩
  have hzeros : text.reverse.takeWhile (· == '0') =
      List.replicate (text.reverse.takeWhile (· == '0')).length '0' :=
    List.eq_replicate_of_mem fun c hc => by simpa using List.mem_takeWhile_imp hc
  have hsplit := List.takeWhile_append_dropWhile (p := (· == '0')) (l := text.reverse)
  rw [hzeros] at hsplit
  rw [dropTrailingZeros, ← List.reverse_replicate, ← List.reverse_append, hsplit,
    List.reverse_reverse]

theorem mem_of_mem_dropTrailingZeros {text : List Char} {c : Char}
    (h : c ∈ dropTrailingZeros text) : c ∈ text := by
  rw [dropTrailingZeros, List.mem_reverse] at h
  exact List.mem_reverse.1 ((List.dropWhile_sublist _).mem h)

/-! ### The point -/

/-- The digits of a decimal before the point. -/
def whole (x : Decimal) : List Char :=
  (writePlaces (-x.exponent).toNat x.numerator).1

/-- The digits of a decimal behind the point, before the zeros at their end are dropped. -/
def fraction (x : Decimal) : List Char :=
  (writePlaces (-x.exponent).toNat x.numerator).2

/-- Digits with a point between them, which is left out if no digit follows it. -/
def join (whole : List Char) : List Char → List Char
  | [] => whole
  | digits => whole ++ '.' :: digits

theorem write_eq_join (x : Decimal) : x.write = join x.whole (dropTrailingZeros x.fraction) := rfl

/-- Digits that are joined are split at the point. -/
theorem splitPoint_join {whole digits : List Char} (hwhole : ∀ c ∈ whole, c.isDigit)
    (hdigits : ∀ c ∈ digits, c.isDigit) : splitPoint (join whole digits) = (whole, digits, []) := by
  have hpoint : Char.isDigit '.' = false := by decide
  cases digits with
  | nil =>
    rw [join, splitPoint, List.dropWhile_eq_nil_iff.2 hwhole, List.takeWhile_eq_self_iff.2 hwhole]
  | cons d digits =>
    have hdrop : (whole ++ '.' :: d :: digits).dropWhile Char.isDigit = '.' :: d :: digits := by
      rw [List.dropWhile_append_of_pos hwhole, List.dropWhile_cons_of_neg (by simp [hpoint])]
    have htake : (whole ++ '.' :: d :: digits).takeWhile Char.isDigit = whole := by
      rw [List.takeWhile_append_of_pos hwhole, List.takeWhile_cons_of_neg (by simp [hpoint]),
        List.append_nil]
    rw [join.eq_2 _ _ (by simp), splitPoint, hdrop, htake]
    change (whole, (d :: digits).takeWhile _, (d :: digits).dropWhile _) = _
    rw [List.takeWhile_eq_self_iff.2 hdigits, List.dropWhile_eq_nil_iff.2 hdigits]

theorem isDigit_of_mem_whole {x : Decimal} : ∀ c ∈ x.whole, c.isDigit :=
  fun _ h => isDigit_of_mem_natDigits h

theorem isDigit_of_mem_fraction {x : Decimal} : ∀ c ∈ x.fraction, c.isDigit := by
  intro c hc
  rw [fraction, writePlaces, List.leftpad, List.mem_append] at hc
  rcases hc with hc | hc
  · rw [List.eq_of_mem_replicate hc]
    decide
  · exact isDigit_of_mem_natDigits hc

theorem exists_write_eq_cons (x : Decimal) : ∃ c rest, x.write = c :: rest ∧ c.isDigit := by
  have hne : x.whole ≠ [] := natDigits_ne_nil _
  obtain ⟨d, digits, hwhole⟩ := List.exists_cons_of_ne_nil hne
  have hd : d.isDigit := isDigit_of_mem_whole d (hwhole ▸ List.mem_cons_self)
  rw [write_eq_join, hwhole]
  cases dropTrailingZeros x.fraction with
  | nil => exact ⟨d, digits, rfl, hd⟩
  | cons e rest => exact ⟨d, digits ++ '.' :: e :: rest, rfl, hd⟩

/-! ### Reading what is written -/

/-- What is written is read digit by digit. -/
theorem read?_write (x : Decimal) :
    read? x.write = some (ofParts x.whole (dropTrailingZeros x.fraction) 0) := by
  have hsplit : splitPoint x.write = (x.whole, dropTrailingZeros x.fraction, []) :=
    splitPoint_join isDigit_of_mem_whole fun c hc =>
      isDigit_of_mem_fraction c (mem_of_mem_dropTrailingZeros hc)
  have hne : x.whole ≠ [] := natDigits_ne_nil _
  obtain ⟨d, digits, hwhole⟩ := List.exists_cons_of_ne_nil hne
  rw [read?, hsplit, hwhole]

theorem exists_value_eq (x : Decimal) :
    ∃ k, Nat.ofDigitChars 10 (x.whole ++ dropTrailingZeros x.fraction) 0 * 10 ^ k = x.numerator ∧
      (dropTrailingZeros x.fraction).length + k = (-x.exponent).toNat := by
  rcases Nat.eq_zero_or_pos (-x.exponent).toNat with hplaces | hplaces
  · -- a number without places still has a zero behind the point, which is not written
    have hnone : dropTrailingZeros x.fraction = [] := by
      rw [fraction, hplaces, writePlaces, Nat.pow_zero, Nat.mod_one]
      rfl
    refine ⟨0, ?_, by rw [hnone, hplaces]; rfl⟩
    rw [hnone, List.append_nil, whole, hplaces, writePlaces, natDigits,
      Nat.ofDigitChars_ten_toDigits, Nat.pow_zero, Nat.div_one, Nat.mul_one]
  · obtain ⟨k, hk⟩ := exists_eq_dropTrailingZeros_append x.fraction
    have hlength : x.fraction.length = (-x.exponent).toNat := by
      rw [fraction, writePlaces, List.length_leftpad]
      exact Nat.max_eq_left ((Nat.length_toDigits_le_iff (by decide) hplaces).2
        (Nat.mod_lt _ (Nat.pow_pos (by decide))))
    have hplaces : (dropTrailingZeros x.fraction).length + k = (-x.exponent).toNat := by
      have := congrArg List.length hk
      rw [List.length_append, List.length_replicate, hlength] at this
      exact this.symm
    refine ⟨k, ?_, hplaces⟩
    have hfraction : Nat.ofDigitChars 10 x.fraction 0 =
        x.numerator % 10 ^ (-x.exponent).toNat := by
      rw [fraction, writePlaces, List.leftpad, Nat.ofDigitChars_append,
        Nat.ofDigitChars_replicate_zero, Nat.mul_zero, natDigits, Nat.ofDigitChars_ten_toDigits]
    calc Nat.ofDigitChars 10 (x.whole ++ dropTrailingZeros x.fraction) 0 * 10 ^ k
        = Nat.ofDigitChars 10 (x.whole ++ x.fraction) 0 := by
          conv => rhs; rw [hk]
          rw [← List.append_assoc, Nat.ofDigitChars_append _ (m := List.replicate k '0'),
            Nat.ofDigitChars_replicate_zero, Nat.mul_comm]
      _ = x.numerator := by
          rw [Nat.ofDigitChars_append, Nat.ofDigitChars_eq_ofDigitChars_zero, hfraction, hlength,
            whole, writePlaces, natDigits, Nat.ofDigitChars_ten_toDigits]
          exact Nat.div_add_mod _ _

end Decimal

namespace Binary64

theorem ofDecimal_ofParts (negative : Bool) (x : Decimal) :
    ofDecimal negative (.ofParts x.whole (Decimal.dropTrailingZeros x.fraction) 0) =
      ofDecimal negative x := by
  obtain ⟨k, hvalue, hplaces⟩ := x.exists_value_eq
  generalize Decimal.dropTrailingZeros x.fraction = digits at *
  have hnumerator : x.numerator * unitsPerOne =
      (Decimal.ofParts x.whole digits 0).numerator * unitsPerOne * 10 ^ k := by
    rw [← hvalue, Decimal.numerator, Decimal.ofParts]
    have hexponent : (0 - (digits.length : Int)).toNat = 0 := by omega
    rw [hexponent, Nat.pow_zero, Nat.mul_one, Nat.mul_right_comm]
  have hdenominator : x.denominator = (Decimal.ofParts x.whole digits 0).denominator * 10 ^ k := by
    rw [Decimal.denominator, Decimal.denominator, Decimal.ofParts, ← hplaces, ← Nat.pow_add]
    have hexponent : (-(0 - (digits.length : Int))).toNat = digits.length := by omega
    rw [hexponent]
  rw [ofDecimal, ofDecimal, hnumerator, hdenominator,
    round_mul_right _ _ _ (Nat.pow_pos (by decide))]

/-- A text that starts with a digit is none of the words. -/
theorem readMagnitude?_of_isDigit (negative : Bool) {c : Char} (hc : c.isDigit)
    (text : List Char) :
    readMagnitude? negative (c :: text) =
      (Decimal.read? (c :: text)).map (ofDecimal negative) := by
  have hne : ∀ d word, Char.isDigit d = false → (c :: text).map Char.toLower ≠ d :: word := by
    intro d word hd heq
    rw [List.map_cons, toLower_of_isDigit hc] at heq
    rw [(List.cons.inj heq).1, hd] at hc
    contradiction
  rw [readMagnitude?, if_neg, if_neg]
  · exact hne 'n' _ rfl
  · exact not_or.2 ⟨hne 'i' _ rfl, hne 'i' _ rfl⟩

/-- **Reading back.** A finite value reads back from its text. -/
theorem read?_write {x : Binary64} (h : x.isFinite) : read? x.write.toList = some x := by
  obtain _ | _ | ⟨negative, units, hunits⟩ := x
  · contradiction
  · contradiction
  obtain ⟨c, rest, htext, hc⟩ := (Decimal.shortest units).exists_write_eq_cons
  have hread : readMagnitude? negative (Decimal.shortest units).write =
      some (.finite negative units hunits) := by
    rw [htext, readMagnitude?_of_isDigit negative hc, ← htext, Decimal.read?_write, Option.map_some,
      ofDecimal_ofParts, ofDecimal_shortest negative hunits]
  rw [write, String.toList_ofList]
  cases negative with
  | true => rw [withSign, if_pos rfl, read?, hread]
  | false =>
    have hminus : c ≠ '-' := fun heq => absurd hc (heq ▸ by decide)
    have hplus : c ≠ '+' := fun heq => absurd hc (heq ▸ by decide)
    rw [withSign, if_neg Bool.false_ne_true, htext, read?.eq_3 _ (by simp [hminus])
      (by simp [hplus]), ← htext, hread]

end Binary64

/-! ### The characters of a numeral -/

/-- The characters of the texts of finite values: digits, signs, points and the marks of
exponents. -/
def isNumeralChar (c : Char) : Bool :=
  c.isDigit || ['+', '-', '.', 'e', 'E'].contains c

theorem isNumeralChar_of_isDigit {c : Char} (h : c.isDigit) : isNumeralChar c := by
  simp [isNumeralChar, h]

namespace Decimal

theorem isNumeralChar_of_readExponent? {text : List Char} {e : Int}
    (h : readExponent? text = some e) : ∀ c ∈ text, isNumeralChar c := by
  have hdigits : ∀ {digits : List Char}, readDigits? digits ≠ none →
      ∀ c ∈ digits, isNumeralChar c := fun hne c hc => by
    obtain ⟨n, hn⟩ := Option.ne_none_iff_exists'.1 hne
    exact isNumeralChar_of_isDigit (isDigit_of_readDigits? hn c hc)
  unfold readExponent? at h
  split at h
  · exact List.forall_mem_cons.2 ⟨by decide, hdigits fun hnone => by simp [hnone] at h⟩
  · exact List.forall_mem_cons.2 ⟨by decide, hdigits fun hnone => by simp [hnone] at h⟩
  · exact hdigits fun hnone => by simp [hnone] at h

theorem mem_splitPoint {text : List Char} {c : Char} (h : c ∈ text) :
    c.isDigit ∨ c = '.' ∨ c ∈ (splitPoint text).2.2 := by
  have hsplit : ∀ {l : List Char}, c ∈ l → c.isDigit ∨ c ∈ l.dropWhile Char.isDigit := by
    intro l hc
    rw [← List.takeWhile_append_dropWhile (p := Char.isDigit) (l := l), List.mem_append] at hc
    exact hc.imp_left List.mem_takeWhile_imp
  rcases hsplit h with hc | hc
  · exact .inl hc
  rw [splitPoint]
  split
  · next rest hrest =>
    rw [hrest, List.mem_cons] at hc
    rcases hc with hc | hc
    · exact .inr (.inl hc)
    · exact (hsplit hc).imp_right .inr
  · exact .inr (.inr hc)

theorem isNumeralChar_of_read? {text : List Char} {x : Decimal} (h : read? text = some x) :
    ∀ c ∈ text, isNumeralChar c := by
  have hrest : ∀ c ∈ (splitPoint text).2.2, isNumeralChar c := by
    rw [read?] at h
    split at h
    · contradiction
    · next heq => simp [heq]
    · next mark exponent _ heq =>
      split at h
      · next hmark =>
        obtain ⟨e, he, -⟩ := Option.map_eq_some_iff.1 h
        rw [heq]
        refine List.forall_mem_cons.2 ⟨?_, isNumeralChar_of_readExponent? he⟩
        rcases hmark with rfl | rfl <;> decide
      · contradiction
  intro c hc
  rcases mem_splitPoint hc with hc | rfl | hc
  · exact isNumeralChar_of_isDigit hc
  · decide
  · exact hrest c hc

end Decimal

/-- What reads as a finite value has the characters of a numeral only; the words stand for no finite
value. -/
theorem Binary64.isNumeralChar_of_read? {text : List Char} {x : Binary64}
    (h : read? text = some x) (hfinite : x.isFinite) : ∀ c ∈ text, isNumeralChar c := by
  have hmagnitude : ∀ {negative : Bool} {word : List Char},
      readMagnitude? negative word = some x → ∀ c ∈ word, isNumeralChar c := by
    intro negative word hword
    rw [readMagnitude?] at hword
    split at hword
    · cases hword
      contradiction
    · split at hword
      · cases hword
        contradiction
      · obtain ⟨decimal, hread, -⟩ := Option.map_eq_some_iff.1 hword
        exact Decimal.isNumeralChar_of_read? hread
  unfold read? at h
  split at h
  · exact List.forall_mem_cons.2 ⟨by decide, hmagnitude h⟩
  · exact List.forall_mem_cons.2 ⟨by decide, hmagnitude h⟩
  · exact hmagnitude h

end Ostinato
