import Ostinato.Binary64.Basic

/-!
# Rounding and order

Rounding a quotient does not turn the order around, and it never passes a number that has a short
significand: such a number is its own rounding. The order of values is that of their places, so what
lies below a value lies below every value that is not less.

## Main results

* `roundHalfEven_mono`, `roundSignificand_mono`: larger quotients have larger roundings.
* `roundSignificand_le`: a quotient up to a number with a short significand is rounded to at most
  that number.
* `Binary64.le_trans`, `Binary64.lt_of_lt_of_le`, `Binary64.lt_of_le_of_lt`: the order of values
  goes on.
-/

namespace Ostinato

-- Powers of natural numbers are those of the core library, whatever else is in scope.
attribute [local instance (high)] instPowNat

/-! ### Whole numbers -/

/-- Rounding to whole numbers keeps the order. -/
theorem roundHalfEven_mono (d : Nat) {n m : Nat} (h : n ≤ m) :
    roundHalfEven n d ≤ roundHalfEven m d := by
  rcases Nat.lt_or_eq_of_le (Nat.div_le_div_right (c := d) h) with hlt | heq
  · exact Nat.le_trans (roundHalfEven_le n d) (Nat.le_trans hlt (le_roundHalfEven m d))
  · have hn := Nat.div_add_mod n d
    have hm := Nat.div_add_mod m d
    rw [heq] at hn
    have hmod : n % d ≤ m % d := by omega
    rw [roundHalfEven, roundHalfEven, heq]
    repeat' split
    all_goals omega

theorem roundHalfEven_le_of_le_mul {n d a : Nat} (hd : 0 < d) (h : n ≤ a * d) :
    roundHalfEven n d ≤ a :=
  calc roundHalfEven n d ≤ roundHalfEven (a * d) d := roundHalfEven_mono d h
    _ = a * d / d := roundHalfEven_of_dvd hd (Nat.dvd_mul_left d a)
    _ = a := Nat.mul_div_cancel a hd

/-! ### Short significands -/

theorem gridStep_dvd_gridStep {p q : Nat} (h : p.log2 ≤ q.log2) : gridStep p ∣ gridStep q :=
  Nat.pow_dvd_pow 2 (Nat.sub_le_sub_right h 52)

theorem log2_le_log2 {p q : Nat} (h : p ≤ q) : p.log2 ≤ q.log2 := by
  rcases Nat.eq_zero_or_pos p with rfl | hp
  · exact Nat.zero_le _
  · rw [Nat.le_log2 (by omega)]
    exact Nat.le_trans (Nat.log2_self_le (by omega)) h

/-- A quotient up to a number with a short significand is rounded to at most that number. -/
theorem roundSignificand_le {n d a : Nat} (hd : 0 < d) (ha : HasShortSignificand a)
    (h : n ≤ a * d) : roundSignificand n d ≤ a := by
  have hquotient : n / d ≤ a := Nat.div_le_of_le_mul (Nat.mul_comm a d ▸ h)
  obtain ⟨m, hm⟩ := Nat.dvd_trans (gridStep_dvd_gridStep (log2_le_log2 hquotient)) ha
  have hstep := gridStep_pos (n / d)
  have hsteps : roundHalfEven n (d * gridStep (n / d)) ≤ m := by
    refine roundHalfEven_le_of_le_mul (Nat.mul_pos hd hstep) (Nat.le_trans h (Nat.le_of_eq ?_))
    rw [hm, Nat.mul_comm d, ← Nat.mul_assoc, Nat.mul_comm m]
  calc roundSignificand n d ≤ m * gridStep (n / d) := Nat.mul_le_mul_right _ hsteps
    _ = a := by rw [hm, Nat.mul_comm]

theorem two_pow_log2_le_roundSignificand {n d : Nat} (h : n / d ≠ 0) :
    2 ^ (n / d).log2 ≤ roundSignificand n d := by
  have hpower : 2 ^ (n / d).log2 =
      2 ^ ((n / d).log2 - ((n / d).log2 - 52)) * gridStep (n / d) := by
    rw [gridStep, ← Nat.pow_add, Nat.sub_add_cancel (Nat.sub_le _ _)]
  have hfloor := Nat.log2_self_le h
  rw [hpower, roundSignificand]
  refine Nat.mul_le_mul_right _ (Nat.le_trans ?_ (le_roundHalfEven _ _))
  rw [← Nat.div_div_eq_div_mul, Nat.le_div_iff_mul_le (gridStep_pos _), ← hpower]
  exact hfloor

/-- Rounding to short significands keeps the order. -/
theorem roundSignificand_mono (d : Nat) {n m : Nat} (h : n ≤ m) :
    roundSignificand n d ≤ roundSignificand m d := by
  have hquotients : n / d ≤ m / d := Nat.div_le_div_right h
  rcases Nat.lt_or_eq_of_le (log2_le_log2 hquotients) with hlt | heq
  · -- the start of the higher binade lies between the two
    have hm : m / d ≠ 0 := by
      intro hzero
      rw [hzero, Nat.log2_zero] at hlt
      exact Nat.not_lt_zero _ hlt
    have hd : 0 < d := Nat.pos_of_ne_zero fun hzero => hm (by rw [hzero, Nat.div_zero])
    have hbelow : n / d < 2 ^ (m / d).log2 :=
      Nat.lt_of_lt_of_le Nat.lt_log2_self (Nat.pow_le_pow_right (by decide) hlt)
    have hshort : HasShortSignificand (2 ^ (m / d).log2) := by
      have hone := hasShortSignificand_mul_two_pow (m := 1) (by decide) (m / d).log2
      rwa [Nat.one_mul] at hone
    exact Nat.le_trans
      (roundSignificand_le hd hshort (Nat.le_of_lt ((Nat.div_lt_iff_lt_mul hd).1 hbelow)))
      (two_pow_log2_le_roundSignificand hm)
  · have hstep : gridStep (n / d) = gridStep (m / d) := by rw [gridStep, heq, ← gridStep]
    rw [roundSignificand, roundSignificand, hstep]
    exact Nat.mul_le_mul_right _ (roundHalfEven_mono _ h)

/-! ### Values -/

namespace Binary64

theorem lt_iff {x y : Binary64} :
    x.lt y = true ↔ ∃ a b, x.rank? = some a ∧ y.rank? = some b ∧ a < b := by
  rw [lt]
  cases x.rank? <;> cases y.rank? <;> simp

theorem le_iff {x y : Binary64} :
    x.le y = true ↔ ∃ a b, x.rank? = some a ∧ y.rank? = some b ∧ a ≤ b := by
  rw [le]
  cases x.rank? <;> cases y.rank? <;> simp

theorem lt_of_lt_of_le {x y z : Binary64} (hxy : x.lt y = true) (hyz : y.le z = true) :
    x.lt z = true := by
  obtain ⟨a, b, hx, hy, hab⟩ := lt_iff.1 hxy
  obtain ⟨b', c, hy', hz, hbc⟩ := le_iff.1 hyz
  cases hy.symm.trans hy'
  exact lt_iff.2 ⟨a, c, hx, hz, Int.lt_of_lt_of_le hab hbc⟩

theorem lt_of_le_of_lt {x y z : Binary64} (hxy : x.le y = true) (hyz : y.lt z = true) :
    x.lt z = true := by
  obtain ⟨a, b, hx, hy, hab⟩ := le_iff.1 hxy
  obtain ⟨b', c, hy', hz, hbc⟩ := lt_iff.1 hyz
  cases hy.symm.trans hy'
  exact lt_iff.2 ⟨a, c, hx, hz, Int.lt_of_le_of_lt hab hbc⟩

theorem le_trans {x y z : Binary64} (hxy : x.le y = true) (hyz : y.le z = true) :
    x.le z = true := by
  obtain ⟨a, b, hx, hy, hab⟩ := le_iff.1 hxy
  obtain ⟨b', c, hy', hz, hbc⟩ := le_iff.1 hyz
  cases hy.symm.trans hy'
  exact le_iff.2 ⟨a, c, hx, hz, Int.le_trans hab hbc⟩

theorem lt_eq_false_of_le {x y : Binary64} (h : y.le x = true) : x.lt y = false :=
  Bool.eq_false_iff.2 fun hlt => by
    have hself := lt_of_lt_of_le hlt h
    rw [lt_irrefl] at hself
    contradiction

theorem rank?_clampUnit {x : Binary64} (hzero : zero.le x = true) (hone : x.le one = true) :
    x.clampUnit.rank? = x.rank? := by
  obtain ⟨low, rank, hlow, hrank, hpos⟩ := le_iff.1 hzero
  obtain ⟨rank', high, hrank', hhigh, hle⟩ := le_iff.1 hone
  cases hrank.symm.trans hrank'
  rw [clampUnit, lt, lt, hlow, hrank, hhigh]
  by_cases hbelow : low < rank
  · by_cases habove : rank < high
    · simp [hbelow, habove, hrank]
    · simp [hbelow, habove, hhigh]
      omega
  · simp [hbelow, hlow]
    omega

end Binary64

end Ostinato
