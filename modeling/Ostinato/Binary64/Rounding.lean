/-!
# Rounding quotients

A quotient of natural numbers is rounded in two ways: to the nearest whole number, and to the
nearest number with at most fifty-three significant bits. In both a tie goes to the even neighbour.

## Main definitions

* `roundHalfEven n d`: the whole number nearest to `n / d`.
* `exactLimit`: the first number with more than fifty-three bits.
* `HasShortSignificand`: the numbers with at most fifty-three significant bits.
* `roundSignificand n d`: the number with a short significand that is nearest to `n / d`, among
  those on the grid of the quotient's own binade.

## Main results

* `roundHalfEven_of_dvd`, `roundSignificand_of_short`: a quotient on the grid is its own rounding.
* `hasShortSignificand_roundSignificand`: the result has a short significand.
* `roundSignificand_mul_right`: only the quotient matters.
-/

namespace Ostinato

-- Powers of natural numbers are those of the core library, whatever else is in scope.
attribute [local instance (high)] instPowNat

/-! ### Whole numbers -/

/-- The whole number nearest to `n / d`; a tie goes to the even neighbour. -/
def roundHalfEven (n d : Nat) : Nat :=
  if 2 * (n % d) < d then n / d
  else if d < 2 * (n % d) then n / d + 1
  else n / d + n / d % 2

theorem roundHalfEven_of_dvd {n d : Nat} (hd : 0 < d) (h : d ∣ n) : roundHalfEven n d = n / d := by
  rw [roundHalfEven, Nat.mod_eq_zero_of_dvd h, if_pos (by omega)]

theorem roundHalfEven_le (n d : Nat) : roundHalfEven n d ≤ n / d + 1 := by
  unfold roundHalfEven
  split
  · omega
  · split <;> omega

theorem le_roundHalfEven (n d : Nat) : n / d ≤ roundHalfEven n d := by
  unfold roundHalfEven
  split
  · omega
  · split <;> omega

theorem roundHalfEven_mul_right (n d : Nat) {k : Nat} (hk : 0 < k) :
    roundHalfEven (n * k) (d * k) = roundHalfEven n d := by
  have hcmp : ∀ a b : Nat, a * k < b * k ↔ a < b := fun a b => Nat.mul_lt_mul_right hk
  simp only [roundHalfEven, Nat.mul_mod_mul_right, Nat.mul_div_mul_right _ _ hk, ← Nat.mul_assoc,
    hcmp]

/-! ### Short significands -/

/-- The number of bits of a significand. -/
def significandBits : Nat :=
  53

/-- The first number with more bits than a significand has. -/
def exactLimit : Nat :=
  2 ^ significandBits

/-- A number has a short significand when it is a multiple of the power of two that leaves
fifty-three significant bits, of the smallest power if it has fewer. -/
def HasShortSignificand (u : Nat) : Prop :=
  2 ^ (u.log2 - 52) ∣ u

instance (u : Nat) : Decidable (HasShortSignificand u) :=
  inferInstanceAs (Decidable (2 ^ (u.log2 - 52) ∣ u))

/-- The spacing of the grid on which a quotient with whole part `q` is rounded. -/
def gridStep (q : Nat) : Nat :=
  2 ^ (q.log2 - 52)

theorem gridStep_pos (q : Nat) : 0 < gridStep q :=
  Nat.two_pow_pos _

/-- The number with a short significand nearest to `n / d`; a tie goes to the even significand. -/
def roundSignificand (n d : Nat) : Nat :=
  roundHalfEven n (d * gridStep (n / d)) * gridStep (n / d)

theorem hasShortSignificand_mul_two_pow {m : Nat} (hm : m ≤ exactLimit) (e : Nat) :
    HasShortSignificand (m * 2 ^ e) := by
  have hbits : significandBits = 53 := rfl
  rcases Nat.eq_zero_or_pos m with rfl | hpos
  · simp [HasShortSignificand]
  rcases Nat.lt_or_eq_of_le hm with hlt | rfl
  · have hlog : (m * 2 ^ e).log2 < significandBits + e := by
      rw [Nat.log2_lt (by have := Nat.mul_pos hpos (Nat.two_pow_pos e); omega), Nat.pow_add]
      exact Nat.mul_lt_mul_of_pos_right hlt (Nat.two_pow_pos e)
    exact Nat.dvd_trans (Nat.pow_dvd_pow 2 (by omega)) (Nat.dvd_mul_left _ _)
  · rw [exactLimit, ← Nat.pow_add, HasShortSignificand, Nat.log2_two_pow]
    exact Nat.pow_dvd_pow 2 (by omega)

theorem hasShortSignificand_roundSignificand (n d : Nat) :
    HasShortSignificand (roundSignificand n d) := by
  have hbits : significandBits = 53 := rfl
  refine hasShortSignificand_mul_two_pow (Nat.le_trans (roundHalfEven_le _ _) ?_) _
  have hlt : n / d < exactLimit * gridStep (n / d) := by
    have h := Nat.lt_log2_self (n := n / d)
    have hmono : 2 ^ ((n / d).log2 + 1) ≤ 2 ^ (significandBits + ((n / d).log2 - 52)) :=
      Nat.pow_le_pow_right (by decide) (by omega)
    rw [Nat.pow_add 2 significandBits] at hmono
    exact Nat.lt_of_lt_of_le h hmono
  rw [← Nat.div_div_eq_div_mul]
  exact Nat.div_lt_of_lt_mul (by rwa [Nat.mul_comm])

/-- A quotient that has a short significand is its own rounding. -/
theorem roundSignificand_of_short {n d : Nat} (hd : 0 < d) (h : d ∣ n)
    (hs : HasShortSignificand (n / d)) : roundSignificand n d = n / d := by
  have hdvd : gridStep (n / d) ∣ n / d := hs
  have hn : d * gridStep (n / d) ∣ n := by
    obtain ⟨k, hk⟩ := hdvd
    refine ⟨k, ?_⟩
    rw [Nat.mul_assoc, ← hk, Nat.mul_div_cancel' h]
  rw [roundSignificand, roundHalfEven_of_dvd (Nat.mul_pos hd (gridStep_pos _)) hn,
    ← Nat.div_div_eq_div_mul, Nat.div_mul_cancel hdvd]

/-- Only the quotient matters. -/
theorem roundSignificand_mul_right (n d : Nat) {k : Nat} (hk : 0 < k) :
    roundSignificand (n * k) (d * k) = roundSignificand n d := by
  rw [roundSignificand, Nat.mul_div_mul_right _ _ hk, Nat.mul_right_comm d k,
    roundHalfEven_mul_right _ _ hk, ← roundSignificand]

end Ostinato
