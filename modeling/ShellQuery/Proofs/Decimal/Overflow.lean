import Mathlib.Tactic.Ring
import ShellQuery.Decimal.Binary64

/-!
# Numbers too large for the format

The exponent that a quotient gets is the greatest one at which it has 53 bits
(`le_exponentOf_iff`), so the largest finite number is `2 ^ 1024 - 2 ^ 971`. The number half a step
above it is tied between an odd and an even mantissa and goes up, out of the format:
`nearest_eq_infinite_iff` says that exactly the numbers from `2 ^ 1024 - 2 ^ 970` on are infinite.
-/

namespace ShellQuery.Binary64

/-- The least number that is rounded to infinity. -/
def overflowBound : Nat :=
  Nat.pow 2 1024 - Nat.pow 2 970

variable {num den : Nat}

/-! ### The exponent -/

theorem log2_le_of_mul_le (hden : den ≠ 0) {k : Nat} (h : den * 2 ^ k ≤ num) :
    den.log2 + k ≤ num.log2 := by
  have hlt : 2 ^ (den.log2 + k) < 2 ^ (num.log2 + 1) := by
    calc 2 ^ (den.log2 + k) = 2 ^ den.log2 * 2 ^ k := Nat.pow_add _ _ _
      _ ≤ den * 2 ^ k := Nat.mul_le_mul_right _ (Nat.log2_self_le hden)
      _ ≤ num := h
      _ < 2 ^ (num.log2 + 1) := Nat.lt_log2_self
  exact Nat.le_of_lt_succ ((Nat.pow_lt_pow_iff_right (by decide)).1 hlt)

theorem mul_le_of_log2_lt (hnum : num ≠ 0) {k : Nat} (h : den.log2 + k < num.log2) :
    den * 2 ^ k ≤ num := by
  calc den * 2 ^ k ≤ 2 ^ (den.log2 + 1) * 2 ^ k :=
        Nat.mul_le_mul_right _ (Nat.le_of_lt Nat.lt_log2_self)
    _ = 2 ^ (den.log2 + 1 + k) := (Nat.pow_add _ _ _).symm
    _ ≤ 2 ^ num.log2 := Nat.pow_le_pow_right (by decide) (by omega)
    _ ≤ num := Nat.log2_self_le hnum

/-- The exponent is the greatest one at which the quotient has 53 bits. -/
theorem le_exponentOf_iff (hnum : num ≠ 0) (hden : den ≠ 0) (k : Nat) :
    (k : Int) ≤ exponentOf num den ↔ den * 2 ^ (52 + k) ≤ num := by
  have hmin : minExponent = -1074 := rfl
  unfold exponentOf
  dsimp only
  generalize hguess : (num.log2 : Int) - (den.log2 : Int) - 52 = guess
  -- the guess is at most one too large, and the comparison decides where it matters
  rcases Int.lt_trichotomy (k : Int) guess with hlt | rfl | hlt
  · have hle : den * 2 ^ (52 + k) ≤ num := mul_le_of_log2_lt hnum (by omega)
    simp only [hle, iff_true]
    split <;> omega
  · have hpow : Nat.pow 2 (52 + (k : Int).toNat) = 2 ^ (52 + k) := rfl
    rw [if_pos (Int.natCast_nonneg k), hpow]
    by_cases hshort : num < den * 2 ^ (52 + k)
    · simp only [hshort, decide_true, if_true]
      omega
    · simp only [hshort, decide_false, Bool.false_eq_true, if_false]
      omega
  · have hnot : ¬den * 2 ^ (52 + k) ≤ num := by
      intro hle
      have := log2_le_of_mul_le hden hle
      omega
    simp only [hnot, iff_false]
    split <;> omega

/-! ### The mantissa -/

/-- A quotient below an even number is rounded up to it from half a step below on, the tie
included: the number before it is odd. -/
theorem roundDiv_eq_two_mul_iff {n : Nat} (hden : den ≠ 0) (h : num < 2 * n * den) :
    roundDiv num den = 2 * n ↔ (4 * n - 1) * den ≤ 2 * num := by
  have hdiv : den * (num / den) + num % den = num := Nat.div_add_mod num den
  have hmod := Nat.mod_lt num (Nat.pos_of_ne_zero hden)
  have hq : num / den < 2 * n := Nat.div_lt_of_lt_mul (by rwa [Nat.mul_comm])
  unfold roundDiv
  dsimp only
  generalize num / den = q at *
  generalize num % den = r at *
  have hstep : (4 * n - 1) * den = 2 * (den * (2 * n - 1)) + den := by
    obtain ⟨m, rfl⟩ : ∃ m, n = m + 1 := ⟨n - 1, by omega⟩
    rw [show 4 * (m + 1) - 1 = 4 * m + 3 by omega, show 2 * (m + 1) - 1 = 2 * m + 1 by omega]
    ring
  rw [hstep, ← hdiv]
  by_cases hlast : q = 2 * n - 1
  · -- one step below: the remainder decides
    have hodd : q % 2 ≠ 0 := by omega
    rw [← hlast]
    split
    · omega
    · split
      · omega
      · omega
  · have hle : den * (q + 1) ≤ den * (2 * n - 1) := Nat.mul_le_mul_left _ (by omega)
    rw [Nat.mul_add, Nat.mul_one] at hle
    have hfar : ¬2 * (den * (2 * n - 1)) + den ≤ 2 * (den * q + r) := by omega
    simp only [hfar, iff_false]
    split
    · omega
    · split
      · omega
      · split <;> omega

theorem mul_two_pow_add (n a b : Nat) : n * 2 ^ (a + b) = 2 ^ a * (n * 2 ^ b) := by
  rw [Nat.pow_add, Nat.mul_left_comm]

/-- Where a mantissa of at most 53 bits is rounded up to 54 bits. -/
theorem scaledRound_eq_iff {k : Nat} (hden : den ≠ 0) (h : num < den * 2 ^ (53 + k)) :
    scaledRound num den (k : Int) = 2 * hiddenBit ↔
      (2 ^ 54 - 1) * (den * 2 ^ k) ≤ 2 * num := by
  have hunit : den * 2 ^ k ≠ 0 := Nat.mul_ne_zero hden (Nat.ne_of_gt (Nat.two_pow_pos k))
  have hlt : num < 2 * hiddenBit * (den * 2 ^ k) := by
    rw [mul_two_pow_add] at h
    exact h
  rw [scaledRound, if_pos (Int.natCast_nonneg k)]
  exact roundDiv_eq_two_mul_iff hunit hlt

/-! ### Rounding to infinity -/

theorem nearest_eq_infinite_iff_exponent (hnum : num ≠ 0) :
    nearest num den = .infinite ↔
      maxExponent < (if scaledRound num den (exponentOf num den) = 2 * hiddenBit then
        exponentOf num den + 1 else exponentOf num den) := by
  rw [nearest, if_neg hnum]
  dsimp only
  split
  · dsimp only
    split <;> simp [*]
  · dsimp only
    split <;> simp [*]

theorem overflowBound_eq : overflowBound = (2 ^ 54 - 1) * 2 ^ 970 := by
  decide +kernel

/-- Exactly the numbers from the bound on are rounded to infinity. -/
theorem nearest_eq_infinite_iff (hden : den ≠ 0) :
    nearest num den = .infinite ↔ overflowBound * den ≤ num := by
  have hbound : overflowBound * den = (2 ^ 54 - 1) * (den * 2 ^ 970) := by
    rw [overflowBound_eq, Nat.mul_assoc, Nat.mul_comm _ den]
  have hpos : ∀ k, 0 < den * 2 ^ k :=
    fun k => Nat.mul_pos (Nat.pos_of_ne_zero hden) (Nat.two_pow_pos k)
  have hunit := hpos 970
  rw [hbound]
  by_cases hnum : num = 0
  · have hnot : ¬(2 ^ 54 - 1) * (den * 2 ^ 970) ≤ num := by omega
    rw [nearest, if_pos hnum]
    exact iff_of_false (by rintro ⟨⟩) hnot
  -- the exponents around the greatest one and the mantissa there, in units of `2 ^ 970`
  have he972 := le_exponentOf_iff hnum hden 972
  have he971 := le_exponentOf_iff hnum hden 971
  have hround := @scaledRound_eq_iff num den 971 hden
  have h971 := mul_two_pow_add den 1 970
  rw [show 52 + 972 = 54 + 970 from rfl, mul_two_pow_add] at he972
  rw [show 52 + 971 = 53 + 970 from rfl, mul_two_pow_add] at he971
  rw [show 1 + 970 = 971 from rfl] at h971
  rw [show 53 + 971 = 54 + 970 from rfl, mul_two_pow_add, h971] at hround
  rw [nearest_eq_infinite_iff_exponent hnum, show maxExponent = 971 from rfl]
  generalize den * 2 ^ 970 = unit at *
  rcases Int.lt_trichotomy (exponentOf num den) 971 with he | he | he
  · split <;> omega
  · rw [he] at he972 ⊢
    have hlt : num < 2 ^ 54 * unit := by omega
    have hiff : scaledRound num den 971 = 2 * hiddenBit ↔ _ := hround hlt
    split <;> omega
  · have hle := he972.1 (by omega)
    split <;> omega

end ShellQuery.Binary64
