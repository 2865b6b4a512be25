import Mathlib.Data.Int.Log
import Mathlib.Data.Rat.Floor
import Mathlib.Algebra.Order.Field.Power
import Mathlib.Tactic.NormNum

/-! Rounding of rational numbers to the binary64 format: 53 bits of precision, round to nearest with
ties to even. -/

namespace Binary64

/-- The nearest integer, the even one of two. -/
def roundEven (x : ℚ) : ℤ :=
  if x - ⌊x⌋ < 1 / 2 ∨ x - ⌊x⌋ = 1 / 2 ∧ ⌊x⌋ % 2 = 0 then ⌊x⌋ else ⌊x⌋ + 1

/-- The exponent of the unit in the last place of `x`, that of the subnormal numbers at least. -/
def ulpExp (x : ℚ) : ℤ := max (Int.log 2 |x| - 52) (-1074)

/-- The number of the format nearest to `x`; `none` when that is too large for the format. -/
def nearest (x : ℚ) : Option ℚ :=
  let y := roundEven (x / 2 ^ ulpExp x) * (2 : ℚ) ^ ulpExp x
  if |y| < 2 ^ 1024 then some y else none

/-- The largest number of the format. -/
def largest : ℚ := 2 ^ 1024 - 2 ^ 971

@[simp] theorem roundEven_intCast (z : ℤ) : roundEven z = z := by
  simp [roundEven]

/-- A multiple of its unit in the last place is a number of the format. -/
theorem nearest_eq_self {x : ℚ} {z : ℤ} (hx : x = z * (2 : ℚ) ^ ulpExp x) (hlt : |x| < 2 ^ 1024) :
    nearest x = some x := by
  have hdiv : x / 2 ^ ulpExp x = z := by
    rw [div_eq_iff (by positivity)]
    exact hx
  rw [nearest]
  simp only [hdiv, roundEven_intCast, ← hx]
  exact if_pos hlt

/-- Integers of at most 53 bits are numbers of the format. -/
theorem nearest_intCast {z : ℤ} (hz : |z| < 2 ^ 53) : nearest z = some (z : ℚ) := by
  have habs : |(z : ℚ)| < 2 ^ 53 := by exact_mod_cast hz
  have hlog : Int.log 2 |(z : ℚ)| < 53 := by
    rcases eq_or_ne z 0 with rfl | h0
    · simp
    · exact (Int.lt_zpow_iff_log_lt (by norm_num) (by positivity)).mp (by exact_mod_cast habs)
  -- The unit in the last place is `1 / 2 ^ k` for a natural number `k`.
  obtain ⟨k, hk⟩ : ∃ k : ℕ, ulpExp (z : ℚ) = -k := by
    have hexp : ulpExp (z : ℚ) ≤ 0 := max_le (by omega) (by norm_num)
    exact ⟨(-ulpExp (z : ℚ)).toNat, by omega⟩
  refine nearest_eq_self (z := z * 2 ^ k) ?_ (habs.trans (pow_lt_pow_right₀ (by norm_num) (by norm_num)))
  rw [hk, zpow_neg, zpow_natCast]
  push_cast
  field_simp

/-- The number nearest to an integer that is not too large. -/
def ofInt (z : ℤ) : ℚ := (nearest z).getD 0

theorem nearest_ofInt {z : ℤ} (h : (nearest z).isSome) : nearest z = some (ofInt z) := by
  obtain ⟨v, hv⟩ := Option.isSome_iff_exists.mp h
  rw [ofInt, hv, Option.getD_some]

theorem ofInt_eq_self {z : ℤ} (h : |z| < 2 ^ 53) : ofInt z = z := by
  rw [ofInt, nearest_intCast h, Option.getD_some]

end Binary64
