import Mathlib

/-! # Doubling an `int`

A size of 32 bits is doubled until it is larger than a number. From a power of two, the loop ends at the
next power that is larger (`double_spec`); for a number from `2 ^ 30` on the size overflows, is 0 at last,
and the loop never ends (`double_none`).
-/

namespace Doubling

def twice (n : ℤ) : ℤ := (n * 2).bmod (2 ^ 32)

/-- `while (n <= bound) n *= 2`; the loop takes at most `fuel` rounds. -/
def double (bound : ℤ) : ℕ → ℤ → Option ℤ
  | 0, _ => none
  | fuel + 1, n => if n ≤ bound then double bound fuel (twice n) else some n

/-- More rounds than the loop takes, if it ends. -/
def rounds : ℕ := 33

variable {bound : ℕ}

theorem twice_pow {k : ℕ} (h : k < 30) : twice (2 ^ k) = 2 ^ (k + 1) := by
  have hpow : (2 : ℤ) ^ k ≤ 2 ^ 29 := pow_le_pow_right₀ (by norm_num) (by omega)
  have hpos : (0 : ℤ) < 2 ^ k := by positivity
  rw [twice, Int.bmod_eq_of_le (by omega) (by omega)]
  ring

theorem double_zero (fuel : ℕ) : double bound fuel 0 = none := by
  induction fuel with
  | zero => rfl
  | succ fuel ih =>
    rw [double, if_pos (by omega)]
    exact ih

theorem double_spec (k fuel : ℕ) (hk : k ≤ 30) (hbound : bound < 2 ^ 30) (hfuel : 31 ≤ k + fuel) :
    double bound fuel (2 ^ k) = some (2 ^ max k bound.size) := by
  induction fuel generalizing k with
  | zero => omega
  | succ fuel ih =>
    unfold double
    by_cases hle : 2 ^ k ≤ bound
    · have hlt : k < 30 := by
        by_contra hge
        obtain rfl : k = 30 := by omega
        omega
      have hsize : k < bound.size := Nat.lt_size.mpr hle
      rw [if_pos (by exact_mod_cast hle), twice_pow hlt, ih (k + 1) hlt (by omega)]
      congr 2
      omega
    · have hsize : bound.size ≤ k := Nat.size_le.mpr (not_le.mp hle)
      rw [if_neg (by exact_mod_cast hle), max_eq_left hsize]

/-- **The size overflows**: no number of rounds is enough. -/
theorem double_none (k fuel : ℕ) (hk : k ≤ 30) (hbound : 2 ^ 30 ≤ bound) :
    double bound fuel (2 ^ k) = none := by
  induction fuel generalizing k with
  | zero => rfl
  | succ fuel ih =>
    have hpow : (2 : ℤ) ^ k ≤ 2 ^ 30 := pow_le_pow_right₀ (by norm_num) hk
    rw [double, if_pos (by omega)]
    by_cases hlast : k < 30
    · rw [twice_pow hlast]
      exact ih (k + 1) hlast
    · obtain rfl : k = 30 := by omega
      have hmin : twice (2 ^ 30) = -2 ^ 31 := by decide
      have hzero : twice (-2 ^ 31) = 0 := by decide
      rw [hmin]
      cases fuel with
      | zero => rfl
      | succ fuel => rw [double, if_pos (by omega), hzero, double_zero]

end Doubling
