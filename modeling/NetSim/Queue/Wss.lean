import Mathlib.Algebra.BigOperators.Group.List.Basic
import Mathlib.Algebra.Order.Group.Nat
import Mathlib.Data.Nat.Bitwise
import Mathlib.Tactic.Ring

/-! # The weight spread sequence

`WSS` holds one table, for order 16, of the terms that `rawScan` finds: term `t` is one more than the
number of times 2 divides `t`. Its first `2^k - 1` entries serve every order `k`: term `v` occurs
`2^(k-v)` times among them (`count_pass`), since the odd places hold 1 and the even places the table of
order `k - 1` with every term one higher (`term_odd`, `term_even`).
-/

namespace NetSim

open List

def power (base : ℕ) : ℕ → ℕ
  | 0 => 1
  | j + 1 => power base j * base

/-- `rawScan` at `j`, with `N = j + left`. -/
def rawScanFrom (i : ℕ) : ℕ → ℕ → ℕ
  | 0, j => j
  | left + 1, j => if i % power 2 j ≠ 0 then j else rawScanFrom i left (j + 1)

def rawScan (i j N : ℕ) : ℕ := rawScanFrom i (N - j) j

structure Wss where
  maxOrder : ℕ
  currOrder : ℕ
  items : ℕ
  ptr : ℕ
  pwss : ℕ → ℕ

namespace Wss

/-- The constructor, followed by `init`. -/
def init (i : ℕ) : Wss where
  maxOrder := i
  currOrder := 1
  items := (1 <<< i) - 1
  ptr := 0
  pwss := fun j => rawScan (j + 1) 1 i

def incPtr (x : Wss) (order : ℕ) : Wss :=
  if (1 : ℤ) <<< order - 2 < (x.ptr + 1 : ℕ) then { x with ptr := 0 } else { x with ptr := x.ptr + 1 }

/-- `get`. `none` stands for the exit on a pointer that is too large, and for reading behind the
table. -/
def get (x : Wss) (order : ℕ) : Option (ℕ × Wss) :=
  if (1 : ℤ) <<< order - 2 < x.ptr then none
  else if x.items ≤ x.ptr then none
  else some (x.pwss x.ptr, { x with currOrder := order })

end Wss

variable {i j k N n left s t a b : ℕ} {α : Type}

/-! ## The terms -/

theorem power_eq (base j : ℕ) : power base j = base ^ j := by
  induction j with
  | zero => rfl
  | succ j ih => rw [power, ih, pow_succ]

theorem rawScanFrom_spec (hpos : 0 < i) (hlt : i < 2 ^ (j + left)) (hj : 1 ≤ j)
    (hdvd : 2 ^ (j - 1) ∣ i) :
    j ≤ rawScanFrom i left j ∧ rawScanFrom i left j ≤ j + left ∧
      2 ^ (rawScanFrom i left j - 1) ∣ i ∧ ¬ 2 ^ rawScanFrom i left j ∣ i := by
  induction left generalizing j with
  | zero =>
    refine ⟨le_rfl, le_rfl, hdvd, fun h => ?_⟩
    exact absurd (Nat.le_of_dvd hpos h) (Nat.not_le.mpr hlt)
  | succ left ih =>
    unfold rawScanFrom
    rw [power_eq]
    by_cases hmod : i % 2 ^ j ≠ 0
    · rw [if_pos hmod]
      exact ⟨le_rfl, Nat.le_add_right _ _, hdvd, fun h => hmod (Nat.dvd_iff_mod_eq_zero.mp h)⟩
    · rw [if_neg hmod]
      have hstep : 2 ^ (j + 1 - 1) ∣ i := Nat.dvd_of_mod_eq_zero (not_not.mp hmod)
      obtain ⟨h1, h2, h3, h4⟩ := @ih (j + 1)
        (by rwa [show j + 1 + left = j + (left + 1) from by omega]) (by omega) hstep
      exact ⟨by omega, by omega, h3, h4⟩

theorem term_unique (ha : 1 ≤ a) (hb : 1 ≤ b) (ha1 : 2 ^ (a - 1) ∣ i) (ha2 : ¬ 2 ^ a ∣ i)
    (hb1 : 2 ^ (b - 1) ∣ i) (hb2 : ¬ 2 ^ b ∣ i) : a = b := by
  by_contra hne
  rcases Nat.lt_or_gt_of_ne hne with hlt | hlt
  · exact ha2 ((pow_dvd_pow 2 (by omega)).trans hb1)
  · exact hb2 ((pow_dvd_pow 2 (by omega)).trans ha1)

def term (t : ℕ) : ℕ := rawScan t 1 16

theorem term_spec (hpos : 0 < t) (hlt : t < 2 ^ 16) :
    1 ≤ term t ∧ 2 ^ (term t - 1) ∣ t ∧ ¬ 2 ^ term t ∣ t := by
  obtain ⟨h1, -, h3, h4⟩ := @rawScanFrom_spec t 1 15 hpos hlt le_rfl (one_dvd t)
  exact ⟨h1, h3, h4⟩

theorem term_odd (hlt : 2 * s + 1 < 2 ^ 16) : term (2 * s + 1) = 1 := by
  obtain ⟨h1, h2, h3⟩ := term_spec (Nat.succ_pos (2 * s)) hlt
  refine term_unique h1 le_rfl h2 h3 (one_dvd _) ?_
  omega

theorem term_even (hpos : 0 < s) (hlt : 2 * s < 2 ^ 16) : term (2 * s) = term s + 1 := by
  obtain ⟨h1, h2, h3⟩ := @term_spec (2 * s) (by omega) hlt
  obtain ⟨g1, g2, g3⟩ := @term_spec s hpos (by omega)
  refine term_unique h1 (by omega) h2 h3 ?_ ?_
  · rw [Nat.add_sub_cancel, ← Nat.sub_add_cancel g1, pow_succ, mul_comm]
    exact Nat.mul_dvd_mul_left 2 g2
  · rw [pow_succ, mul_comm]
    exact fun h => g3 (Nat.dvd_of_mul_dvd_mul_left (by norm_num) h)

theorem term_le (hpos : 0 < t) (hlt : t < 2 ^ k) (hk : k ≤ 16) : term t ≤ k := by
  obtain ⟨h1, h2, -⟩ := term_spec hpos (hlt.trans_le (Nat.pow_le_pow_right (by norm_num) hk))
  by_contra hgt
  have hdvd : 2 ^ k ∣ t := (pow_dvd_pow 2 (by omega)).trans h2
  exact absurd (Nat.le_of_dvd hpos hdvd) (Nat.not_le.mpr hlt)

/-! ## A pass -/

/-- The columns that the places from `p + 1` on refer to, for order `k`. -/
def passFrom (column : ℕ → List α) (k p n : ℕ) : List α :=
  (List.range' p n).flatMap (fun t => column (k - term (t + 1)))

/-- A full pass: for each of the `2^k - 1` terms `v`, the nodes of column `k - v`. -/
def pass (column : ℕ → List α) (k : ℕ) : List α := passFrom column k 0 (2 ^ k - 1)

theorem passFrom_succ (column : ℕ → List α) (k p n : ℕ) :
    passFrom column k p (n + 1) = column (k - term (p + 1)) ++ passFrom column k (p + 1) n := by
  unfold passFrom
  rw [range'_succ, flatMap_cons]

theorem sum_alternate (f : ℕ → ℕ) (n : ℕ) :
    ((List.range (2 * n + 1)).map f).sum =
      ((List.range (n + 1)).map (fun s => f (2 * s))).sum +
        ((List.range n).map (fun s => f (2 * s + 1))).sum := by
  induction n with
  | zero => simp
  | succ n ih =>
    rw [show 2 * (n + 1) + 1 = 2 * n + 1 + 1 + 1 from by ring, range_succ, range_succ,
      map_append, map_append, sum_append, sum_append, ih,
      @range_succ (n + 1), @range_succ n]
    simp only [map_append, sum_append, map_singleton, sum_singleton]
    rw [show 2 * n + 1 + 1 = 2 * (n + 1) from by ring]
    ring

theorem count_passFrom_zero [DecidableEq α] (column : ℕ → List α) (k n : ℕ) (q : α) :
    (passFrom column k 0 n).count q =
      ((List.range n).map (fun t => (column (k - term (t + 1))).count q)).sum := by
  unfold passFrom
  rw [count_flatMap, ← range_eq_range']
  rfl

theorem count_pass_succ [DecidableEq α] (column : ℕ → List α) (hk : k + 1 ≤ 16) (q : α) :
    (pass column (k + 1)).count q = 2 ^ k * (column k).count q + (pass column k).count q := by
  have hpow : 2 ^ (k + 1) ≤ 2 ^ 16 := Nat.pow_le_pow_right (by norm_num) hk
  have hone : 1 ≤ 2 ^ k := Nat.one_le_two_pow
  unfold pass
  rw [count_passFrom_zero, count_passFrom_zero,
    show 2 ^ (k + 1) - 1 = 2 * (2 ^ k - 1) + 1 from by omega, sum_alternate]
  refine congrArg₂ (· + ·) ?_ ?_
  · have hodd : ∀ s ∈ List.range (2 ^ k - 1 + 1),
        (column (k + 1 - term (2 * s + 1))).count q = (column k).count q := by
      intro s hs
      rw [term_odd (by have := mem_range.mp hs; omega)]
      rfl
    rw [map_congr_left hodd, map_const', sum_replicate, length_range,
      Nat.sub_add_cancel hone]
    rfl
  · refine congrArg List.sum (map_congr_left ?_)
    intro s hs
    have hs := mem_range.mp hs
    rw [show 2 * s + 1 + 1 = 2 * (s + 1) from by ring,
      term_even (Nat.succ_pos s) (by omega), Nat.add_sub_add_right]

/-- **A pass visits a queue as often as its weight says**, when its nodes are in the columns of the bits
of the weight. -/
theorem count_pass [DecidableEq α] (column : ℕ → List α) (q : α) (w : ℕ)
    (hcol : ∀ c, (column c).count q = (w.testBit c).toNat) (hk : k ≤ 16) :
    (pass column k).count q = w % 2 ^ k := by
  induction k with
  | zero =>
    rw [pow_zero, Nat.mod_one]
    rfl
  | succ k ih =>
    rw [count_pass_succ column hk, ih (by omega), hcol, Nat.mod_pow_succ, Nat.toNat_testBit]
    ring

end NetSim
