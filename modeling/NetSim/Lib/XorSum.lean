import Mathlib.Data.Nat.Bitwise

/-! # Sums without carry

`xorSum w n` is the exclusive or of `w 0`, …, `w (n - 1)`. Since every number is its own inverse, a
summand is taken out by adding it once more (`xorSum_drop`).
-/

namespace XorSum

open List

variable {w w' : ℕ → ℕ} {m n k x : ℕ}

/-- The exclusive or of the first `n` values. -/
def xorSum (w : ℕ → ℕ) : ℕ → ℕ
  | 0 => 0
  | n + 1 => xorSum w n ^^^ w n

theorem xorSum_congr (h : ∀ k, k < n → w k = w' k) : xorSum w n = xorSum w' n := by
  induction n with
  | zero => rfl
  | succ n ih =>
    rw [xorSum, xorSum, h n (Nat.lt_succ_self n), ih (fun k hk => h k (Nat.lt_succ_of_lt hk))]

theorem xorSum_zero (h : ∀ k, k < n → w k = 0) : xorSum w n = 0 := by
  induction n with
  | zero => rfl
  | succ n ih =>
    rw [xorSum, h n (Nat.lt_succ_self n), ih (fun k hk => h k (Nat.lt_succ_of_lt hk)),
      Nat.xor_self]

theorem xorSum_add (w : ℕ → ℕ) (m n : ℕ) :
    xorSum w (m + n) = xorSum w m ^^^ xorSum (fun k => w (m + k)) n := by
  induction n with
  | zero => rw [Nat.add_zero, xorSum, Nat.xor_zero]
  | succ n ih => rw [← Nat.add_assoc, xorSum, ih, xorSum, Nat.xor_assoc]

theorem xorSum_stop (hmn : m ≤ n) (h : ∀ k, m ≤ k → w k = 0) : xorSum w n = xorSum w m := by
  obtain ⟨d, rfl⟩ := Nat.exists_eq_add_of_le hmn
  rw [xorSum_add, xorSum_zero (fun k _ => h (m + k) (Nat.le_add_right m k)), Nat.xor_zero]

theorem xorSum_start (hmn : m ≤ n) (h : ∀ k, k < m → w k = 0) :
    xorSum w n = xorSum (fun k => w (m + k)) (n - m) := by
  obtain ⟨d, rfl⟩ := Nat.exists_eq_add_of_le hmn
  rw [xorSum_add, xorSum_zero h, Nat.zero_xor, Nat.add_sub_cancel_left]

theorem xorSum_update (hk : k < n) (hx : w' k = w k ^^^ x) (h : ∀ j, j ≠ k → w' j = w j) :
    xorSum w' n = xorSum w n ^^^ x := by
  induction n with
  | zero => omega
  | succ n ih =>
    rw [xorSum, xorSum]
    rcases Nat.lt_or_ge k n with hlt | hge
    · rw [ih hlt, h n (by omega), Nat.xor_assoc, Nat.xor_assoc, Nat.xor_comm x]
    · have heq : k = n := by omega
      subst heq
      rw [xorSum_congr (fun j hj => h j (by omega)), hx, Nat.xor_assoc]

theorem xorSum_drop (hmn : m ≤ n) (hlow : ∀ k, k < m → w' k = 0)
    (hhigh : ∀ k, m ≤ k → w' k = w k) : xorSum w' n = xorSum w n ^^^ xorSum w m := by
  obtain ⟨d, rfl⟩ := Nat.exists_eq_add_of_le hmn
  have htail : xorSum (fun k => w' (m + k)) d = xorSum (fun k => w (m + k)) d :=
    xorSum_congr (fun k _ => hhigh (m + k) (Nat.le_add_right m k))
  calc xorSum w' (m + d)
      = xorSum (fun k => w (m + k)) d := by rw [xorSum_add, xorSum_zero hlow, Nat.zero_xor, htail]
    _ = xorSum w m ^^^ xorSum w m ^^^ xorSum (fun k => w (m + k)) d := by
        rw [Nat.xor_self, Nat.zero_xor]
    _ = xorSum w (m + d) ^^^ xorSum w m := by
        rw [xorSum_add, Nat.xor_comm (xorSum w m ^^^ _) (xorSum w m), Nat.xor_assoc]

theorem foldr_range (w : ℕ → ℕ) (n : ℕ) :
    ((List.range n).map w).foldr (· ^^^ ·) 0 = xorSum w n := by
  have hinit : ∀ (l : List ℕ) (a : ℕ), l.foldr (· ^^^ ·) a = l.foldr (· ^^^ ·) 0 ^^^ a := by
    intro l a
    induction l with
    | nil => rw [foldr_nil, foldr_nil, Nat.zero_xor]
    | cons b l ih => rw [foldr_cons, foldr_cons, ih, Nat.xor_assoc]
  induction n with
  | zero => rfl
  | succ n ih =>
    rw [range_succ, map_append, foldr_append, hinit, ih, xorSum]
    simp

end XorSum
