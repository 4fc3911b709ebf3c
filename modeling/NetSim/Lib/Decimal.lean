import Mathlib

/-! # Numbers as decimal text

`showInt` is a whole number as a stream prints it; `atoi` and `atof` read the number at the beginning of a text
and ignore what follows. A number that is printed is read as it was (`atoi_showInt`).
-/

namespace Decimal

open List

def isSpace (c : Char) : Bool := c = ' ' || (9 ≤ c.toNat && c.toNat ≤ 13)

def signed : List Char → ℤ × List Char
  | '-' :: l => (-1, l)
  | '+' :: l => (1, l)
  | l => (1, l)

def digits (l : List Char) : ℕ := Nat.ofDigitChars 10 (l.takeWhile Char.isDigit) 0

def atoi (l : List Char) : ℤ :=
  let r := signed (l.dropWhile isSpace)
  r.1 * digits r.2

def atof (l : List Char) : ℚ :=
  let r := signed (l.dropWhile isSpace)
  let whole := r.2.takeWhile Char.isDigit
  let frac :=
    match r.2.dropWhile Char.isDigit with
    | '.' :: l => l.takeWhile Char.isDigit
    | _ => []
  let rest :=
    match r.2.dropWhile Char.isDigit with
    | '.' :: l => l.dropWhile Char.isDigit
    | l => l
  let exponent : ℤ :=
    match rest with
    | c :: l => if c = 'e' ∨ c = 'E' then (signed l).1 * digits (signed l).2 else 0
    | [] => 0
  r.1 * digits (whole ++ frac) * 10 ^ (exponent - frac.length)

def showInt : ℤ → List Char
  | .ofNat n => Nat.toDigits 10 n
  | .negSucc n => '-' :: Nat.toDigits 10 (n + 1)

variable {c : Char} {n : ℕ} {z : ℤ}

theorem isDigit_of_mem (hc : c ∈ Nat.toDigits 10 n) : c.isDigit = true :=
  Nat.isDigit_of_mem_toDigits (by decide) (by decide) hc

theorem digits_toDigits (n : ℕ) : digits (Nat.toDigits 10 n) = n := by
  rw [digits, takeWhile_eq_self_iff.mpr (fun c hc => isDigit_of_mem hc), Nat.ofDigitChars_ten_toDigits]

/-- A digit is neither a space nor a sign. -/
theorem digit_plain (hc : c.isDigit = true) : isSpace c = false ∧ c ≠ '-' ∧ c ≠ '+' := by
  have hval : 48 ≤ c.toNat := by
    simp only [Char.isDigit, Bool.and_eq_true, decide_eq_true_eq] at hc
    exact hc.1
  refine ⟨?_, ?_, ?_⟩
  · rw [isSpace, Bool.or_eq_false_iff]
    refine ⟨decide_eq_false ?_, ?_⟩
    · rintro rfl
      exact absurd hval (by decide)
    · simp only [Bool.and_eq_false_iff, decide_eq_false_iff_not]
      omega
  · rintro rfl
    exact absurd hval (by decide)
  · rintro rfl
    exact absurd hval (by decide)

theorem atoi_digits {l : List Char} (hne : l ≠ []) (hl : ∀ c ∈ l, c.isDigit = true) : atoi l = digits l := by
  obtain ⟨c, l, rfl⟩ := exists_cons_of_ne_nil hne
  obtain ⟨hspace, hminus, hplus⟩ := digit_plain (hl c mem_cons_self)
  rw [atoi, dropWhile_cons_of_neg (by simp [hspace]), signed]
  · simp
  · rintro l' heq
    exact hminus (cons.inj heq).1
  · rintro l' heq
    exact hplus (cons.inj heq).1

/-- **What was printed is read.** -/
theorem atoi_showInt (z : ℤ) : atoi (showInt z) = z := by
  cases z with
  | ofNat n =>
    rw [showInt, atoi_digits Nat.toDigits_ne_nil (fun c hc => isDigit_of_mem hc), digits_toDigits]
    rfl
  | negSucc n =>
    have hspace : isSpace '-' = false := by decide
    rw [showInt, atoi, dropWhile_cons_of_neg (by simp [hspace]), signed]
    simp only [digits_toDigits]
    omega

theorem showInt_ne_nil (z : ℤ) : showInt z ≠ [] := by
  cases z with
  | ofNat n => exact Nat.toDigits_ne_nil
  | negSucc n => exact cons_ne_nil _ _

theorem mem_showInt (hc : c ∈ showInt z) : c.isDigit = true ∨ c = '-' := by
  cases z with
  | ofNat n => exact .inl (isDigit_of_mem hc)
  | negSucc n => exact (mem_cons.mp hc).symm.imp_left isDigit_of_mem

theorem mem_showInt_natCast (hc : c ∈ showInt (n : ℤ)) : c.isDigit = true := isDigit_of_mem hc

example : atof ['1', '.', '5', 'e', '+', '0', '2'] = 150 := by decide +kernel

end Decimal
