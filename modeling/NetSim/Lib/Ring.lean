import Mathlib.Data.List.Rotate
import Mathlib.Data.Nat.ModEq
import Mathlib.Order.Interval.Set.Defs
import Mathlib.Data.Set.Function
import Mathlib.Logic.Function.Basic

/-! # Windows in a ring

An array that is indexed by an unbounded counter keeps the cell of index `i` in the slot `slot i`,
`i` modulo the length or masked by a power of two. On a window of indices that is shorter than the
array the slots are pairwise different (`injOn_mod`, `injOn_mask`), so within the window the array
behaves like a function of the index: a write to one cell leaves the others alone (`update_slot`),
and a loop of writes (`write`) leaves what it wrote (`write_slot`).

`Holds n cells i l` says that the cells from the index `i` on hold the list `l`, and `store` writes a
list into the ring (`Holds.store`).
-/

namespace Ring

open List

variable {α : Type} {slot : ℕ → ℕ} {lo hi i j n k : ℕ}

/-! ## Slots -/

theorem injOn_mod (h : hi < lo + n) : Set.InjOn (· % n) (Set.Icc lo hi) := by
  -- two indices with the same remainder differ by a multiple of `n`
  have key : ∀ i j, lo ≤ i → i ≤ j → j ≤ hi → i % n = j % n → i = j := by
    intro i j hi' hij hj heq
    have hdvd : n ∣ j - i := (Nat.modEq_iff_dvd' hij).mp heq
    have hzero : j - i = 0 := Nat.eq_zero_of_dvd_of_lt hdvd (by omega)
    omega
  rintro i ⟨hi1, hi2⟩ j ⟨hj1, hj2⟩ heq
  rcases le_total i j with hij | hij
  · exact key i j hi1 hij hj2 heq
  · exact (key j i hj1 hij hi2 heq.symm).symm

theorem injOn_mask {mask : ℕ} (hmask : mask + 1 = 2 ^ k) (h : hi ≤ lo + mask) :
    Set.InjOn (· &&& mask) (Set.Icc lo hi) := by
  have heq : (fun i : ℕ => i &&& mask) = (· % 2 ^ k) := by
    funext i
    rw [show mask = 2 ^ k - 1 by omega, Nat.and_two_pow_sub_one_eq_mod]
  rw [heq]
  exact injOn_mod (by omega)

theorem update_slot (hinj : Set.InjOn slot (Set.Icc lo hi)) (cells : ℕ → α) (a : α)
    (hi1 : lo ≤ i) (hi2 : i ≤ hi) (hj1 : lo ≤ j) (hj2 : j ≤ hi) :
    Function.update cells (slot i) a (slot j) = if j = i then a else cells (slot j) := by
  split
  · rename_i heq
    rw [heq, Function.update_self]
  · rename_i hne
    refine Function.update_of_ne (fun heq => hne ?_) _ _
    exact hinj ⟨hj1, hj2⟩ ⟨hi1, hi2⟩ heq

/-! ## Loops -/

/-- Write `val i` to the cell of `i`, for `n` indices from `i` on. -/
def write (slot : ℕ → ℕ) (val : ℕ → α) : ℕ → ℕ → (ℕ → α) → ℕ → α
  | 0, _, cells => cells
  | n + 1, i, cells => write slot val n (i + 1) (Function.update cells (slot i) (val i))

theorem write_slot (hinj : Set.InjOn slot (Set.Icc lo hi)) (val : ℕ → α) (cells : ℕ → α)
    (hi1 : lo ≤ i) (hi2 : i + n ≤ hi + 1) (hj1 : lo ≤ j) (hj2 : j ≤ hi) :
    write slot val n i cells (slot j) =
      if i ≤ j ∧ j < i + n then val j else cells (slot j) := by
  induction n generalizing i cells with
  | zero => rw [write, if_neg (by omega)]
  | succ n ih =>
    rw [write, ih _ (by omega) (by omega),
      update_slot hinj cells (val i) hi1 (by omega) hj1 hj2]
    by_cases hji : j = i
    · rw [if_neg (by omega), if_pos hji, if_pos (by omega), hji]
    · rw [if_neg hji]
      exact if_congr (by omega) rfl rfl

/-! ## Lists in a ring -/

/-- The cells from the index `i` on hold the list. -/
def Holds (n : ℕ) (cells : ℕ → α) : ℕ → List α → Prop
  | _, [] => True
  | i, a :: l => cells (i % n) = a ∧ Holds n cells (i + 1) l

/-- Write a list to the cells from the position `pos` on. -/
def store (n : ℕ) : List α → ℕ → (ℕ → α) → ℕ → α
  | [], _, cells => cells
  | a :: l, pos, cells => store n l ((pos + 1) % n) (Function.update cells pos a)

section Holds

variable {cells cells' : ℕ → α} {l r p : List α} {a : α}

theorem holds_append :
    Holds n cells i (l ++ r) ↔ Holds n cells i l ∧ Holds n cells (i + l.length) r := by
  induction l generalizing i with
  | nil => simp [Holds]
  | cons a l ih =>
    have hlen : i + (a :: l).length = i + 1 + l.length := by
      rw [length_cons]
      omega
    rw [cons_append, Holds, Holds, ih, hlen, and_assoc]

theorem holds_iff : Holds n cells i l ↔ ∀ k (hk : k < l.length), cells ((i + k) % n) = l[k] := by
  induction l generalizing i with
  | nil => simp [Holds]
  | cons a l ih =>
    rw [Holds, ih]
    constructor
    · rintro ⟨h0, h⟩ k hk
      cases k with
      | zero => exact h0
      | succ k =>
        have := h k (by simpa using hk)
        rw [show i + (k + 1) = i + 1 + k by omega]
        simpa using this
    · intro h
      refine ⟨h 0 (by simp), fun k hk => ?_⟩
      have := h (k + 1) (by simpa using hk)
      rw [show i + 1 + k = i + (k + 1) by omega]
      simpa using this

theorem Holds.congr (h : Holds n cells i l)
    (heq : ∀ k, k < l.length → cells' ((i + k) % n) = cells ((i + k) % n)) : Holds n cells' i l := by
  rw [holds_iff] at h ⊢
  intro k hk
  rw [heq k hk, h k hk]

theorem holds_mod (h : i % n = j % n) : Holds n cells i l ↔ Holds n cells j l := by
  rw [holds_iff, holds_iff]
  have heq : ∀ k, (i + k) % n = (j + k) % n := fun k => Nat.ModEq.add_right k h
  simp only [heq]

theorem mod_ne (hij : i < j) (hj : j < i + n) : i % n ≠ j % n := by
  intro heq
  have hinj : Set.InjOn (· % n) (Set.Icc i j) := injOn_mod hj
  have := hinj ⟨le_rfl, hij.le⟩ ⟨hij.le, le_rfl⟩ heq
  omega

theorem Holds.update (h : Holds n cells i l) (hj1 : i + l.length ≤ j) (hj2 : j < i + n) (a : α) :
    Holds n (Function.update cells (j % n) a) i l := by
  refine h.congr (fun k hk => Function.update_of_ne ?_ _ _)
  exact mod_ne (by omega) (by omega)

theorem Holds.concat (h : Holds n cells i l) (ha : cells ((i + l.length) % n) = a) :
    Holds n cells i (l ++ [a]) := holds_append.mpr ⟨h, ha, trivial⟩

/-- **Writing a list** between two lists that fit into the ring with it. -/
theorem Holds.store {items : List α} (hp : Holds n cells i p)
    (hr : Holds n cells (i + p.length + items.length) r)
    (hlen : p.length + items.length + r.length ≤ n) :
    Holds n (store n items ((i + p.length) % n) cells) i (p ++ items ++ r) := by
  induction items generalizing p cells with
  | nil =>
    rw [Ring.store, append_nil]
    exact holds_append.mpr ⟨hp, hr⟩
  | cons a items ih =>
    rw [length_cons] at hr hlen
    rw [Ring.store, Nat.mod_add_mod]
    have hp' : Holds n (Function.update cells ((i + p.length) % n) a) i (p ++ [a]) :=
      (hp.update le_rfl (by omega) a).concat (Function.update_self _ _ _)
    have hlen' : i + (p ++ [a]).length = i + p.length + 1 := by simp; omega
    have hr' : Holds n (Function.update cells ((i + p.length) % n) a)
        (i + (p ++ [a]).length + items.length) r := by
      rw [show (i + p.length) % n = (i + p.length + n) % n by rw [Nat.add_mod_right],
        hlen', show i + p.length + 1 + items.length = i + p.length + (items.length + 1) by omega]
      exact hr.update (by omega) (by omega) a
    have h := ih hp' hr' (by omega)
    rw [hlen'] at h
    simpa using h

theorem Holds.set (h : Holds n cells i l) (hlen : l.length ≤ n) (hk : k < l.length) (a : α) :
    Holds n (Function.update cells ((i + k) % n) a) i (l.set k a) := by
  rw [holds_iff] at h ⊢
  intro j hj
  rw [length_set] at hj
  rw [getElem_set]
  by_cases hjk : k = j
  · rw [if_pos hjk, hjk, Function.update_self]
  · rw [if_neg hjk, ← h j hj]
    refine Function.update_of_ne ?_ _ _
    rcases Nat.lt_or_gt_of_ne hjk with hlt | hlt
    · exact (mod_ne (by omega) (by omega)).symm
    · exact mod_ne (by omega) (by omega)

theorem holds_rotate (hlen : l.length + 1 = n) :
    Holds n cells i (a :: l) ↔ Holds n cells (i + 1) (l ++ [a]) := by
  have hlast : (i + 1 + l.length) % n = i % n := by
    rw [show i + 1 + l.length = i + n by omega, Nat.add_mod_right]
  rw [Holds, holds_append, Holds, hlast]
  constructor
  · rintro ⟨ha, hl⟩
    exact ⟨hl, ha, trivial⟩
  · rintro ⟨hl, ha, -⟩
    exact ⟨ha, hl⟩

theorem Holds.perm (h : Holds n cells i l) (hlen : l.length = n) :
    l.Perm ((List.range n).map cells) := by
  have heq : l = ((List.range n).rotate i).map cells := by
    refine ext_getElem (by simp [hlen]) (fun k hk _ => ?_)
    rw [getElem_map, getElem_rotate, getElem_range, length_range, Nat.add_comm]
    exact (holds_iff.mp h k hk).symm
  rw [heq]
  exact (rotate_perm _ _).map _

end Holds

end Ring
