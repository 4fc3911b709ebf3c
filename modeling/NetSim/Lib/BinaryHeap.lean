import Mathlib.Data.List.Perm.Basic
import Mathlib.Data.List.Range
import Mathlib.Order.Defs.LinearOrder
import Mathlib.Tactic

/-! # Binary heaps in an array

The order of a binary heap stored level by level in an array, and how it survives the moves of
a sift. An array is a function `a : ℕ → α` read below a size `n`; the order is by a `rank` into
a linear order. Sifting is described with a *hole*: `HoleOrder rank a n i` says that `a` is in
heap order apart from the slot `i`, whose content does not matter. A hole can always move to its
parent (`HoleOrder.up`), and it can move to its smaller child when what fills it is larger than
that child (`DownOrder.down`).
-/

namespace BinaryHeap

open Function List

variable {α L : Type*} [LinearOrder L] (rank : α → L)

/-- The parent of the slot `i > 0`. -/
def par (i : ℕ) : ℕ := (i - 1) / 2

/-- The elements of the first `n` slots. -/
def slots (a : ℕ → α) (n : ℕ) : List α := (List.range n).map a

/-- Heap order: no element below its parent. -/
def Ordered (a : ℕ → α) (n : ℕ) : Prop :=
  ∀ j, 0 < j → j < n → rank (a (par j)) ≤ rank (a j)

/-- Heap order apart from the slot `i`: the edges that do not touch `i` are in order, and the
children of `i` are not below the parent of `i`. -/
structure HoleOrder (a : ℕ → α) (n i : ℕ) : Prop where
  off : ∀ j, 0 < j → j < n → j ≠ i → par j ≠ i → rank (a (par j)) ≤ rank (a j)
  grand : 0 < i → ∀ j, 0 < j → j < n → par j = i → rank (a (par i)) ≤ rank (a j)

/-- Heap order apart from the edges that leave the slot `i`. -/
structure DownOrder (a : ℕ → α) (n i : ℕ) : Prop extends HoleOrder rank a n i where
  above : 0 < i → i < n → rank (a (par i)) ≤ rank (a i)

/-! ## Slots -/

theorem par_lt {i : ℕ} (h : 0 < i) : par i < i := by unfold par; omega

theorem par_eq_iff {i j : ℕ} (hj : 0 < j) : par j = i ↔ j = 2 * i + 1 ∨ j = 2 * i + 2 := by
  unfold par; omega

theorem mem_slots {a : ℕ → α} {n : ℕ} {x : α} : x ∈ slots a n ↔ ∃ i, i < n ∧ a i = x := by
  simp [slots]

theorem slots_succ (a : ℕ → α) (n : ℕ) : slots a (n + 1) = slots a n ++ [a n] := by
  simp [slots, range_succ]

theorem slots_congr {a b : ℕ → α} {n : ℕ} (h : ∀ i, i < n → a i = b i) :
    slots a n = slots b n := by
  refine map_congr_left (fun i hi => h i ?_)
  simpa using hi

theorem slots_swap_perm (a : ℕ → α) {n i j : ℕ} (hi : i < n) (hj : j < n) :
    (slots (fun k => a (Equiv.swap i j k)) n).Perm (slots a n) := by
  have hmap : slots (fun k => a (Equiv.swap i j k)) n
      = ((List.range n).map (Equiv.swap i j)).map a := by simp [slots]
  rw [hmap]
  refine List.Perm.map a ?_
  refine (perm_ext_iff_of_nodup ?_ nodup_range).mpr (fun k => ?_)
  · exact nodup_range.map (Equiv.swap i j).injective
  · have hlt : ∀ k, k < n → Equiv.swap i j k < n := by
      intro k hk
      rcases eq_or_ne k i with rfl | hki
      · simpa using hj
      · rcases eq_or_ne k j with rfl | hkj
        · simpa using hi
        · rwa [Equiv.swap_apply_of_ne_of_ne hki hkj]
    simp only [mem_map, mem_range]
    constructor
    · rintro ⟨m, hm, rfl⟩
      exact hlt m hm
    · intro hk
      exact ⟨Equiv.swap i j k, hlt k hk, Equiv.swap_apply_self i j k⟩

/-- Writing `x` into slot `i` and then moving it to slot `j`, whose element goes to `i`. -/
theorem slots_move_perm (a : ℕ → α) (x : α) {n i j : ℕ} (hi : i < n) (hj : j < n) (hij : i ≠ j) :
    (slots (update (update a i (a j)) j x) n).Perm
      (slots (update a i x) n) := by
  have h := slots_swap_perm (update a i x) hi hj
  refine (List.Perm.of_eq (slots_congr (fun k _ => ?_))).trans h
  rcases eq_or_ne k j with rfl | hkj
  · simp
  · rcases eq_or_ne k i with rfl | hki
    · simp [hkj, Ne.symm hij]
    · simp [hki, hkj, Equiv.swap_apply_of_ne_of_ne hki hkj]

/-! ## The root -/

variable {rank}

theorem Ordered.root_le {a : ℕ → α} {n : ℕ} (h : Ordered rank a n) :
    ∀ i, i < n → rank (a 0) ≤ rank (a i) := by
  intro i
  induction i using Nat.strong_induction_on with
  | _ i ih =>
    intro hi
    rcases Nat.eq_zero_or_pos i with rfl | hpos
    · exact le_refl _
    · have hp := par_lt hpos
      exact (ih (par i) hp (by omega)).trans (h i hpos hi)

theorem Ordered.hole {a : ℕ → α} {n : ℕ} (h : Ordered rank a n) (i : ℕ) :
    HoleOrder rank a n i where
  off j hj hjn _ _ := h j hj hjn
  grand hi j hj hjn hpar := by
    have hin : i < n := by have := par_lt hj; omega
    have := h j hj hjn
    rw [hpar] at this
    exact (h i hi hin).trans this

/-! ## Moving a hole up -/

theorem HoleOrder.up {a : ℕ → α} {n i : ℕ} (h : HoleOrder rank a n i) (hi : 0 < i) (hin : i < n) :
    HoleOrder rank (update a i (a (par i))) n (par i) := by
  have hp := par_lt hi
  constructor
  · intro j hj hjn hji hpj
    have hj' : j ≠ i := fun hc => hpj (by rw [hc])
    rw [update_of_ne hj']
    rcases eq_or_ne (par j) i with hc | hc
    · rw [hc, update_self]; exact h.grand hi j hj hjn hc
    · rw [update_of_ne hc]; exact h.off j hj hjn hj' hc
  · intro hpi j hj hjn hpj
    have hpp : par (par i) ≠ i := by have := par_lt hpi; omega
    have hup : rank (a (par (par i))) ≤ rank (a (par i)) :=
      h.off (par i) hpi (by omega) (by omega) hpp
    rw [update_of_ne hpp]
    rcases eq_or_ne j i with rfl | hj'
    · rw [update_self]; exact hup
    · rw [update_of_ne hj']
      refine hup.trans ?_
      have hpj' : par j ≠ i := by omega
      have := h.off j hj hjn hj' hpj'
      rwa [hpj] at this

/-- The elements below a hole stay at or above `x` when the hole moves up past a larger one. -/
theorem HoleOrder.up_below {a : ℕ → α} {n i : ℕ} {x : α} (h : HoleOrder rank a n i) (hi : 0 < i)
    (hx : rank x < rank (a (par i))) (hb : ∀ j, 0 < j → j < n → par j = i → rank x ≤ rank (a j)) :
    ∀ j, 0 < j → j < n → par j = par i →
      rank x ≤ rank (update a i (a (par i)) j) := by
  intro j hj hjn hpj
  rcases eq_or_ne j i with rfl | hj'
  · rw [update_self]; exact hx.le
  · rw [update_of_ne hj']
    have hp := par_lt hi
    have := h.off j hj hjn hj' (by omega)
    rw [hpj] at this
    exact hx.le.trans this

/-- Filling a hole: the new element is not below its parent and not above its children. -/
theorem HoleOrder.fill {a : ℕ → α} {n i : ℕ} {x : α} (h : HoleOrder rank a n i)
    (hx : 0 < i → rank (a (par i)) ≤ rank x)
    (hb : ∀ j, 0 < j → j < n → par j = i → rank x ≤ rank (a j)) :
    Ordered rank (update a i x) n := by
  intro j hj hjn
  rcases eq_or_ne j i with rfl | hj'
  · have hne : par j ≠ j := by have := par_lt hj; omega
    rw [update_self, update_of_ne hne]
    exact hx hj
  · rw [update_of_ne hj']
    rcases eq_or_ne (par j) i with hc | hc
    · rw [hc, update_self]; exact hb j hj hjn hc
    · rw [update_of_ne hc]; exact h.off j hj hjn hj' hc

/-! ## Moving an element down -/

theorem HoleOrder.replace_root {a : ℕ → α} {n : ℕ} (h : HoleOrder rank a n 0) (x : α) :
    DownOrder rank (update a 0 x) n 0 where
  off j hj hjn hj0 hp := by
    rw [update_of_ne hj0, update_of_ne hp]
    exact h.off j hj hjn hj0 hp
  grand hi := absurd hi (lt_irrefl 0)
  above hi := absurd hi (lt_irrefl 0)

theorem HoleOrder.mono {a : ℕ → α} {n m i : ℕ} (h : HoleOrder rank a n i) (hm : m ≤ n) :
    HoleOrder rank a m i where
  off j hj hjm := h.off j hj (by omega)
  grand hi j hj hjm := h.grand hi j hj (by omega)

theorem DownOrder.down {a : ℕ → α} {n i x : ℕ} (h : DownOrder rank a n i) (hx0 : 0 < x)
    (hpx : par x = i) (hxn : x < n) (hlt : rank (a x) < rank (a i))
    (hmin : ∀ j, 0 < j → j < n → par j = i → rank (a x) ≤ rank (a j)) :
    DownOrder rank (fun k => a (Equiv.swap i x k)) n x := by
  have hix : i < x := by have := par_lt hx0; omega
  have hself : ∀ k, k ≠ i → k ≠ x → Equiv.swap i x k = k := fun k hk hk' =>
    Equiv.swap_apply_of_ne_of_ne hk hk'
  -- the element that moves up to `i` is not below the parent of `i`
  have hup : 0 < i → rank (a (par i)) ≤ rank (a x) := fun hi => h.grand hi x hx0 hxn hpx
  refine ⟨⟨?_, ?_⟩, ?_⟩
  · intro j hj hjn hjx hpj
    rcases eq_or_ne j i with rfl | hji
    · have hp := par_lt hj
      simp only [Equiv.swap_apply_left, hself (par j) (by omega) (by omega)]
      exact hup hj
    · rcases eq_or_ne (par j) i with hc | hc
      · simp only [hc, Equiv.swap_apply_left, hself j hji hjx]
        exact hmin j hj hjn hc
      · simp only [hself j hji hjx, hself (par j) hc hpj]
        exact h.off j hj hjn hji hc
  · intro _ j hj hjn hpj
    have hjx : x < j := by have := par_lt hj; omega
    simp only [hpx, Equiv.swap_apply_left, hself j (by omega) (by omega)]
    have := h.off j hj hjn (by omega) (by omega)
    rwa [hpj] at this
  · intro _ _
    simp only [hpx, Equiv.swap_apply_left, Equiv.swap_apply_right]
    exact hlt.le

theorem DownOrder.stop {a : ℕ → α} {n i : ℕ} (h : DownOrder rank a n i)
    (hmin : ∀ j, 0 < j → j < n → par j = i → rank (a i) ≤ rank (a j)) :
    Ordered rank a n := by
  intro j hj hjn
  rcases eq_or_ne (par j) i with hc | hc
  · rw [hc]; exact hmin j hj hjn hc
  · rcases eq_or_ne j i with rfl | hji
    · exact h.above hj hjn
    · exact h.off j hj hjn hji hc

end BinaryHeap
