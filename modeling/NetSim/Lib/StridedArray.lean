import Mathlib

/-! # Matrices in an array

The cell `(i, j)` of a matrix with `n` columns is the cell `n * i + j` of an array. Two cells with
column numbers below `n` are different cells of the array (`index_inj`), so that a pair of nested loops
over a block of the matrix rewrites every cell of the block once and no other cell (`mapBlock_index`).
-/

namespace StridedArray

open Function List

def index (n i j : ℕ) : ℕ := n * i + j

variable {n k i j i' j' : ℕ}

theorem index_inj (hj : j < n) (hj' : j' < n) : index n i j = index n i' j' ↔ i = i' ∧ j = j' := by
  constructor
  · intro he
    have hn : 0 < n := by omega
    have hrow : ∀ a b : ℕ, b < n → index n a b / n = a := by
      intro a b hb
      rw [index, Nat.mul_add_div hn, Nat.div_eq_of_lt hb, Nat.add_zero]
    have hi : i = i' := by rw [← hrow i j hj, ← hrow i' j' hj', he]
    subst hi
    exact ⟨rfl, Nat.add_left_cancel he⟩
  · rintro ⟨rfl, rfl⟩
    rfl

theorem index_lt {m : ℕ} (hi : i < m) (hj : j < n) : index n i j < m * n := by
  have hrow : n * i + n ≤ m * n := by
    calc n * i + n = (i + 1) * n := by ring
      _ ≤ m * n := Nat.mul_le_mul_right n hi
  unfold index
  omega

variable {α : Type}

def mapRow (f : ℕ → ℕ → α → α) (n i : ℕ) (cols : List ℕ) (a : ℕ → α) : ℕ → α :=
  cols.foldl (fun a j => update a (index n i j) (f i j (a (index n i j)))) a

/-- Rewrite the cells of the first `k` rows and columns. -/
def mapBlock (f : ℕ → ℕ → α → α) (k n : ℕ) (a : ℕ → α) : ℕ → α :=
  (List.range k).foldl (fun a i => mapRow f n i (List.range k) a) a

variable {f : ℕ → ℕ → α → α} {a : ℕ → α}

theorem mapRow_index (cols : List ℕ) (hcols : ∀ j ∈ cols, j < n) (hnd : cols.Nodup) (a : ℕ → α)
    (hj : j < n) :
    mapRow f n i' cols a (index n i j) =
      if i = i' ∧ j ∈ cols then f i j (a (index n i j)) else a (index n i j) := by
  induction cols generalizing a with
  | nil => simp [mapRow]
  | cons c cols ih =>
    obtain ⟨hc, hnd'⟩ := nodup_cons.mp hnd
    have hcn : c < n := hcols c mem_cons_self
    have hrest := ih (fun x hx => hcols x (mem_cons_of_mem c hx)) hnd'
      (update a (index n i' c) (f i' c (a (index n i' c))))
    refine hrest.trans ?_
    by_cases he : i = i' ∧ j = c
    · obtain ⟨rfl, rfl⟩ := he
      rw [if_neg (fun h => hc h.2), if_pos ⟨rfl, mem_cons_self⟩, update_self]
    · have hne : index n i j ≠ index n i' c := fun h => he ((index_inj hj hcn).mp h)
      have hmem : i = i' ∧ j ∈ c :: cols ↔ i = i' ∧ j ∈ cols := by
        rw [mem_cons]
        tauto
      rw [update_of_ne hne]
      exact if_congr hmem.symm rfl rfl

theorem mapBlock_index (hk : k ≤ n) (a : ℕ → α) (hj : j < n) :
    mapBlock f k n a (index n i j) =
      if i < k ∧ j < k then f i j (a (index n i j)) else a (index n i j) := by
  have hrows : ∀ (rows : List ℕ) (a : ℕ → α), rows.Nodup →
      rows.foldl (fun a i => mapRow f n i (List.range k) a) a (index n i j) =
        if i ∈ rows ∧ j < k then f i j (a (index n i j)) else a (index n i j) := by
    intro rows
    induction rows with
    | nil => simp
    | cons r rows ih =>
      intro a hnd
      obtain ⟨hr, hnd'⟩ := nodup_cons.mp hnd
      have hrow := @mapRow_index n i j r α f (List.range k)
        (fun x hx => (mem_range.mp hx).trans_le hk) nodup_range a hj
      rw [foldl_cons, ih _ hnd', hrow]
      by_cases hir : i = r
      · subst hir
        simp [hr]
      · simp [hir]
  rw [mapBlock, hrows _ a nodup_range]
  simp only [mem_range]

end StridedArray
