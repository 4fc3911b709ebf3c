import Mathlib

/-! # Loops over the cells of a list

A loop that goes through a list from left to right, rewrites the cells it passes and threads a
state. What one step does to a cell and the state is carried over to the whole loop: a property of
the cells (`walk_cells`), and a balance between quantities of the state and the sum of a weight over
the cells (`walk_balance`).
-/

namespace Walk

open List

variable {α σ δ : Type}

def walk (f : α → σ → α × σ) : List α → σ → List α × σ
  | [], s => ([], s)
  | a :: l, s => ((f a s).1 :: (walk f l (f a s).2).1, (walk f l (f a s).2).2)

def total (w : α → δ → ℤ) (l : List α) (d : δ) : ℤ := (l.map (fun a => w a d)).sum

@[simp] theorem total_nil (w : α → δ → ℤ) (d : δ) : total w [] d = 0 := rfl

@[simp] theorem total_cons (w : α → δ → ℤ) (a : α) (l : List α) (d : δ) :
    total w (a :: l) d = w a d + total w l d := rfl

@[simp] theorem total_append (w : α → δ → ℤ) (l r : List α) (d : δ) :
    total w (l ++ r) d = total w l d + total w r d := by
  simp [total]

theorem total_nonneg {w : α → δ → ℤ} (h : ∀ a d, 0 ≤ w a d) (l : List α) (d : δ) :
    0 ≤ total w l d := by
  induction l with
  | nil => exact Int.le_refl 0
  | cons a l ih => exact Int.add_nonneg (h a d) ih

variable {f : α → σ → α × σ} {P Q : α → Prop} {l : List α} {s : σ}

theorem walk_cells (hstep : ∀ a s, P a → Q (f a s).1) (hl : ∀ a ∈ l, P a) :
    ∀ a ∈ (walk f l s).1, Q a := by
  induction l generalizing s with
  | nil => simp [walk]
  | cons a l ih =>
    intro b hb
    rcases mem_cons.mp hb with rfl | hb
    · exact hstep a s (hl a mem_cons_self)
    · exact ih (fun b hb => hl b (mem_cons_of_mem a hb)) b hb

/-- **The rule for balances**: when every step changes the quantity `v` of the state by as much as
the weight of its cell, then so does the loop by as much as the total. The weight may be another one
after the step. -/
theorem walk_balance {v : σ → δ → ℤ} {w u : α → δ → ℤ}
    (hstep : ∀ a s, P a → ∀ d, v (f a s).2 d - u (f a s).1 d = v s d - w a d)
    (hl : ∀ a ∈ l, P a) (d : δ) :
    v (walk f l s).2 d - total u (walk f l s).1 d = v s d - total w l d := by
  induction l generalizing s with
  | nil => rfl
  | cons a l ih =>
    have hhead := hstep a s (hl a mem_cons_self) d
    have htail := @ih (f a s).2 (fun b hb => hl b (mem_cons_of_mem a hb))
    rw [walk, total_cons, total_cons]
    dsimp only
    omega

end Walk
