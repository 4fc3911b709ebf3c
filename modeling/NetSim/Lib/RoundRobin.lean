import Mathlib.Data.List.Rotate

/-! # Round robin

A list whose head is served, and then stands at the end (`served`). Between two services of the same
element every other one is served once (`served_between`). A cursor that goes round the numbers below a
bound, and stops at those that some test picks out, serves them in this way (`around`).
-/

namespace RoundRobin

open List

variable {α : Type} {a s : α} {l mid : List α}

/-- The elements that are served in `n` rounds. -/
def served : ℕ → List α → List α
  | 0, _ => []
  | _ + 1, [] => []
  | n + 1, a :: l => a :: served n (l ++ [a])

theorem served_append (n : ℕ) (l m : List α) :
    served n (l ++ m) = l.take n ++ served (n - l.length) (m ++ l) := by
  induction l generalizing n m with
  | nil => simp
  | cons a l ih =>
    cases n with
    | zero => simp [served]
    | succ n => simp [served, ih]

/-- **Fairness**: between two services of `s` the other elements are served, in their order. -/
theorem served_between {n : ℕ} (hnodup : l.Nodup) (hserved : served n l = s :: mid ++ [s]) (hs : s ∉ mid) :
    l = s :: mid := by
  cases n with
  | zero => cases hserved
  | succ n =>
    cases l with
    | nil => cases hserved
    | cons a l =>
      obtain ⟨rfl, hmid⟩ : a = s ∧ served n (l ++ [a]) = mid ++ [s] := by simpa [served] using hserved
      have ha : a ∉ l := (nodup_cons.mp hnodup).1
      rw [served_append] at hmid
      cases hlen : n - l.length with
      | zero =>
        -- the second service would be one of the others
        rw [hlen, served, append_nil] at hmid
        have hlast : a ∈ l.take n := by simp [hmid]
        exact absurd (mem_of_mem_take hlast) ha
      | succ k =>
        rw [hlen, take_of_length_le (by omega), cons_append, served] at hmid
        have hsplit := append_eq_append_iff.mp hmid
        rcases hsplit with ⟨t, rfl, ht⟩ | ⟨t, rfl, ht⟩
        · cases t with
          | nil => simp
          | cons b t =>
            obtain rfl : a = b := by simpa using congrArg head? ht
            simp at hs
        · cases t with
          | nil => simp
          | cons b t =>
            obtain rfl : a = b := by simpa using congrArg head? ht
            simp at ha

/-! ## A cursor -/

/-- The numbers below `m` that the test picks out, from the cursor on. -/
def around (p : ℕ → Bool) (m cursor : ℕ) : List ℕ := ((range m).rotate cursor).filter p

variable {p : ℕ → Bool} {m cursor i : ℕ}

theorem nodup_around : (around p m cursor).Nodup := (nodup_rotate.mpr nodup_range).filter p

theorem mem_around : i ∈ around p m cursor ↔ i < m ∧ p i := by
  rw [around, mem_filter, mem_rotate, mem_range]

/-- The number at the cursor goes to the end. -/
theorem rotate_cursor (h : cursor < m) : ∃ t, (range m).rotate cursor = cursor :: t ∧
    (range m).rotate ((cursor + 1) % m) = t ++ [cursor] := by
  have hlen : cursor < (range m).length := by rwa [length_range]
  have hfirst : (range m).rotate cursor = cursor :: ((range m).drop (cursor + 1) ++ (range m).take cursor) := by
    rw [rotate_eq_drop_append_take hlen.le, drop_eq_getElem_cons hlen, getElem_range, cons_append]
  refine ⟨_, hfirst, ?_⟩
  have hmod := rotate_mod (range m) (cursor + 1)
  rw [length_range] at hmod
  calc (range m).rotate ((cursor + 1) % m) = (range m).rotate (cursor + 1) := hmod
    _ = ((range m).rotate cursor).rotate 1 := (rotate_rotate _ _ _).symm
    _ = _ := by rw [hfirst, rotate_cons_succ, rotate_zero]

theorem around_pick (h : cursor < m) (hp : p cursor) :
    ∃ t, around p m cursor = cursor :: t ∧ around p m ((cursor + 1) % m) = t ++ [cursor] := by
  obtain ⟨t, ht, hnext⟩ := rotate_cursor h
  exact ⟨t.filter p, by rw [around, ht, filter_cons_of_pos hp], by simp [around, hnext, hp]⟩

theorem around_skip (h : cursor < m) (hp : ¬ p cursor) :
    around p m ((cursor + 1) % m) = around p m cursor := by
  obtain ⟨t, ht, hnext⟩ := rotate_cursor h
  simp [around, ht, hnext, hp]

end RoundRobin
