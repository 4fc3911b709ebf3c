import Mathlib.Data.Int.Order.Basic

/-! # Maximal runs of a set of integers

`MaximalRun R l r` says that `[l, r)` lies in the set `R` and cannot be extended to either side. A
maximal run absorbs every interval of the set that it meets (`absorbs`), so two of them are equal
or lie apart (`eq_or_apart`), and a new element leaves alone those that it does not touch
(`insert`).
-/

/-- `[l, r)` is not empty, lies in `R`, and neither neighbour does. -/
structure MaximalRun (R : ℤ → Prop) (l r : ℤ) : Prop where
  lt : l < r
  mem : ∀ x, l ≤ x → x < r → R x
  before : ¬ R (l - 1)
  after : ¬ R r

namespace MaximalRun

variable {R R' : ℤ → Prop} {l r l' r' x : ℤ}

theorem absorbs (h : MaximalRun R l r) (hR : ∀ x, l' ≤ x → x < r' → R x) (hx : l ≤ x) (hx' : x < r)
    (hm : l' ≤ x) (hm' : x < r') : l ≤ l' ∧ r' ≤ r := by
  constructor
  · by_contra hlt
    exact h.before (hR (l - 1) (by omega) (by omega))
  · by_contra hlt
    exact h.after (hR r (by omega) (by omega))

theorem eq_or_apart (h : MaximalRun R l r) (h' : MaximalRun R l' r') :
    (l = l' ∧ r = r') ∨ r < l' ∨ r' < l := by
  by_cases hmeet : ∃ x, (l ≤ x ∧ x < r) ∧ l' ≤ x ∧ x < r'
  · obtain ⟨x, ⟨h1, h2⟩, h3, h4⟩ := hmeet
    have := h.absorbs h'.mem h1 h2 h3 h4
    have := h'.absorbs h.mem h3 h4 h1 h2
    exact Or.inl (by omega)
  · -- they do not meet, and they do not touch: the end of one is not in the other
    refine Or.inr ?_
    have hlt := h.lt
    have hlt' := h'.lt
    have h1 : ¬ (l ≤ l' ∧ l' < r) := fun hc => hmeet ⟨l', hc, le_rfl, hlt'⟩
    have h2 : ¬ (l' ≤ l ∧ l < r') := fun hc => hmeet ⟨l, ⟨le_rfl, hlt⟩, hc⟩
    have h3 : r ≠ l' := fun heq => h.after (h'.mem r (by omega) (by omega))
    have h4 : r' ≠ l := fun heq => h'.after (h.mem r' (by omega) (by omega))
    omega

theorem congr (h : MaximalRun R l r) (hR : ∀ x, R' x ↔ R x) : MaximalRun R' l r where
  lt := h.lt
  mem x hx hx' := (hR x).mpr (h.mem x hx hx')
  before hc := h.before ((hR _).mp hc)
  after hc := h.after ((hR _).mp hc)

theorem insert (h : MaximalRun R l r) (hl : x ≠ l - 1) (hr : x ≠ r) :
    MaximalRun (fun y => R y ∨ y = x) l r where
  lt := h.lt
  mem y hy hy' := Or.inl (h.mem y hy hy')
  before hc := hc.elim h.before (fun heq => hl heq.symm)
  after hc := hc.elim h.after (fun heq => hr heq.symm)

end MaximalRun
