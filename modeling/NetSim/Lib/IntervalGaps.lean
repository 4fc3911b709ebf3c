import NetSim.Lib.IntervalList
import NetSim.Lib.MaximalRuns

/-! # Lists of intervals that lose points

`Without bs x bs'` says that `bs'` is `bs` without the integer `x`. When none of the blocks is empty, a
block loses its first or its last integer, disappears, or is split in two (`without_first`, `without_last`,
`without_only`, `without_middle`), and the blocks are the maximal runs of the set (`Proper.maximalRun`).
-/

namespace IntervalList

open List

/-- Separated blocks that are not empty. -/
structure Proper (bs : List Block) : Prop where
  separated : Separated bs
  lt : ∀ b ∈ bs, b.start < b.stop

/-- `bs'` is `bs` without `x`. -/
structure Without (bs : List Block) (x : ℤ) (bs' : List Block) : Prop where
  proper : Proper bs'
  covers : ∀ y, Covers bs' y ↔ Covers bs y ∧ y ≠ x

variable {bs l m r : List Block} {b : Block} {x : ℤ}

theorem proper_nil : Proper [] := ⟨separated_nil, fun _ hb => absurd hb not_mem_nil⟩

theorem Proper.middle (h : Proper (l ++ b :: r)) :
    b.start < b.stop ∧ Proper l ∧ Proper r ∧ (∀ a ∈ l, a.stop < b.start) ∧ (∀ a ∈ r, b.stop < a.start) ∧
      ∀ a ∈ l, ∀ c ∈ r, a.stop < c.start := by
  obtain ⟨hl, hbr, hgap⟩ := separated_append.mp h.separated
  obtain ⟨-, hr, hgap'⟩ := separated_cons.mp hbr
  refine ⟨h.lt b (by simp), ⟨hl, fun a ha => h.lt a (by simp [ha])⟩,
    ⟨hr, fun a ha => h.lt a (by simp [ha])⟩, ?_, hgap', ?_⟩
  · exact fun a ha => hgap a ha b mem_cons_self
  · exact fun a ha c hc => hgap a ha c (mem_cons_of_mem b hc)

theorem Proper.replace (h : Proper (l ++ b :: r)) (hm : Proper m)
    (hin : ∀ a ∈ m, b.start ≤ a.start ∧ a.stop ≤ b.stop) : Proper (l ++ m ++ r) := by
  obtain ⟨hb, hl, hr, hlb, hbr, hlr⟩ := h.middle
  constructor
  · refine separated_append.mpr ⟨separated_append.mpr ⟨hl.separated, hm.separated, ?_⟩,
      hr.separated, ?_⟩
    · intro a ha c hc
      exact (hlb a ha).trans_le (hin c hc).1
    · intro a ha c hc
      rcases mem_append.mp ha with ha | ha
      · exact hlr a ha c hc
      · exact (hin a ha).2.trans_lt (hbr c hc)
  · intro a ha
    rcases mem_append.mp ha with ha | ha
    · rcases mem_append.mp ha with ha | ha
      · exact hl.lt a ha
      · exact hm.lt a ha
    · exact hr.lt a ha

theorem Proper.not_covers (h : Proper (l ++ b :: r)) (hx : b.start ≤ x) (hx' : x < b.stop) :
    ¬ Covers l x ∧ ¬ Covers r x := by
  obtain ⟨-, -, -, hlb, hbr, -⟩ := h.middle
  constructor
  · rintro ⟨a, ha, -, hlt⟩
    have := hlb a ha
    omega
  · rintro ⟨a, ha, hle, -⟩
    have := hbr a ha
    omega

theorem Proper.without (h : Proper (l ++ b :: r)) (hx : b.start ≤ x) (hx' : x < b.stop) (hm : Proper m)
    (hin : ∀ a ∈ m, b.start ≤ a.start ∧ a.stop ≤ b.stop)
    (hcov : ∀ y, Covers m y ↔ (b.start ≤ y ∧ y < b.stop) ∧ y ≠ x) :
    Without (l ++ b :: r) x (l ++ m ++ r) where
  proper := h.replace hm hin
  covers y := by
    obtain ⟨hl, hr⟩ := h.not_covers hx hx'
    have hly : Covers l y → y ≠ x := fun hc heq => hl (heq ▸ hc)
    have hry : Covers r y → y ≠ x := fun hc heq => hr (heq ▸ hc)
    rw [covers_append, covers_append, covers_append, covers_cons, hcov]
    tauto

theorem proper_singleton (h : b.start < b.stop) : Proper [b] := by
  constructor
  · exact separated_cons.mpr ⟨h.le, separated_nil, fun _ ha => absurd ha not_mem_nil⟩
  · intro a ha
    rw [mem_singleton.mp ha]
    exact h

theorem covers_singleton {y : ℤ} : Covers [b] y ↔ b.start ≤ y ∧ y < b.stop := by
  simp

theorem Proper.without_only (h : Proper (l ++ b :: r)) (hx : b.start = x) (hx' : b.stop = x + 1) :
    Without (l ++ b :: r) x (l ++ r) := by
  have hw := h.without (x := x) (m := []) (by omega) (by omega) proper_nil (by simp) (fun y => ?_)
  · rw [append_nil] at hw
    exact hw
  · rw [iff_false_left covers_nil]
    omega

theorem Proper.without_first (h : Proper (l ++ b :: r)) (hx : b.start = x) (hx' : x + 1 < b.stop) :
    Without (l ++ b :: r) x (l ++ ⟨x + 1, b.stop⟩ :: r) := by
  have hw := h.without (x := x) (m := [⟨x + 1, b.stop⟩]) (by omega) (by omega)
    (proper_singleton hx') ?_ (fun y => ?_)
  · rw [append_assoc] at hw
    exact hw
  · intro a ha
    rw [mem_singleton.mp ha]
    exact ⟨by dsimp only; omega, le_refl _⟩
  · rw [covers_singleton]
    dsimp only
    omega

theorem Proper.without_last (h : Proper (l ++ b :: r)) (hx : b.start < x) (hx' : b.stop = x + 1) :
    Without (l ++ b :: r) x (l ++ ⟨b.start, x⟩ :: r) := by
  have hw := h.without (x := x) (m := [⟨b.start, x⟩]) (by omega) (by omega)
    (proper_singleton hx) ?_ (fun y => ?_)
  · rw [append_assoc] at hw
    exact hw
  · intro a ha
    rw [mem_singleton.mp ha]
    exact ⟨le_refl _, by dsimp only; omega⟩
  · rw [covers_singleton]
    dsimp only
    omega

theorem Proper.without_middle (h : Proper (l ++ b :: r)) (hx : b.start < x) (hx' : x + 1 < b.stop) :
    Without (l ++ b :: r) x (l ++ ⟨b.start, x⟩ :: ⟨x + 1, b.stop⟩ :: r) := by
  have hpair : Proper [⟨b.start, x⟩, ⟨x + 1, b.stop⟩] := by
    constructor
    · refine separated_cons.mpr ⟨hx.le, (proper_singleton hx').separated, ?_⟩
      intro a ha
      rw [mem_singleton.mp ha]
      exact Int.lt_succ x
    · intro a ha
      rcases mem_cons.mp ha with rfl | ha
      · exact hx
      · rw [mem_singleton.mp ha]
        exact hx'
  have hw := h.without (x := x) (m := [⟨b.start, x⟩, ⟨x + 1, b.stop⟩]) (by omega) (by omega)
    hpair ?_ (fun y => ?_)
  · rw [append_assoc] at hw
    exact hw
  · intro a ha
    rcases mem_cons.mp ha with rfl | ha
    · exact ⟨le_refl _, by dsimp only; omega⟩
    · rw [mem_singleton.mp ha]
      exact ⟨by dsimp only; omega, le_refl _⟩
  · rw [covers_cons, covers_singleton]
    dsimp only
    omega

theorem Proper.concat (h : Proper bs) (hb : b.start < b.stop) (hgap : ∀ a ∈ bs, a.stop < b.start) :
    Proper (bs ++ [b]) := by
  constructor
  · refine separated_append.mpr ⟨h.separated, (proper_singleton hb).separated, ?_⟩
    intro a ha c hc
    rw [mem_singleton.mp hc]
    exact hgap a ha
  · intro a ha
    rcases mem_append.mp ha with ha | ha
    · exact h.lt a ha
    · rw [mem_singleton.mp ha]
      exact hb

theorem Proper.maximalRun (h : Proper bs) (hb : b ∈ bs) : MaximalRun (Covers bs) b.start b.stop := by
  obtain ⟨l, r, rfl⟩ := append_of_mem hb
  obtain ⟨hlt, -, -, hlb, hbr, -⟩ := h.middle
  have hcover : ∀ y, Covers (l ++ b :: r) y → ¬ (b.start ≤ y ∧ y < b.stop) →
      y < b.start - 1 ∨ b.stop < y := by
    intro y hy hout
    obtain ⟨a, ha, hle, hlt'⟩ := hy
    rcases mem_append.mp ha with ha | ha
    · have := hlb a ha
      exact .inl (by omega)
    · rcases mem_cons.mp ha with rfl | ha
      · exact absurd ⟨hle, hlt'⟩ hout
      · have := hbr a ha
        exact .inr (by omega)
  constructor
  · exact hlt
  · exact fun y hy hy' => ⟨b, hb, hy, hy'⟩
  · intro hc
    have := hcover _ hc (by omega)
    omega
  · intro hc
    have := hcover _ hc (by omega)
    omega

end IntervalList
