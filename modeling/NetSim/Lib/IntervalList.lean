import Mathlib

/-! # Sets of integers as lists of intervals

A finite set of integers is kept as a sorted list of half-open intervals `Block`, with a gap
between any two neighbours (`Separated`). Blocks may be empty. `Covers bs x` is membership, `size`
the number of members (`size_eq_card`), `truncate` removes everything below a bound, and
`Extends bs s e bs'` says that `bs'` is `bs` with `[s, e)` added.
-/

namespace IntervalList

open List

/-- The integers from `start` up to `stop`, without `stop`. -/
structure Block where
  start : ℤ
  stop : ℤ
deriving DecidableEq

/-- `x` is in one of the blocks. -/
def Covers (bs : List Block) (x : ℤ) : Prop := ∃ b ∈ bs, b.start ≤ x ∧ x < b.stop

instance (bs : List Block) (x : ℤ) : Decidable (Covers bs x) :=
  inferInstanceAs (Decidable (∃ b ∈ bs, b.start ≤ x ∧ x < b.stop))

/-- The blocks are in order, with a gap between neighbours. -/
structure Separated (bs : List Block) : Prop where
  le : ∀ b ∈ bs, b.start ≤ b.stop
  gap : bs.Pairwise (fun a b => a.stop < b.start)

def size (bs : List Block) : ℤ := (bs.map (fun b => b.stop - b.start)).sum

variable {bs l m r : List Block} {b : Block} {x s e c : ℤ}

@[simp] theorem covers_nil : ¬ Covers [] x := by simp [Covers]

@[simp] theorem covers_cons : Covers (b :: bs) x ↔ (b.start ≤ x ∧ x < b.stop) ∨ Covers bs x := by
  simp [Covers]

@[simp] theorem covers_append : Covers (l ++ r) x ↔ Covers l x ∨ Covers r x := by
  simp [Covers, or_and_right, exists_or]

@[simp] theorem size_nil : size [] = 0 := rfl

@[simp] theorem size_cons : size (b :: bs) = (b.stop - b.start) + size bs := by
  simp [size]

@[simp] theorem size_append : size (l ++ r) = size l + size r := by
  simp [size]

/-! ## Separated lists -/

theorem separated_nil : Separated [] := ⟨by simp, List.Pairwise.nil⟩

theorem separated_append : Separated (l ++ r) ↔
    Separated l ∧ Separated r ∧ ∀ a ∈ l, ∀ b ∈ r, a.stop < b.start := by
  constructor
  · intro h
    obtain ⟨h1, h2, h3⟩ := pairwise_append.mp h.gap
    exact ⟨⟨fun b hb => h.le b (by simp [hb]), h1⟩, ⟨fun b hb => h.le b (by simp [hb]), h2⟩, h3⟩
  · rintro ⟨h1, h2, h3⟩
    refine ⟨fun b hb => ?_, pairwise_append.mpr ⟨h1.gap, h2.gap, h3⟩⟩
    rcases mem_append.mp hb with hb | hb
    · exact h1.le b hb
    · exact h2.le b hb

theorem separated_cons : Separated (b :: bs) ↔
    b.start ≤ b.stop ∧ Separated bs ∧ ∀ a ∈ bs, b.stop < a.start := by
  constructor
  · intro h
    obtain ⟨h1, h2⟩ := pairwise_cons.mp h.gap
    exact ⟨h.le b (by simp), ⟨fun a ha => h.le a (by simp [ha]), h2⟩, h1⟩
  · rintro ⟨h1, h2, h3⟩
    refine ⟨fun a ha => ?_, pairwise_cons.mpr ⟨h3, h2.gap⟩⟩
    rcases mem_cons.mp ha with rfl | ha
    · exact h1
    · exact h2.le a ha

theorem Separated.sublist {bs' : List Block} (h : Separated bs) (hs : bs'.Sublist bs) :
    Separated bs' :=
  ⟨fun b hb => h.le b (hs.subset hb), h.gap.sublist hs⟩

noncomputable def points (bs : List Block) : Finset ℤ := bs.foldr (fun b p => Finset.Ico b.start b.stop ∪ p) ∅

theorem mem_points : x ∈ points bs ↔ Covers bs x := by
  induction bs with
  | nil => simp [points]
  | cons b bs ih =>
    rw [covers_cons, ← ih]
    simp [points]

theorem size_eq_card (h : Separated bs) : size bs = (points bs).card := by
  induction bs with
  | nil => rfl
  | cons b bs ih =>
    obtain ⟨hb, hbs, hgap⟩ := separated_cons.mp h
    have hdisj : Disjoint (Finset.Ico b.start b.stop) (points bs) := by
      rw [Finset.disjoint_left]
      intro x hx hm
      obtain ⟨a, ha, h1, -⟩ := mem_points.mp hm
      have := hgap a ha
      have := (Finset.mem_Ico.mp hx).2
      omega
    have hpoints : points (b :: bs) = Finset.Ico b.start b.stop ∪ points bs := rfl
    rw [size_cons, ih hbs, hpoints, Finset.card_union_of_disjoint hdisj, Int.card_Ico]
    omega

theorem size_le_of_range {lo hi : ℤ} (h : Separated bs) (hle : lo ≤ hi)
    (hlo : ∀ b ∈ bs, lo ≤ b.start) (hhi : ∀ b ∈ bs, b.stop ≤ hi) : size bs ≤ hi - lo := by
  induction bs generalizing lo with
  | nil =>
    rw [size_nil]
    omega
  | cons b bs ih =>
    obtain ⟨hb, hbs, hgap⟩ := separated_cons.mp h
    have h1 := hlo b (by simp)
    have h2 := hhi b (by simp)
    have h3 : size bs ≤ hi - b.stop :=
      ih hbs h2 (fun a ha => (hgap a ha).le) (fun a ha => hhi a (by simp [ha]))
    rw [size_cons]
    omega

/-! ## Removing everything below a bound -/

/-- Drop the blocks up to `c` and trim the one that reaches over it. -/
def truncate (c : ℤ) : List Block → List Block
  | [] => []
  | b :: bs =>
    if b.stop ≤ c then truncate c bs
    else if b.start ≤ c then ⟨c, b.stop⟩ :: bs
    else b :: bs

theorem separated_truncate (h : Separated bs) (c : ℤ) : Separated (truncate c bs) := by
  induction bs with
  | nil => exact separated_nil
  | cons b bs ih =>
    obtain ⟨hb, hbs, hgap⟩ := separated_cons.mp h
    unfold truncate
    split
    · exact ih hbs
    split
    · exact separated_cons.mpr ⟨by simp only; omega, hbs, hgap⟩
    · exact h

theorem covers_truncate (h : Separated bs) : Covers (truncate c bs) x ↔ Covers bs x ∧ c ≤ x := by
  induction bs with
  | nil => simp [truncate]
  | cons b bs ih =>
    obtain ⟨hb, hbs, hgap⟩ := separated_cons.mp h
    have hrest : c < b.stop → Covers bs x → c ≤ x := by
      rintro hc ⟨a, ha, h1, -⟩
      have := hgap a ha
      omega
    unfold truncate
    split
    case isTrue hstop =>
      rw [ih hbs, covers_cons]
      constructor
      · exact fun hx => ⟨Or.inr hx.1, hx.2⟩
      · rintro ⟨hx | hx, hc⟩
        · omega
        · exact ⟨hx, hc⟩
    case isFalse hstop =>
      have hrest' := hrest (by omega)
      split
      · rw [covers_cons, covers_cons]
        constructor
        · rintro (hx | hx)
          · have hcx : c ≤ x := hx.1
            exact ⟨Or.inl ⟨by omega, hx.2⟩, hcx⟩
          · exact ⟨Or.inr hx, hrest' hx⟩
        · rintro ⟨hx | hx, hc⟩
          · exact Or.inl ⟨hc, hx.2⟩
          · exact Or.inr hx
      · rw [covers_cons]
        constructor
        · rintro (hx | hx)
          · exact ⟨Or.inl hx, by omega⟩
          · exact ⟨Or.inr hx, hrest' hx⟩
        · exact fun hx => hx.1

/-- A block of the truncated list lies above the bound, or is the rest of the block that reaches
over it. -/
theorem mem_truncate (h : Separated bs) (hb : b ∈ truncate c bs) :
    (b ∈ bs ∧ c < b.start) ∨ (b.start = c ∧ ∃ a ∈ bs, a.start ≤ c ∧ c < a.stop ∧ b.stop = a.stop) := by
  induction bs with
  | nil => cases hb
  | cons a bs ih =>
    obtain ⟨ha, hbs, hgap⟩ := separated_cons.mp h
    have hrest : b ∈ bs → c < a.stop → c < b.start := fun hm hc => hc.trans (hgap b hm)
    unfold truncate at hb
    split at hb
    case isTrue hstop =>
      rcases ih hbs hb with ⟨hm, hc⟩ | ⟨hs, a', ha', h1⟩
      · exact Or.inl ⟨by simp [hm], hc⟩
      · exact Or.inr ⟨hs, a', by simp [ha'], h1⟩
    case isFalse hstop =>
      rw [not_le] at hstop
      split at hb
      case isTrue hstart =>
        rcases mem_cons.mp hb with rfl | hm
        · exact Or.inr ⟨rfl, a, by simp, hstart, hstop, rfl⟩
        · exact Or.inl ⟨by simp [hm], hrest hm hstop⟩
      case isFalse hstart =>
        rcases mem_cons.mp hb with rfl | hm
        · exact Or.inl ⟨by simp, not_le.mp hstart⟩
        · exact Or.inl ⟨by simp [hm], hrest hm hstop⟩

theorem Separated.eq_of_meet (h : Separated bs) {a a' : Block} (ha : a ∈ bs) (ha' : a' ∈ bs)
    (h1 : a.start ≤ a'.stop) (h2 : a'.start ≤ a.stop) : a = a' := by
  induction bs with
  | nil => cases ha
  | cons d bs ih =>
    obtain ⟨hd, hbs, hgap⟩ := separated_cons.mp h
    rcases mem_cons.mp ha with rfl | ha₀
    · rcases mem_cons.mp ha' with rfl | ha₁
      · rfl
      · have := hgap a' ha₁
        omega
    · rcases mem_cons.mp ha' with rfl | ha₁
      · have := hgap a ha₀
        omega
      · exact ih hbs ha₀ ha₁

/-- A bound up to which everything is covered does not lie behind a block that starts below it. -/
theorem Separated.le_stop (h : Separated bs) {a : Block} (ha : a ∈ bs) (hne : a.start < a.stop)
    {lo n : ℤ} (hlo : lo ≤ a.start) (hfilled : ∀ x, lo ≤ x → x < n → Covers bs x) :
    n ≤ a.stop := by
  by_contra hlt
  obtain ⟨a', ha', h1, h2⟩ := hfilled a.stop (by omega) (not_le.mp hlt)
  have heq : a = a' := h.eq_of_meet ha ha' (by omega) h1
  rw [← heq] at h2
  exact lt_irrefl _ h2

theorem nonempty_truncate (h : Separated bs) (hne : ∀ b ∈ bs, b.start < b.stop)
    (hb : b ∈ truncate c bs) : b.start < b.stop := by
  rcases mem_truncate h hb with ⟨hm, -⟩ | ⟨hs, a, -, -, hlt, heq⟩
  · exact hne b hm
  · rwa [hs, heq]

/-! ## Adding an interval -/

/-- `bs'` is `bs` with `[s, e)` added: nothing but the new interval moves a block to the left. -/
structure Extends (bs : List Block) (s e : ℤ) (bs' : List Block) : Prop where
  separated : Separated bs'
  covers : ∀ x, Covers bs' x ↔ Covers bs x ∨ (s ≤ x ∧ x < e)
  start : ∀ b' ∈ bs', b'.start = s ∨ ∃ b ∈ bs, b.start = b'.start

/-- **Merging** the blocks `m` with the new interval into one block `b`. -/
theorem Extends.merge (h : Separated (l ++ m ++ r)) (hb : b.start ≤ b.stop)
    (hl : ∀ a ∈ l, a.stop < b.start) (hr : ∀ a ∈ r, b.stop < a.start)
    (hm : ∀ x, (b.start ≤ x ∧ x < b.stop) ↔ Covers m x ∨ (s ≤ x ∧ x < e))
    (hs : b.start = s ∨ ∃ a ∈ m, a.start = b.start) :
    Extends (l ++ m ++ r) s e (l ++ b :: r) := by
  obtain ⟨hlm, hr', -⟩ := separated_append.mp h
  obtain ⟨hl', -, -⟩ := separated_append.mp hlm
  have hlr : ∀ a ∈ l, ∀ c ∈ r, a.stop < c.start :=
    fun a ha c hc => (separated_append.mp h).2.2 a (by simp [ha]) c hc
  refine ⟨?_, fun x => ?_, fun b' hb' => ?_⟩
  · refine separated_append.mpr ⟨hl', separated_cons.mpr ⟨hb, hr', hr⟩, fun a ha c hc => ?_⟩
    rcases mem_cons.mp hc with rfl | hc
    · exact hl a ha
    · exact hlr a ha c hc
  · rw [covers_append, covers_cons, covers_append, covers_append, hm x]
    tauto
  · rcases mem_append.mp hb' with hb' | hb'
    · exact Or.inr ⟨b', by simp [hb'], rfl⟩
    rcases mem_cons.mp hb' with rfl | hb'
    · rcases hs with hs | ⟨a, ha, hs⟩
      · exact Or.inl hs
      · exact Or.inr ⟨a, by simp [ha], hs⟩
    · exact Or.inr ⟨b', by simp [hb'], rfl⟩

theorem Extends.of_sublist {bs₀ bs' : List Block} (h : Extends bs₀ s e bs')
    (hsub : bs₀.Sublist bs) (hin : ∀ x, Covers bs x → Covers bs₀ x ∨ (s ≤ x ∧ x < e)) :
    Extends bs s e bs' where
  separated := h.separated
  covers x := by
    rw [h.covers]
    have hmono : Covers bs₀ x → Covers bs x := fun ⟨b, hb, hx⟩ => ⟨b, hsub.subset hb, hx⟩
    have := hin x
    tauto
  start b' hb' := (h.start b' hb').imp id (fun ⟨b, hb, heq⟩ => ⟨b, hsub.subset hb, heq⟩)

theorem Extends.refl (h : Separated bs) (hin : ∀ x, s ≤ x → x < e → Covers bs x) :
    Extends bs s e bs where
  separated := h
  covers x := ⟨Or.inl, fun hx => hx.elim id (fun hx => hin x hx.1 hx.2)⟩
  start b' hb' := Or.inr ⟨b', hb', rfl⟩

theorem Extends.nonempty {bs' : List Block} (h : Extends bs s e bs')
    (hbs : ∀ b ∈ bs, b.start < b.stop) (hse : s < e) : ∀ b ∈ bs', b.start < b.stop := by
  intro b hb
  have hcov : Covers bs' b.start := by
    rw [h.covers]
    rcases h.start b hb with hs | ⟨a, ha, hs⟩
    · exact Or.inr ⟨hs.ge, by omega⟩
    · exact Or.inl ⟨a, ha, hs.le, by rw [← hs]; exact hbs a ha⟩
  obtain ⟨a, ha, h1, h2⟩ := hcov
  have hle := h.separated.le b hb
  have heq : a = b := h.separated.eq_of_meet ha hb (by omega) h2.le
  rwa [heq] at h2

/-! ## Adding a point -/

section Point

variable {p c : Block}

theorem Extends.growRight (h : Separated (l ++ p :: r)) (hx : x = p.stop)
    (hr : ∀ a ∈ r, x + 1 < a.start) :
    Extends (l ++ p :: r) x (x + 1) (l ++ ⟨p.start, x + 1⟩ :: r) := by
  obtain ⟨-, hpr, hlp⟩ := separated_append.mp h
  obtain ⟨hp, -, -⟩ := separated_cons.mp hpr
  have hsplit : l ++ p :: r = l ++ [p] ++ r := by simp
  rw [hsplit] at h ⊢
  refine Extends.merge h (by dsimp only; omega) (fun a ha => hlp a ha p (by simp)) hr (fun y => ?_)
    (Or.inr ⟨p, by simp, rfl⟩)
  rw [covers_cons, iff_false_intro covers_nil, or_false]
  dsimp only
  omega

theorem Extends.growLeft (h : Separated (l ++ c :: r)) (hx : x + 1 = c.start)
    (hl : ∀ a ∈ l, a.stop < x) :
    Extends (l ++ c :: r) x (x + 1) (l ++ ⟨x, c.stop⟩ :: r) := by
  obtain ⟨-, hcr, -⟩ := separated_append.mp h
  obtain ⟨hc, -, hgap⟩ := separated_cons.mp hcr
  have hsplit : l ++ c :: r = l ++ [c] ++ r := by simp
  rw [hsplit] at h ⊢
  refine Extends.merge h (by dsimp only; omega) hl hgap (fun y => ?_) (Or.inl rfl)
  rw [covers_cons, iff_false_intro covers_nil, or_false]
  dsimp only
  omega

theorem Extends.join (h : Separated (l ++ p :: c :: r)) (hx : x = p.stop) (hx' : x + 1 = c.start) :
    Extends (l ++ p :: c :: r) x (x + 1) (l ++ ⟨p.start, c.stop⟩ :: r) := by
  obtain ⟨-, hpr, hlp⟩ := separated_append.mp h
  obtain ⟨hp, hcr, -⟩ := separated_cons.mp hpr
  obtain ⟨hc, -, hgap⟩ := separated_cons.mp hcr
  have hsplit : l ++ p :: c :: r = l ++ [p, c] ++ r := by simp
  rw [hsplit] at h ⊢
  refine Extends.merge h (by dsimp only; omega) (fun a ha => hlp a ha p (by simp)) hgap
    (fun y => ?_) (Or.inr ⟨p, by simp, rfl⟩)
  rw [covers_cons, covers_cons, iff_false_intro covers_nil, or_false]
  dsimp only
  omega

theorem Extends.single (h : Separated (l ++ r)) (hl : ∀ a ∈ l, a.stop < x)
    (hr : ∀ a ∈ r, x + 1 < a.start) : Extends (l ++ r) x (x + 1) (l ++ ⟨x, x + 1⟩ :: r) := by
  have hsplit : l ++ r = l ++ [] ++ r := by simp
  rw [hsplit] at h ⊢
  refine Extends.merge h (by dsimp only; omega) hl hr (fun y => ?_) (Or.inl rfl)
  rw [iff_false_intro covers_nil, false_or]

end Point

end IntervalList
