import Mathlib

/-! # Tilings of a set

A list of sets tiles a set if its members are not empty, are disjoint, and make up the set (`Tiles`). A tile
may be added next to the set (`cons`), and a tile may be cut into smaller ones (`cut`): without one of its
elements, what is left of it tiles the set without that element (`cut_out`). An element lies in one tile
only (`unique`).
-/

/-- The sets of the list are not empty and disjoint, and their union is `S`. -/
structure Tiles {α : Type} (xs : List (Set α)) (S : Set α) : Prop where
  nonempty : ∀ x ∈ xs, x.Nonempty
  disjoint : xs.Pairwise Disjoint
  mem_iff : ∀ a, a ∈ S ↔ ∃ x ∈ xs, a ∈ x

namespace Tiles

open List

variable {α : Type} {xs ys l r : List (Set α)} {S T x y : Set α} {a : α}

theorem nil : Tiles ([] : List (Set α)) ∅ where
  nonempty _ hx := absurd hx not_mem_nil
  disjoint := Pairwise.nil
  mem_iff a := by simp

theorem subset (h : Tiles xs S) (hx : x ∈ xs) : x ⊆ S := fun a ha => (h.mem_iff a).mpr ⟨x, hx, ha⟩

theorem perm (h : Tiles xs S) (hp : xs.Perm ys) : Tiles ys S where
  nonempty x hx := h.nonempty x (hp.mem_iff.mpr hx)
  disjoint := (hp.pairwise_iff (fun hxy => Disjoint.symm hxy)).mp h.disjoint
  mem_iff a := by
    rw [h.mem_iff]
    exact exists_congr (fun x => and_congr_left (fun _ => hp.mem_iff))

theorem congr (h : Tiles xs S) (hST : ∀ a, a ∈ T ↔ a ∈ S) : Tiles xs T :=
  ⟨h.nonempty, h.disjoint, fun a => (hST a).trans (h.mem_iff a)⟩

/-- Two tilings side by side. -/
theorem append (h : Tiles xs S) (h' : Tiles ys T) (hST : Disjoint S T) : Tiles (xs ++ ys) (S ∪ T) where
  nonempty x hx := (mem_append.mp hx).elim (h.nonempty x) (h'.nonempty x)
  disjoint := pairwise_append.mpr
    ⟨h.disjoint, h'.disjoint, fun _ hx _ hy => hST.mono (h.subset hx) (h'.subset hy)⟩
  mem_iff a := by
    rw [Set.mem_union, h.mem_iff, h'.mem_iff]
    simp only [mem_append, or_and_right, exists_or]

theorem singleton (hx : x.Nonempty) : Tiles [x] x where
  nonempty y hy := by
    rw [mem_singleton.mp hy]
    exact hx
  disjoint := pairwise_singleton _ _
  mem_iff a := by simp

theorem cons (h : Tiles xs S) (hx : x.Nonempty) (hdisj : Disjoint x S) : Tiles (x :: xs) (x ∪ S) :=
  (singleton hx).append h hdisj

theorem tail (h : Tiles (x :: xs) S) : Tiles xs (S \ x) where
  nonempty y hy := h.nonempty y (mem_cons_of_mem _ hy)
  disjoint := (pairwise_cons.mp h.disjoint).2
  mem_iff a := by
    rw [Set.mem_sdiff, h.mem_iff]
    constructor
    · rintro ⟨⟨y, hy, ha⟩, hno⟩
      rcases mem_cons.mp hy with rfl | hy
      · exact absurd ha hno
      · exact ⟨y, hy, ha⟩
    · rintro ⟨y, hy, ha⟩
      have hdisj := (pairwise_cons.mp h.disjoint).1 y hy
      exact ⟨⟨y, mem_cons_of_mem _ hy, ha⟩, fun hax => Set.disjoint_left.mp hdisj hax ha⟩

/-- **Cutting a tile**: what tiles a part of it takes its place. -/
theorem cut (h : Tiles (x :: xs) S) (hys : Tiles ys T) (hT : T ⊆ x) : Tiles (ys ++ xs) (T ∪ S \ x) := by
  apply hys.append h.tail
  exact Set.disjoint_sdiff_right.mono_left hT

theorem cut_out (h : Tiles (x :: xs) S) (ha : a ∈ x) (hys : Tiles ys (x \ {a})) :
    Tiles (ys ++ xs) (S \ {a}) := by
  apply (h.cut hys Set.sdiff_subset).congr
  intro b
  have hsub : b ∈ x → b ∈ S := fun hb => h.subset mem_cons_self hb
  by_cases hb : b ∈ x
  · simp [hb, hsub hb]
  · have hne : b ≠ a := fun heq => hb (heq ▸ ha)
    simp [hb, hne]

/-- An element lies in one tile, also when the tiles carry labels. -/
theorem unique {β : Type} {bs : List β} {f : β → Set α} (h : Tiles (bs.map f) S) {b c : β} (hb : b ∈ bs)
    (hc : c ∈ bs) (hab : a ∈ f b) (hac : a ∈ f c) : b = c := by
  by_contra hne
  have hpair : bs.Pairwise (fun b c => Disjoint (f b) (f c)) := pairwise_map.mp h.disjoint
  have : Std.Symm (fun b c => Disjoint (f b) (f c)) := ⟨fun _ _ hd => hd.symm⟩
  have hdisj := hpair.forall hb hc hne
  exact Set.disjoint_left.mp hdisj hab hac

end Tiles

/-! ## Intervals of integers -/

theorem Int.Icc_sdiff_singleton (lo hi i : ℤ) (h : i ∈ Set.Icc lo hi) :
    Set.Icc lo hi \ {i} = Set.Icc lo (i - 1) ∪ Set.Icc (i + 1) hi := by
  ext j
  simp only [Set.mem_Icc, Set.mem_sdiff, Set.mem_singleton_iff, Set.mem_union] at h ⊢
  omega

theorem Int.Icc_disjoint_of_lt {a b c d : ℤ} (h : b < c) : Disjoint (Set.Icc a b) (Set.Icc c d) :=
  Set.disjoint_left.mpr (fun _ hj hj' => absurd (hj'.1.trans hj.2) (not_le.mpr h))
