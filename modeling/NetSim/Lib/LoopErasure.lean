import Mathlib

/-! # Cutting the loops out of a list

The elements of a list have keys. From left to right the list is cut from an element to the last one with
its key. `Erased key l pre suf` says what holds when `pre` is done and `suf` is left, `Erased.step` that a
cut keeps it, and `Erased.done` what is left in the end: no key twice, the first and the last key, and
pairs of neighbours that were neighbours before.
-/

namespace LoopErasure

open List

variable {α κ : Type} (key : α → κ)

/-- `x` had a neighbour in `l` with the key of `y`. -/
def Linked (l : List α) (x y : α) : Prop := ∃ y', [x, y'] <:+: l ∧ key y' = key y

/-- The loops of `l` are cut out in `pre`, and `suf` is left. -/
structure Erased (l pre suf : List α) : Prop where
  nodup : (pre.map key).Nodup
  disjoint : ∀ x ∈ pre, ∀ y ∈ suf, key x ≠ key y
  sublist : (pre ++ suf).Sublist l
  first : (pre ++ suf).head?.map key = l.head?.map key
  last : (pre ++ suf).getLast?.map key = l.getLast?.map key
  links : (pre ++ suf).IsChain (Linked key l)

variable {key} {l pre suf rest : List α} {a b : α}

theorem erased_start (l : List α) : Erased key l [] l where
  nodup := nodup_nil
  disjoint := fun _ hx => absurd hx not_mem_nil
  sublist := List.Sublist.refl l
  first := rfl
  last := rfl
  links := (isChain_isInfix l).imp (fun _ y h => ⟨y, h, rfl⟩)

theorem Erased.step (h : Erased key l pre (a :: suf)) (hcut : b :: rest <:+ a :: suf)
    (hkey : key b = key a) (hlast : ∀ y ∈ rest, key y ≠ key a) :
    Erased key l (pre ++ [b]) rest := by
  have hmem : ∀ y ∈ b :: rest, y ∈ a :: suf := fun y hy => hcut.subset hy
  have hchain := isChain_append.mp h.links
  constructor
  · rw [map_append, List.nodup_append]
    refine ⟨h.nodup, nodup_singleton _, ?_⟩
    intro k hk k' hk'
    obtain ⟨x, hx, rfl⟩ := mem_map.mp hk
    rw [map_singleton, mem_singleton] at hk'
    rw [hk']
    exact h.disjoint x hx b (hmem b mem_cons_self)
  · intro x hx y hy
    rcases mem_append.mp hx with hx | hx
    · exact h.disjoint x hx y (hmem y (mem_cons_of_mem b hy))
    · rw [mem_singleton.mp hx, hkey]
      exact (hlast y hy).symm
  · rw [append_assoc, singleton_append]
    exact ((append_sublist_append_left pre).mpr hcut.sublist).trans h.sublist
  · rw [append_assoc, singleton_append, ← h.first]
    cases pre with
    | nil => simp [hkey]
    | cons _ _ => rfl
  · rw [append_assoc, singleton_append, ← h.last,
      getLast?_append_of_ne_nil _ (cons_ne_nil b rest),
      getLast?_append_of_ne_nil _ (cons_ne_nil a suf)]
    obtain ⟨pre', hpre'⟩ := hcut
    rw [← hpre', getLast?_append_of_ne_nil _ (cons_ne_nil b rest)]
  · rw [append_assoc, singleton_append]
    refine isChain_append.mpr ⟨hchain.1, hchain.2.1.suffix hcut, ?_⟩
    -- the neighbour before `a` is a neighbour of an element with the key of `b`
    intro x hx y hy
    obtain ⟨y', hinfix, hy'⟩ := hchain.2.2 x hx a rfl
    rw [head?_cons, Option.mem_some_iff] at hy
    subst hy
    exact ⟨y', hinfix, hy'.trans hkey.symm⟩

theorem Erased.done (h : Erased key l pre []) :
    (pre.map key).Nodup ∧ pre.Sublist l ∧ pre.head?.map key = l.head?.map key ∧
      pre.getLast?.map key = l.getLast?.map key ∧ pre.IsChain (Linked key l) := by
  have hsub := h.sublist
  have hfirst := h.first
  have hlast := h.last
  have hlinks := h.links
  rw [append_nil] at hsub hfirst hlast hlinks
  exact ⟨h.nodup, hsub, hfirst, hlast, hlinks⟩

end LoopErasure
