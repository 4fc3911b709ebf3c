import Mathlib.Algebra.Order.Monoid.Defs
import Mathlib.Algebra.Order.Group.Nat
import Mathlib.Order.WellFoundedSet

/-! # Distances in a weighted graph

`arc u v c` says that there is an arc from `u` to `v` of cost `c`, in an ordered monoid of costs.
`Path arc u v c` is a path of cost `c`, `IsDist arc u v d` says that `d` is the smallest cost of a path.
-/

namespace ShortestPaths

variable {V α : Type} [AddCommMonoid α]

inductive Path (arc : V → V → α → Prop) (u : V) : V → α → Prop
  | nil : Path arc u u 0
  | snoc {v w : V} {c k : α} : Path arc u v c → arc v w k → Path arc u w (c + k)

def Reaches (arc : V → V → α → Prop) (u v : V) : Prop := ∃ c, Path arc u v c

/-- A path without repeated vertices; the list has its vertices, the last one first. -/
inductive Simple (arc : V → V → α → Prop) (u : V) : List V → V → α → Prop
  | nil : Simple arc u [u] u 0
  | snoc {vs : List V} {v w : V} {c k : α} :
      Simple arc u vs v c → arc v w k → w ∉ vs → Simple arc u (w :: vs) w (c + k)

section

variable {arc : V → V → α → Prop} {u v w : V} {c d : α} {vs : List V}

theorem Path.reaches (h : Path arc u v c) : Reaches arc u v := ⟨c, h⟩

theorem Simple.path (h : Simple arc u vs v c) : Path arc u v c := by
  induction h with
  | nil => exact .nil
  | snoc _ harc _ ih => exact ih.snoc harc

theorem Path.append (h : Path arc u v c) (h' : Path arc v w d) : Path arc u w (c + d) := by
  induction h' with
  | nil =>
    rw [add_zero]
    exact h
  | snoc _ harc ih =>
    rw [← add_assoc]
    exact ih.snoc harc

theorem Path.cons (harc : arc u v c) (h : Path arc v w d) : Path arc u w (c + d) := by
  have hfirst := Path.snoc (Path.nil (u := u)) harc
  rw [zero_add] at hfirst
  exact hfirst.append h

theorem Path.uncons (h : Path arc u w d) :
    (u = w ∧ d = 0) ∨ ∃ v c k, arc u v c ∧ Path arc v w k ∧ d = c + k := by
  induction h with
  | nil => exact .inl ⟨rfl, rfl⟩
  | @snoc x y d k _ harc ih =>
    right
    rcases ih with ⟨rfl, rfl⟩ | ⟨v, c, e, hfirst, hrest, rfl⟩
    · exact ⟨y, k, 0, harc, .nil, by rw [zero_add, add_zero]⟩
    · exact ⟨v, c, e + k, hfirst, hrest.snoc harc, add_assoc _ _ _⟩

end

variable [LinearOrder α]

/-- The smallest cost of a path. -/
def IsDist (arc : V → V → α → Prop) (u v : V) (d : α) : Prop :=
  Path arc u v d ∧ ∀ c, Path arc u v c → d ≤ c

variable {arc : V → V → α → Prop} {u v w : V} {c d e k : α}

theorem IsDist.unique (h : IsDist arc u v d) (h' : IsDist arc u v e) : d = e :=
  le_antisymm (h.2 e h'.1) (h'.2 d h.1)

theorem IsDist.rest [IsOrderedCancelAddMonoid α] (h : IsDist arc u w (c + d)) (harc : arc u v c)
    (hpath : Path arc v w d) : IsDist arc v w d :=
  ⟨hpath, fun _ hother => le_of_add_le_add_left (h.2 _ (hother.cons harc))⟩

def Nearer (arc : V → V → α → Prop) (w u v : V) : Prop :=
  ∃ d e, IsDist arc u w d ∧ IsDist arc v w e ∧ d < e

theorem Nearer.irrefl : ¬ Nearer arc w u u := by
  rintro ⟨d, e, hd, he, hlt⟩
  rw [hd.unique he] at hlt
  exact lt_irrefl e hlt

theorem Nearer.trans {x : V} (h : Nearer arc w u v) (h' : Nearer arc w v x) : Nearer arc w u x := by
  obtain ⟨d, e, hd, he, hlt⟩ := h
  obtain ⟨e', f, he', hf, hlt'⟩ := h'
  rw [he'.unique he] at hlt'
  exact ⟨d, f, hd, hf, hlt.trans hlt'⟩

theorem IsDist.induction {S : Set V} (hS : S.Finite) {P : V → α → Prop}
    (step : ∀ u d, u ∈ S → IsDist arc u w d →
      (∀ v e, v ∈ S → IsDist arc v w e → e < d → P v e) → P u d)
    (hu : u ∈ S) (h : IsDist arc u w d) : P u d := by
  have : IsStrictOrder V (Nearer arc w) :=
    { irrefl := fun _ => Nearer.irrefl
      trans := fun _ _ _ => Nearer.trans }
  have hwf : S.WellFoundedOn (Nearer arc w) := hS.wellFoundedOn
  have hall : ∀ u : S, ∀ d, IsDist arc u w d → P u d := by
    intro u
    induction u using WellFounded.induction hwf with
    | h u ih =>
      intro d hd
      exact step u d u.2 hd (fun v e hv he hlt => ih ⟨v, hv⟩ ⟨e, d, he, hd, hlt⟩ e he)
  exact hall ⟨u, hu⟩ d h

/-- Numbers that grow by no more than the cost along every arc out of a closed set are at most the
costs of the paths. -/
theorem Path.bound [IsOrderedCancelAddMonoid α] {settled : V → Prop} {dist : V → α}
    (h : Path arc u v c) (hu : settled u) (hzero : dist u = 0)
    (hstep : ∀ x y k, settled x → arc x y k → settled y ∧ dist y ≤ dist x + k) :
    settled v ∧ dist v ≤ c := by
  induction h with
  | nil => exact ⟨hu, hzero.le⟩
  | snoc _ harc ih =>
    obtain ⟨hset, hle⟩ := hstep _ _ _ ih.1 harc
    exact ⟨hset, hle.trans (add_le_add_left ih.2 _)⟩

end ShortestPaths
