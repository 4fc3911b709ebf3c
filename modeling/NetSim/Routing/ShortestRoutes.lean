import NetSim.Lib.ShortestPaths
import NetSim.Routing.RouteLogic
import Mathlib.Algebra.Order.Ring.Rat
import Mathlib.Tactic.Linarith
import Mathlib.Tactic.Ring

/-! # Flat routes are shortest

The arcs of a matrix are its finite entries between nodes. When every simple path costs less than
`infinity`, the run for a source settles the nodes in the order of their distances (`Search`): the path
to a node that is not settled goes through settled nodes, so it is simple, and an arc that extends it
passes the comparison with `infinity`. All tables send a packet to a neighbour on a shortest path, and
the distance to the destination decreases with every hop (`flat_routing`).
-/

namespace NetSim.RouteLogic

open Function List ShortestPaths

/-- The nodes that have numbers. -/
def Node (n v : ℕ) : Prop := 1 ≤ v ∧ v < n

/-- The links of a matrix. -/
def Arc (adj : ℕ → ℕ → ℚ) (n u v : ℕ) (c : ℚ) : Prop :=
  Node n u ∧ Node n v ∧ adj u v = c ∧ c ≠ infinity

theorem mem_nodes {n v : ℕ} : v ∈ nodes n ↔ Node n v := by
  unfold nodes Node
  rw [mem_range'_1]
  omega

variable {adj : ℕ → ℕ → ℚ} {n k o v w : ℕ} {s s' : Run} {l : List ℕ}

/-! ## The loops of a run -/

theorem neighbour_parent (x : ℕ) : (neighbour adj k s x).parent = s.parent := by
  unfold neighbour
  split
  · dsimp only
    split <;> rfl
  · rfl

theorem neighbour_self (hv : s.parent v ≠ k) :
    (neighbour adj k s v).hopcnt v = adj k v ∧
      (neighbour adj k s v).route v = if adj k v ≠ infinity then v else s.route v := by
  unfold neighbour
  rw [if_pos hv]
  simp only [update_self]
  split <;> simp

theorem neighbour_other {x : ℕ} (hv : v ≠ x) :
    (neighbour adj k s x).hopcnt v = s.hopcnt v ∧ (neighbour adj k s x).route v = s.route v := by
  unfold neighbour
  split
  · dsimp only
    split <;> simp [update_of_ne hv]
  · exact ⟨rfl, rfl⟩

theorem foldl_neighbour (l : List ℕ) (s : Run) :
    (l.foldl (neighbour adj k) s).parent = s.parent ∧
      ∀ v,
        (v ∈ l → s.parent v ≠ k →
          (l.foldl (neighbour adj k) s).hopcnt v = adj k v ∧
          (l.foldl (neighbour adj k) s).route v = if adj k v ≠ infinity then v else s.route v) ∧
        (v ∉ l →
          (l.foldl (neighbour adj k) s).hopcnt v = s.hopcnt v ∧
          (l.foldl (neighbour adj k) s).route v = s.route v) := by
  induction l generalizing s with
  | nil => exact ⟨rfl, fun v => ⟨fun h => absurd h not_mem_nil, fun _ => ⟨rfl, rfl⟩⟩⟩
  | cons x l ih =>
    rw [foldl_cons]
    obtain ⟨hparent, hrest⟩ := ih (neighbour adj k s x)
    rw [neighbour_parent] at hparent hrest
    refine ⟨hparent, fun v => ⟨?_, ?_⟩⟩
    · intro hmem hv
      by_cases hl : v ∈ l
      · obtain ⟨hhop, hroute⟩ := (hrest v).1 hl hv
        refine ⟨hhop, hroute.trans ?_⟩
        by_cases hx : v = x
        · subst hx
          rw [(neighbour_self hv).2]
          split <;> rfl
        · rw [(neighbour_other hx).2]
      · have hx : v = x := (mem_cons.mp hmem).resolve_right hl
        subst hx
        rw [((hrest v).2 hl).1, ((hrest v).2 hl).2]
        exact neighbour_self hv
    · intro hmem
      rw [mem_cons, not_or] at hmem
      rw [((hrest v).2 hmem.2).1, ((hrest v).2 hmem.2).2]
      exact neighbour_other hmem.1

theorem foldl_nearest (l : List ℕ) (start : ℕ) (o : ℕ)
    (ho : o = l.foldl (fun o w => if s.parent w ≠ k ∧ s.hopcnt w < s.hopcnt o then w else o) start) :
    (o = start ∨ o ∈ l ∧ s.parent o ≠ k ∧ s.hopcnt o < s.hopcnt start) ∧
      s.hopcnt o ≤ s.hopcnt start ∧ ∀ w ∈ l, s.parent w ≠ k → s.hopcnt o ≤ s.hopcnt w := by
  induction l generalizing start with
  | nil =>
    subst ho
    exact ⟨Or.inl rfl, le_rfl, fun _ hw => absurd hw not_mem_nil⟩
  | cons x l ih =>
    rw [foldl_cons] at ho
    obtain ⟨hfound, hle, hall⟩ := ih _ ho
    by_cases hx : s.parent x ≠ k ∧ s.hopcnt x < s.hopcnt start
    · rw [if_pos hx] at hfound hle
      refine ⟨Or.inr ?_, hle.trans hx.2.le, ?_⟩
      · rcases hfound with rfl | ⟨hmem, hparent, hlt⟩
        · exact ⟨mem_cons_self, hx⟩
        · exact ⟨mem_cons_of_mem _ hmem, hparent, hlt.trans hx.2⟩
      · intro w hw hparent
        rcases mem_cons.mp hw with rfl | hw
        · exact hle
        · exact hall w hw hparent
    · rw [if_neg hx] at hfound hle
      refine ⟨hfound.imp_right (fun h => ⟨mem_cons_of_mem _ h.1, h.2⟩), hle, ?_⟩
      intro w hw hparent
      rcases mem_cons.mp hw with rfl | hw
      · exact hle.trans (not_lt.mp (fun hlt => hx ⟨hparent, hlt⟩))
      · exact hall w hw hparent

/-- The loop shortens the way to `w` through `o`. -/
def Shortens (adj : ℕ → ℕ → ℚ) (k o : ℕ) (s : Run) (w : ℕ) : Prop :=
  s.parent w ≠ k ∧ s.hopcnt o + adj o w < s.hopcnt w

theorem relax_parent (x : ℕ) : (relax adj k o s x).parent = s.parent := by
  unfold relax
  split <;> rfl

theorem relax_self (h : Shortens adj k o s w) :
    (relax adj k o s w).hopcnt w = s.hopcnt o + adj o w ∧
      (relax adj k o s w).route w = s.route o := by
  unfold relax
  split
  · exact ⟨update_self .., update_self ..⟩
  · contradiction

theorem relax_other {x : ℕ} (h : w ≠ x ∨ ¬ Shortens adj k o s x) :
    (relax adj k o s x).hopcnt w = s.hopcnt w ∧ (relax adj k o s x).route w = s.route w := by
  unfold relax
  split
  · rename_i hshort
    have hne : w ≠ x := h.resolve_right (not_not.mpr hshort)
    exact ⟨update_of_ne hne .., update_of_ne hne ..⟩
  · exact ⟨rfl, rfl⟩

theorem foldl_relax (l : List ℕ) (s : Run) (ho : s.parent o = k) :
    (l.foldl (relax adj k o) s).parent = s.parent ∧
      ∀ w,
        (w ∈ l → Shortens adj k o s w →
          (l.foldl (relax adj k o) s).hopcnt w = s.hopcnt o + adj o w ∧
          (l.foldl (relax adj k o) s).route w = s.route o) ∧
        (w ∉ l ∨ ¬ Shortens adj k o s w →
          (l.foldl (relax adj k o) s).hopcnt w = s.hopcnt w ∧
          (l.foldl (relax adj k o) s).route w = s.route w) := by
  induction l generalizing s with
  | nil => exact ⟨rfl, fun w => ⟨fun h => absurd h not_mem_nil, fun _ => ⟨rfl, rfl⟩⟩⟩
  | cons x l ih =>
    rw [foldl_cons]
    obtain ⟨hparent, hrest⟩ := ih (relax adj k o s x) (by rwa [relax_parent])
    rw [relax_parent] at hparent
    -- the row of `o` itself does not change, since `o` is settled
    have hself : ¬ Shortens adj k o s o := fun h => h.1 ho
    have hrow : (relax adj k o s x).hopcnt o = s.hopcnt o ∧
        (relax adj k o s x).route o = s.route o := by
      apply relax_other
      by_cases hx : o = x
      · subst hx
        exact Or.inr hself
      · exact Or.inl hx
    have hother (w : ℕ) (hw : w ≠ x) :
        Shortens adj k o (relax adj k o s x) w ↔ Shortens adj k o s w := by
      unfold Shortens
      rw [relax_parent, hrow.1, (relax_other (Or.inl hw)).1]
    have hagain : ¬ Shortens adj k o (relax adj k o s x) x := by
      intro hshort
      have hlt := hshort.2
      rw [hrow.1] at hlt
      by_cases hx : Shortens adj k o s x
      · rw [(relax_self hx).1] at hlt
        exact lt_irrefl _ hlt
      · rw [(relax_other (Or.inr hx)).1] at hlt
        refine hx ⟨?_, hlt⟩
        have hp := hshort.1
        rwa [relax_parent] at hp
    refine ⟨hparent, fun w => ⟨?_, ?_⟩⟩
    · intro hmem hw
      by_cases hx : w = x
      · subst hx
        rw [((hrest w).2 (Or.inr hagain)).1, ((hrest w).2 (Or.inr hagain)).2]
        exact relax_self hw
      · have hl : w ∈ l := (mem_cons.mp hmem).resolve_left hx
        rw [← hrow.1, ← hrow.2]
        exact (hrest w).1 hl ((hother w hx).mpr hw)
    · intro hmem
      by_cases hx : w = x
      · subst hx
        have hw : ¬ Shortens adj k o s w :=
          hmem.resolve_left (not_not.mpr mem_cons_self)
        rw [((hrest w).2 (Or.inr hagain)).1, ((hrest w).2 (Or.inr hagain)).2]
        exact relax_other (Or.inr hw)
      · have hl : w ∉ l ∨ ¬ Shortens adj k o (relax adj k o s x) w := by
          rw [hother w hx]
          exact hmem.imp_left (fun h => fun hl => h (mem_cons_of_mem _ hl))
        rw [((hrest w).2 hl).1, ((hrest w).2 hl).2]
        exact relax_other (Or.inl hx)

/-! ## The invariant of a run -/

/-- The distance of a settled node. -/
def Run.dist (s : Run) (k v : ℕ) : ℚ := if v = k then 0 else s.hopcnt v

/-- The state between two rounds of the run for `k`. -/
structure Search (adj : ℕ → ℕ → ℚ) (n k : ℕ) (s : Run) : Prop where
  self : s.parent k = k
  le {v : ℕ} : Node n v → v ≠ k → s.hopcnt v ≤ infinity
  path {v : ℕ} : Node n v → v ≠ k → s.hopcnt v ≠ infinity →
    ∃ vs, Simple (Arc adj n) k (v :: vs) v (s.hopcnt v) ∧ ∀ x ∈ vs, s.parent x = k
  first {v : ℕ} : Node n v → v ≠ k → s.hopcnt v ≠ infinity →
    ∃ c d, Arc adj n k (s.route v) c ∧ Path (Arc adj n) (s.route v) v d ∧ s.hopcnt v = c + d
  unreached {v : ℕ} : Node n v → v ≠ k → s.hopcnt v = infinity → s.route v = 0
  ordered {x y : ℕ} : Node n x → x ≠ k → s.parent x = k → Node n y → s.parent y ≠ k →
    s.hopcnt x ≤ s.hopcnt y
  relaxed {x y : ℕ} {c : ℚ} : s.parent x = k → Arc adj n x y c → y ≠ k →
    s.hopcnt y ≤ s.dist k x + c
  reached {x : ℕ} : Node n x → x ≠ k → s.parent x = k → s.hopcnt x ≠ infinity

/-- What is not settled is not reached. -/
def Done (n k : ℕ) (s : Run) : Prop :=
  ∀ v, Node n v → s.parent v ≠ k → s.hopcnt v = infinity

def unsettled (n k : ℕ) (s : Run) : List ℕ := (nodes n).filter (fun v => s.parent v ≠ k)

/-- All simple paths cost less than `infinity`. -/
def Short (adj : ℕ → ℕ → ℚ) (n : ℕ) : Prop :=
  ∀ u vs v c, Simple (Arc adj n) u vs v c → c < infinity

theorem Run.dist_self : s.dist k k = 0 := if_pos rfl

theorem Run.dist_other (h : v ≠ k) : s.dist k v = s.hopcnt v := if_neg h

theorem Arc.pos {c : ℚ} (hpos : ∀ u v, 0 < adj u v) (h : Arc adj n o w c) : 0 < c := by
  rw [← h.2.2.1]
  exact hpos o w

theorem path_nonneg {c : ℚ} (hpos : ∀ u v, 0 < adj u v) (h : Path (Arc adj n) v w c) : 0 ≤ c := by
  induction h with
  | nil => exact le_rfl
  | snoc _ harc ih => exact add_nonneg ih (harc.pos hpos).le

theorem Short.le (hshort : Short adj n) (hu : Node n v) (hw : Node n w) (hne : w ≠ v) :
    adj v w ≤ infinity := by
  by_contra hlt
  have harc : Arc adj n v w (adj v w) := ⟨hu, hw, rfl, (not_le.mp hlt).ne'⟩
  have hcost := hshort _ _ _ _ (Simple.nil.snoc harc (by simpa using hne))
  rw [zero_add] at hcost
  exact hlt hcost.le

section

variable (hpos : ∀ u v, 0 < adj u v) (hshort : Short adj n) (hk : Node n k)

include hpos

theorem Search.nonneg (h : Search adj n k s) (hv : Node n v) (hne : v ≠ k) : 0 ≤ s.hopcnt v := by
  by_cases hinf : s.hopcnt v = infinity
  · rw [hinf]
    norm_num [infinity]
  · obtain ⟨vs, hpath, -⟩ := h.path hv hne hinf
    exact path_nonneg hpos hpath.path

theorem Search.dist_nonneg (h : Search adj n k s) (hv : Node n v) : 0 ≤ s.dist k v := by
  by_cases hne : v = k
  · subst hne
    exact Run.dist_self.ge
  · rw [Run.dist_other hne]
    exact h.nonneg hpos hv hne

end

theorem Search.simple (h : Search adj n k s) (hv : Node n v) (hset : s.parent v = k) :
    ∃ vs, Simple (Arc adj n) k vs v (s.dist k v) ∧ ∀ x ∈ vs, s.parent x = k := by
  by_cases hne : v = k
  · subst hne
    rw [Run.dist_self]
    refine ⟨[v], Simple.nil, ?_⟩
    intro x hx
    rw [mem_singleton.mp hx]
    exact hset
  · rw [Run.dist_other hne]
    obtain ⟨vs, hpath, hvs⟩ := h.path hv hne (h.reached hv hne hset)
    refine ⟨v :: vs, hpath, ?_⟩
    intro x hx
    rcases mem_cons.mp hx with rfl | hx
    · exact hset
    · exact hvs x hx

/-! ## The rounds -/

theorem search_neighbours (hshort : Short adj n) (hk : Node n k)
    (hopcnt : ℕ → ℚ) :
    Search adj n k ((nodes n).foldl (neighbour adj k) ⟨fun v => v, hopcnt, fun _ => 0⟩) := by
  obtain ⟨hparent, hrest⟩ := @foldl_neighbour adj k (nodes n) ⟨fun v => v, hopcnt, fun _ => 0⟩
  generalize (nodes n).foldl (neighbour adj k) ⟨fun v => v, hopcnt, fun _ => 0⟩ = s at *
  have hset (v : ℕ) : s.parent v = v := congrFun hparent v
  have hhop {v : ℕ} (hv : Node n v) (hne : v ≠ k) :
      s.hopcnt v = adj k v ∧ s.route v = if adj k v ≠ infinity then v else 0 :=
    (hrest v).1 (mem_nodes.mpr hv) hne
  have harc {v : ℕ} (hv : Node n v) (hne : v ≠ k) (hinf : s.hopcnt v ≠ infinity) :
      Arc adj n k v (s.hopcnt v) := by
    rw [(hhop hv hne).1] at hinf ⊢
    exact ⟨hk, hv, rfl, hinf⟩
  constructor
  case self => exact hset k
  case le =>
    intro v hv hne
    rw [(hhop hv hne).1]
    exact hshort.le hk hv hne
  case path =>
    intro v hv hne hinf
    have hpath := Simple.nil.snoc (harc hv hne hinf) (by simpa using hne)
    rw [zero_add] at hpath
    refine ⟨[k], hpath, ?_⟩
    intro x hx
    rw [mem_singleton.mp hx]
    exact hset k
  case first =>
    intro v hv hne hinf
    have hroute : s.route v = v := by
      rw [(hhop hv hne).2, if_pos]
      rwa [← (hhop hv hne).1]
    rw [hroute]
    exact ⟨_, 0, harc hv hne hinf, Path.nil, (add_zero _).symm⟩
  case unreached =>
    intro v hv hne hinf
    rw [(hhop hv hne).1] at hinf
    rw [(hhop hv hne).2, if_neg (not_not.mpr hinf)]
  case ordered =>
    intro x y _ hne hx
    exact absurd ((hset x).symm.trans hx) hne
  case relaxed =>
    intro x y c hx hxy hne
    have hxk : x = k := (hset x).symm.trans hx
    subst hxk
    rw [Run.dist_self, zero_add, (hhop hxy.2.1 hne).1, hxy.2.2.1]
  case reached =>
    intro x _ hne hx
    exact absurd ((hset x).symm.trans hx) hne

theorem Search.congr (h : Search adj n k s) (hmono : ∀ x, s.parent x = k → s'.parent x = k)
    (hparent : ∀ v, Node n v → s'.parent v = s.parent v)
    (hhop : ∀ v, Node n v → s'.hopcnt v = s.hopcnt v) (hroute : s'.route = s.route) :
    Search adj n k s' := by
  constructor
  case self => exact hmono k h.self
  case le =>
    intro v hv hne
    rw [hhop v hv]
    exact h.le hv hne
  case path =>
    intro v hv hne hinf
    rw [hhop v hv] at hinf ⊢
    obtain ⟨vs, hpath, hvs⟩ := h.path hv hne hinf
    exact ⟨vs, hpath, fun x hx => hmono x (hvs x hx)⟩
  case first =>
    intro v hv hne hinf
    rw [hhop v hv] at hinf ⊢
    rw [hroute]
    exact h.first hv hne hinf
  case unreached =>
    intro v hv hne hinf
    rw [hhop v hv] at hinf
    rw [hroute]
    exact h.unreached hv hne hinf
  case ordered =>
    intro x y hx hne hset hy hunset
    rw [hparent x hx] at hset
    rw [hparent y hy] at hunset
    rw [hhop x hx, hhop y hy]
    exact h.ordered hx hne hset hy hunset
  case relaxed =>
    intro x y c hset harc hne
    rw [hparent x harc.1] at hset
    have hdist : s'.dist k x = s.dist k x := by
      unfold Run.dist
      rw [hhop x harc.1]
    rw [hdist, hhop y harc.2.1]
    exact h.relaxed hset harc hne
  case reached =>
    intro x hx hne hset
    rw [hparent x hx] at hset
    rw [hhop x hx]
    exact h.reached hx hne hset

theorem Search.relax (hpos : ∀ u v, 0 < adj u v) (h : Search adj n k s) (ho : Node n o)
    (hunset : s.parent o ≠ k) (hlt : s.hopcnt o < infinity)
    (hleast : ∀ w, Node n w → s.parent w ≠ k → s.hopcnt o ≤ s.hopcnt w)
    (hs' : s' = (nodes n).foldl (RouteLogic.relax adj k o)
      { s with parent := update s.parent o k }) :
    Search adj n k s' := by
  have hok : o ≠ k := fun heq => hunset (by rw [heq]; exact h.self)
  obtain ⟨hparent, hrest⟩ := @foldl_relax adj _ _ (nodes n) { s with parent := update s.parent o k } (update_self ..)
  rw [← hs'] at hparent hrest
  -- `o` is settled now, and only the entries of nodes that are not settled change
  have hset (v : ℕ) : s'.parent v = k ↔ v = o ∨ s.parent v = k := by
    rw [hparent]
    by_cases hv : v = o
    · subst hv
      simp
    · simp [hv]
  have hkeep {w : ℕ} (hw : s'.parent w = k) :
      s'.hopcnt w = s.hopcnt w ∧ s'.route w = s.route w :=
    (hrest w).2 (Or.inr fun hshort => hshort.1 (by rw [← hparent]; exact hw))
  have hcases {w : ℕ} (hw : Node n w) :
      (s'.parent w ≠ k ∧ s.hopcnt o + adj o w < s.hopcnt w ∧
        s'.hopcnt w = s.hopcnt o + adj o w ∧ s'.route w = s.route o) ∨
      (s'.hopcnt w = s.hopcnt w ∧ s'.route w = s.route w ∧
        (s'.parent w ≠ k → s.hopcnt w ≤ s.hopcnt o + adj o w)) := by
    by_cases hshort : Shortens adj k o { s with parent := update s.parent o k } w
    · refine Or.inl ⟨?_, hshort.2, (hrest w).1 (mem_nodes.mpr hw) hshort⟩
      rw [hparent]
      exact hshort.1
    · refine Or.inr ⟨((hrest w).2 (Or.inr hshort)).1, ((hrest w).2 (Or.inr hshort)).2, ?_⟩
      intro hnot
      rw [hparent] at hnot
      exact not_lt.mp (fun hless => hshort ⟨hnot, hless⟩)
  have hzero : 0 ≤ s.hopcnt o := h.nonneg hpos ho hok
  have hshorter {w : ℕ} (hw : Node n w) : s'.hopcnt w ≤ s.hopcnt w := by
    rcases hcases hw with ⟨-, hless, heq, -⟩ | ⟨heq, -⟩
    · rw [heq]
      exact hless.le
    · rw [heq]
  -- an entry that the comparison lets through is an arc
  have harc {w : ℕ} (hw : Node n w) (hne : w ≠ k) (hless : s.hopcnt o + adj o w < s.hopcnt w) :
      Arc adj n o w (adj o w) := by
    refine ⟨ho, hw, rfl, ne_of_lt ?_⟩
    have hle := h.le hw hne
    linarith
  constructor
  case self => exact (hset k).mpr (Or.inr h.self)
  case le =>
    intro v hv hne
    exact (hshorter hv).trans (h.le hv hne)
  case path =>
    intro v hv hne hinf
    rcases hcases hv with ⟨hnot, hless, heq, -⟩ | ⟨heq, -⟩
    · obtain ⟨vs, hpath, hvs⟩ := h.path ho hok hlt.ne
      have hall : ∀ x ∈ o :: vs, s'.parent x = k := by
        intro x hx
        rcases mem_cons.mp hx with rfl | hx
        · exact (hset _).mpr (Or.inl rfl)
        · exact (hset x).mpr (Or.inr (hvs x hx))
      rw [heq]
      exact ⟨o :: vs, hpath.snoc (harc hv hne hless) (fun hmem => hnot (hall v hmem)), hall⟩
    · rw [heq] at hinf ⊢
      obtain ⟨vs, hpath, hvs⟩ := h.path hv hne hinf
      exact ⟨vs, hpath, fun x hx => (hset x).mpr (Or.inr (hvs x hx))⟩
  case first =>
    intro v hv hne hinf
    rcases hcases hv with ⟨-, hless, heq, hroute⟩ | ⟨heq, hroute, -⟩
    · obtain ⟨c, d, hfirst, hpath, hsum⟩ := h.first ho hok hlt.ne
      rw [heq, hroute]
      exact ⟨c, d + adj o v, hfirst, hpath.snoc (harc hv hne hless), by rw [hsum, add_assoc]⟩
    · rw [heq] at hinf ⊢
      rw [hroute]
      exact h.first hv hne hinf
  case unreached =>
    intro v hv hne hinf
    rcases hcases hv with ⟨-, hless, heq, -⟩ | ⟨heq, hroute, -⟩
    · have hle := h.le hv hne
      linarith
    · rw [heq] at hinf
      rw [hroute]
      exact h.unreached hv hne hinf
  case ordered =>
    intro x y hx hne hxset hy hyunset
    have hxo : s.hopcnt x ≤ s.hopcnt o := by
      rcases (hset x).mp hxset with rfl | hold
      · exact le_rfl
      · exact h.ordered hx hne hold ho hunset
    have hyold : s.parent y ≠ k := fun hold => hyunset ((hset y).mpr (Or.inr hold))
    rw [(hkeep hxset).1]
    refine hxo.trans ?_
    rcases hcases hy with ⟨-, -, heq, -⟩ | ⟨heq, -⟩
    · rw [heq]
      exact le_add_of_nonneg_right (hpos o y).le
    · rw [heq]
      exact hleast y hy hyold
  case relaxed =>
    intro x y c hxset hxy hne
    have hdist : s'.dist k x = s.dist k x := by
      unfold Run.dist
      rw [(hkeep hxset).1]
    rw [hdist]
    rcases (hset x).mp hxset with rfl | hold
    · rw [Run.dist_other hok]
      have hc : adj x y = c := hxy.2.2.1
      have hcpos : 0 < c := hxy.pos hpos
      rcases hcases hxy.2.1 with ⟨-, -, heq, -⟩ | ⟨heq, -, hle⟩
      · rw [heq, hc]
      · rw [heq]
        by_cases hy : s'.parent y = k
        · -- settled nodes are no farther than `o`
          rcases (hset y).mp hy with rfl | hyold
          · linarith
          · have hyo := h.ordered hxy.2.1 hne hyold ho hunset
            linarith
        · rw [← hc]
          exact hle hy
    · exact (hshorter hxy.2.1).trans (h.relaxed hold hxy hne)
  case reached =>
    intro x hx hne hxset
    rw [(hkeep hxset).1]
    rcases (hset x).mp hxset with rfl | hold
    · exact hlt.ne
    · exact h.reached hx hne hold

theorem Search.sentinel (h : Search adj n k s) :
    Search adj n k { s with hopcnt := update s.hopcnt 0 infinity } := by
  refine h.congr (fun _ hx => hx) (fun _ _ => rfl) ?_ rfl
  intro v hv
  exact update_of_ne (by have := hv.1; omega) ..

theorem nearest_spec (hzero : s.hopcnt 0 = infinity) :
    (nearest n k s = 0 ∨
      Node n (nearest n k s) ∧ s.parent (nearest n k s) ≠ k ∧
        s.hopcnt (nearest n k s) < infinity) ∧
      s.hopcnt (nearest n k s) ≤ infinity ∧
      ∀ w, Node n w → s.parent w ≠ k → s.hopcnt (nearest n k s) ≤ s.hopcnt w := by
  obtain ⟨hfound, hle, hall⟩ := foldl_nearest (s := s) (k := k) (nodes n) 0 (nearest n k s) rfl
  rw [hzero] at hfound hle
  refine ⟨hfound.imp_right (fun hf => ⟨mem_nodes.mp hf.1, hf.2⟩), hle, ?_⟩
  intro w hw hunset
  exact hall w (mem_nodes.mpr hw) hunset

theorem unsettled_update (ho : Node n o) (hunset : s.parent o ≠ k)
    (hparent : s'.parent = update s.parent o k) :
    (unsettled n k s').length < (unsettled n k s).length := by
  have hfilter : unsettled n k s' = (unsettled n k s).filter (fun v => decide (v ≠ o)) := by
    unfold unsettled
    rw [filter_filter, hparent]
    refine filter_congr ?_
    intro v _
    by_cases hvo : v = o
    · subst hvo
      simp
    · simp [hvo]
  rw [hfilter, length_filter_lt_length_iff_exists]
  exact ⟨o, mem_filter.mpr ⟨mem_nodes.mpr ho, by simpa using hunset⟩, by simp⟩

theorem Search.settle (hpos : ∀ u v, 0 < adj u v) (h : Search adj n k s) :
    Search adj n k (RouteLogic.settle adj n k s) ∧
      (Done n k (RouteLogic.settle adj n k s) ∨
        ¬ Done n k s ∧
          (unsettled n k (RouteLogic.settle adj n k s)).length < (unsettled n k s).length) := by
  have h₀ := h.sentinel
  have hsame {v : ℕ} (hv : Node n v) : update s.hopcnt 0 infinity v = s.hopcnt v :=
    update_of_ne (by have := hv.1; omega) ..
  obtain ⟨hfound, hle, hleast⟩ := nearest_spec (n := n) (k := k)
    (s := { s with hopcnt := update s.hopcnt 0 infinity })
    (by exact update_self 0 infinity s.hopcnt)
  unfold RouteLogic.settle
  dsimp only
  generalize nearest n k { s with hopcnt := update s.hopcnt 0 infinity } = o at *
  rcases hfound with rfl | ⟨ho, hunset, hlt⟩
  · have hparent {v : ℕ} (hv : Node n v) : update s.parent 0 k v = s.parent v :=
      update_of_ne (by have := hv.1; omega) ..
    refine ⟨h₀.congr ?_ (fun v hv => hparent hv) (fun _ _ => rfl) rfl, Or.inl ?_⟩
    · intro x hx
      by_cases hx0 : x = 0
      · subst hx0
        exact update_self 0 k s.parent
      · exact (update_of_ne hx0 ..).trans hx
    · intro v hv hunset
      have hunset' : s.parent v ≠ k := by rwa [← hparent hv]
      have hvk : v ≠ k := fun heq => hunset' (by rw [heq]; exact h.self)
      have hge := hleast v hv hunset'
      exact le_antisymm (h₀.le hv hvk) hge
  · have ho0 : o ≠ 0 := by
      have := ho.1
      omega
    rw [if_neg ho0]
    refine ⟨h₀.relax hpos ho hunset hlt hleast rfl, Or.inr ⟨?_, ?_⟩⟩
    · intro hdone
      have hinf := hdone o ho hunset
      rw [← hsame ho] at hinf
      exact hlt.ne hinf
    · apply unsettled_update ho hunset
      exact (foldl_relax (nodes n) _ (update_self ..)).1

theorem Search.rounds (hpos : ∀ u v, 0 < adj u v) (l : List ℕ) (s : Run) (h : Search adj n k s) :
    Search adj n k (l.foldl (fun s _ => RouteLogic.settle adj n k s) s) ∧
      (Done n k (l.foldl (fun s _ => RouteLogic.settle adj n k s) s) ∨
        ¬ Done n k s ∧ l.length ≤ (unsettled n k s).length) := by
  induction l generalizing s with
  | nil => exact ⟨h, (Classical.em (Done n k s)).imp_right (fun hdone => ⟨hdone, Nat.zero_le _⟩)⟩
  | cons x l ih =>
    rw [foldl_cons, length_cons]
    obtain ⟨hsearch, hround⟩ := h.settle hpos
    obtain ⟨hfinal, hrest⟩ := ih (RouteLogic.settle adj n k s) hsearch
    refine ⟨hfinal, ?_⟩
    rcases hrest with hdone | ⟨hnot, hlen⟩
    · exact Or.inl hdone
    · obtain ⟨hdone, hless⟩ := hround.resolve_left hnot
      exact Or.inr ⟨hdone, by omega⟩

theorem source_spec (hpos : ∀ u v, 0 < adj u v) (hshort : Short adj n) (hk : Node n k)
    (hopcnt : ℕ → ℚ) :
    Search adj n k (source adj n k hopcnt) ∧ Done n k (source adj n k hopcnt) := by
  have hstart := search_neighbours hshort hk hopcnt
  obtain ⟨hsearch, hdone⟩ := Search.rounds hpos (nodes n) _ hstart
  refine ⟨hsearch, hdone.resolve_right ?_⟩
  rintro ⟨-, hlen⟩
  -- the source itself is settled from the start
  refine absurd hlen (not_le.mpr ?_)
  unfold unsettled
  rw [length_filter_lt_length_iff_exists]
  exact ⟨k, mem_nodes.mpr hk, by simpa using hstart.self⟩

/-! ## The table of a source -/

def Row (adj : ℕ → ℕ → ℚ) (n k : ℕ) (row : ℕ → ℕ) : Prop :=
  ∀ w, Node n w → w ≠ k →
    (row w = 0 ↔ ¬ Reaches (Arc adj n) k w) ∧
    (Reaches (Arc adj n) k w →
      ∃ c d, Arc adj n k (row w) c ∧ Path (Arc adj n) (row w) w d ∧ IsDist (Arc adj n) k w (c + d))

/-- No arc leads out of the settled nodes, and none of their distances can be improved. -/
theorem Search.closed (hpos : ∀ u v, 0 < adj u v) (hshort : Short adj n)
    (h : Search adj n k s) (hdone : Done n k s) {x y : ℕ} {c : ℚ}
    (hx : s.parent x = k) (harc : Arc adj n x y c) :
    s.parent y = k ∧ s.dist k y ≤ s.dist k x + c := by
  by_cases hy : y = k
  · subst hy
    rw [Run.dist_self]
    exact ⟨h.self, add_nonneg (h.dist_nonneg hpos harc.1) (harc.pos hpos).le⟩
  · have hle := h.relaxed hx harc hy
    rw [Run.dist_other hy]
    refine ⟨?_, hle⟩
    by_contra hunset
    -- the arc would extend a simple path to a node with distance `infinity`
    obtain ⟨vs, hpath, hvs⟩ := h.simple harc.1 hx
    have hcost := hshort _ _ _ _ (hpath.snoc harc (fun hmem => hunset (hvs y hmem)))
    rw [hdone y harc.2.1 hunset] at hle
    exact not_lt.mpr hle hcost

theorem Search.bound (hpos : ∀ u v, 0 < adj u v) (hshort : Short adj n)
    (h : Search adj n k s) (hdone : Done n k s) {c : ℚ} (hpath : Path (Arc adj n) k w c) :
    s.parent w = k ∧ s.dist k w ≤ c :=
  @ShortestPaths.Path.bound _ _ _ _ _ _ _ _ _ (fun v => s.parent v = k) _ hpath h.self Run.dist_self (fun _ _ _ hx harc => h.closed hpos hshort hdone hx harc)

theorem source_row (hpos : ∀ u v, 0 < adj u v) (hshort : Short adj n) (hk : Node n k)
    (hopcnt : ℕ → ℚ) : Row adj n k (source adj n k hopcnt).route := by
  obtain ⟨h, hdone⟩ := source_spec hpos hshort hk hopcnt
  generalize source adj n k hopcnt = s at *
  intro w hw hwk
  have hreach : Reaches (Arc adj n) k w → s.hopcnt w ≠ infinity := by
    rintro ⟨c, hpath⟩
    exact h.reached hw hwk (h.bound hpos hshort hdone hpath).1
  constructor
  · constructor
    · intro hzero hreaches
      obtain ⟨c, d, harc, -⟩ := h.first hw hwk (hreach hreaches)
      have hnode := harc.2.1.1
      omega
    · intro hnot
      apply h.unreached hw hwk
      by_contra hinf
      obtain ⟨vs, hpath, -⟩ := h.path hw hwk hinf
      exact hnot hpath.path.reaches
  · intro hreaches
    obtain ⟨c, d, harc, hpath, hsum⟩ := h.first hw hwk (hreach hreaches)
    refine ⟨c, d, harc, hpath, hpath.cons harc, ?_⟩
    intro e hother
    have hle := (h.bound hpos hshort hdone hother).2
    rwa [Run.dist_other hwk, hsum] at hle

theorem sources_row (hpos : ∀ u v, 0 < adj u v) (hshort : Short adj n) (l : List ℕ)
    (hl : ∀ k ∈ l, Node n k) (acc : (ℕ → ℚ) × (ℕ → ℕ → ℕ)) :
    (∀ k ∈ l, Row adj n k ((l.foldl
      (fun acc k =>
        ((source adj n k acc.1).hopcnt, update acc.2 k (source adj n k acc.1).route))
      acc).2 k)) ∧
      ∀ k, k ∉ l → (l.foldl
        (fun acc k =>
          ((source adj n k acc.1).hopcnt, update acc.2 k (source adj n k acc.1).route))
        acc).2 k = acc.2 k := by
  induction l generalizing acc with
  | nil => exact ⟨fun k hk => absurd hk not_mem_nil, fun _ _ => rfl⟩
  | cons x l ih =>
    rw [foldl_cons]
    obtain ⟨hrow, hkeep⟩ := ih (fun k hk => hl k (mem_cons_of_mem _ hk))
      ((source adj n x acc.1).hopcnt, update acc.2 x (source adj n x acc.1).route)
    constructor
    · intro k hk
      by_cases hkl : k ∈ l
      · exact hrow k hkl
      · have hkx : k = x := (mem_cons.mp hk).resolve_right hkl
        subst hkx
        rw [hkeep k hkl]
        simp only [update_self]
        exact source_row hpos hshort (hl k mem_cons_self) acc.1
    · intro k hk
      rw [mem_cons, not_or] at hk
      rw [hkeep k hk.2]
      exact update_of_ne hk.1 ..

theorem foldl_self (l : List ℕ) (route : ℕ → ℕ → ℕ) (k w : ℕ) :
    l.foldl (fun route k => update route k (update (route k) k k)) route k w =
      if k ∈ l ∧ w = k then k else route k w := by
  induction l generalizing route with
  | nil => simp
  | cons x l ih =>
    rw [foldl_cons, ih]
    by_cases hkl : k ∈ l ∧ w = k
    · rw [if_pos hkl, if_pos ⟨mem_cons_of_mem _ hkl.1, hkl.2⟩]
    · rw [if_neg hkl]
      by_cases hkx : k = x
      · subst hkx
        by_cases hw : w = k
        · subst hw
          simp
        · simp [hw]
      · rw [update_of_ne hkx]
        have hiff : k ∈ x :: l ∧ w = k ↔ k ∈ l ∧ w = k := by
          rw [mem_cons, or_iff_right hkx]
        rw [if_neg (hiff.not.mpr hkl)]

/-! ## Matrices that are built by insertions -/

/-- The links inserted one after the other. -/
def build (links : List (ℕ × ℕ × ℚ)) : Option RouteLogic :=
  links.foldlM (fun r link => r.insert link.1 link.2.1 link.2.2) init

theorem double_spec (rounds m n : ℕ) (hn : n < rounds + m) (hm : 0 < m) :
    ∃ a, double rounds m n = m * 2 ^ a ∧ n < m * 2 ^ a ∧ (0 < a → m * 2 ^ (a - 1) ≤ n) := by
  induction rounds generalizing m with
  | zero => exact ⟨0, by rw [double]; ring, by omega, by omega⟩
  | succ rounds ih =>
    rw [double]
    by_cases hmn : m ≤ n
    · obtain ⟨a, heq, hlt, hle⟩ := ih (2 * m) (by omega) (by omega)
      refine ⟨a + 1, ?_, ?_, fun _ => ?_⟩
      · rw [if_pos hmn, heq]
        ring
      · calc n < 2 * m * 2 ^ a := hlt
          _ = m * 2 ^ (a + 1) := by ring
      · cases a with
        | zero => simpa using hmn
        | succ a =>
          calc m * 2 ^ (a + 1) = 2 * m * 2 ^ a := by ring
            _ ≤ n := by simpa using hle (by omega)
    · refine ⟨0, ?_, by omega, by omega⟩
      rw [if_neg hmn]
      ring

/-- No matrix, or one with a power of two of rows. -/
def Sized (size : ℕ) : Prop := size = 0 ∨ ∃ a, 4 ≤ a ∧ a ≤ 15 ∧ size = 2 ^ a

theorem Sized.double {size : ℕ} (h : Sized size) (n : ℕ) :
    ∃ a, 4 ≤ a ∧ double (n + 1) (if size = 0 then 16 else size) n = 2 ^ a ∧ n < 2 ^ a ∧
      size ≤ 2 ^ a ∧ (a ≤ 15 ↔ n < 2 ^ 15) := by
  have hstart : ∃ b, 4 ≤ b ∧ b ≤ 15 ∧ (if size = 0 then 16 else size) = 2 ^ b ∧ size ≤ 2 ^ b := by
    rcases h with h | ⟨b, h4, h15, h⟩
    · exact ⟨4, le_rfl, by omega, by rw [if_pos h]; norm_num, by omega⟩
    · have hpos : size ≠ 0 := by rw [h]; exact (Nat.two_pow_pos b).ne'
      exact ⟨b, h4, h15, by rw [if_neg hpos, h], h.le⟩
  obtain ⟨b, h4, h15, hb, hsize⟩ := hstart
  obtain ⟨a, heq, hlt, hle⟩ := double_spec (n + 1) (2 ^ b) n (by omega) (Nat.two_pow_pos b)
  rw [← pow_add] at heq hlt
  refine ⟨b + a, by omega, by rw [hb, heq], hlt, hsize.trans (Nat.pow_le_pow_right (by omega) (by omega)),
    ?_, ?_⟩
  · exact fun h => hlt.trans_le (Nat.pow_le_pow_right (by omega) h)
  · intro hn
    by_contra hbig
    -- the last doubling was for a matrix of at least 2^15 rows, which has room for `n`
    have hlast := hle (by omega)
    rw [← pow_add] at hlast
    have hpow : 2 ^ 15 ≤ 2 ^ (b + (a - 1)) := Nat.pow_le_pow_right (by omega) (by omega)
    omega

structure Sound (r : RouteLogic) : Prop where
  pos : ∀ u v, 0 < r.adj u v
  sized : Sized r.size

theorem sound_init : init.Sound := ⟨fun u v => by norm_num [init, infinity], Or.inl rfl⟩

/-- **The matrix grows within the `int`s** for a node below `2 ^ 15`. -/
theorem Sound.check {r : RouteLogic} (h : r.Sound) {n : ℕ} (hn : n < 2 ^ 15) :
    ∃ r', r.check n = some r' ∧ r'.Sound := by
  unfold RouteLogic.check
  split
  · exact ⟨r, rfl, h⟩
  · obtain ⟨a, h4, heq, -, -, h15⟩ := h.sized.double n
    have ha := h15.mpr hn
    have hcells : ¬ 2 ^ 31 ≤ 2 ^ a * 2 ^ a := by
      rw [← pow_add, not_le]
      exact Nat.pow_lt_pow_right (by omega) (by omega)
    rw [alloc, heq, if_neg hcells]
    refine ⟨_, rfl, fun u v => ?_, Or.inr ⟨a, h4, ha, rfl⟩⟩
    dsimp only
    split
    · exact h.pos u v
    · norm_num [infinity]

theorem Sound.insert {r : RouteLogic} (h : r.Sound) {src dst : ℕ} {cost : ℚ} (hsrc : src < 2 ^ 15)
    (hdst : dst < 2 ^ 15) (hcost : 0 < cost) :
    ∃ r', r.insert src dst cost = some r' ∧ r'.Sound := by
  obtain ⟨r₁, h₁, hs₁⟩ := h.check hsrc
  obtain ⟨r₂, h₂, hs₂⟩ := hs₁.check hdst
  have heq : r.insert src dst cost =
      some { r₂ with adj := update r₂.adj src (update (r₂.adj src) dst cost) } := by
    rw [RouteLogic.insert, h₁, Option.bind_some, h₂, Option.map_some]
  refine ⟨_, heq, fun u v => ?_, hs₂.sized⟩
  dsimp only
  by_cases hu : u = src
  · subst hu
    rw [update_self]
    by_cases hv : v = dst
    · subst hv
      rwa [update_self]
    · rw [update_of_ne hv]
      exact hs₂.pos u v
  · rw [update_of_ne hu]
    exact hs₂.pos u v

theorem build_sound (links : List (ℕ × ℕ × ℚ)) (hcosts : ∀ link ∈ links, 0 < link.2.2)
    (hnodes : ∀ link ∈ links, link.1 < 2 ^ 15 ∧ link.2.1 < 2 ^ 15) :
    ∃ b, build links = some b ∧ b.Sound := by
  have hall : ∀ (l : List (ℕ × ℕ × ℚ)) (r : RouteLogic), (∀ link ∈ l, 0 < link.2.2) →
      (∀ link ∈ l, link.1 < 2 ^ 15 ∧ link.2.1 < 2 ^ 15) → r.Sound →
      ∃ b, l.foldlM (fun r link => r.insert link.1 link.2.1 link.2.2) r = some b ∧ b.Sound := by
    intro l
    induction l with
    | nil => exact fun r _ _ hr => ⟨r, rfl, hr⟩
    | cons link l ih =>
      intro r hl hn hr
      rw [forall_mem_cons] at hl hn
      obtain ⟨r', heq, hr'⟩ := hr.insert hn.1.1 hn.1.2 hl.1
      obtain ⟨b, hb, hs⟩ := ih r' hl.2 hn.2 hr'
      exact ⟨b, by rw [foldlM_cons, heq]; exact hb, hs⟩
  exact hall links init hcosts hnodes sound_init

/-! ## Forwarding -/

def forward (r : RouteLogic) (did : ℕ) : ℕ → ℕ → Option ℚ
  | 0, _ => none
  | fuel + 1, sid =>
    if sid = did then some 0
    else
      match r.lookupFlat sid did with
      | .ofNat hop => (forward r did fuel hop).map (r.adj (sid + 1) (hop + 1) + ·)
      | .negSucc _ => none

/-- By the loop over the sources, each of which writes its own row. -/
theorem computeRoutes_spec (r : RouteLogic) (hpos : ∀ u v, 0 < r.adj u v)
    (hshort : Short r.adj r.size) (hopcnt : ℕ → ℚ) :
    ∃ route, r.computeRoutes hopcnt = { r with route := some route } ∧
      ∀ k, Node r.size k → route k k = k ∧ Row r.adj r.size k (route k) := by
  refine ⟨_, rfl, fun k hk => ⟨?_, ?_⟩⟩
  · rw [foldl_self, if_pos ⟨mem_nodes.mpr hk, rfl⟩]
  · have hrow := (sources_row hpos hshort (nodes r.size) (fun _ hv => mem_nodes.mp hv)
      (hopcnt, fun _ _ => 0)).1 k (mem_nodes.mpr hk)
    intro w hw hwk
    rw [foldl_self, if_neg (fun h => hwk h.2)]
    exact hrow w hw hwk

theorem forward_dist {r : RouteLogic} {route : ℕ → ℕ → ℕ} (hroute : r.route = some route)
    (hpos : ∀ u v, 0 < r.adj u v)
    (hrow : ∀ k, Node r.size k → Row r.adj r.size k (route k)) (hw : Node r.size w) {d : ℚ}
    (hk : Node r.size k) (hdist : IsDist (Arc r.adj r.size) k w d) :
    ∃ hops, ∀ fuel, hops ≤ fuel → forward r (w - 1) fuel (k - 1) = some d := by
  have hfinite : {v | Node r.size v}.Finite :=
    (Set.finite_Iio r.size).subset (fun v hv => hv.2)
  refine IsDist.induction hfinite
    (P := fun k d => ∃ hops, ∀ fuel, hops ≤ fuel → forward r (w - 1) fuel (k - 1) = some d)
    ?_ hk hdist
  intro u d hu hd ih
  by_cases huw : u = w
  · subst huw
    have hzero : d = 0 := le_antisymm (hd.2 0 Path.nil) (path_nonneg hpos hd.1)
    refine ⟨1, ?_⟩
    intro fuel hfuel
    obtain ⟨rest, rfl⟩ : ∃ rest, fuel = rest + 1 := ⟨fuel - 1, by omega⟩
    rw [forward, if_pos rfl, hzero]
  · obtain ⟨c, e, harc, hpath, hsum⟩ := (hrow u hu w hw (Ne.symm huw)).2 hd.1.reaches
    obtain rfl : d = c + e := hd.unique hsum
    have hnext : Node r.size (route u w) := harc.2.1
    have hc : 0 < c := harc.pos hpos
    obtain ⟨hops, hrest⟩ := ih (route u w) e hnext (hd.rest harc hpath) (by linarith)
    refine ⟨hops + 1, ?_⟩
    intro fuel hfuel
    obtain ⟨rest, rfl⟩ : ∃ rest, fuel = rest + 1 := ⟨fuel - 1, by omega⟩
    have hids : u - 1 + 1 = u ∧ w - 1 + 1 = w ∧ route u w - 1 + 1 = route u w := by
      have := hu.1
      have := hw.1
      have := hnext.1
      omega
    have hlookup : r.lookupFlat (u - 1) (w - 1) = .ofNat (route u w - 1) := by
      unfold lookupFlat
      rw [hroute]
      dsimp only
      rw [hids.1, hids.2.1, if_neg (by have := hu.2; have := hw.2; omega)]
      change (route u w : ℤ) - 1 = ((route u w - 1 : ℕ) : ℤ)
      omega
    have hother : u - 1 ≠ w - 1 := by omega
    rw [forward, if_neg hother, hlookup]
    dsimp only
    rw [hrest rest (by omega), Option.map_some, hids.1, hids.2.2, harc.2.2.1]

/-- **Flat routing is shortest-path and loop free**: as long as the numbers of the nodes are below
`2 ^ 15`, the matrix is built, and after `compute_routes` an entry is 0 iff the node is not reached, and
else a neighbour on a shortest path; a packet that every node forwards by its own table reaches its
destination at the cost of a shortest path. -/
theorem flat_routing (links : List (ℕ × ℕ × ℚ)) (hcosts : ∀ link ∈ links, 0 < link.2.2)
    (hnodes : ∀ link ∈ links, link.1 < 2 ^ 15 ∧ link.2.1 < 2 ^ 15) :
    ∃ b, build links = some b ∧ ∀ (_ : Short b.adj b.size) (hopcnt : ℕ → ℚ),
      let r := b.computeRoutes hopcnt
      let arc := Arc b.adj b.size
      ∃ route, r.route = some route ∧
        ∀ k w, Node b.size k → Node b.size w →
          route k k = k ∧
          (route k w = 0 ↔ ¬ Reaches arc k w) ∧
          (Reaches arc k w → k ≠ w →
            ∃ c d, arc k (route k w) c ∧ IsDist arc (route k w) w d ∧ IsDist arc k w (c + d)) ∧
          (Reaches arc k w →
            ∃ d, IsDist arc k w d ∧
              ∃ hops, ∀ fuel, hops ≤ fuel → r.forward (w - 1) fuel (k - 1) = some d) := by
  obtain ⟨b, hb, hsound⟩ := build_sound links hcosts hnodes
  refine ⟨b, hb, fun hshort hopcnt => ?_⟩
  have hpos := hsound.pos
  obtain ⟨route, heq, htable⟩ := computeRoutes_spec b hpos hshort hopcnt
  rw [heq]
  refine ⟨route, rfl, ?_⟩
  intro k w hk hw
  have hself : IsDist (Arc b.adj b.size) k k 0 :=
    ⟨Path.nil, fun c hpath => path_nonneg hpos hpath⟩
  have hforward {d : ℚ} (hdist : IsDist (Arc b.adj b.size) k w d) :
      ∃ hops, ∀ fuel, hops ≤ fuel →
        forward { b with route := some route } (w - 1) fuel (k - 1) = some d :=
    forward_dist (r := { b with route := some route }) rfl hpos
      (fun v hv => (htable v hv).2) hw hk hdist
  refine ⟨(htable k hk).1, ?_⟩
  by_cases hkw : k = w
  · subst hkw
    refine ⟨?_, fun _ hne => absurd rfl hne, fun _ => ⟨0, hself, hforward hself⟩⟩
    have hroute := (htable k hk).1
    have hnode := hk.1
    refine ⟨fun hzero => by omega, fun hnot => absurd hself.1.reaches hnot⟩
  · obtain ⟨hzero, hfirst⟩ := (htable k hk).2 w hw (Ne.symm hkw)
    refine ⟨hzero, ?_, ?_⟩
    · intro hreaches _
      obtain ⟨c, d, harc, hpath, hdist⟩ := hfirst hreaches
      exact ⟨c, d, harc, hdist.rest harc hpath, hdist⟩
    · intro hreaches
      obtain ⟨c, d, -, -, hdist⟩ := hfirst hreaches
      exact ⟨c + d, hdist, hforward hdist⟩

/-- Two hops that cost less than the direct link. -/
def triangle : List (ℕ × ℕ × ℚ) := [(1, 2, 1), (2, 3, 1), (1, 3, 5 / 2)]

section Triangle

variable {b : RouteLogic} (hb : build triangle = some b)

include hb

theorem triangle_size : b.size = 16 := by
  have hall : ∀ b ∈ build triangle, b.size = 16 := by decide
  exact hall b hb

theorem triangle_adj : ∀ u < 16, ∀ v < 16, b.adj u v ≠ infinity →
    b.adj u v ≤ (v * v / 2 : ℚ) - (u * u / 2 : ℚ) := by
  have hall : ∀ b ∈ build triangle, ∀ u < 16, ∀ v < 16, b.adj u v ≠ infinity →
      b.adj u v ≤ (v * v / 2 : ℚ) - (u * u / 2 : ℚ) := by decide +kernel
  exact hall b hb

theorem triangle_short : Short b.adj b.size := by
  have hsize := triangle_size hb
  have hlast : ∀ v : ℕ, v < 16 → (v * v / 2 : ℚ) < infinity := by decide +kernel
  have hbound : ∀ u vs v c, Simple (Arc b.adj b.size) u vs v c →
      c ≤ (v * v / 2 : ℚ) - (u * u / 2 : ℚ) := by
    intro u vs v c hpath
    induction hpath with
    | nil => linarith
    | snoc _ hstep _ ih =>
      obtain ⟨hu, hv, rfl, hinf⟩ := hstep
      have hgrow := triangle_adj hb _ (hsize ▸ hu.2) _ (hsize ▸ hv.2) hinf
      linarith
  intro u vs v c hpath
  have hle := hbound u vs v c hpath
  have hpos : (0 : ℚ) ≤ u * u := mul_self_nonneg _
  cases hpath with
  | nil => norm_num [infinity]
  | snoc _ hstep _ =>
    have hless := hlast v (hsize ▸ hstep.2.1.2)
    linarith

end Triangle

/-- The packet takes the two cheap hops. -/
theorem flat_routing_triangle :
    ∃ b, build triangle = some b ∧
      ∃ route, (b.computeRoutes (fun _ => 0)).route = some route ∧
        ∃ d, IsDist (Arc b.adj b.size) 1 3 d ∧
          ∃ hops, ∀ fuel, hops ≤ fuel →
            (b.computeRoutes (fun _ => 0)).forward 2 fuel 0 = some d := by
  obtain ⟨b, hb, hroutes⟩ := flat_routing triangle (by decide +kernel) (by decide)
  obtain ⟨route, hroute, hall⟩ := hroutes (triangle_short hb) (fun _ => 0)
  have hsize := triangle_size hb
  have h₁ : Node b.size 1 := by rw [hsize]; unfold Node; omega
  have h₃ : Node b.size 3 := by rw [hsize]; unfold Node; omega
  have hcost : ∀ b ∈ build triangle, b.adj 1 3 = 5 / 2 := by decide +kernel
  have harc : Arc b.adj b.size 1 3 (5 / 2) := ⟨h₁, h₃, hcost b hb, by norm_num [infinity]⟩
  exact ⟨b, hb, route, hroute, (hall 1 3 h₁ h₃).2.2.2 (Path.nil.snoc harc).reaches⟩

/-- Node `2 ^ 15` needs a matrix of `2 ^ 16` rows, whose number of cells is no `int`. -/
theorem matrix_too_large : build [(1, 2 ^ 15, 1)] = none := by
  decide +kernel

example : ∀ b ∈ build triangle, (b.computeRoutes (fun _ => 0)).forward 2 3 0 = some 2 := by
  decide +kernel

end NetSim.RouteLogic
