import Mathlib.Data.List.Basic
import Mathlib.Data.List.Nodup
import Mathlib.Data.Finset.Card
import Mathlib.Logic.Function.Basic
import NetSim.Lib.ShortestPaths

/-! # Breadth-first search over Nix nodes

`NextAdj` walks through the neighbours of a node with an iterator that is a static variable of the
function. `BFS` starts a walk at every node it takes from the queue and finishes it before the next
one, so the iterator always stands where it expects it (`adjLoop_eq`). The search colours exactly the
nodes that are reachable from the root, and the parents form a tree of shortest paths (`bfs_spec`).
-/

namespace NetSim

open Function List ShortestPaths

def nodeNone : ℕ := 0xffffffff

/-- `INF`. -/
def nixInf : ℕ := 0xffffffff

/-- The vector `Nodes`: node `u` has the identifier `u` and the neighbours `adj u` (`m_Adj`). Node
identifiers are 32 bits wide, and the greatest one is reserved. -/
structure NixGraph where
  size : ℕ
  adj : ℕ → List ℕ
  size_lt : size < 2 ^ 32
  adj_lt : ∀ u v, v ∈ adj u → v < size
  nodup : ∀ u, (adj u).Nodup

/-- `EdgeVec_it`: a position in the neighbours of a node. -/
structure EdgeIter where
  node : ℕ
  pos : ℕ

/-- The variables of `BFS`, and the static iterator of `NextAdj`. -/
structure BfsState where
  color : ℕ → Bool
  queue : List ℕ
  dist : ℕ → ℕ
  nextHop : ℕ → ℕ
  parent : ℕ → ℕ
  prev : EdgeIter

namespace NixGraph

variable (g : NixGraph)

/-- `NixNode::NextAdj` at node `u`: the neighbour behind `last`, with its weight. `none` stands for the
exit on a walk that does not continue the previous one. -/
def nextAdj (u : ℕ) (last : ℕ × ℕ) (prev : EdgeIter) : Option ((ℕ × ℕ) × EdgeIter) :=
  if last.1 = nodeNone then
    match g.adj u with
    | [] => some ((nodeNone, 0), ⟨u, 0⟩)
    | n :: _ => some ((n, 1), ⟨u, 0⟩)
  else if (g.adj prev.node)[prev.pos]? = some last.1 then
    let prev := { prev with pos := prev.pos + 1 }
    if prev.node = u ∧ prev.pos = (g.adj u).length then some ((nodeNone, 0), prev)
    else ((g.adj prev.node)[prev.pos]?).map (fun n => ((n, 1), prev))
  else none

/-- What `BFS` does with the neighbour `v` of `u`. -/
def visit (root u v : ℕ) (s : BfsState) : BfsState :=
  if s.color v then s
  else
    { s with
      queue := s.queue ++ [v]
      color := update s.color v true
      dist := update s.dist v (s.dist u + 1)
      parent := update s.parent v u
      nextHop := update s.nextHop v (if u = root then v else s.nextHop u) }

/-- The inner loop of `BFS`, from the neighbour `v` on. -/
def adjLoop (root u : ℕ) : ℕ → ℕ × ℕ → BfsState → Option BfsState
  | 0, _, _ => none
  | fuel + 1, v, s =>
    (g.nextAdj u v s.prev).bind (fun r =>
      let s := { s with prev := r.2 }
      if r.1.1 = nodeNone then some s else adjLoop root u fuel r.1 (visit root u r.1.1 s))

def bfsLoop (root : ℕ) : ℕ → BfsState → Option BfsState
  | 0, s => if s.queue = [] then some s else none
  | fuel + 1, s =>
    match s.queue with
    | [] => some s
    | u :: _ =>
      (g.adjLoop root u ((g.adj u).length + 1) (nodeNone, nixInf) s).bind (fun s =>
        bfsLoop root fuel { s with queue := s.queue.tail })

/-- The state in which the outer loop starts. -/
def bfsStart (root : ℕ) (prev : EdgeIter) : BfsState where
  color := update (fun _ => false) root true
  queue := [root]
  dist := update (fun _ => nixInf) root 0
  nextHop := fun _ => nodeNone
  parent := fun _ => nodeNone
  prev := prev

/-- `BFS`. Every node is queued at most once. -/
def bfs (root : ℕ) (prev : EdgeIter) : Option BfsState :=
  g.bfsLoop root g.size (bfsStart root prev)

end NixGraph

namespace NixGraph

variable {g : NixGraph} {root u v w : ℕ} {s : BfsState} {q xs done : List ℕ} {fuel : ℕ}

/-- One arc of cost 1 to every neighbour. -/
def arc (g : NixGraph) (u v k : ℕ) : Prop := v ∈ g.adj u ∧ k = 1

/-! ## The inner loop -/

theorem ne_nodeNone_of_lt (hv : v < g.size) : v ≠ nodeNone := by
  have hsize := g.size_lt
  unfold nodeNone
  omega

theorem ne_nodeNone (hv : v ∈ g.adj u) : v ≠ nodeNone :=
  ne_nodeNone_of_lt (g.adj_lt u v hv)

@[simp] theorem visit_prev : (visit root u v s).prev = s.prev := by
  unfold visit
  split <;> rfl

theorem visit_with_prev (p : EdgeIter) :
    visit root u v { s with prev := p } = { visit root u v s with prev := p } := by
  unfold visit
  split <;> rfl

theorem foldl_visit_with_prev (p : EdgeIter) :
    xs.foldl (fun s v => visit root u v s) { s with prev := p } =
      { xs.foldl (fun s v => visit root u v s) s with prev := p } := by
  induction xs generalizing s with
  | nil => rfl
  | cons v xs ih => rw [foldl_cons, foldl_cons, visit_with_prev, ih]

/-- The walk from position `pos` on: the iterator has just returned the neighbour there. -/
theorem adjLoop_from {pos : ℕ} (hpos : pos < (g.adj u).length) (hprev : s.prev = ⟨u, pos⟩)
    (hfuel : (g.adj u).length - pos ≤ fuel) (wt : ℕ) :
    g.adjLoop root u fuel ((g.adj u)[pos], wt) s =
      some { ((g.adj u).drop (pos + 1)).foldl (fun s v => visit root u v s) s with
        prev := ⟨u, (g.adj u).length⟩ } := by
  induction fuel generalizing pos s wt with
  | zero => omega
  | succ fuel ih =>
    have hne : (g.adj u)[pos] ≠ nodeNone := ne_nodeNone (getElem_mem hpos)
    have hlast : (g.adj s.prev.node)[s.prev.pos]? = some (g.adj u)[pos] := by
      rw [hprev]
      exact getElem?_eq_getElem hpos
    unfold adjLoop nextAdj
    rw [if_neg hne, if_pos hlast, hprev]
    by_cases hend : pos + 1 = (g.adj u).length
    · simp [hend]
    · have hlt : pos + 1 < (g.adj u).length := by omega
      have hne' : (g.adj u)[pos + 1] ≠ nodeNone := ne_nodeNone (getElem_mem hlt)
      rw [if_neg (by simp [hend]), getElem?_eq_getElem hlt, Option.map_some, Option.bind_some]
      rw [if_neg hne', ih hlt (by simp) (by omega), visit_with_prev, foldl_visit_with_prev,
        drop_eq_getElem_cons hlt, foldl_cons]

/-- The inner loop visits the neighbours in order, wherever the iterator stands at first. -/
theorem adjLoop_eq (g : NixGraph) (root u : ℕ) (s : BfsState) :
    ∃ p, g.adjLoop root u ((g.adj u).length + 1) (nodeNone, nixInf) s =
      some { (g.adj u).foldl (fun s v => visit root u v s) s with prev := p } := by
  unfold adjLoop nextAdj
  rw [if_pos rfl]
  cases hadj : g.adj u with
  | nil => exact ⟨⟨u, 0⟩, rfl⟩
  | cons n ns =>
    have hn : n ≠ nodeNone := ne_nodeNone (u := u) (hadj ▸ mem_cons_self)
    have hfrom := @adjLoop_from g root u (visit root u n { s with prev := ⟨u, 0⟩ })
      (ns.length + 1) 0 (by simp [hadj]) (by simp) (by simp [hadj]) 1
    simp only [hadj, getElem_cons_zero] at hfrom
    refine ⟨⟨u, (n :: ns).length⟩, ?_⟩
    simp only [Option.bind_some, if_neg hn, length_cons]
    rw [hfrom, visit_with_prev, foldl_visit_with_prev]
    rfl

/-! ## The search -/

/-- The invariant of the outer loop; `done` are the nodes that left the queue. -/
structure Search (g : NixGraph) (root : ℕ) (done : List ℕ) (s : BfsState) : Prop where
  nodup : (done ++ s.queue).Nodup
  colored : ∀ v, s.color v = true ↔ v ∈ done ++ s.queue
  valid : ∀ v ∈ done ++ s.queue, v < g.size
  atRoot : s.color root = true ∧ s.dist root = 0
  tree : ∀ v, s.color v = true → v ≠ root →
    s.color (s.parent v) = true ∧ v ∈ g.adj (s.parent v) ∧ s.dist v = s.dist (s.parent v) + 1
  uncolored : ∀ v, s.color v = false → s.parent v = nodeNone
  closed : ∀ u ∈ done, ∀ v ∈ g.adj u, s.color v = true ∧ s.dist v ≤ s.dist u + 1
  sorted : s.queue.Pairwise (fun u v => s.dist u ≤ s.dist v)
  front : ∀ u ∈ s.queue.head?, ∀ v, s.color v = true → s.dist v ≤ s.dist u + 1
  short : ∀ v, s.color v = true → s.dist v < (done ++ s.queue).length

theorem search_start (hroot : root < g.size) (prev : EdgeIter) :
    Search g root [] (bfsStart root prev) := by
  have hcolor : ∀ v, (bfsStart root prev).color v = true ↔ v = root := by
    intro v
    simp [bfsStart, update_apply]
  have hdist : (bfsStart root prev).dist root = 0 := by
    simp [bfsStart]
  constructor
  · simp [bfsStart]
  · intro v
    rw [hcolor]
    simp [bfsStart]
  · intro v hv
    rw [mem_singleton.mp hv]
    exact hroot
  · exact ⟨(hcolor root).mpr rfl, hdist⟩
  · intro v hv hne
    exact absurd ((hcolor v).mp hv) hne
  · intro v _
    rfl
  · intro u hu
    cases hu
  · exact pairwise_singleton ..
  · intro u _ v hv
    rw [(hcolor v).mp hv, hdist]
    exact Nat.zero_le _
  · intro v hv
    rw [(hcolor v).mp hv, hdist]
    exact Nat.zero_lt_one

/-- Visits of the neighbours `xs` of `u`, the front of the queue, lead from `s` to `s'`. -/
structure Scans (g : NixGraph) (root u : ℕ) (done xs : List ℕ) (s s' : BfsState) : Prop where
  search : Search g root done s'
  head : ∃ q, s'.queue = u :: q
  kept : ∀ x, s.color x = true → s'.color x = true ∧ s'.dist x = s.dist x
  visited : ∀ v ∈ xs, s'.color v = true ∧ s'.dist v ≤ s.dist u + 1

theorem Search.visit (h : Search g root done s) (hq : s.queue = u :: q) (hv : v ∈ g.adj u) :
    Scans g root u done [v] s (visit root u v s) := by
  have hu : s.color u = true := (h.colored u).mpr (by simp [hq])
  have hfront : ∀ x, s.color x = true → s.dist x ≤ s.dist u + 1 := h.front u (by simp [hq])
  by_cases hcol : s.color v = true
  · have heq : NixGraph.visit root u v s = s := by
      unfold NixGraph.visit
      rw [if_pos hcol]
    rw [heq]
    refine ⟨h, ⟨q, hq⟩, fun x hx => ⟨hx, rfl⟩, ?_⟩
    intro x hx
    rw [mem_singleton.mp hx]
    exact ⟨hcol, hfront v hcol⟩
  have hne : ∀ x, s.color x = true → x ≠ v := fun x hx hxv => hcol (hxv ▸ hx)
  have hvfresh : v ∉ done ++ s.queue := fun hmem => hcol ((h.colored v).mpr hmem)
  unfold NixGraph.visit
  rw [if_neg hcol]
  -- the fields of the new state
  have hcolor : ∀ x, update s.color v true x = true ↔ x = v ∨ s.color x = true := by
    intro x
    by_cases hx : x = v
    · simp [hx]
    · simp [hx]
  have hold : ∀ x, s.color x = true → update s.dist v (s.dist u + 1) x = s.dist x :=
    fun x hx => update_of_ne (hne x hx) _ _
  have hnew : update s.dist v (s.dist u + 1) v = s.dist u + 1 := update_self ..
  have hassoc : done ++ (s.queue ++ [v]) = done ++ s.queue ++ [v] := (append_assoc ..).symm
  refine ⟨?_, ⟨q ++ [v], by simp [hq]⟩, fun x hx => ⟨(hcolor x).mpr (Or.inr hx), hold x hx⟩, ?_⟩
  swap
  · intro x hx
    rw [mem_singleton.mp hx]
    exact ⟨(hcolor v).mpr (Or.inl rfl), hnew.le⟩
  constructor
  · simp only [hassoc]
    exact nodup_append'.mpr ⟨h.nodup, nodup_singleton v, by simpa using hvfresh⟩
  · intro x
    rw [hcolor, h.colored]
    simp only [mem_append, mem_singleton]
    tauto
  · intro x hx
    simp only [hassoc] at hx
    rcases mem_append.mp hx with hx | hx
    · exact h.valid x hx
    · rw [mem_singleton.mp hx]
      exact g.adj_lt u v hv
  · exact ⟨(hcolor root).mpr (Or.inr h.atRoot.1), (hold root h.atRoot.1).trans h.atRoot.2⟩
  · intro x hx hxr
    simp only at hx ⊢
    rcases (hcolor x).mp hx with rfl | hx
    · rw [update_self, update_self, hold u hu]
      exact ⟨(hcolor u).mpr (Or.inr hu), hv, rfl⟩
    · obtain ⟨hp, hadj, hd⟩ := h.tree x hx hxr
      rw [update_of_ne (hne x hx), hold x hx, hold _ hp]
      exact ⟨(hcolor _).mpr (Or.inr hp), hadj, hd⟩
  · intro x hx
    have hxv : x ≠ v := by
      rintro rfl
      simp at hx
    simp only [update_of_ne hxv] at hx ⊢
    exact h.uncolored x hx
  · intro x hx y hy
    obtain ⟨hcy, hdy⟩ := h.closed x hx y hy
    have hcx : s.color x = true := (h.colored x).mpr (mem_append_left _ hx)
    simp only
    rw [hold y hcy, hold x hcx]
    exact ⟨(hcolor y).mpr (Or.inr hcy), hdy⟩
  · have hcq : ∀ x ∈ s.queue, s.color x = true :=
      fun x hx => (h.colored x).mpr (mem_append_right _ hx)
    simp only
    rw [pairwise_append]
    refine ⟨?_, pairwise_singleton .., ?_⟩
    · refine h.sorted.imp_of_mem ?_
      intro x y hx hy hxy
      rwa [hold x (hcq x hx), hold y (hcq y hy)]
    · intro x hx y hy
      rw [mem_singleton.mp hy, hnew, hold x (hcq x hx)]
      exact hfront x (hcq x hx)
  · intro x hx y hy
    have hxu : x = u := by
      simp only [hq, cons_append, head?_cons, Option.mem_some_iff] at hx
      exact hx.symm
    simp only at hy ⊢
    rw [hxu, hold u hu]
    rcases (hcolor y).mp hy with rfl | hy
    · exact hnew.le
    · rw [hold y hy]
      exact hfront y hy
  · intro x hx
    have hlen : (done ++ (s.queue ++ [v])).length = (done ++ s.queue).length + 1 := by simp; omega
    simp only at hx ⊢
    rw [hlen]
    rcases (hcolor x).mp hx with rfl | hx
    · rw [hnew]
      exact Nat.succ_lt_succ (h.short u hu)
    · rw [hold x hx]
      exact Nat.lt_succ_of_lt (h.short x hx)

theorem Search.foldl_visit (h : Search g root done s) (hq : s.queue = u :: q)
    (hxs : ∀ v ∈ xs, v ∈ g.adj u) :
    Scans g root u done xs s (xs.foldl (fun s v => NixGraph.visit root u v s) s) := by
  induction xs generalizing s q with
  | nil => exact ⟨h, ⟨q, hq⟩, fun x hx => ⟨hx, rfl⟩, fun v hv => absurd hv not_mem_nil⟩
  | cons v xs ih =>
    have hfirst := h.visit hq (hxs v mem_cons_self)
    obtain ⟨q', hq'⟩ := hfirst.head
    have hrest := ih hfirst.search hq' (fun x hx => hxs x (mem_cons_of_mem v hx))
    have hu : s.color u = true := (h.colored u).mpr (by simp [hq])
    refine ⟨hrest.search, hrest.head, ?_, ?_⟩
    · intro x hx
      obtain ⟨hc, hd⟩ := hfirst.kept x hx
      obtain ⟨hc', hd'⟩ := hrest.kept x hc
      exact ⟨hc', hd'.trans hd⟩
    · intro x hx
      rcases mem_cons.mp hx with rfl | hx
      · obtain ⟨hc, hd⟩ := hfirst.visited x mem_cons_self
        obtain ⟨hc', hd'⟩ := hrest.kept x hc
        exact ⟨hc', hd'.trans_le hd⟩
      · obtain ⟨hc, hd⟩ := hrest.visited x hx
        rw [(hfirst.kept u hu).2] at hd
        exact ⟨hc, hd⟩

theorem Search.pop {s' : BfsState} (h : Search g root done s) (hq : s.queue = u :: q)
    (hscan : Scans g root u done (g.adj u) s s') (p : EdgeIter) :
    Search g root (done ++ [u]) { s' with queue := s'.queue.tail, prev := p } := by
  obtain ⟨q', hq'⟩ := hscan.head
  have h' := hscan.search
  have hu : s.color u = true := (h.colored u).mpr (by simp [hq])
  have hdist := (hscan.kept u hu).2
  have hsplit : done ++ [u] ++ s'.queue.tail = done ++ s'.queue := by simp [hq']
  constructor
  · rw [hsplit]
    exact h'.nodup
  · intro v
    rw [hsplit]
    exact h'.colored v
  · rw [hsplit]
    exact h'.valid
  · exact h'.atRoot
  · exact h'.tree
  · exact h'.uncolored
  · intro x hx
    rcases mem_append.mp hx with hx | hx
    · exact h'.closed x hx
    · rw [mem_singleton.mp hx]
      rw [hdist]
      exact hscan.visited
  · exact h'.sorted.tail
  · intro x hx v hv
    have hle : s'.dist u ≤ s'.dist x := by
      have hsorted := h'.sorted
      rw [hq'] at hsorted
      refine rel_of_pairwise_cons hsorted ?_
      simp only [hq'] at hx
      exact mem_of_mem_head? hx
    exact (h'.front u (by simp [hq']) v hv).trans (Nat.add_le_add_right hle 1)
  · rw [hsplit]
    exact h'.short

theorem Search.length_le (h : Search g root done s) : (done ++ s.queue).length ≤ g.size := by
  rw [← toFinset_card_of_nodup h.nodup, ← Finset.card_range g.size]
  apply Finset.card_le_card
  intro v hv
  exact Finset.mem_range.mpr (h.valid v (mem_toFinset.mp hv))

theorem Search.bfsLoop (h : Search g root done s) (hfuel : g.size ≤ done.length + fuel) :
    ∃ s' done', g.bfsLoop root fuel s = some s' ∧ Search g root done' s' ∧ s'.queue = [] := by
  induction fuel generalizing s done with
  | zero =>
    have hlen := h.length_le
    rw [length_append] at hlen
    have hnil : s.queue = [] := length_eq_zero_iff.mp (by omega)
    refine ⟨s, done, ?_, h, hnil⟩
    unfold NixGraph.bfsLoop
    rw [if_pos hnil]
  | succ fuel ih =>
    cases hq : s.queue with
    | nil =>
      refine ⟨s, done, ?_, h, hq⟩
      unfold NixGraph.bfsLoop
      rw [hq]
    | cons u q =>
      obtain ⟨p, hp⟩ := adjLoop_eq g root u s
      have hscan := @Search.foldl_visit g root u s q (g.adj u) done h hq (fun v hv => hv)
      obtain ⟨s', done', hrun, hsearch, hnil⟩ :=
        ih (h.pop hq hscan p) (by rw [length_append, length_singleton]; omega)
      refine ⟨s', done', ?_, hsearch, hnil⟩
      unfold NixGraph.bfsLoop
      rw [hq]
      simp only
      rw [hp, Option.bind_some]
      exact hrun

/-- What the search finds: exactly the reachable nodes, at their distances, and a tree of them. -/
structure Found (g : NixGraph) (root : ℕ) (s : BfsState) : Prop where
  reached : ∀ v, s.color v = true ↔ Reaches g.arc root v
  dist : ∀ v, s.color v = true → IsDist g.arc root v (s.dist v)
  tree : ∀ v, s.color v = true → v ≠ root →
    s.color (s.parent v) = true ∧ v ∈ g.adj (s.parent v) ∧ s.dist v = s.dist (s.parent v) + 1
  uncolored : ∀ v, s.color v = false → s.parent v = nodeNone
  valid : ∀ v, s.color v = true → v < g.size
  short : ∀ v, s.color v = true → s.dist v < g.size

theorem Search.path (h : Search g root done s) (hv : s.color v = true) :
    Path g.arc root v (s.dist v) := by
  induction hn : s.dist v using Nat.strong_induction_on generalizing v with
  | _ n ih =>
    subst hn
    by_cases hroot : v = root
    · rw [hroot, h.atRoot.2]
      exact Path.nil
    · obtain ⟨hp, hadj, hd⟩ := h.tree v hv hroot
      rw [hd]
      exact (ih _ (by omega) hp rfl).snoc ⟨hadj, rfl⟩

theorem Search.found (h : Search g root done s) (hnil : s.queue = []) : Found g root s := by
  have hdone : ∀ v, s.color v = true ↔ v ∈ done := by
    intro v
    rw [h.colored, hnil, append_nil]
  -- the coloured nodes are closed under arcs
  have hbound : ∀ v c, Path g.arc root v c → s.color v = true ∧ s.dist v ≤ c := by
    intro v c hpath
    refine @Path.bound ℕ ℕ _ _ g.arc root v c _ (fun x => s.color x = true) s.dist hpath
      h.atRoot.1 h.atRoot.2 ?_
    rintro x y k hx ⟨hadj, rfl⟩
    exact h.closed x ((hdone x).mp hx) y hadj
  have hlen := h.length_le
  constructor
  · intro v
    constructor
    · exact fun hv => (h.path hv).reaches
    · rintro ⟨c, hpath⟩
      exact (hbound v c hpath).1
  · exact fun v hv => ⟨h.path hv, fun c hpath => (hbound v c hpath).2⟩
  · exact h.tree
  · exact h.uncolored
  · exact fun v hv => h.valid v ((h.colored v).mp hv)
  · exact fun v hv => (h.short v hv).trans_le hlen

/-- **Breadth-first search** finds the reachable nodes and a tree of shortest paths, wherever the
static iterator stands. -/
theorem bfs_spec (g : NixGraph) {root : ℕ} (hroot : root < g.size) (prev : EdgeIter) :
    ∃ s, g.bfs root prev = some s ∧ Found g root s := by
  obtain ⟨s, done, hrun, hsearch, hnil⟩ :=
    @Search.bfsLoop g root _ [] g.size (search_start hroot prev) (by simp)
  exact ⟨s, hrun, hsearch.found hnil⟩

end NixGraph

end NetSim
