import NetSim.Lib.Loops
import NetSim.Routing.Adjacency
import NetSim.Routing.HierTables

/-! # Hierarchical lookups lead to neighbours

The first hop of a route is an entry of the row of the node, so a lookup answers with a neighbour
(`hier_lookup_live`). The route to yourself is yourself, whether there is a link or not.

`hier_reset` does not allocate the matrices that it writes to, as `hier_insert` does, so the runs are
those in which the matrices of a reset were allocated by an insertion before (`Prepared`).
-/

namespace NetSim.Hier

open Function List StridedArray RouteLogic Loops

variable {g : Shape} {calls : List Call} {skip : Set (Addr × ℕ)} {t t' : Tables} {d c x v r : ℕ}
  {a b : Addr} {cost : ℤ}

/-! ## The macros are cells of one matrix -/

theorem nnIndex_eq (i j a b c : ℕ) : nnIndex i j a b c = index (a + b + c) i j := by
  rw [nnIndex, index, mul_comm]

theorem ncIndex_eq (i j a b c : ℕ) : ncIndex i j a b c = index (a + b + c) i (a + j) := by
  rw [ncIndex, index, mul_comm]

theorem ndIndex_eq (i j a b c : ℕ) :
    ndIndex i j a b c = index (a + b + c) i (a + (b - 1) + j) := by
  rw [ndIndex, index, mul_comm]

theorem ccIndex_eq (i j a b c : ℕ) : ccIndex i j a b c = index (a + b + c) (a + i) (a + j) := by
  rw [ccIndex, index, mul_comm]

theorem cdIndex_eq (i j a b c : ℕ) :
    cdIndex i j a b c = index (a + b + c) (a + i) (a + (b - 1) + j) := by
  rw [cdIndex, index, mul_comm]

theorem ddIndex_eq (i j a b c : ℕ) :
    ddIndex i j a b c = index (a + b + c) (a + (b - 1) + i) (a + (b - 1) + j) := by
  rw [ddIndex, index, mul_comm]

theorem clusterSize_idx (g : Shape) (d c : ℕ) : g.clusterSize (g.idx d c) = g.size d c := rfl

theorem size_add (g : Shape) (d c : ℕ) : g.size d c + g.C d + g.D = g.stride d c := rfl

theorem cluster_lt_stride {y : ℕ} (hy : y < g.C d) (c : ℕ) (hD : 1 ≤ g.D) :
    g.size d c + y < g.stride d c := by
  unfold Shape.stride
  omega

theorem domain_lt_stride {y : ℕ} (hy : y < g.D) (c : ℕ) (hC : 1 ≤ g.C d) :
    g.size d c + (g.C d - 1) + y < g.stride d c := by
  unfold Shape.stride
  omega

/-! ## Insertions -/

/-- The clusters whose matrices a link is entered in. -/
def Touches (a b : Addr) (d c : ℕ) : Prop :=
  a.domain = b.domain → d = a.domain ∧ (a.cluster = b.cluster → c = a.cluster)

/-- What an insertion does to the tables of a cluster. -/
def Inserts (g : Shape) (calls : List Call) (f : Tables → Option Tables) (d c : ℕ) : Prop :=
  ∀ t, Inv g calls ∅ t → ∃ t', f t = some t' ∧ Inv g calls ∅ t' ∧ Grows t t' ∧ Allocated g t' d c

theorem grows_refl (t : Tables) : Grows t t := fun _ h => h

theorem Grows.trans {t₁ t₂ t₃ : Tables} (h : Grows t₁ t₂) (h' : Grows t₂ t₃) : Grows t₁ t₃ :=
  fun i hi => h' i (h i hi)

theorem turns_insert {f : Tables → ℕ → Option Tables}
    (h : ∀ y, InCluster g d y → Inserts g calls (fun t => f t y) d y) (hd : 1 ≤ d ∧ d < g.D) :
    Turns f (Inv g calls ∅) Grows (fun y t => Allocated g t d y) (g.clusters d) where
  refl := grows_refl
  trans := fun _ _ _ h h' => h.trans h'
  keep := fun _ _ _ hq hr => hr _ hq
  turn := fun t y hy hinv => by
    obtain ⟨h1, h2⟩ := mem_clusters.mp hy
    exact h y ⟨hd.1, hd.2, h1, h2⟩ t hinv

theorem enter_link (h : Inv g calls ∅ t) (ha : InRange g a) (hb : InRange g b)
    (hlive : Live calls a b) (halloc : Allocated g t a.domain a.cluster) (hcol : col g a b = v)
    (hsize : g.size a.domain a.cluster < v) (cost : ℤ) :
    ∃ t₁ t₂, setAdj g (g.idx a.domain a.cluster)
        (index (g.stride a.domain a.cluster) a.node v) cost t = some t₁ ∧
      setConnect g (g.idx a.domain a.cluster)
        (a.node * (g.C a.domain + g.D) + (v - g.size a.domain a.cluster)) b t₁ = some t₂ ∧
      Inv g calls ∅ t₂ ∧ Grows t t₂ := by
  have hv : v < g.stride a.domain a.cluster := hcol ▸ col_lt hb
  let t₁ := written g a.domain a.cluster (index (g.stride a.domain a.cluster) a.node v) cost t
  have hwritten : Inv g calls {(a, v)} t₁ := h.writeNode ha hv cost
  refine ⟨t₁, connected g a b v t₁, ?_, Inv.setConnect_eq (t := t₁) halloc ha hv hsize b, ?_, grows_refl t⟩
  · exact h.setAdj_eq ha.cluster halloc (cell_lt ha.cluster (node_lt_stride ha) hv) cost
  · exact hwritten.connect ha hb hv hsize hcol hlive

theorem check_pseudo (hroom : Room g) (hdc : InCluster g d c) (h : Inv g calls ∅ t)
    (hr : g.size d c < r) (hr' : r < g.stride d c) (hv : v < g.stride d c) (cost : ℤ) :
    ∃ t₁ t₂, hierCheck g (g.idx d c) t = some t₁ ∧
      setAdj g (g.idx d c) (index (g.stride d c) r v) cost t₁ = some t₂ ∧
      Inv g calls ∅ t₂ ∧ Grows t t₂ ∧ Allocated g t₂ d c := by
  obtain ⟨t₁, hcheck, hinv, hgrows, halloc⟩ := h.check hroom hdc
  exact ⟨t₁, _, hcheck, hinv.setAdj_eq hdc halloc (cell_lt hdc hr' hv) cost,
    hinv.writePseudo hdc hr hv cost, hgrows, halloc⟩

theorem InRange.domains_pos (ha : InRange g a) : 1 ≤ g.D := by
  have := ha.cluster.2.1
  omega

theorem insertCluster_inserts (hroom : Room g) (ha : InRange g a) (hb : InRange g b)
    (hlive : Live calls a b) (hdom : a.domain = b.domain) (hcl : a.cluster ≠ b.cluster)
    {y : ℕ} (hy : InCluster g a.domain y) :
    Inserts g calls (fun t => insertCluster g a b cost t y) a.domain y := by
  intro t h
  have hbc : b.cluster < g.C a.domain := hdom ▸ hb.cluster.2.2.2
  obtain ⟨t₁, t₂, hcheck, hpseudo, hinv, hgrows, halloc⟩ := check_pseudo hroom hy h
    (Nat.lt_add_of_pos_right (n := g.size a.domain y) ha.cluster.2.2.1)
    (cluster_lt_stride ha.cluster.2.2.2 y ha.domains_pos) (cluster_lt_stride hbc y ha.domains_pos) cost
  by_cases hself : y = a.cluster
  · subst hself
    have hcol : col g a b = g.size a.domain a.cluster + b.cluster := by
      rw [col, if_pos hdom, if_neg hcl]
    obtain ⟨t₃, t₄, hnode, hconnect, hinv', hgrows'⟩ := enter_link hinv ha hb hlive halloc hcol
      (Nat.lt_add_of_pos_right hb.cluster.2.2.1) cost
    rw [Nat.add_sub_cancel_left] at hconnect
    refine ⟨t₄, ?_, hinv', hgrows.trans hgrows', hgrows' _ halloc⟩
    simp only [insertCluster, ccIndex_eq, ncIndex_eq, clusterSize_idx, size_add, Option.bind_eq_bind,
      hcheck, hpseudo, hnode, hconnect, Option.bind_some, if_true]
  · refine ⟨t₂, ?_, hinv, hgrows, halloc⟩
    simp only [insertCluster, ccIndex_eq, clusterSize_idx, size_add, Option.bind_eq_bind,
      hcheck, hpseudo, Option.bind_some, if_neg hself, Option.pure_def]

theorem insertDomains_inserts (hroom : Room g) (ha : InRange g a) (hb : InRange g b) {x y : ℕ}
    (hxy : InCluster g x y) : Inserts g calls (fun t => insertDomains g a b cost x t y) x y := by
  intro t h
  have hC : 1 ≤ g.C x := by
    have := hxy.2.2.2
    omega
  obtain ⟨t₁, t₂, hcheck, hpseudo, hinv⟩ := check_pseudo hroom hxy h
    (Nat.lt_add_of_pos_right (n := g.size x y + (g.C x - 1)) ha.cluster.1 |>.trans_le' (Nat.le_add_right _ _))
    (domain_lt_stride ha.cluster.2.1 y hC) (domain_lt_stride hb.cluster.2.1 y hC) cost
  refine ⟨t₂, ?_, hinv⟩
  simp only [insertDomains, ddIndex_eq, clusterSize_idx, size_add, Option.bind_eq_bind, hcheck,
    hpseudo, Option.bind_some]

theorem insertClusterDomain_inserts (hroom : Room g) (ha : InRange g a) (hb : InRange g b) {y : ℕ}
    (hy : InCluster g a.domain y) :
    Inserts g calls (fun t => insertClusterDomain g a b cost t y) a.domain y := by
  intro t h
  have hC : 1 ≤ g.C a.domain := by
    have := hy.2.2.2
    omega
  obtain ⟨t₁, t₂, hcheck, hpseudo, hinv⟩ := check_pseudo hroom hy h
    (Nat.lt_add_of_pos_right (n := g.size a.domain y) ha.cluster.2.2.1)
    (cluster_lt_stride ha.cluster.2.2.2 y ha.domains_pos) (domain_lt_stride hb.cluster.2.1 y hC) cost
  refine ⟨t₂, ?_, hinv⟩
  simp only [insertClusterDomain, cdIndex_eq, clusterSize_idx, size_add, Option.bind_eq_bind, hcheck,
    hpseudo, Option.bind_some]

/-- What an insertion of a link does. -/
def Enters (g : Shape) (calls : List Call) (a b : Addr) (cost : ℤ) : Prop :=
  ∀ t, Inv g calls ∅ t → ∃ t', hierInsert g a b cost t = some t' ∧ Inv g calls ∅ t' ∧ Grows t t' ∧
    ∀ d c, InCluster g d c → Touches a b d c → Allocated g t' d c

theorem enters_same_cluster (hroom : Room g) (ha : InRange g a) (hb : InRange g b)
    (hlive : Live calls a b) (hdom : a.domain = b.domain) (hcl : a.cluster = b.cluster) :
    Enters g calls a b cost := by
  intro t h
  have hcol : col g a b = b.node := by rw [col, if_pos hdom, if_pos hcl]
  have hv : b.node < g.stride a.domain a.cluster := hcol ▸ col_lt hb
  have hnode : ¬ g.size a.domain a.cluster < b.node := by
    have := hb.le
    rw [← hdom, ← hcl] at this
    omega
  obtain ⟨t₁, hcheck, hinv, hgrows, halloc⟩ := h.check hroom ha.cluster
  have hset := hinv.setAdj_eq ha.cluster halloc (cell_lt ha.cluster (node_lt_stride ha) hv) cost
  refine ⟨_, ?_, (hinv.writeNode ha hv cost).unskip ?_, hgrows, ?_⟩
  · simp only [hierInsert, if_pos hdom, if_pos hcl, nnIndex_eq, clusterSize_idx, size_add,
      Option.bind_eq_bind, hcheck, hset, Option.bind_some]
  · exact ⟨b, hb, hcol, hlive, fun hsize => absurd hsize hnode⟩
  · intro d c _ htouch
    obtain ⟨rfl, hc⟩ := htouch hdom
    rw [hc hcl]
    exact halloc

theorem enters_same_domain (hroom : Room g) (ha : InRange g a) (hb : InRange g b)
    (hlive : Live calls a b) (hdom : a.domain = b.domain) (hcl : a.cluster ≠ b.cluster) :
    Enters g calls a b cost := by
  intro t h
  have hinserts : ∀ y, InCluster g a.domain y →
      Inserts g calls (fun t => insertCluster g a b cost t y) a.domain y :=
    fun y hy => insertCluster_inserts hroom ha hb hlive hdom hcl hy
  obtain ⟨t', hloop, hinv, hgrows, halloc⟩ := foldlM_each
    (turns_insert hinserts ⟨ha.cluster.1, ha.cluster.2.1⟩) h
  refine ⟨t', ?_, hinv, hgrows, ?_⟩
  · simp only [hierInsert, if_pos hdom, if_neg hcl, hloop]
  · intro d c hdc htouch
    obtain ⟨rfl, -⟩ := htouch hdom
    exact halloc c (mem_clusters.mpr ⟨hdc.2.2.1, hdc.2.2.2⟩)

theorem turns_domains (hroom : Room g) (ha : InRange g a) (hb : InRange g b) :
    Turns (fun t x => (g.clusters x).foldlM (insertDomains g a b cost x) t) (Inv g calls ∅) Grows
      (fun x t => ∀ c ∈ g.clusters x, Allocated g t x c) g.domains where
  refl := grows_refl
  trans := fun _ _ _ h h' => h.trans h'
  keep := fun _ _ _ hq hr c hc => hr _ (hq c hc)
  turn := by
    intro t x hx hinv
    have hinserts : ∀ y, InCluster g x y →
        Inserts g calls (fun t => insertDomains g a b cost x t y) x y :=
      fun y hy => insertDomains_inserts hroom ha hb hy
    exact foldlM_each (turns_insert hinserts (mem_domains.mp hx)) hinv

theorem enters_domain (hroom : Room g) (ha : InRange g a) (hb : InRange g b)
    (hlive : Live calls a b) (hdom : a.domain ≠ b.domain) : Enters g calls a b cost := by
  intro t h
  have hcol : col g a b = g.size a.domain a.cluster + (g.C a.domain - 1) + b.domain := by
    rw [col, if_neg hdom]
  have hinserts : ∀ y, InCluster g a.domain y →
      Inserts g calls (fun t => insertClusterDomain g a b cost t y) a.domain y :=
    fun y hy => insertClusterDomain_inserts hroom ha hb hy
  obtain ⟨t₁, hdomains, hinv₁, hgrows₁, halloc⟩ := foldlM_each
    (@turns_domains g calls a b cost hroom ha hb) h
  obtain ⟨t₂, hclusters, hinv₂, hgrows₂, -⟩ := foldlM_each
    (turns_insert hinserts ⟨ha.cluster.1, ha.cluster.2.1⟩) hinv₁
  have hall : ∀ d c, InCluster g d c → Allocated g t₂ d c := by
    intro d c hdc
    exact hgrows₂ _ (halloc d (mem_domains.mpr ⟨hdc.1, hdc.2.1⟩) c
      (mem_clusters.mpr ⟨hdc.2.2.1, hdc.2.2.2⟩))
  have hsize : g.size a.domain a.cluster < g.size a.domain a.cluster + (g.C a.domain - 1) + b.domain := by
    have := hb.cluster.1
    omega
  obtain ⟨t₃, t₄, hnode, hconnect, hinv₄, hgrows₄⟩ := enter_link hinv₂ ha hb hlive
    (hall _ _ ha.cluster) hcol hsize cost
  have hend : g.size a.domain a.cluster + (g.C a.domain - 1) + b.domain - g.size a.domain a.cluster =
      g.C a.domain - 1 + b.domain := by
    omega
  rw [hend] at hconnect
  refine ⟨t₄, ?_, hinv₄, (hgrows₁.trans hgrows₂).trans hgrows₄,
    fun d c hdc _ => hgrows₄ _ (hall d c hdc)⟩
  simp only [hierInsert, if_neg hdom, ndIndex_eq, clusterSize_idx, size_add, Option.bind_eq_bind,
    hdomains, hclusters, hnode, hconnect, Option.bind_some]

/-- **An insertion** goes through, keeps the invariant and allocates the matrices of its clusters. -/
theorem hierInsert_enters (hroom : Room g) (ha : InRange g a) (hb : InRange g b)
    (hlive : Live calls a b) : Enters g calls a b cost := by
  by_cases hdom : a.domain = b.domain
  · by_cases hcl : a.cluster = b.cluster
    · exact enters_same_cluster hroom ha hb hlive hdom hcl
    · exact enters_same_domain hroom ha hb hlive hdom hcl
  · exact enters_domain hroom ha hb hlive hdom

/-! ## Resets -/

/-- What a reset does to the tables: it writes `INFINITY` only. -/
structure Quiet (t t' : Tables) : Prop where
  hsize : t'.hsize = t.hsize
  inf : ∀ i x, t.hadj i x = infCost → t'.hadj i x = infCost

theorem quiet_refl (t : Tables) : Quiet t t := ⟨rfl, fun _ _ h => h⟩

theorem Quiet.trans {t₁ t₂ t₃ : Tables} (h : Quiet t₁ t₂) (h' : Quiet t₂ t₃) : Quiet t₁ t₃ :=
  ⟨h'.hsize.trans h.hsize, fun i x hx => h'.inf i x (h.inf i x hx)⟩

theorem Quiet.allocated (h : Quiet t t') (halloc : Allocated g t d c) : Allocated g t' d c := by
  rw [Allocated, h.hsize]
  exact halloc

/-- The entry of the link in the row of its node. -/
def cellOf (g : Shape) (a b : Addr) : ℕ := index (g.stride a.domain a.cluster) a.node (col g a b)

theorem reset_write (h : Inv g calls skip t) (hdc : InCluster g d c) (halloc : Allocated g t d c)
    (hr : r < g.stride d c) (hv : v < g.stride d c) :
    ∃ t', setAdj g (g.idx d c) (index (g.stride d c) r v) infCost t = some t' ∧
      Inv g calls skip t' ∧ Quiet t t' ∧
      t'.hadj (g.idx d c) (index (g.stride d c) r v) = infCost := by
  refine ⟨_, h.setAdj_eq hdc halloc (cell_lt hdc hr hv) infCost, h.writeInf d c _, ⟨rfl, ?_⟩,
    written_self⟩
  intro i x hx
  dsimp only [written]
  by_cases hi : i = g.idx d c
  · subst hi
    rw [update_self]
    by_cases he : x = index (g.stride d c) r v
    · rw [he, update_self]
    · rw [update_of_ne he]
      exact hx
  · rw [update_of_ne hi]
    exact hx

/-- What the turn of a reset does for a cluster. -/
def Resets (g : Shape) (calls : List Call) (skip : Set (Addr × ℕ)) (a b : Addr)
    (f : Tables → Option Tables) (d c : ℕ) : Prop :=
  ∀ t, Inv g calls skip t → Allocated g t d c →
    ∃ t', f t = some t' ∧ Inv g calls skip t' ∧ Quiet t t' ∧
      (d = a.domain → c = a.cluster → t'.hadj (g.idx a.domain a.cluster) (cellOf g a b) = infCost)

theorem resetCluster_resets (ha : InRange g a) (hb : InRange g b) (hdom : a.domain = b.domain)
    (hcl : a.cluster ≠ b.cluster) {y : ℕ} (hy : InCluster g a.domain y) :
    Resets g calls skip a b (fun t => resetCluster g a b t y) a.domain y := by
  intro t h halloc
  have hbc : b.cluster < g.C a.domain := hdom ▸ hb.cluster.2.2.2
  obtain ⟨t₁, hpseudo, hinv, hquiet, -⟩ := reset_write h hy halloc
    (cluster_lt_stride ha.cluster.2.2.2 y ha.domains_pos) (cluster_lt_stride hbc y ha.domains_pos)
  by_cases hself : y = a.cluster
  · subst hself
    have hcol : col g a b = g.size a.domain a.cluster + b.cluster := by
      rw [col, if_pos hdom, if_neg hcl]
    have hcell : cellOf g a b = index (g.stride a.domain a.cluster) a.node
        (g.size a.domain a.cluster + b.cluster) := by
      rw [cellOf, hcol]
    obtain ⟨t₂, hnode, hinv', hquiet', hinf⟩ := reset_write hinv hy (hquiet.allocated halloc)
      (node_lt_stride ha) (hcol ▸ col_lt hb)
    refine ⟨t₂, ?_, hinv', hquiet.trans hquiet', fun _ _ => hcell ▸ hinf⟩
    simp only [resetCluster, ccIndex_eq, ncIndex_eq, clusterSize_idx, size_add, Option.bind_eq_bind,
      hpseudo, hnode, Option.bind_some, if_true]
  · refine ⟨t₁, ?_, hinv, hquiet, fun _ hc => absurd hc hself⟩
    simp only [resetCluster, ccIndex_eq, clusterSize_idx, size_add, Option.bind_eq_bind, hpseudo,
      Option.bind_some, if_neg hself, Option.pure_def]

theorem resetDomain_resets (ha : InRange g a) (hb : InRange g b) (hdom : a.domain ≠ b.domain)
    {x y : ℕ} (hxy : InCluster g x y) :
    Resets g calls skip a b (fun t => resetDomain g a b x t y) x y := by
  intro t h halloc
  have hC : 1 ≤ g.C x := by
    have := hxy.2.2.2
    omega
  obtain ⟨t₁, hpseudo, hinv₁, hquiet₁, -⟩ := reset_write h hxy halloc
    (domain_lt_stride ha.cluster.2.1 y hC) (domain_lt_stride hb.cluster.2.1 y hC)
  by_cases hx : x = a.domain
  · subst hx
    obtain ⟨t₂, hcluster, hinv₂, hquiet₂, -⟩ := reset_write hinv₁ hxy (hquiet₁.allocated halloc)
      (cluster_lt_stride ha.cluster.2.2.2 y ha.domains_pos) (domain_lt_stride hb.cluster.2.1 y hC)
    have hquiet := hquiet₁.trans hquiet₂
    by_cases hself : y = a.cluster
    · subst hself
      have hcol : col g a b = g.size a.domain a.cluster + (g.C a.domain - 1) + b.domain := by
        rw [col, if_neg hdom]
      have hcell : cellOf g a b = index (g.stride a.domain a.cluster) a.node
          (g.size a.domain a.cluster + (g.C a.domain - 1) + b.domain) := by
        rw [cellOf, hcol]
      obtain ⟨t₃, hnode, hinv₃, hquiet₃, hinf⟩ := reset_write hinv₂ hxy (hquiet.allocated halloc)
        (node_lt_stride ha) (hcol ▸ col_lt hb)
      refine ⟨t₃, ?_, hinv₃, hquiet.trans hquiet₃, fun _ _ => hcell ▸ hinf⟩
      simp only [resetDomain, ddIndex_eq, cdIndex_eq, ndIndex_eq, clusterSize_idx, size_add,
        Option.bind_eq_bind, hpseudo, hcluster, hnode, Option.bind_some, if_true]
    · refine ⟨t₂, ?_, hinv₂, hquiet, fun _ hc => absurd hc hself⟩
      simp only [resetDomain, ddIndex_eq, cdIndex_eq, clusterSize_idx, size_add,
        Option.bind_eq_bind, hpseudo, hcluster, Option.bind_some, if_neg hself, if_true,
        Option.pure_def]
  · refine ⟨t₁, ?_, hinv₁, hquiet₁, fun hd _ => absurd hd hx⟩
    simp only [resetDomain, ddIndex_eq, clusterSize_idx, size_add, Option.bind_eq_bind, hpseudo,
      Option.bind_some, if_neg hx, Option.pure_def]

theorem turns_reset {f : Tables → ℕ → Option Tables}
    (h : ∀ y, InCluster g d y → Resets g calls skip a b (fun t => f t y) d y)
    (hd : 1 ≤ d ∧ d < g.D) :
    Turns f (fun t => Inv g calls skip t ∧ ∀ y, InCluster g d y → Allocated g t d y) Quiet
      (fun y t => d = a.domain → y = a.cluster →
        t.hadj (g.idx a.domain a.cluster) (cellOf g a b) = infCost)
      (g.clusters d) where
  refl := quiet_refl
  trans := fun _ _ _ h h' => h.trans h'
  keep := fun _ _ _ hq hr hdom hcl => hr.inf _ _ (hq hdom hcl)
  turn := fun t y hy hinv => by
    obtain ⟨h1, h2⟩ := mem_clusters.mp hy
    have hdy : InCluster g d y := ⟨hd.1, hd.2, h1, h2⟩
    obtain ⟨t', hturn, hinv', hquiet, hinf⟩ := h y hdy t hinv.1 (hinv.2 y hdy)
    exact ⟨t', hturn, ⟨hinv', fun c hc => hquiet.allocated (hinv.2 c hc)⟩, hquiet, hinf⟩

theorem turns_reset_domains (ha : InRange g a) (hb : InRange g b) (hdom : a.domain ≠ b.domain) :
    Turns (fun t x => (g.clusters x).foldlM (resetDomain g a b x) t)
      (fun t => Inv g calls skip t ∧ ∀ d c, InCluster g d c → Allocated g t d c) Quiet
      (fun x t => ∀ y ∈ g.clusters x, x = a.domain → y = a.cluster →
        t.hadj (g.idx a.domain a.cluster) (cellOf g a b) = infCost)
      g.domains where
  refl := quiet_refl
  trans := fun _ _ _ h h' => h.trans h'
  keep := fun _ _ _ hq hr y hy hx hcl => hr.inf _ _ (hq y hy hx hcl)
  turn := fun t x hx hinv => by
    obtain ⟨t', hloop, hinv', hquiet, hinf⟩ := foldlM_each
      (turns_reset (fun y hy => resetDomain_resets ha hb hdom hy) (mem_domains.mp hx))
      ⟨hinv.1, fun y hy => hinv.2 x y hy⟩
    exact ⟨t', hloop, ⟨hinv'.1, fun d c hdc => hquiet.allocated (hinv.2 d c hdc)⟩, hquiet, hinf⟩

/-- **A reset** of allocated matrices goes through and takes the entry of the link away. -/
theorem hierReset_resets (ha : InRange g a) (hb : InRange g b) (h : Inv g calls skip t)
    (halloc : ∀ d c, InCluster g d c → Touches a b d c → Allocated g t d c) :
    ∃ t', hierReset g a b t = some t' ∧ Inv g calls skip t' ∧ Quiet t t' ∧
      t'.hadj (g.idx a.domain a.cluster) (cellOf g a b) = infCost := by
  by_cases hdom : a.domain = b.domain
  · by_cases hcl : a.cluster = b.cluster
    · have hcol : col g a b = b.node := by rw [col, if_pos hdom, if_pos hcl]
      have hcell : cellOf g a b = index (g.stride a.domain a.cluster) a.node b.node := by
        rw [cellOf, hcol]
      obtain ⟨t', hnode, hinv, hquiet, hinf⟩ := reset_write h ha.cluster
        (halloc _ _ ha.cluster (fun _ => ⟨rfl, fun _ => rfl⟩)) (node_lt_stride ha)
        (hcol ▸ col_lt hb)
      refine ⟨t', ?_, hinv, hquiet, hcell ▸ hinf⟩
      simp only [hierReset, if_pos hdom, if_pos hcl, nnIndex_eq, clusterSize_idx, size_add, hnode]
    · obtain ⟨t', hloop, hinv, hquiet, hinf⟩ := foldlM_each
        (turns_reset (fun y hy => resetCluster_resets ha hb hdom hcl hy)
          ⟨ha.cluster.1, ha.cluster.2.1⟩)
        ⟨h, fun y hy => halloc _ y hy (fun _ => ⟨rfl, fun he => absurd he hcl⟩)⟩
      refine ⟨t', ?_, hinv.1, hquiet,
        hinf a.cluster (mem_clusters.mpr ⟨ha.cluster.2.2.1, ha.cluster.2.2.2⟩) rfl rfl⟩
      simp only [hierReset, if_pos hdom, if_neg hcl, hloop]
  · obtain ⟨t', hloop, hinv, hquiet, hinf⟩ := foldlM_each (turns_reset_domains ha hb hdom)
      ⟨h, fun d c hdc => halloc d c hdc (fun he => absurd he hdom)⟩
    refine ⟨t', ?_, hinv.1, hquiet,
      hinf a.domain (mem_domains.mpr ⟨ha.cluster.1, ha.cluster.2.1⟩) a.cluster
        (mem_clusters.mpr ⟨ha.cluster.2.2.1, ha.cluster.2.2.2⟩) rfl rfl⟩
    simp only [hierReset, if_neg hdom, hloop]

/-! ## Runs -/

/-- The ends of the link of a call are nodes. -/
def Call.InRange (g : Shape) : Call → Prop
  | .insert a b _ => Hier.InRange g a ∧ Hier.InRange g b
  | .reset a b => Hier.InRange g a ∧ Hier.InRange g b

instance (g : Shape) : DecidablePred (Call.InRange g)
  | .insert _ _ _ => inferInstanceAs (Decidable (_ ∧ _))
  | .reset _ _ => inferInstanceAs (Decidable (_ ∧ _))

/-- A link was inserted that is entered in the matrix of the cluster. -/
def Entered (calls : List Call) (d c : ℕ) : Prop :=
  ∃ a b cost, .insert a b cost ∈ calls ∧ Touches a b d c

def Prepared (g : Shape) (calls : List Call) : Prop :=
  ∀ pre a b post, calls = pre ++ .reset a b :: post →
    ∀ d c, InCluster g d c → Touches a b d c → Entered pre d c

theorem Prepared.init {c : Call} (h : Prepared g (calls ++ [c])) : Prepared g calls := by
  intro pre a b post he
  exact h pre a b (post ++ [c]) (by rw [he, append_assoc, cons_append])

/-- By induction on the calls, in their order. -/
theorem run_inv (hroom : Room g) (hrange : ∀ call ∈ calls, call.InRange g)
    (hprepared : Prepared g calls) :
    ∃ t, calls.foldlM (step g) hierInit = some t ∧ Inv g calls ∅ t ∧
      ∀ d c, InCluster g d c → Entered calls d c → Allocated g t d c := by
  induction calls using List.reverseRecOn with
  | nil =>
    refine ⟨hierInit, rfl, inv_init, ?_⟩
    intro d c _ hentered
    obtain ⟨_, _, _, hmem, _⟩ := hentered
    exact absurd hmem not_mem_nil
  | append_singleton calls call ih =>
    obtain ⟨t, hrun, hinv, halloc⟩ := ih
      (fun c hc => hrange c (mem_append_left _ hc)) hprepared.init
    have hcall := hrange call (mem_append_right _ mem_cons_self)
    cases call with
    | insert a b cost =>
      have henters : Enters g (calls ++ [.insert a b cost]) a b cost :=
        hierInsert_enters hroom hcall.1 hcall.2 live_insert
      obtain ⟨t', hinsert, hinv', hgrows, htouched⟩ := henters t (hinv.insert a b cost)
      refine ⟨t', ?_, hinv', ?_⟩
      · rw [foldlM_append, hrun]
        simp [step, hinsert]
      · intro d c hdc hentered
        obtain ⟨a', b', cost', hmem, htouch⟩ := hentered
        rcases mem_append.mp hmem with hmem | hmem
        · exact hgrows _ (halloc d c hdc ⟨a', b', cost', hmem, htouch⟩)
        · obtain ⟨rfl, rfl, rfl⟩ := Call.insert.inj (mem_singleton.mp hmem)
          exact htouched d c hdc htouch
    | reset a b =>
      obtain ⟨t', hreset, hinv', hquiet, hinf⟩ := hierReset_resets hcall.1 hcall.2
        (hinv.reset a b) (fun d c hdc htouch =>
          halloc d c hdc (hprepared calls a b [] rfl d c hdc htouch))
      refine ⟨t', ?_, hinv'.unskip_inf hinf, ?_⟩
      · rw [foldlM_append, hrun]
        simp [step, hreset]
      · intro d c hdc hentered
        obtain ⟨a', b', cost', hmem, htouch⟩ := hentered
        rcases mem_append.mp hmem with hmem | hmem
        · exact hquiet.allocated (halloc d c hdc ⟨a', b', cost', hmem, htouch⟩)
        · exact absurd (mem_singleton.mp hmem) (by simp)

/-! ## Routes -/

/-- The routes that `hier_compute` copies for a cluster. -/
def routes (g : Shape) (hopcnt : ℕ → ℕ → ℚ) (t : Tables) (d c : ℕ) : ℕ → ℕ → ℕ :=
  hierComputeRoutes (hopcnt (g.idx d c))
    (fun n m => (t.hadj (g.idx d c) (index (g.stride d c) n m) : ℚ)) (g.stride d c)

/-- The table of a cluster holds its routes. -/
def Computed (g : Shape) (hopcnt : ℕ → ℕ → ℚ) (t₀ t : Tables) (d c : ℕ) : Prop :=
  ∀ n m, n < g.stride d c → m < g.stride d c →
    t.hroute (g.idx d c) (index (g.stride d c) n m) = routes g hopcnt t₀ d c n m

/-- The tables differ in `hroute_` only. -/
structure Alike (t t' : Tables) : Prop where
  hsize : t'.hsize = t.hsize
  hadj : t'.hadj = t.hadj
  hconnect : t'.hconnect = t.hconnect

/-- What computing routes does: no computed table is lost. -/
def Computes (g : Shape) (hopcnt : ℕ → ℕ → ℚ) (t₀ t t' : Tables) : Prop :=
  ∀ d c, InCluster g d c → Computed g hopcnt t₀ t d c → Computed g hopcnt t₀ t' d c

theorem computeCluster_computes (hopcnt : ℕ → ℕ → ℚ) {t₀ : Tables}
    (hsizes : ∀ d c, InCluster g d c → t₀.hsize (g.idx d c) = area g d c) (hdc : InCluster g d c)
    (h : Alike t₀ t) :
    ∃ t', computeCluster g hopcnt d t c = some t' ∧ Alike t₀ t' ∧ Computes g hopcnt t₀ t t' ∧
      Computed g hopcnt t₀ t' d c := by
  have hcells : g.stride d c * g.stride d c ≤ t.hsize (g.idx d c) := by
    rw [h.hsize, hsizes d c hdc]
    exact stride_le hdc
  let t' : Tables :=
    { t with
      hroute := update t.hroute (g.idx d c)
        (mapBlock (fun n m _ => (routes g hopcnt t₀ d c n m : ℤ)) (g.stride d c) (g.stride d c)
          (t.hroute (g.idx d c))) }
  have hself : Computed g hopcnt t₀ t' d c := by
    intro n m hn hm
    dsimp only [t']
    rw [update_self, mapBlock_index le_rfl _ hm, if_pos ⟨hn, hm⟩]
  refine ⟨t', ?_, ⟨h.hsize, h.hadj, h.hconnect⟩, ?_, hself⟩
  · simp only [computeCluster, clusterSize_idx, size_add, idx_lt hdc, hcells,
      and_self, guard_true, Option.bind_eq_bind, Option.pure_def, Option.bind_some]
    dsimp only [t', routes]
    rw [h.hadj]
  · intro d' c' hdc' hcomputed
    by_cases he : g.idx d' c' = g.idx d c
    · obtain ⟨rfl, rfl⟩ := (idx_inj hdc' hdc).mp he
      exact hself
    · intro n m hn hm
      dsimp only [t']
      rw [update_of_ne he]
      exact hcomputed n m hn hm

theorem turns_compute (hopcnt : ℕ → ℕ → ℚ) {t₀ : Tables}
    (hsizes : ∀ d c, InCluster g d c → t₀.hsize (g.idx d c) = area g d c) (hd : 1 ≤ d ∧ d < g.D) :
    Turns (computeCluster g hopcnt d) (Alike t₀) (Computes g hopcnt t₀)
      (fun c t => InCluster g d c → Computed g hopcnt t₀ t d c) (g.clusters d) where
  refl := fun _ _ _ _ h => h
  trans := fun _ _ _ h h' d c hdc hcomputed => h' d c hdc (h d c hdc hcomputed)
  keep := fun _ _ _ hq hr hdc => hr _ _ hdc (hq hdc)
  turn := fun t c hc h => by
    obtain ⟨h1, h2⟩ := mem_clusters.mp hc
    obtain ⟨t', hturn, halike, hcomputes, hself⟩ :=
      computeCluster_computes hopcnt hsizes (c := c) ⟨hd.1, hd.2, h1, h2⟩ h
    exact ⟨t', hturn, halike, hcomputes, fun _ => hself⟩

theorem turns_compute_domains (hopcnt : ℕ → ℕ → ℚ) {t₀ : Tables}
    (hsizes : ∀ d c, InCluster g d c → t₀.hsize (g.idx d c) = area g d c) :
    Turns (fun t d => (g.clusters d).foldlM (computeCluster g hopcnt d) t) (Alike t₀)
      (Computes g hopcnt t₀)
      (fun d t => ∀ c ∈ g.clusters d, InCluster g d c → Computed g hopcnt t₀ t d c) g.domains where
  refl := fun _ _ _ _ h => h
  trans := fun _ _ _ h h' d c hdc hcomputed => h' d c hdc (h d c hdc hcomputed)
  keep := fun _ _ _ hq hr c hc hdc => hr _ _ hdc (hq c hc hdc)
  turn := fun _ _ hd h => foldlM_each (turns_compute hopcnt hsizes (mem_domains.mp hd)) h

theorem hierCompute_computed (hopcnt : ℕ → ℕ → ℚ)
    (hsizes : ∀ d c, InCluster g d c → t.hsize (g.idx d c) = area g d c) :
    ∃ t', hierCompute g hopcnt t = some t' ∧ Alike t t' ∧
      ∀ d c, InCluster g d c → Computed g hopcnt t t' d c := by
  obtain ⟨t', hloop, halike, -, hcomputed⟩ := foldlM_each (turns_compute_domains hopcnt hsizes)
    (s := t) ⟨rfl, rfl, rfl⟩
  refine ⟨t', hloop, halike, fun d c hdc => ?_⟩
  exact hcomputed d (mem_domains.mpr ⟨hdc.1, hdc.2.1⟩) c
    (mem_clusters.mpr ⟨hdc.2.2.1, hdc.2.2.2⟩) hdc

/-- The matrix of a cluster, as a matrix of flat routing. -/
def flat (g : Shape) (t : Tables) (d c : ℕ) : Adjacency Unit where
  size := g.stride d c
  adj := fun x => ⟨(t.hadj (g.idx d c) x : ℚ), none⟩

theorem routes_eq (g : Shape) (hopcnt : ℕ → ℕ → ℚ) (t : Tables) (d c : ℕ) :
    routes g hopcnt t d c =
      Adjacency.nextHops ((flat g t d c).computeRoutes (hopcnt (g.idx d c))) := by
  have hcosts := (flat g t d c).computeRoutes_costs (hopcnt (g.idx d c))
  unfold routes hierComputeRoutes
  have harg : ({ size := g.stride d c,
                 adj := fun n m => (t.hadj (g.idx d c) (index (g.stride d c) n m) : ℚ),
                 route := none } : RouteLogic) = (flat g t d c).costs := rfl
  rw [harg, hcosts, Option.getD_some]

theorem routes_self (g : Shape) (hopcnt : ℕ → ℕ → ℚ) (t : Tables) (d c : ℕ) {k : ℕ}
    (hk : Node (g.stride d c) k) : routes g hopcnt t d c k k = k := by
  unfold routes hierComputeRoutes RouteLogic.computeRoutes
  rw [Option.getD_some, foldl_self, if_pos ⟨mem_nodes.mpr hk, rfl⟩]

theorem routes_hop (g : Shape) (hopcnt : ℕ → ℕ → ℚ) (t : Tables) (d c : ℕ) {k w : ℕ} (hkw : k ≠ w) :
    routes g hopcnt t d c k w = 0 ∨
      Node (g.stride d c) (routes g hopcnt t d c k w) ∧
        t.hadj (g.idx d c) (index (g.stride d c) k (routes g hopcnt t d c k w)) ≠ infCost := by
  rw [routes_eq]
  rcases (flat g t d c).computeRoutes_linked (hopcnt (g.idx d c)) hkw with h | h
  · exact Or.inl h.1
  · refine Or.inr ⟨h.1, fun hinf => h.2.1 ?_⟩
    refine (congrArg Int.cast hinf).trans ?_
    norm_num [infinity]

/-! ## Lookups -/

theorem lookupHier_eq (ha : InRange g a) (hb : InRange g b)
    (halloc : t.hsize (g.idx a.domain a.cluster) = area g a.domain a.cluster)
    (hne : t.hsize (g.idx a.domain a.cluster) ≠ 0) {hop : ℕ}
    (hroute : t.hroute (g.idx a.domain a.cluster) (cellOf g a b) = hop) :
    lookupHier g t a b =
      if 0 < hop then
        (getAddress g t hop (g.idx a.domain a.cluster) a.domain (g.size a.domain a.cluster) a).map
          (fun target => .ok (some target))
      else some (.ok none) := by
  have ha1 := ha.cluster.1
  have ha2 := ha.cluster.2.2.1
  have ha3 := ha.pos
  have hb1 := hb.cluster.1
  have hb3 := hb.pos
  have hsrc : ¬ (a.domain = 0 ∨ a.cluster = 0 ∨ a.node = 0) := by omega
  have hdst : b.domain ≠ 0 := by omega
  have hcell : cellOf g a b < t.hsize (g.idx a.domain a.cluster) := by
    rw [halloc]
    exact cell_lt ha.cluster (node_lt_stride ha) (col_lt hb)
  have hget : getRoute g t (g.idx a.domain a.cluster) (cellOf g a b) = some (hop : ℤ) := by
    simp only [getRoute, idx_lt ha.cluster, hcell, and_self, guard_true, Option.bind_eq_bind,
      Option.pure_def, Option.bind_some, hroute]
  -- what follows the three ways to read the next hop
  have hrest : (do
      let nextHop ← getRoute g t (g.idx a.domain a.cluster) (cellOf g a b)
      if 0 < nextHop then do
        let target ← getAddress g t nextHop.toNat (g.idx a.domain a.cluster) a.domain
          (g.size a.domain a.cluster) a
        pure (Except.ok (some target))
      else pure (Except.ok none) : Option (Except LookupError (Option Addr))) =
      if 0 < hop then
        (getAddress g t hop (g.idx a.domain a.cluster) a.domain (g.size a.domain a.cluster) a).map
          (fun target => .ok (some target))
      else some (.ok none) := by
    rw [hget]
    by_cases hpos : 0 < hop
    · have hpos' : (0 : ℤ) < hop := by exact_mod_cast hpos
      simp only [Option.bind_eq_bind, Option.bind_some, if_pos hpos, if_pos hpos', Int.toNat_natCast]
      cases getAddress g t hop (g.idx a.domain a.cluster) a.domain (g.size a.domain a.cluster) a <;> rfl
    · have hpos' : ¬ (0 : ℤ) < hop := by exact_mod_cast hpos
      simp only [Option.bind_eq_bind, Option.bind_some, if_neg hpos, if_neg hpos', Option.pure_def]
  rw [← hrest]
  unfold lookupHier
  rw [if_neg hsrc, if_neg hdst]
  rw [if_neg hne, if_neg (not_not.mpr (Or.inl ha.cluster.2.1)), clusterSize_idx, ndIndex_eq,
    ncIndex_eq, nnIndex_eq, size_add, cellOf, col]
  by_cases hdom : a.domain = b.domain
  · by_cases hcl : a.cluster = b.cluster
    · rw [if_neg (by omega), if_neg (by omega), if_pos hdom, if_pos hcl]
    · rw [if_neg (by omega), if_pos (Or.inr hcl), if_pos hdom, if_neg hcl]
  · rw [if_pos (Or.inr hdom), if_neg hdom]

theorem getAddress_of_hop (h : Hop g calls (t.hconnect (g.idx a.domain a.cluster)) a v)
    (ha : InRange g a) (hv : v < g.stride a.domain a.cluster)
    (halloc : 0 < t.hsize (g.idx a.domain a.cluster)) :
    ∃ b, InRange g b ∧ Live calls a b ∧
      getAddress g t v (g.idx a.domain a.cluster) a.domain (g.size a.domain a.cluster) a =
        some b.text := by
  obtain ⟨b, hb, hcol, hlive, hend⟩ := h
  refine ⟨b, hb, hlive, ?_⟩
  by_cases hle : v ≤ g.size a.domain a.cluster
  · have heq := eq_of_col_le hb (hcol ▸ hle)
    rw [getAddress, if_pos hle, heq, hcol]
  · have hsize : g.size a.domain a.cluster < v := by omega
    have hconnect : getConnect g t (g.idx a.domain a.cluster)
        (a.node * (g.C a.domain + g.D) + (v - g.size a.domain a.cluster)) = some b.text := by
      rw [← hend hsize]
      simp only [getConnect, idx_lt ha.cluster, halloc, connect_lt ha hv hsize, and_self, guard_true,
        Option.bind_eq_bind, Option.pure_def, Option.bind_some]
    rw [getAddress, if_neg hle]
    split
    · exact hconnect
    · have hcell : g.C a.domain - 1 + (v - g.size a.domain a.cluster - (g.C a.domain - 1)) =
          v - g.size a.domain a.cluster := by
        omega
      dsimp only
      rw [hcell]
      exact hconnect

theorem getAddress_self (ha : InRange g a) (t : Tables) :
    getAddress g t a.node (g.idx a.domain a.cluster) a.domain (g.size a.domain a.cluster) a =
      some a.text := by
  rw [getAddress, if_pos ha.le]

def Populated (g : Shape) (calls : List Call) : Prop :=
  ∀ d c, InCluster g d c → ∃ a b cost, .insert a b cost ∈ calls ∧
    (a.domain = d ∧ a.cluster = c ∨ b.domain = d ∧ b.cluster = c)

theorem Populated.entered (h : Populated g calls) (hdc : InCluster g d c) : Entered calls d c := by
  obtain ⟨a, b, cost, hmem, hends⟩ := h d c hdc
  refine ⟨a, b, cost, hmem, fun hdom => ?_⟩
  rcases hends with ⟨rfl, rfl⟩ | ⟨rfl, rfl⟩
  · exact ⟨rfl, fun _ => rfl⟩
  · exact ⟨hdom.symm, fun hcl => hcl.symm⟩

theorem area_pos (hdc : InCluster g d c) : 0 < area g d c := by
  have hd := hdc.2.1
  exact Nat.mul_pos (by omega) (by omega)

/-- **Lookups lead to neighbours.** After any insertions and prepared resets the lookup of another
address is `-1` or the end of a link that was inserted and not reset since; that of the own address is
the own address. -/
theorem hier_lookup_live (hroom : Room g) (hrange : ∀ call ∈ calls, call.InRange g)
    (hprepared : Prepared g calls) :
    ∃ t, calls.foldlM (step g) hierInit = some t ∧
      (Populated g calls → ∀ hopcnt : ℕ → ℕ → ℚ, ∃ t', hierCompute g hopcnt t = some t' ∧
        ∀ src dst, InRange g src → InRange g dst →
          ∃ r, lookupHier g t' src dst = some (.ok r) ∧
            (src = dst → r = some src.text) ∧
            (src ≠ dst → r = none ∨ ∃ b, InRange g b ∧ Live calls src b ∧ r = some b.text)) := by
  obtain ⟨t, hrun, hinv, halloc⟩ := run_inv hroom hrange hprepared
  refine ⟨t, hrun, fun hpopulated hopcnt => ?_⟩
  have hsizes : ∀ d c, InCluster g d c → t.hsize (g.idx d c) = area g d c := fun d c hdc =>
    hinv.hsize_eq hdc (halloc d c hdc (hpopulated.entered hdc))
  obtain ⟨t', hcompute, halike, hcomputed⟩ := hierCompute_computed hopcnt hsizes
  refine ⟨t', hcompute, fun src dst hsrc hdst => ?_⟩
  have hsize : t'.hsize (g.idx src.domain src.cluster) = area g src.domain src.cluster := by
    rw [halike.hsize, hsizes _ _ hsrc.cluster]
  have hpos : 0 < t'.hsize (g.idx src.domain src.cluster) := hsize ▸ area_pos hsrc.cluster
  have hlookup := lookupHier_eq hsrc hdst hsize hpos.ne'
    (hcomputed _ _ hsrc.cluster _ _ (node_lt_stride hsrc) (col_lt hdst))
  have hnode : Node (g.stride src.domain src.cluster) src.node := ⟨hsrc.pos, node_lt_stride hsrc⟩
  by_cases hself : src = dst
  · subst hself
    have hcol : col g src src = src.node := by rw [col, if_pos rfl, if_pos rfl]
    rw [hcol, routes_self g hopcnt t _ _ hnode, if_pos (Nat.lt_of_lt_of_le Nat.one_pos hsrc.pos), getAddress_self hsrc] at hlookup
    exact ⟨_, hlookup, fun _ => rfl, fun hne => absurd rfl hne⟩
  · rcases routes_hop g hopcnt t src.domain src.cluster (col_ne hsrc hdst hself).symm with hhop | hhop
    · rw [hhop, if_neg (lt_irrefl 0)] at hlookup
      exact ⟨_, hlookup, fun he => absurd he hself, fun _ => Or.inl rfl⟩
    · have hrow := hinv.rows src _ hsrc hhop.1.2 (Set.notMem_empty _)
        (halloc _ _ hsrc.cluster (hpopulated.entered hsrc.cluster)) hhop.2
      rw [← halike.hconnect] at hrow
      obtain ⟨b, hb, hlive, haddress⟩ := getAddress_of_hop hrow hsrc hhop.1.2 hpos
      rw [if_pos (Nat.lt_of_lt_of_le Nat.one_pos hhop.1.1), haddress] at hlookup
      exact ⟨_, hlookup, fun he => absurd he hself, fun _ => Or.inr ⟨b, hb, hlive, rfl⟩⟩

/-! ## Two domains of two clusters -/

/-- Two nodes in each of four clusters. -/
def grid : Shape := ⟨3, fun _ => 3, fun _ => 2⟩

/-- A chain of links through all clusters. -/
def gridLinks : List Call :=
  [.insert ⟨1, 1, 1⟩ ⟨1, 1, 2⟩ 1, .insert ⟨1, 1, 2⟩ ⟨1, 2, 1⟩ 1, .insert ⟨1, 2, 1⟩ ⟨2, 1, 1⟩ 1,
    .insert ⟨2, 1, 1⟩ ⟨2, 2, 1⟩ 1]

theorem grid_cluster {d c : ℕ} (h : InCluster grid d c) : (d = 1 ∨ d = 2) ∧ (c = 1 ∨ c = 2) := by
  have h1 : d < 3 := h.2.1
  have h2 : c < 3 := h.2.2.2
  have h3 := h.1
  have h4 := h.2.2.1
  omega

theorem gridLinks_populated : Populated grid gridLinks := by
  intro d c hdc
  obtain ⟨rfl | rfl, rfl | rfl⟩ := grid_cluster hdc
  · exact ⟨⟨1, 1, 1⟩, ⟨1, 1, 2⟩, 1, by decide, Or.inl ⟨rfl, rfl⟩⟩
  · exact ⟨⟨1, 1, 2⟩, ⟨1, 2, 1⟩, 1, by decide, Or.inr ⟨rfl, rfl⟩⟩
  · exact ⟨⟨1, 2, 1⟩, ⟨2, 1, 1⟩, 1, by decide, Or.inr ⟨rfl, rfl⟩⟩
  · exact ⟨⟨2, 1, 1⟩, ⟨2, 2, 1⟩, 1, by decide, Or.inr ⟨rfl, rfl⟩⟩

/-- The link between the clusters of the first domain is reset. -/
theorem hier_lookup_live_grid :
    ∃ t, (gridLinks ++ [Call.reset ⟨1, 1, 2⟩ ⟨1, 2, 1⟩]).foldlM (step grid) hierInit = some t ∧
      ∀ hopcnt : ℕ → ℕ → ℚ, ∃ t', hierCompute grid hopcnt t = some t' ∧
        ∀ src dst, InRange grid src → InRange grid dst →
          ∃ r, lookupHier grid t' src dst = some (.ok r) ∧
            (src = dst → r = some src.text) ∧
            (src ≠ dst → r = none ∨ ∃ b, InRange grid b ∧
              Live (gridLinks ++ [Call.reset ⟨1, 1, 2⟩ ⟨1, 2, 1⟩]) src b ∧ r = some b.text) := by
  have hroom : Room grid := by
    intro d c _
    have hcells : (2 + grid.cmax + 3) * (2 + grid.cmax + 3) < 2 ^ 31 := by decide
    exact hcells
  have hrange : ∀ call ∈ gridLinks ++ [Call.reset ⟨1, 1, 2⟩ ⟨1, 2, 1⟩], call.InRange grid := by
    decide
  have hprepared : Prepared grid (gridLinks ++ [Call.reset ⟨1, 1, 2⟩ ⟨1, 2, 1⟩]) := by
    intro pre a b post he d c hdc _
    rcases append_eq_append_iff.mp he with ⟨more, rfl, -⟩ | ⟨rest, hlinks, hrest⟩
    · obtain ⟨x, y, cost, hmem, htouch⟩ := gridLinks_populated.entered hdc
      exact ⟨x, y, cost, mem_append_left _ hmem, htouch⟩
    · cases rest with
      | nil => exact (append_nil pre ▸ hlinks) ▸ gridLinks_populated.entered hdc
      | cons call rest =>
        rw [cons_append, cons.injEq] at hrest
        have hmem : Call.reset a b ∈ gridLinks := by simp [hlinks, hrest.1]
        simp [gridLinks] at hmem
  obtain ⟨t, hrun, hlookup⟩ := hier_lookup_live hroom hrange hprepared
  refine ⟨t, hrun, hlookup fun d c hdc => ?_⟩
  obtain ⟨a, b, cost, hmem, hends⟩ := gridLinks_populated d c hdc
  exact ⟨a, b, cost, mem_append_left _ hmem, hends⟩

/-! ## A hierarchy of one cluster -/

/-- One domain with one cluster. -/
def small (n : ℕ) : Shape := ⟨2, fun _ => 2, fun _ => n⟩

theorem small_cluster {n d c : ℕ} (h : InCluster (small n) d c) : d = 1 ∧ c = 1 := by
  have h1 : d < 2 := h.2.1
  have h2 : c < 2 := h.2.2.2
  have h3 := h.1
  have h4 := h.2.2.1
  omega

theorem small_inRange {n k : ℕ} (h1 : 1 ≤ k) (h2 : k ≤ n) : InRange (small n) ⟨1, 1, k⟩ :=
  ⟨⟨le_rfl, Nat.one_lt_two, le_rfl, Nat.one_lt_two⟩, h1, h2⟩

/-- The route to yourself needs no link; a reset does not allocate; a matrix of 2^31 cells is not
allocated. -/
theorem own_address_without_link :
    (Populated (small 2) [Call.insert ⟨1, 1, 1⟩ ⟨1, 1, 2⟩ 1] ∧
      InRange (small 2) ⟨1, 1, 1⟩ ∧ InRange (small 2) ⟨1, 1, 2⟩ ∧
      (([Call.insert ⟨1, 1, 1⟩ ⟨1, 1, 2⟩ 1].foldlM (step (small 2)) hierInit).bind
        (hierCompute (small 2) (fun _ _ => 0))).bind
          (fun t => lookupHier (small 2) t ⟨1, 1, 1⟩ ⟨1, 1, 1⟩) = some (.ok (some ⟨0, 0, 0⟩)) ∧
      ¬ Live [Call.insert ⟨1, 1, 1⟩ ⟨1, 1, 2⟩ 1] ⟨1, 1, 1⟩ ⟨1, 1, 1⟩) ∧
    step (small 2) hierInit (.reset ⟨1, 1, 1⟩ ⟨1, 1, 2⟩) = none ∧
    step (small 46340) hierInit (.insert ⟨1, 1, 1⟩ ⟨1, 1, 2⟩ 1) = none := by
  refine ⟨⟨?_, small_inRange le_rfl one_le_two, small_inRange one_le_two le_rfl, ?_, ?_⟩, ?_, ?_⟩
  · intro d c hdc
    obtain ⟨rfl, rfl⟩ := small_cluster hdc
    exact ⟨_, _, _, mem_cons_self, Or.inl ⟨rfl, rfl⟩⟩
  · decide +kernel
  · rintro ⟨pre, cost, post, he, -⟩
    cases pre with
    | nil => simp at he
    | cons _ pre => cases pre <;> simp at he
  · rfl
  · rfl

end NetSim.Hier
